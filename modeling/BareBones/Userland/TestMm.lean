import BareBones.Memory.Allocators
import BareBones.Userland.Cstandard

/-!
# The test of the memory manager

The model of `test_mm.c`, run by any number of processes on one heap.  A round of the test
requests blocks of random sizes until the table is full or the limit is reached, fills each
block with its number, checks that all bytes still have it, and frees the blocks; a byte that
has changed is an error.

The table `mm_rqs` and the other local variables lie on the stack of the process and belong to
it alone, so a step of a process goes from one access to the heap to the next: a system call,
or a byte that is stored or loaded.  The processes take their steps in any order, and so do
others that use the heap properly.  The state of the generator of random numbers, which all
processes share, is left open.

`Local` is what a process that runs the test knows: which blocks it has, and which bytes of them
it has written.  Since the allocators are sound, nobody else touches these, and
**the test never finds an error** (`client_keeps`).  A round gives back all it has taken, so
that the heap is empty again when all processes have finished theirs.

**Key results**

- `passes_on_freeList`: the test passes on the free list, with every limit.
- `passes_on_buddy`: it passes on the buddy system with a limit below the memory that is
  managed.  A draw may be one more than what is left of the limit, and a request that is larger
  than the memory is answered with a block that is too small for it.
-/

namespace BareBones.Userland

open BareBones.Lib BareBones.Userland.Cstandard

/-- `MAX_BLOCKS` -/
def MAX_BLOCKS : Nat := 128

/-- `mm_rq` -/
structure MmRq where
  address : Nat
  size : UInt32

/-- Where a process is in `test_mm_command`. -/
inductive TestMmPC
  /-- At the head of the loop that requests blocks. -/
  | request
  /-- In `mm_memset`, before byte `j` of block `i`. -/
  | memset (i j : Nat)
  /-- In `mm_memcheck`, before byte `j` of block `i`. -/
  | memcheck (i j : Nat)
  /-- Before `sys_free` of block `i`. -/
  | free (i : Nat)
  /-- After the error message, before `sys_free` of block `j`. -/
  | error (j : Nat)
  /-- After `sys_exit`, with the last message. -/
  | exited (message : String)

/-- The message of a test that has found an error. -/
def ERROR : String := "test_mm ERROR\n"

/-- A process that executes `test_mm_command`, with its local variables. -/
structure TestMm where
  max_memory : UInt64
  mm_rqs : Nat → MmRq
  rq : Nat
  total : UInt32
  pc : TestMmPC

/-- A random size. -/
def draw (max_memory : UInt64) (total : UInt32) (rngCurrent : UInt16) : UInt32 :=
  (randomRange 1 (max_memory - total.toUInt64).toInt64 rngCurrent).1.toUInt32

/-- The lower half of a number, by its value as a signed number. -/
theorem toUInt32_toNat (x : UInt64) : (x.toUInt32.toNat : Int) = x.toInt64.toInt % 2 ^ 32 := by
  have hbits : x.toInt64.toInt = x.toBitVec.toInt := rfl
  have hnat : x.toBitVec.toNat = x.toNat := rfl
  rw [UInt64.toNat_toUInt32, hbits, BitVec.toInt_eq_toNat_cond, hnat]
  have := x.toNat_lt
  split <;> omega

/-- The low 32 bits do not see that the offset has been an `int` in between. -/
theorem bmod_emod (v : Nat) :
    (1 + (v : Int).bmod (2 ^ 32)).bmod (2 ^ 64) % 2 ^ 32 = (1 + v) % 2 ^ 32 := by
  have hlow : -2 ^ 31 ≤ (v : Int).bmod (2 ^ 32) := Int.le_bmod (by decide)
  have hhigh : (v : Int).bmod (2 ^ 32) < 2 ^ 31 := Int.bmod_lt (by decide)
  rw [Int.bmod_eq_of_le (by omega) (by omega), Int.bmod_def]
  split <;> omega

/-- A draw is at most one more than what is left of the limit. -/
theorem draw_le {max_memory : UInt64} {total : UInt32} (rngCurrent : UInt16)
    (hlt : total.toUInt64 < max_memory) (hsmall : max_memory.toNat < 2 ^ 32) :
    (draw max_memory total rngCurrent).toNat ≤ max_memory.toNat + 1 := by
  have hlt' : total.toNat < max_memory.toNat := hlt
  obtain ⟨width, hwidth⟩ : ∃ width, width = max_memory.toNat - total.toNat := ⟨_, rfl⟩
  have hsub : (max_memory - total.toUInt64).toNat = width := by
    rw [UInt64.toNat_sub_of_le _ _ (UInt64.le_of_lt hlt), hwidth]
    rfl
  have hmax : (max_memory - total.toUInt64).toInt64.toInt = width := by
    rw [toInt_toInt64 (by omega), hsub]
  have hone : (1 : Int64).toInt = 1 := rfl
  have hle : 1 ≤ (max_memory - total.toUInt64).toInt64 := by
    rw [Int64.le_iff_toInt_le, hmax, hone]
    omega
  have hcount : (max_memory - total.toUInt64).toInt64.toInt - (1 : Int64).toInt + 1 = width := by
    rw [hmax, hone]
    omega
  have hvalue := toInt_randomRange rngCurrent hle hcount (by omega)
  have hscaled : rngCurrent.toNat * width / 65535 ≤ width :=
    scaled_le (Nat.le_of_lt_succ rngCurrent.toNat_lt)
  unfold draw
  generalize (randomRange 1 (max_memory - total.toUInt64).toInt64 rngCurrent).1 = x at hvalue ⊢
  have hdraw := toUInt32_toNat x
  rw [hvalue, hone] at hdraw
  unfold offset at hdraw
  rw [bmod_emod] at hdraw
  generalize x.toUInt32.toNat = size at hdraw ⊢
  generalize rngCurrent.toNat * width / 65535 = v at hdraw hscaled
  clear hvalue hmax
  omega

namespace TestMm

/-- `test_mm_command`, up to its first round; `mm_rqs` is what lies on the stack. -/
def test_mm_command (argv : List (List Char)) (mm_rqs : Nat → MmRq) : TestMm :=
  match argv with
  | [_, arg] =>
      let parsed := stringToInt arg
      if parsed ≤ 0 then ⟨0, mm_rqs, 0, 0, .exited "test_mm: max_memory invalido\n"⟩
      else ⟨parsed.toUInt64, mm_rqs, 0, 0, .request⟩
  | _ => ⟨0, mm_rqs, 0, 0, .exited "Usage: test_mm <max_memory_bytes>\n"⟩

/-- The loop goes on requesting blocks. -/
def wantsMore (t : TestMm) : Prop := t.rq < MAX_BLOCKS ∧ t.total.toUInt64 < t.max_memory

instance (t : TestMm) : Decidable t.wantsMore := inferInstanceAs (Decidable (_ ∧ _))

/-- Byte `j` of block `i` is the next one of a loop over all bytes. -/
def hasByte (t : TestMm) (i j : Nat) : Prop :=
  i < t.rq ∧ (t.mm_rqs i).address ≠ 0 ∧ j < (t.mm_rqs i).size.toNat

instance (t : TestMm) (i j : Nat) : Decidable (t.hasByte i j) := inferInstanceAs (Decidable (_ ∧ _))

/-- What the process does with the heap in its next step. -/
def request (t : TestMm) (rngCurrent : UInt16) : Request :=
  match t.pc with
  | .request =>
      if t.wantsMore then .alloc (draw t.max_memory t.total rngCurrent).toNat else .pause
  | .memset i j =>
      if t.hasByte i j then .store ((t.mm_rqs i).address + j) (UInt8.ofNat i) else .pause
  | .memcheck i j => if t.hasByte i j then .load ((t.mm_rqs i).address + j) else .pause
  | .free i | .error i =>
      if i < t.rq ∧ (t.mm_rqs i).address ≠ 0 then .free (t.mm_rqs i).address else .pause
  | .exited _ => .pause

/-- The process after this step; `answer` is the pointer or the byte that it has got. -/
def resume (t : TestMm) (rngCurrent : UInt16) (answer : Nat) : TestMm :=
  match t.pc with
  | .request =>
      if t.wantsMore then
        let size := draw t.max_memory t.total rngCurrent
        let t := { t with mm_rqs := Function.update t.mm_rqs t.rq ⟨answer, size⟩ }
        if answer ≠ 0 then { t with total := t.total + size, rq := t.rq + 1 } else t
      else { t with pc := .memset 0 0 }
  | .memset i j =>
      if t.hasByte i j then { t with pc := .memset i (j + 1) }
      else if i < t.rq then { t with pc := .memset (i + 1) 0 }
      else { t with pc := .memcheck 0 0 }
  | .memcheck i j =>
      if t.hasByte i j then
        if answer ≠ (UInt8.ofNat i).toNat then { t with pc := .error 0 }
        else { t with pc := .memcheck i (j + 1) }
      else if i < t.rq then { t with pc := .memcheck (i + 1) 0 }
      else { t with pc := .free 0 }
  | .free i =>
      if i < t.rq then { t with pc := .free (i + 1) }
      else { t with rq := 0, total := 0, pc := .request }
  | .error j =>
      if j < t.rq then { t with pc := .error (j + 1) } else { t with pc := .exited ERROR }
  | .exited _ => t

/-- The choices of a step: the state of the generator for a process that runs the test, and the
request of another user. -/
inductive Choice
  | draw (rngCurrent : UInt16)
  | ask (r : Request)

/-- The users of the heap: processes that run the test, and others. -/
def client : Client (Option TestMm) Choice where
  request
    | some t, .draw rngCurrent => t.request rngCurrent
    | none, .ask r => r
    | _, _ => .pause
  resume
    | some t, .draw rngCurrent, answer => some (t.resume rngCurrent answer)
    | u, _, _ => u

/-- The others are polite. -/
def Allowed (ok : Nat → Prop) (h : Extents) : Option TestMm → Choice → Prop
  | none, .ask r => r.Polite ok h
  | _, _ => True

/-! ## What a process knows -/

variable {ok : Nat → Prop} {h h' : Extents} {bytes bytes' : Nat → UInt8} {t : TestMm}
  {first i j answer : Nat} {rngCurrent : UInt16}

/-- The blocks of the table from `first` on are those that the process holds. -/
structure Holds (t : TestMm) (first : Nat) (h : Extents) : Prop where
  address : ∀ i, i < t.rq → (t.mm_rqs i).address ≠ 0
  distinct : ∀ i j, i < t.rq → j < t.rq → (t.mm_rqs i).address = (t.mm_rqs j).address → i = j
  held : ∀ p n, h p = some n ↔
    ∃ i, first ≤ i ∧ i < t.rq ∧ (t.mm_rqs i).address = p ∧ (t.mm_rqs i).size.toNat = n

/-- The first `n` bytes of block `i`, if there are so many, have its number. -/
def Filled (t : TestMm) (bytes : Nat → UInt8) (i n : Nat) : Prop :=
  ∀ j, j < n → j < (t.mm_rqs i).size.toNat → bytes ((t.mm_rqs i).address + j) = UInt8.ofNat i

/-- What a process knows of its blocks and their bytes, depending on where it is. -/
def Knows (t : TestMm) (h : Extents) (bytes : Nat → UInt8) : Prop :=
  match t.pc with
  | .request => t.Holds 0 h
  | .memset i j => t.Holds 0 h ∧ (∀ k, k < i → k < t.rq → ∀ n, t.Filled bytes k n) ∧
      (i < t.rq → t.Filled bytes i j)
  | .memcheck _ _ => t.Holds 0 h ∧ ∀ k, k < t.rq → ∀ n, t.Filled bytes k n
  | .free i => t.Holds i h
  | .error _ => False
  | .exited message => h = .none ∧ message ≠ ERROR

/-- The sizes that a process may draw. -/
def Draws (ok : Nat → Prop) (max_memory : UInt64) : Prop :=
  ∀ (total : UInt32) (rngCurrent : UInt16), total.toUInt64 < max_memory →
    ok (draw max_memory total rngCurrent).toNat

/-- The property of one user that its steps keep. -/
def Local (ok : Nat → Prop) (h : Extents) (bytes : Nat → UInt8) : Option TestMm → Prop
  | some t => Draws ok t.max_memory ∧ t.Knows h bytes
  | none => True

namespace Holds

/-- A byte of the table lies in a block of the process. -/
theorem covers (hh : t.Holds 0 h) (hbyte : t.hasByte i j) :
    h.Covers ((t.mm_rqs i).address + j) := by
  obtain ⟨hi, -, hj⟩ := hbyte
  refine ⟨(t.mm_rqs i).address, (t.mm_rqs i).size.toNat, ?_, Nat.le_add_right .., by omega⟩
  exact (hh.held _ _).mpr ⟨i, Nat.zero_le i, hi, rfl, rfl⟩

/-- The bytes of two blocks lie apart. -/
theorem apart (hh : t.Holds 0 h) (happart : h.Apart) {k l : Nat} (hi : t.hasByte i j)
    (hk : t.hasByte k l) (hne : i ≠ k) : (t.mm_rqs i).address + j ≠ (t.mm_rqs k).address + l := by
  have hhi := (hh.held _ _).mpr ⟨i, Nat.zero_le i, hi.1, rfl, rfl⟩
  have hhk := (hh.held _ _).mpr ⟨k, Nat.zero_le k, hk.1, rfl, rfl⟩
  have haddr : (t.mm_rqs i).address ≠ (t.mm_rqs k).address :=
    fun heq ↦ hne (hh.distinct i k hi.1 hk.1 heq)
  have := happart _ _ _ _ hhi hhk haddr
  have hj := hi.2.2
  have hl := hk.2.2
  omega

/-- The table does not matter beyond its entries. -/
theorem pc (hh : t.Holds first h) (pc : TestMmPC) : ({ t with pc := pc }).Holds first h :=
  ⟨hh.address, hh.distinct, hh.held⟩

/-- A request was refused. -/
theorem refused (hh : t.Holds first h) (entry : MmRq) :
    ({ t with mm_rqs := Function.update t.mm_rqs t.rq entry }).Holds first h := by
  have hsame : ∀ i, i < t.rq → Function.update t.mm_rqs t.rq entry i = t.mm_rqs i :=
    fun i hi ↦ Function.update_of_ne hi.ne _ _
  refine ⟨fun i hi ↦ ?_, fun i j hi hj ↦ ?_, fun p n ↦ ?_⟩
  · dsimp only at hi ⊢
    rw [hsame i hi]
    exact hh.address i hi
  · dsimp only at hi hj ⊢
    rw [hsame i hi, hsame j hj]
    exact hh.distinct i j hi hj
  · dsimp only
    rw [hh.held]
    refine exists_congr fun i ↦ and_congr_right fun _ ↦ and_congr_right fun hi ↦ ?_
    rw [hsame i hi]

/-- A request was granted. -/
theorem granted (hh : t.Holds 0 h) {p : Nat} (hp : p ≠ 0) (hnew : h p = none) (size : UInt32)
    (total : UInt32) : ({ t with
      mm_rqs := Function.update t.mm_rqs t.rq ⟨p, size⟩, total := total, rq := t.rq + 1 }).Holds 0
        (Function.update h p (some size.toNat)) := by
  have hsame : ∀ i, i < t.rq → Function.update t.mm_rqs t.rq ⟨p, size⟩ i = t.mm_rqs i :=
    fun i hi ↦ Function.update_of_ne hi.ne _ _
  have hold : ∀ i, i < t.rq → (t.mm_rqs i).address ≠ p := by
    rintro i hi rfl
    rw [(hh.held _ _).mpr ⟨i, Nat.zero_le i, hi, rfl, rfl⟩] at hnew
    cases hnew
  refine ⟨fun i hi ↦ ?_, fun i j hi hj heq ↦ ?_, fun q n ↦ ?_⟩
  · dsimp only at hi ⊢
    rcases Nat.lt_succ_iff_lt_or_eq.mp hi with hi | rfl
    · rw [hsame i hi]
      exact hh.address i hi
    · rwa [Function.update_self]
  · dsimp only at hi hj heq
    rcases Nat.lt_succ_iff_lt_or_eq.mp hi with hi | rfl
    · rcases Nat.lt_succ_iff_lt_or_eq.mp hj with hj | rfl
      · rw [hsame i hi, hsame j hj] at heq
        exact hh.distinct i j hi hj heq
      · rw [hsame i hi, Function.update_self] at heq
        exact absurd heq (hold i hi)
    · rcases Nat.lt_succ_iff_lt_or_eq.mp hj with hj | rfl
      · rw [hsame j hj, Function.update_self] at heq
        exact absurd heq.symm (hold j hj)
      · rfl
  · dsimp only
    constructor
    · intro hq
      by_cases hqp : q = p
      · subst hqp
        rw [Function.update_self] at hq
        refine ⟨t.rq, Nat.zero_le _, Nat.lt_succ_self _, ?_, ?_⟩
        · rw [Function.update_self]
        · rw [Function.update_self]
          exact Option.some.inj hq
      · rw [Function.update_of_ne hqp] at hq
        obtain ⟨i, hle, hi, hrest⟩ := (hh.held q n).mp hq
        exact ⟨i, hle, Nat.lt_succ_of_lt hi, by rwa [hsame i hi]⟩
    · rintro ⟨i, hle, hi, haddr, hsize⟩
      rcases Nat.lt_succ_iff_lt_or_eq.mp hi with hi | rfl
      · rw [hsame i hi] at haddr hsize
        rw [Function.update_of_ne (haddr ▸ hold i hi)]
        exact (hh.held q n).mpr ⟨i, hle, hi, haddr, hsize⟩
      · rw [Function.update_self] at haddr hsize
        rw [← haddr, Function.update_self, ← hsize]

/-- A block is freed. -/
theorem freed (hh : t.Holds i h) (hi : i < t.rq) :
    t.Holds (i + 1) (Function.update h (t.mm_rqs i).address none) := by
  refine ⟨hh.address, hh.distinct, fun p n ↦ ?_⟩
  constructor
  · intro hp
    by_cases hpi : p = (t.mm_rqs i).address
    · rw [hpi, Function.update_self] at hp
      cases hp
    · rw [Function.update_of_ne hpi] at hp
      obtain ⟨k, hle, hk, haddr, hsize⟩ := (hh.held p n).mp hp
      refine ⟨k, Nat.lt_of_le_of_ne hle ?_, hk, haddr, hsize⟩
      rintro rfl
      exact hpi haddr.symm
  · rintro ⟨k, hle, hk, haddr, hsize⟩
    have hpi : p ≠ (t.mm_rqs i).address := by
      rintro rfl
      exact absurd (hh.distinct k i hk hi haddr) (by omega)
    rw [Function.update_of_ne hpi]
    exact (hh.held p n).mpr ⟨k, Nat.le_of_succ_le hle, hk, haddr, hsize⟩

/-- Nothing is left. -/
theorem eq_none (hh : t.Holds first h) (hle : t.rq ≤ first) : h = .none := by
  funext p
  by_contra hne
  obtain ⟨n, hn⟩ := Option.ne_none_iff_exists'.mp hne
  obtain ⟨i, hi, hlt, -⟩ := (hh.held p n).mp hn
  omega

/-- An empty table. -/
theorem of_none (hrq : t.rq = 0) : t.Holds 0 .none := by
  refine ⟨fun i hi ↦ ?_, fun i j hi ↦ ?_, fun p n ↦ iff_of_false (fun hp ↦ by cases hp) ?_⟩
  · omega
  · omega
  · rintro ⟨i, -, hi, -⟩
    omega

end Holds

/-! ## Steps -/

/-- Storing one byte of a block leaves the others as they are. -/
theorem Filled.store (hf : t.Filled bytes i first) (hh : t.Holds 0 h) (happart : h.Apart)
    {k l : Nat} (hk : t.hasByte k l) (hi : i < t.rq) (hne : i ≠ k) (byte : UInt8) :
    t.Filled (Function.update bytes ((t.mm_rqs k).address + l) byte) i first := by
  intro j hj hsize
  rw [Function.update_of_ne (hh.apart happart ⟨hi, hh.address i hi, hsize⟩ hk hne)]
  exact hf j hj hsize

/-- The byte that is stored is the next one of its block. -/
theorem Filled.next (hf : t.Filled bytes i j) :
    t.Filled (Function.update bytes ((t.mm_rqs i).address + j) (UInt8.ofNat i)) i (j + 1) := by
  intro k hk hsize
  by_cases hkj : k = j
  · rw [hkj, Function.update_self]
  · rw [Function.update_of_ne (by omega)]
    exact hf k (by omega) hsize

/-- A loop over the bytes of a block ends after the last one. -/
theorem Filled.all (hh : t.Holds 0 h) (hf : t.Filled bytes i j) (hi : i < t.rq)
    (hend : ¬t.hasByte i j) (n : Nat) : t.Filled bytes i n := by
  intro k hk hsize
  refine hf k ?_ hsize
  by_contra hle
  exact hend ⟨hi, hh.address i hi, by omega⟩

/-- What a process knows is about its own bytes. -/
theorem Knows.own (hk : t.Knows h bytes) (hsame : ∀ a, h.Covers a → bytes' a = bytes a) :
    t.Knows h bytes' := by
  have hfilled : ∀ {k n}, t.Holds 0 h → k < t.rq → t.Filled bytes k n → t.Filled bytes' k n := by
    intro k n hh hk hf j hj hsize
    rw [hsame _ (hh.covers ⟨hk, hh.address k hk, hsize⟩)]
    exact hf j hj hsize
  cases hpc : t.pc <;> simp only [Knows, hpc] at hk ⊢
  case request => exact hk
  case memset i j =>
      obtain ⟨hh, hbefore, hnow⟩ := hk
      exact ⟨hh, fun k hki hk n ↦ hfilled hh hk (hbefore k hki hk n),
        fun hi ↦ hfilled hh hi (hnow hi)⟩
  case memcheck => exact ⟨hk.1, fun k hlt n ↦ hfilled hk.1 hlt (hk.2 k hlt n)⟩
  case free => exact hk
  case exited => exact hk

/-- Every request of the test is polite. -/
theorem Knows.polite (hk : t.Knows h bytes) (hdraws : Draws ok t.max_memory) (rngCurrent : UInt16) :
    (t.request rngCurrent).Polite ok h := by
  cases hpc : t.pc <;> simp only [Knows, hpc] at hk <;> simp only [request, hpc]
  case request =>
      split
      next hmore => exact hdraws _ _ hmore.2
      next => trivial
  case memset i j =>
      split
      next hbyte => exact hk.1.covers hbyte
      next => trivial
  case memcheck i j =>
      split
      next hbyte => exact hk.1.covers hbyte
      next => trivial
  case free i =>
      split
      next hi =>
          have hheld := (hk.held _ _).mpr ⟨i, le_rfl, hi.1, rfl, rfl⟩
          simp [Request.Polite, hheld]
      next => trivial
  case exited => trivial

/-- **A step of the test**, with the answer that the heap gives. -/
theorem Knows.step (hk : t.Knows h bytes) (happart : h.Apart)
    (heffect : (t.request rngCurrent).Effect h bytes answer h' bytes') :
    (t.resume rngCurrent answer).Knows h' bytes' := by
  cases hpc : t.pc <;> simp only [Knows, hpc] at hk <;> simp only [request, hpc] at heffect <;>
    simp only [resume, hpc]
  case request =>
      split at heffect
      next hmore =>
          rw [if_pos hmore]
          cases heffect with
          | refused =>
              rw [if_neg (by simp)]
              simp only [Knows]
              exact (hk.refused _).pc _
          | granted n hp hnew =>
              rw [if_pos hp]
              simp only [Knows]
              exact (hk.granted hp hnew _ _).pc _
      next hmore =>
          rw [if_neg hmore]
          cases heffect
          simp only [Knows]
          refine ⟨hk.pc _, fun k hk ↦ absurd hk (Nat.not_lt_zero k), fun _ j hj ↦ ?_⟩
          exact absurd hj (Nat.not_lt_zero j)
  case memset i j =>
      obtain ⟨hh, hbefore, hnow⟩ := hk
      split at heffect
      next hbyte =>
          rw [if_pos hbyte]
          cases heffect
          simp only [Knows]
          refine ⟨hh.pc _, fun k hki hlt n ↦ ?_, fun hi ↦ (hnow hi).next⟩
          exact (hbefore k hki hlt n).store hh happart hbyte hlt (Nat.ne_of_lt hki) _
      next hbyte =>
          rw [if_neg hbyte]
          cases heffect
          split
          next hi =>
              simp only [Knows]
              refine ⟨hh.pc _, fun k hki hlt n ↦ ?_, fun _ j hj ↦ absurd hj (Nat.not_lt_zero j)⟩
              rcases Nat.lt_succ_iff_lt_or_eq.mp hki with hki | rfl
              · exact hbefore k hki hlt n
              · exact (hnow hi).all hh hi hbyte n
          next hi =>
              simp only [Knows]
              exact ⟨hh.pc _, fun k hlt n ↦ hbefore k (by omega) hlt n⟩
  case memcheck i j =>
      obtain ⟨hh, hall⟩ := hk
      split at heffect
      next hbyte =>
          rw [if_pos hbyte]
          cases heffect
          -- the byte is the one that the process has stored
          have hvalue := hall i hbyte.1 (j + 1) j (Nat.lt_succ_self j) hbyte.2.2
          rw [hvalue, if_neg (by simp)]
          simp only [Knows]
          exact ⟨hh.pc _, hall⟩
      next hbyte =>
          rw [if_neg hbyte]
          cases heffect
          split
          next => exact ⟨hh.pc _, hall⟩
          next => exact hh.pc _
  case free i =>
      split at heffect
      next hi =>
          rw [if_pos hi.1]
          cases heffect
          exact (hk.freed hi.1).pc _
      next hi =>
          cases heffect
          have hend : ¬i < t.rq := fun hlt ↦ hi ⟨hlt, hk.address i hlt⟩
          rw [if_neg hend]
          simp only [Knows]
          rw [hk.eq_none (by omega)]
          exact .of_none rfl
  case exited message =>
      cases heffect
      simp only [Knows, hpc]
      exact hk

theorem resume_max_memory (t : TestMm) (rngCurrent : UInt16) (answer : Nat) :
    (t.resume rngCurrent answer).max_memory = t.max_memory := by
  cases hpc : t.pc <;> simp only [resume, hpc] <;> (repeat' split) <;> rfl

/-- **The test keeps what it knows**, whatever the others do. -/
theorem client_keeps (ok : Nat → Prop) : client.Keeps ok (Allowed ok) (Local ok) where
  own {h bytes bytes' u} hlocal hsame := by
    cases u with
    | none => trivial
    | some t => exact ⟨hlocal.1, hlocal.2.own hsame⟩
  polite {h bytes u x} hlocal hallowed := by
    cases u with
    | none =>
        cases x with
        | draw rngCurrent => trivial
        | ask r => exact hallowed
    | some t =>
        cases x with
        | draw rngCurrent => exact hlocal.2.polite hlocal.1 rngCurrent
        | ask r => trivial
  step {h h' bytes bytes' u x answer} hlocal hallowed happart _ heffect := by
    cases u with
    | none =>
        cases x with
        | draw rngCurrent => trivial
        | ask r => trivial
    | some t =>
        cases x with
        | draw rngCurrent =>
            refine ⟨?_, hlocal.2.step happart heffect⟩
            rw [resume_max_memory]
            exact hlocal.1
        | ask r =>
            cases heffect
            exact hlocal

/-! ## Runs -/

/-- The test has found no error so far, and a process that begins a round holds nothing. -/
structure Passes {σ ι : Type} (s : Tenants σ ι (Option TestMm)) : Prop where
  no_error : ∀ i t, s.users i = some t → (∀ j, t.pc ≠ .error j) ∧ t.pc ≠ .exited ERROR
  returned : ∀ i t, s.users i = some t → t.pc = .request → t.rq = 0 → s.arena.held i = .none

theorem passes_of_all {σ ι : Type} {s : Tenants σ ι (Option TestMm)}
    (hall : Client.Keeps.All (Local ok) s) : Passes s := by
  have hknows : ∀ i t, s.users i = some t → t.Knows (s.arena.held i) s.arena.bytes := by
    intro i t ht
    have hlocal := hall i
    rw [ht] at hlocal
    exact hlocal.2
  refine ⟨fun i t ht ↦ ⟨fun j hpc ↦ ?_, fun hpc ↦ ?_⟩, fun i t ht hpc hrq ↦ ?_⟩
  · have hk := hknows i t ht
    simp only [Knows, hpc] at hk
  · have hk := hknows i t ht
    simp only [Knows, hpc] at hk
    exact hk.2 rfl
  · have hk := hknows i t ht
    simp only [Knows, hpc] at hk
    exact hk.eq_none hrq.le

/-- Users at the beginning: `tests i` are the arguments of the test that the process `i` runs, if
it runs the test. -/
def users {ι : Type} (tests : ι → Option (List (List Char))) (mm_rqs : ι → Nat → MmRq) (i : ι) :
    Option TestMm := (tests i).map fun argv ↦ test_mm_command argv (mm_rqs i)

theorem knows_start (argv : List (List Char)) (mm_rqs : Nat → MmRq) (bytes : Nat → UInt8) :
    (test_mm_command argv mm_rqs).Knows .none bytes := by
  have hexit : ∀ message, message ≠ ERROR →
      (⟨0, mm_rqs, 0, 0, .exited message⟩ : TestMm).Knows .none bytes :=
    fun message hne ↦ ⟨rfl, hne⟩
  unfold test_mm_command
  split
  · dsimp only
    split
    · exact hexit _ (by decide)
    · exact .of_none rfl
  · exact hexit _ (by decide)

/-- Nobody holds a block, so none is in use. -/
theorem inv_none {σ ι : Type} {I : σ → Extents → Prop} {s : Arena σ ι} {m : Extents}
    (hinv : s.Inv I m) (hnone : ∀ i, s.held i = .none) : I s.heap .none := by
  have hm : m = .none := by
    funext p
    by_contra hp
    obtain ⟨i, hi⟩ := hinv.owned hp
    rw [hnone i] at hi
    exact hi rfl
  exact hm ▸ hinv.blocks

/-- Every size of 32 bits can be rounded. -/
theorem draws_freeList (max_memory : UInt64) :
    Draws (· ≤ 2 ^ 64 - Memory.FreeList.ALIGNMENT) max_memory := by
  intro total rngCurrent _
  have hlt := (draw max_memory total rngCurrent).toNat_lt
  exact hlt.le.trans (by decide)

/-- A limit below the memory that is managed keeps every draw within it. -/
theorem draws_buddy {k : Nat} {max_memory : UInt64} (hlimit : max_memory.toNat < 2 ^ k) :
    Draws (· ≤ 2 ^ k) max_memory := by
  intro total rngCurrent hlt
  by_cases hsmall : max_memory.toNat < 2 ^ 32
  · exact (draw_le rngCurrent hlt hsmall).trans hlimit
  · have hdraw := (draw max_memory total rngCurrent).toNat_lt
    exact (hdraw.le.trans (Nat.le_of_not_lt hsmall)).trans hlimit.le

/-- **The test passes on the free list**, run by any number of processes with any limits, among
any other users of the heap.  When all blocks have been given back, the heap is one free
block again. -/
theorem passes_on_freeList {start size : Nat} (hr : Memory.FreeList.Region start size)
    (mem : Nat → Memory.FreeList.Block) (bytes : Nat → UInt8) {ι : Type} [DecidableEq ι]
    (tests : ι → Option (List (List Char))) (mm_rqs : ι → Nat → MmRq)
    {s : Tenants Memory.FreeList.Heap ι (Option TestMm)}
    (h : Reach (Tenants.step Memory.FreeList.allocator client)
      (fun s e ↦ Allowed (· ≤ 2 ^ 64 - Memory.FreeList.ALIGNMENT) (s.arena.held e.1) (s.users e.1)
        e.2)
      (.init (Memory.FreeList.mem_init mem start size) bytes (users tests mm_rqs)) s) :
    Passes s ∧ ((∀ i, s.arena.held i = .none) →
      s.arena.heap.mem start = ⟨size - Memory.FreeList.HEADER_SIZE, true, 0, 0⟩) := by
  obtain ⟨⟨m, hinv⟩, hall⟩ := (client_keeps _).reach (Memory.FreeList.sound hr)
    (Memory.FreeList.uses_init hr mem) (fun i ↦ by
      unfold users
      cases tests i with
      | none => trivial
      | some argv => exact ⟨draws_freeList _, knows_start argv (mm_rqs i) bytes⟩) h
  exact ⟨passes_of_all hall, fun hnone ↦ (inv_none hinv hnone).drained hr⟩

/-- A step of the test itself is always allowed. -/
theorem allowed_draw (u : Option TestMm) : Allowed ok h u (.draw rngCurrent) := by
  cases u with
  | none => trivial
  | some t => trivial

/-- A run in which only processes that run the test take steps. -/
theorem reach_of_run {σ ι : Type} [DecidableEq ι] {A : Allocator σ}
    {s s' : Tenants σ ι (Option TestMm)} {es : List (ι × UInt16)}
    (hrun : run (Tenants.step A client) s (es.map fun e ↦ (e.1, .draw e.2)) = some s') :
    Reach (Tenants.step A client)
      (fun s e ↦ Allowed ok (s.arena.held e.1) (s.users e.1) e.2) s s' := by
  have hguard : Guarded (Tenants.step A client) (fun _ e ↦ ∃ rngCurrent, e.2 = .draw rngCurrent) s
      (es.map fun e ↦ (e.1, .draw e.2)) := by
    have hdraws : ∀ e ∈ es.map fun e ↦ (e.1, Choice.draw e.2),
        ∃ rngCurrent, e.2 = .draw rngCurrent := by
      intro e he
      obtain ⟨e', -, rfl⟩ := List.mem_map.mp he
      exact ⟨_, rfl⟩
    exact .of_forall hdraws s
  refine (Reach.of_run hrun hguard).mono ?_
  rintro s ⟨i, x⟩ ⟨rngCurrent, rfl⟩
  exact allowed_draw _

/-- Two processes on a heap of 256 bytes: one fills its block while the other one requests. -/
theorem passes_on_freeList_two : ∃ s : Tenants Memory.FreeList.Heap Bool (Option TestMm),
    (s.arena.held true 0x1020 = some 40 ∧ s.arena.held false 0x1068 = some 11) ∧ Passes s ∧
      ((∀ i, s.arena.held i = .none) → s.arena.heap.mem 0x1000 =
        ⟨256 - Memory.FreeList.HEADER_SIZE, true, 0, 0⟩) := by
  have hrun : (run (Tenants.step Memory.FreeList.allocator client)
      (.init (Memory.FreeList.mem_init (fun _ ↦ ⟨0, false, 0, 0⟩) 0x1000 256) (fun _ ↦ 0)
        (users (fun _ : Bool ↦ some ["test_mm".toList, "40".toList]) fun _ _ ↦ ⟨0, 0⟩))
      ([(true, 0xFFFE), (true, 0), (true, 0), (false, 0x4000)].map fun e ↦ (e.1, .draw e.2))).map
        (fun s ↦ decide (s.arena.held true 0x1020 = some 40 ∧
          s.arena.held false 0x1068 = some 11)) =
      some true := by decide +kernel
  obtain ⟨s, hrun, hheld⟩ := Option.map_eq_some_iff.mp hrun
  exact ⟨s, of_decide_eq_true hheld, passes_on_freeList
    ⟨by decide, by decide, by decide, by decide, by decide⟩ _ _ _ _ (reach_of_run hrun)⟩

/-- **The test passes on the buddy system** if every limit is below the memory that is
managed. -/
theorem passes_on_buddy {start size : Nat} (hr : Memory.Buddy.Region start size)
    (nodes : Int → Memory.Buddy.BuddyNode) (rootIndex : Int) (bytes : Nat → UInt8) {ι : Type}
    [DecidableEq ι] (tests : ι → Option (List (List Char))) (mm_rqs : ι → Nat → MmRq)
    (hlimit : ∀ i argv, tests i = some argv → (test_mm_command argv (mm_rqs i)).max_memory.toNat <
      2 ^ (Memory.Buddy.mem_init nodes rootIndex start size).maxOrder)
    {s : Tenants Memory.Buddy.Manager ι (Option TestMm)}
    (h : Reach (Tenants.step Memory.Buddy.allocator client)
      (fun s e ↦ Allowed (· ≤ 2 ^ (Memory.Buddy.mem_init nodes rootIndex start size).maxOrder)
        (s.arena.held e.1) (s.users e.1) e.2)
      (.init (Memory.Buddy.mem_init nodes rootIndex start size) bytes (users tests mm_rqs)) s) :
    Passes s := by
  obtain ⟨-, hall⟩ := (client_keeps _).reach (Memory.Buddy.sound hr _)
    (Memory.Buddy.uses_init hr nodes rootIndex) (fun i ↦ by
      unfold users
      cases hi : tests i with
      | none => trivial
      | some argv => exact ⟨draws_buddy (hlimit i argv hi), knows_start argv (mm_rqs i) bytes⟩) h
  exact passes_of_all hall

/-- Two processes on 256 bytes that the buddy system manages. -/
theorem passes_on_buddy_two : ∃ s : Tenants Memory.Buddy.Manager Bool (Option TestMm),
    (s.arena.held true 0x1000 = some 40 ∧ s.arena.held false 0x1040 = some 11) ∧ Passes s := by
  have hrun : (run (Tenants.step Memory.Buddy.allocator client)
      (.init (Memory.Buddy.mem_init Memory.Buddy.blank 0 0x1000 256) (fun _ ↦ 0)
        (users (fun _ : Bool ↦ some ["test_mm".toList, "40".toList]) fun _ _ ↦ ⟨0, 0⟩))
      ([(true, 0xFFFE), (true, 0), (true, 0), (false, 0x4000)].map fun e ↦ (e.1, .draw e.2))).map
        (fun s ↦ decide (s.arena.held true 0x1000 = some 40 ∧
          s.arena.held false 0x1040 = some 11)) =
      some true := by decide +kernel
  obtain ⟨s, hrun, hheld⟩ := Option.map_eq_some_iff.mp hrun
  refine ⟨s, of_decide_eq_true hheld, passes_on_buddy
    ⟨by decide, by decide, by decide, by decide⟩ _ _ _ _ _ ?_ (reach_of_run hrun)⟩
  intro i argv hargv
  obtain rfl := Option.some.inj hargv
  decide +kernel

end TestMm

end BareBones.Userland
