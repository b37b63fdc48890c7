import BareBones.Lib.Run
import Mathlib.Logic.Function.Basic

/-!
# A heap that several users share

An `Allocator` hands out blocks of memory by their addresses.  It is `Sound` for an invariant
that relates its states to the blocks in use if blocks never overlap, a request is refused or
answered with a block that is large enough, and the other blocks stay as they are.

An `Arena` is such a heap together with its bytes.  Its users make requests one at a time, in
any order, and a user is *polite* if it loads, stores and frees only what it holds.  Polite
users do not disturb each other: a request changes neither the blocks nor the bytes of
anybody else (`Arena.Inv.serve`).  So each user may be reasoned about alone:
**a property of one user, its blocks and the bytes in them, which the steps of this user keep,
holds in every interleaving with other polite users** (`Client.Keeps.reach`).
-/

namespace BareBones.Lib

universe u v w x

/-- An allocator with states in `σ`.  The answer to a request is the address of a block, or
`0`; a call that does not return is `none`. -/
structure Allocator (σ : Type u) where
  alloc : σ → Nat → Option (σ × Nat)
  free : σ → Nat → Option σ

/-- Blocks of memory: the number of bytes of the block at an address. -/
abbrev Extents := Nat → Option Nat

namespace Extents

/-- No block. -/
def none : Extents := fun _ ↦ .none

/-- No two blocks overlap. -/
def Apart (m : Extents) : Prop :=
  ∀ p q a b, m p = some a → m q = some b → p ≠ q → p + a ≤ q ∨ q + b ≤ p

/-- The address lies in one of the blocks. -/
def Covers (m : Extents) (a : Nat) : Prop := ∃ p n, m p = some n ∧ p ≤ a ∧ a < p + n

end Extents

/-- The allocator does its work for requests of the sizes `ok`, as long as only blocks in use
are freed: `I s m` says that `m` are the blocks in use in the state `s`. -/
structure Allocator.Sound {σ : Type u} (A : Allocator σ) (ok : Nat → Prop)
    (I : σ → Extents → Prop) : Prop where
  nonnull : ∀ {s m}, I s m → m 0 = none
  apart : ∀ {s m}, I s m → m.Apart
  alloc : ∀ {s m n}, I s m → ok n → ∃ s' p, A.alloc s n = some (s', p) ∧
    (p = 0 ∧ I s' m ∨ m p = none ∧ ∃ a, n ≤ a ∧ I s' (Function.update m p (some a)))
  free : ∀ {s m p}, I s m → m p ≠ none → ∃ s', A.free s p = some s' ∧
    I s' (Function.update m p none)

/-! ## Requests -/

/-- What a user asks for. -/
inductive Request
  | alloc (size : Nat)
  | free (ptr : Nat)
  | load (a : Nat)
  | store (a : Nat) (byte : UInt8)
  /-- Nothing. -/
  | pause
deriving DecidableEq, Repr

namespace Request

/-- A user that holds the blocks `h` may ask for this. -/
def Polite (ok : Nat → Prop) (h : Extents) : Request → Prop
  | .alloc n => ok n
  | .free p => h p ≠ none
  | .load a | .store a _ => h.Covers a
  | .pause => True

/-- What a user sees of its request: the answer, its blocks and the bytes. -/
inductive Effect (h : Extents) (bytes : Nat → UInt8) :
    Request → Nat → Extents → (Nat → UInt8) → Prop
  | refused (n : Nat) : Effect h bytes (.alloc n) 0 h bytes
  | granted (n : Nat) {p : Nat} (hp : p ≠ 0) (hnew : h p = none) :
      Effect h bytes (.alloc n) p (Function.update h p (some n)) bytes
  | free (p : Nat) : Effect h bytes (.free p) 0 (Function.update h p none) bytes
  | load (a : Nat) : Effect h bytes (.load a) (bytes a).toNat h bytes
  | store (a : Nat) (byte : UInt8) :
      Effect h bytes (.store a byte) 0 h (Function.update bytes a byte)
  | pause : Effect h bytes .pause 0 h bytes

end Request

/-- A heap with its bytes.  What each user holds, with the sizes that it has asked for, is
history. -/
structure Arena (σ : Type u) (ι : Type v) where
  heap : σ
  bytes : Nat → UInt8
  held : ι → Extents

namespace Arena

variable {σ : Type u} {ι : Type v} [DecidableEq ι] {A : Allocator σ} {ok : Nat → Prop}
  {I : σ → Extents → Prop} {s : Arena σ ι} {i : ι}

/-- The allocator is in the state `heap`, and the user `i` holds `h`. -/
def hold (s : Arena σ ι) (heap : σ) (i : ι) (h : Extents) : Arena σ ι :=
  { s with heap := heap, held := Function.update s.held i h }

theorem hold_self (s : Arena σ ι) (heap : σ) (i : ι) (h : Extents) :
    (s.hold heap i h).held i = h := Function.update_self ..

/-- A request of the user `i`, and its answer. -/
def serve (A : Allocator σ) (s : Arena σ ι) (i : ι) : Request → Option (Arena σ ι × Nat)
  | .alloc n => (A.alloc s.heap n).map fun a ↦
      (if a.2 = 0 then { s with heap := a.1 }
        else s.hold a.1 i (Function.update (s.held i) a.2 (some n)), a.2)
  | .free p => (A.free s.heap p).map fun heap ↦
      (s.hold heap i (Function.update (s.held i) p none), 0)
  | .load a => some (s, (s.bytes a).toNat)
  | .store a byte => some ({ s with bytes := Function.update s.bytes a byte }, 0)
  | .pause => some (s, 0)

/-- The blocks in use are what the users hold: each belongs to one user, and has at least the
size that this user has asked for. -/
structure Inv (I : σ → Extents → Prop) (s : Arena σ ι) (m : Extents) : Prop where
  blocks : I s.heap m
  enough : ∀ {i p n}, s.held i p = some n → ∃ a, n ≤ a ∧ m p = some a
  unshared : ∀ {i j p}, s.held i p ≠ none → s.held j p ≠ none → i = j
  owned : ∀ {p}, m p ≠ none → ∃ i, s.held i p ≠ none

namespace Inv

variable {m : Extents}

omit [DecidableEq ι] in
/-- The blocks of two users, or two blocks of one user, do not overlap. -/
theorem disjoint (hA : A.Sound ok I) (h : Inv I s m) {j : ι} {p q n k : Nat}
    (hp : s.held i p = some n) (hq : s.held j q = some k) (hne : p ≠ q) :
    p + n ≤ q ∨ q + k ≤ p := by
  obtain ⟨a, hn, ha⟩ := h.enough hp
  obtain ⟨b, hk, hb⟩ := h.enough hq
  have := hA.apart h.blocks p q a b ha hb hne
  omega

theorem apart (hA : A.Sound ok I) (h : Inv I s m) (i : ι) : (s.held i).Apart :=
  fun _ _ _ _ hp hq hne ↦ h.disjoint hA hp hq hne

/-- No byte belongs to two users. -/
theorem covers_unshared (hA : A.Sound ok I) (h : Inv I s m) {j : ι} {a : Nat}
    (hi : (s.held i).Covers a) (hj : (s.held j).Covers a) : i = j := by
  obtain ⟨p, n, hp, hpa, hap⟩ := hi
  obtain ⟨q, k, hq, hqa, haq⟩ := hj
  by_cases hpq : p = q
  · subst hpq
    exact h.unshared (p := p) (by simp [hp]) (by simp [hq])
  · have := h.disjoint hA hp hq hpq
    omega

/-- The allocator grants the user `i` a block. -/
theorem grant (h : Inv I s m) {heap : σ} {p n a : Nat} (hnew : m p = none)
    (hn : n ≤ a) (hblocks : I heap (Function.update m p (some a))) :
    Inv I (s.hold heap i (Function.update (s.held i) p (some n)))
      (Function.update m p (some a)) := by
  have hfree : ∀ j, s.held j p = none := by
    intro j
    by_contra hheld
    obtain ⟨k, hk⟩ := Option.ne_none_iff_exists'.mp hheld
    obtain ⟨b, -, hb⟩ := h.enough hk
    rw [hnew] at hb
    cases hb
  -- the table of what is held differs at one place only
  have hheld : ∀ j q, (s.hold heap i (Function.update (s.held i) p (some n))).held j q =
      if j = i ∧ q = p then some n else s.held j q := by
    intro j q
    unfold hold
    dsimp only
    by_cases hj : j = i
    · subst hj
      by_cases hq : q = p
      · subst hq
        simp
      · simp [hq]
    · simp [hj]
  refine ⟨hblocks, ?_, ?_, ?_⟩
  · intro j q k hk
    rw [hheld] at hk
    split at hk
    next heq =>
        obtain rfl := Option.some.inj hk
        exact ⟨a, hn, by rw [heq.2, Function.update_self]⟩
    next heq =>
        obtain ⟨b, hb, hm⟩ := h.enough hk
        have hq : q ≠ p := by
          rintro rfl
          rw [hnew] at hm
          cases hm
        exact ⟨b, hb, by rw [Function.update_of_ne hq, hm]⟩
  · intro j k q hj hk
    rw [hheld] at hj hk
    split at hj
    next heq =>
        split at hk
        next heq' => exact heq.1.trans heq'.1.symm
        next heq' =>
            rw [heq.2, hfree] at hk
            exact absurd rfl hk
    next heq =>
        split at hk
        next heq' =>
            rw [heq'.2, hfree] at hj
            exact absurd rfl hj
        next heq' => exact h.unshared hj hk
  · intro q hq
    by_cases hqp : q = p
    · exact ⟨i, by rw [hheld, if_pos ⟨rfl, hqp⟩]; simp⟩
    · rw [Function.update_of_ne hqp] at hq
      obtain ⟨j, hj⟩ := h.owned hq
      exact ⟨j, by rwa [hheld, if_neg fun heq ↦ hqp heq.2]⟩

/-- The user `i` gives up a block. -/
theorem release (h : Inv I s m) {heap : σ} {p : Nat}
    (hmine : s.held i p ≠ none) (hblocks : I heap (Function.update m p none)) :
    Inv I (s.hold heap i (Function.update (s.held i) p none)) (Function.update m p none) := by
  have hheld : ∀ {j q k}, (s.hold heap i (Function.update (s.held i) p none)).held j q = some k →
      q ≠ p ∧ s.held j q = some k := by
    intro j q k hk
    unfold hold at hk
    dsimp only at hk
    by_cases hj : j = i
    · subst hj
      rw [Function.update_self] at hk
      by_cases hq : q = p
      · subst hq
        simp at hk
      · rw [Function.update_of_ne hq] at hk
        exact ⟨hq, hk⟩
    · rw [Function.update_of_ne hj] at hk
      refine ⟨?_, hk⟩
      rintro rfl
      exact hj (h.unshared (by simp [hk]) hmine)
  have hkept : ∀ {j q}, q ≠ p → s.held j q ≠ none →
      (s.hold heap i (Function.update (s.held i) p none)).held j q ≠ none := by
    intro j q hq hj
    unfold hold
    dsimp only
    by_cases hji : j = i
    · subst hji
      rwa [Function.update_self, Function.update_of_ne hq]
    · rwa [Function.update_of_ne hji]
  refine ⟨hblocks, ?_, ?_, ?_⟩
  · intro j q k hk
    obtain ⟨hq, hk⟩ := hheld hk
    obtain ⟨a, ha, hm⟩ := h.enough hk
    exact ⟨a, ha, by rw [Function.update_of_ne hq, hm]⟩
  · intro j k q hj hk
    obtain ⟨a, ha⟩ := Option.ne_none_iff_exists'.mp hj
    obtain ⟨b, hb⟩ := Option.ne_none_iff_exists'.mp hk
    exact h.unshared (p := q) (by simp [(hheld ha).2]) (by simp [(hheld hb).2])
  · intro q hq
    have hqp : q ≠ p := by
      rintro rfl
      simp at hq
    rw [Function.update_of_ne hqp] at hq
    obtain ⟨j, hj⟩ := h.owned hq
    exact ⟨j, hkept hqp hj⟩

/-- **A polite request disturbs nobody else.**  It is served, and neither the blocks nor the
bytes of another user change. -/
theorem serve (hA : A.Sound ok I) (h : Inv I s m) {r : Request}
    (hpolite : r.Polite ok (s.held i)) :
    ∃ s' answer m', s.serve A i r = some (s', answer) ∧ Inv I s' m' ∧
      r.Effect (s.held i) s.bytes answer (s'.held i) s'.bytes ∧
      ∀ j, j ≠ i → s'.held j = s.held j ∧ ∀ a, (s.held j).Covers a → s'.bytes a = s.bytes a := by
  cases r with
  | alloc n =>
      obtain ⟨heap, p, hcall, ⟨rfl, hblocks⟩ | ⟨hnew, a, hn, hblocks⟩⟩ := hA.alloc h.blocks hpolite
      · refine ⟨{ s with heap := heap }, 0, m, by simp [Arena.serve, hcall], ?_, .refused n,
          fun j _ ↦ ⟨rfl, fun _ _ ↦ rfl⟩⟩
        exact ⟨hblocks, h.enough, h.unshared, h.owned⟩
      · have hp : p ≠ 0 := by
          rintro rfl
          have hnull := hA.nonnull hblocks
          simp at hnull
        have hmine : s.held i p = none := by
          by_contra hheld
          obtain ⟨k, hk⟩ := Option.ne_none_iff_exists'.mp hheld
          obtain ⟨b, -, hb⟩ := h.enough hk
          rw [hnew] at hb
          cases hb
        refine ⟨_, p, _, by simp only [Arena.serve, hcall, Option.map_some, if_neg hp],
          h.grant (i := i) hnew hn hblocks, ?_, fun j hj ↦ ⟨?_, fun _ _ ↦ rfl⟩⟩
        · have heffect : Request.Effect (s.held i) s.bytes (.alloc n) p _ s.bytes :=
            .granted n hp hmine
          rwa [← hold_self s heap i (Function.update (s.held i) p (some n))] at heffect
        · exact Function.update_of_ne hj _ _
  | free p =>
      obtain ⟨k, hk⟩ := Option.ne_none_iff_exists'.mp hpolite
      obtain ⟨a, -, ha⟩ := h.enough hk
      obtain ⟨heap, hcall, hblocks⟩ := hA.free h.blocks (p := p) (by simp [ha])
      refine ⟨_, 0, _, by simp only [Arena.serve, hcall, Option.map_some],
        h.release (i := i) hpolite hblocks, ?_, fun j hj ↦ ⟨?_, fun _ _ ↦ rfl⟩⟩
      · have heffect : Request.Effect (s.held i) s.bytes (.free p) 0 _ s.bytes := .free p
        rwa [← hold_self s heap i (Function.update (s.held i) p none)] at heffect
      · exact Function.update_of_ne hj _ _
  | load a => exact ⟨s, _, m, rfl, h, .load a, fun _ _ ↦ ⟨rfl, fun _ _ ↦ rfl⟩⟩
  | store a byte =>
      refine ⟨_, 0, m, rfl, ⟨h.blocks, h.enough, h.unshared, h.owned⟩, .store a byte,
        fun j hj ↦ ⟨rfl, fun a' ha' ↦ ?_⟩⟩
      refine Function.update_of_ne ?_ _ _
      rintro rfl
      exact hj (h.covers_unshared hA ha' hpolite)
  | pause => exact ⟨s, 0, m, rfl, h, .pause, fun _ _ ↦ ⟨rfl, fun _ _ ↦ rfl⟩⟩

end Inv

end Arena

/-! ## Users -/

/-- The program of a user with local states in `τ`; `ρ` are the choices that it is not for the
program to make. -/
structure Client (τ : Type w) (ρ : Type x) where
  request : τ → ρ → Request
  resume : τ → ρ → Nat → τ

/-- An arena with its users. -/
structure Tenants (σ : Type u) (ι : Type v) (τ : Type w) where
  arena : Arena σ ι
  users : ι → τ

variable {σ : Type u} {ι : Type v} {τ : Type w} {ρ : Type x} [DecidableEq ι]

namespace Tenants

/-- A step of the user `e.1`, with its choice. -/
def step (A : Allocator σ) (C : Client τ ρ) (s : Tenants σ ι τ) (e : ι × ρ) :
    Option (Tenants σ ι τ) :=
  (s.arena.serve A e.1 (C.request (s.users e.1) e.2)).map fun a ↦
    ⟨a.1, Function.update s.users e.1 (C.resume (s.users e.1) e.2 a.2)⟩

/-- The users at work on an empty heap. -/
def init (heap : σ) (bytes : Nat → UInt8) (users : ι → τ) : Tenants σ ι τ :=
  ⟨⟨heap, bytes, fun _ ↦ .none⟩, users⟩

end Tenants

namespace Client

/-- The steps of a user keep the property `L` of its blocks, the bytes in them and its local
state, and are polite.  The choices are those that meet `guard`. -/
structure Keeps (C : Client τ ρ) (ok : Nat → Prop) (guard : Extents → τ → ρ → Prop)
    (L : Extents → (Nat → UInt8) → τ → Prop) : Prop where
  /-- The property is about the bytes in the blocks only. -/
  own : ∀ {h bytes bytes' t}, L h bytes t → (∀ a, h.Covers a → bytes' a = bytes a) → L h bytes' t
  polite : ∀ {h bytes t x}, L h bytes t → guard h t x → (C.request t x).Polite ok h
  step : ∀ {h h' bytes bytes' t x answer}, L h bytes t → guard h t x → h.Apart → h'.Apart →
    (C.request t x).Effect h bytes answer h' bytes' → L h' bytes' (C.resume t x answer)

namespace Keeps

variable {A : Allocator σ} {C : Client τ ρ} {ok : Nat → Prop} {I : σ → Extents → Prop}
  {guard : Extents → τ → ρ → Prop} {L : Extents → (Nat → UInt8) → τ → Prop}
  {s t : Tenants σ ι τ} {m : Extents}

/-- The property holds of every user. -/
def All (L : Extents → (Nat → UInt8) → τ → Prop) (s : Tenants σ ι τ) : Prop :=
  ∀ i, L (s.arena.held i) s.arena.bytes (s.users i)

/-- One step of one user keeps the property of all of them. -/
theorem step_all (hC : C.Keeps ok guard L) (hA : A.Sound ok I) (hinv : s.arena.Inv I m)
    (hall : All L s) {e : ι × ρ} (hguard : guard (s.arena.held e.1) (s.users e.1) e.2)
    (ht : s.step A C e = some t) : (∃ m', t.arena.Inv I m') ∧ All L t := by
  obtain ⟨i, x⟩ := e
  obtain ⟨arena, answer, m', hserve, hinv', heffect, hothers⟩ :=
    hinv.serve hA (hC.polite (hall i) hguard)
  unfold Tenants.step at ht
  dsimp only at ht
  rw [hserve, Option.map_some] at ht
  obtain rfl := Option.some.inj ht
  refine ⟨⟨m', hinv'⟩, fun j ↦ ?_⟩
  dsimp only
  by_cases hj : j = i
  · subst hj
    rw [Function.update_self]
    exact hC.step (hall j) hguard (hinv.apart hA j) (hinv'.apart hA j) heffect
  · obtain ⟨hheld, hbytes⟩ := hothers j hj
    rw [Function.update_of_ne hj, hheld]
    exact hC.own (hall j) hbytes

/-- **Users may be reasoned about alone.**  A property of one user, its blocks and the bytes in
them, which the steps of this user keep, holds of every user in every interleaving. -/
theorem reach (hC : C.Keeps ok guard L) (hA : A.Sound ok I) {heap : σ} {bytes : Nat → UInt8}
    {users : ι → τ} (hheap : I heap .none) (hinit : ∀ i, L .none bytes (users i))
    (h : Reach (Tenants.step A C) (fun s e ↦ guard (s.arena.held e.1) (s.users e.1) e.2)
      (.init heap bytes users) s) : (∃ m, s.arena.Inv I m) ∧ All L s := by
  have hstart : (∃ m, (Tenants.init heap bytes users).arena.Inv I m) ∧
      All L (Tenants.init heap bytes users) := by
    refine ⟨⟨.none, hheap, ?_, ?_, ?_⟩, hinit⟩
    · intro i p n hp
      cases hp
    · intro i j p hp
      exact absurd rfl hp
    · intro p hp
      exact absurd rfl hp
  refine h.invariant (I := fun s ↦ (∃ m, s.arena.Inv I m) ∧ All L s) hstart ?_
  rintro s e t ⟨⟨m, hinv⟩, hall⟩ hguard ht
  exact hC.step_all hA hinv hall hguard ht

end Keeps

end Client

end BareBones.Lib
