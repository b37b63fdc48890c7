import BareBones.Lib.Stores
import BareBones.Semaphores.SharedSemaphores

/-!
# The table of named semaphores, byte by byte

The table of `semaphores/sharedSemaphores.c` as it lies in memory.  A `SharedSem` has `used` in
its byte 0, `name` in the bytes 1 to 32, `sem` in the bytes 40 to 47 and `refCount` in the
bytes 48 to 51, and it takes 56 bytes; what is between `name` and `sem`, and behind `refCount`,
is padding.  Addresses are counted from the start of the table, which may contain anything.

`sharedSemOpen` answers what it returns and what it stores.  A name is copied by `strcpy`, up to
its zero, and nothing compares its length to `SEM_NAME_MAX`.  So the call keeps to its own slot
only if no name is copied or the name is short; and a slot that is found again is still found
afterwards only if the name does not reach into its `refCount` (`Fits`).  **The condition is
exact** (`sharedSemOpen_keeps_iff`).
-/

namespace BareBones.Semaphores.SharedTable

open BareBones.Lib BareBones.Lib.Stores

/-- A memory that the table is at the start of. -/
abbrev Mem := Nat → UInt8

/-- What is stored, in order. -/
abbrev Writes := List (Nat × UInt8)

/-! ## The layout -/

/-- `sizeof(SharedSem)` -/
def sizeofSharedSem : Nat := 56

/-- `&table[i].used` -/
def used (i : Nat) : Nat := sizeofSharedSem * i

/-- `&table[i].name[k]` -/
def name (i k : Nat) : Nat := sizeofSharedSem * i + 1 + k

/-- The byte `k` of `table[i].sem` -/
def sem (i k : Nat) : Nat := sizeofSharedSem * i + 40 + k

/-- The byte `k` of `table[i].refCount` -/
def refCount (i k : Nat) : Nat := sizeofSharedSem * i + 48 + k

/-! ## The code -/

/-- `strcmp`, of a string in memory and one without a zero in it. -/
def strcmp (m : Mem) (p1 : Nat) : (p2 : List UInt8) → Int
  | [] => (m p1).toNat
  | c2 :: p2 =>
      if m p1 = 0 then (m p1).toNat - c2.toNat
      else if m p1 = c2 then strcmp m (p1 + 1) p2
      else (m p1).toNat - c2.toNat

/-- `strcpy` of a string without a zero in it. -/
def strcpy (dest : Nat) : (src : List UInt8) → Writes
  | [] => [(dest, 0)]
  | c :: src => (dest, c) :: strcpy (dest + 1) src

/-- `findByName` -/
def findByName (m : Mem) (s : List UInt8) : Option Nat :=
  (List.range MAX_SHARED_SEMS).find? fun i ↦ m (used i) ≠ 0 ∧ strcmp m (name i 0) s = 0

/-- `findFreeSlot` -/
def findFreeSlot (m : Mem) : Option Nat :=
  (List.range MAX_SHARED_SEMS).find? fun i ↦ m (used i) = 0

/-- `sharedSemOpen`, with the pointer that `newSemaphore` returns if it is called. -/
def sharedSemOpen (m : Mem) (s : Option (List UInt8)) (newSemaphore : Nat) : Int × Writes :=
  match s with
  | none | some [] => (-1, [])
  | some s =>
      match findByName m s with
      | some idx =>
          (0, bytesAt (refCount idx) (toBytes 4 (ofBytes (read m (refCount idx) 4) + 1)))
      | none =>
          match findFreeSlot m with
          | none => (-1, [])
          | some idx =>
              if newSemaphore = 0 then (-1, [])
              else (0, (used idx, 1) :: strcpy (name idx 0) s ++
                bytesAt (sem idx) (toBytes 8 newSemaphore) ++
                bytesAt (refCount idx) (toBytes 4 1))

/-- The slot that `sharedSemWait`, `sharedSemPost` and `sharedSemClose` work on. -/
def lookup (m : Mem) (s : Option (List UInt8)) : Option Nat :=
  match s with
  | none | some [] => none
  | some s => findByName m s

/-! ## What the call is for -/

/-- The address belongs to a field of the slot `i`. -/
def Own (i a : Nat) : Prop :=
  a = used i ∨ (∃ k < SEM_NAME_MAX, a = name i k) ∨ (∃ k < 8, a = sem i k) ∨
    ∃ k < 4, a = refCount i k

/-- From `m`, the call has stored `writes`, for the slot `i`. -/
structure Opens (m : Mem) (s : Option (List UInt8)) (writes : Writes) (i : Nat) : Prop where
  lt : i < MAX_SHARED_SEMS
  own : ∀ w ∈ writes, Own i w.1
  others : ∀ j, j ≠ i → ∀ k < sizeofSharedSem,
    apply m writes (sizeofSharedSem * j + k) = m (sizeofSharedSem * j + k)
  finds : lookup (apply m writes) s = some i

/-- The call either fails and changes nothing, or keeps to the slot that is found by the name
from then on. -/
def Keeps (m : Mem) (s : Option (List UInt8)) (newSemaphore : Nat) : Prop :=
  (sharedSemOpen m s newSemaphore).1 = -1 ∧ apply m (sharedSemOpen m s newSemaphore).2 = m ∨
    ∃ i, Opens m s (sharedSemOpen m s newSemaphore).2 i

/-- A name is short enough for what the call does with it. -/
def Fits (m : Mem) (s : List UInt8) (newSemaphore : Nat) : Prop :=
  match findByName m s with
  -- The characters from 47 on would be in `refCount`, which is changed.
  | some _ => s.length < 47
  | none => findFreeSlot m = none ∨ newSemaphore = 0 ∨ s.length < SEM_NAME_MAX

/-- The addresses of a number of `n` bytes. -/
theorem mem_number {addr : Nat → Nat} {n v : Nat} {w : Nat × UInt8}
    (h : w ∈ bytesAt addr (toBytes n v)) : ∃ k < n, w.1 = addr k := by
  obtain ⟨k, hk, heq⟩ := exists_of_mem_bytesAt h
  rw [length_toBytes] at hk
  exact ⟨k, hk, heq⟩

/-! ## Names in the table -/

variable {m : Mem} {s : List UInt8} {i j a newSemaphore : Nat} {writes : Writes}

/-- The slot `i` is in use, and its name is `s`. -/
def Named (m : Mem) (s : List UInt8) (i : Nat) : Prop :=
  m (used i) ≠ 0 ∧ read m (name i) (s.length + 1) = s ++ [0]

theorem add_succ_fun (p : Nat) : (fun k ↦ p + (k + 1)) = fun k ↦ p + 1 + k := by
  funext k
  omega

theorem strcmp_eq_zero (hs : 0 ∉ s) (p : Nat) :
    strcmp m p s = 0 ↔ read m (p + ·) (s.length + 1) = s ++ [0] := by
  induction s generalizing p with
  | nil => simp [strcmp, Stores.read, ← UInt8.toNat_inj]
  | cons c s ih =>
      have hc : c ≠ 0 := fun h ↦ hs (h ▸ List.mem_cons_self)
      have ih := ih (fun h ↦ hs (List.mem_cons_of_mem c h)) (p + 1)
      have hread : Stores.read m (p + ·) (s.length + 1 + 1) =
          m p :: Stores.read m (p + 1 + ·) (s.length + 1) := by
        rw [Stores.read, add_succ_fun]
        rfl
      rw [strcmp, List.length_cons, hread, List.cons_append, List.cons.injEq, ← ih]
      split
      next hzero =>
          rw [hzero]
          constructor
          · intro h
            refine absurd (UInt8.toNat_inj.1 ?_) hc
            simpa using h.symm
          · exact fun h ↦ absurd h.1.symm hc
      next =>
          split
          next heq => exact (and_iff_right heq).symm
          next hne =>
              constructor
              · intro h
                exact absurd (UInt8.toNat_inj.1 (by omega)) hne
              · exact fun h ↦ absurd h.1 hne

/-- **`findByName` finds the first slot with the name.** -/
theorem findByName_eq_some (hs : 0 ∉ s) :
    findByName m s = some i ↔ i < MAX_SHARED_SEMS ∧ Named m s i ∧ ∀ j < i, ¬Named m s j := by
  have hnamed : ∀ j, (m (used j) ≠ 0 ∧ strcmp m (name j 0) s = 0) ↔ Named m s j := by
    intro j
    rw [strcmp_eq_zero hs, Named]
    rfl
  rw [findByName, List.find?_range_eq_some]
  simp only [decide_eq_true_eq, hnamed, List.mem_range, Bool.not_eq_true', decide_eq_false_iff_not]
  tauto

theorem findByName_eq_none (hs : 0 ∉ s) :
    findByName m s = none ↔ ∀ j < MAX_SHARED_SEMS, ¬Named m s j := by
  rw [findByName, List.find?_eq_none]
  simp only [decide_eq_true_eq, strcmp_eq_zero hs, List.mem_range]
  rfl

theorem findFreeSlot_lt (h : findFreeSlot m = some i) : i < MAX_SHARED_SEMS :=
  List.mem_range.1 (List.mem_of_find?_eq_some h)

/-- `strcpy` stores the characters and a zero. -/
theorem strcpy_eq (dest : Nat) (s : List UInt8) :
    strcpy dest s = bytesAt (dest + ·) (s ++ [0]) := by
  induction s generalizing dest with
  | nil => rfl
  | cons c s ih =>
      rw [strcpy, List.cons_append, bytesAt, ih, add_succ_fun]
      rfl

/-! ## Addresses -/

theorem own_refCount (h : ∃ k < 4, a = refCount i k) : Own i a := .inr (.inr (.inr h))

/-- A field lies in its slot, -/
theorem Own.slot (h : Own i a) :
    ∃ k < sizeofSharedSem, a = sizeofSharedSem * i + k := by
  rcases h with rfl | ⟨k, hk, rfl⟩ | ⟨k, hk, rfl⟩ | ⟨k, hk, rfl⟩
  · exact ⟨0, by decide, rfl⟩
  · refine ⟨1 + k, ?_, Nat.add_assoc _ 1 k⟩
    rw [SEM_NAME_MAX] at hk
    rw [sizeofSharedSem]
    omega
  · refine ⟨40 + k, ?_, Nat.add_assoc _ 40 k⟩
    rw [sizeofSharedSem]
    omega
  · refine ⟨48 + k, ?_, Nat.add_assoc _ 48 k⟩
    rw [sizeofSharedSem]
    omega

theorem slot_inj {k l : Nat} (hk : k < sizeofSharedSem) (hl : l < sizeofSharedSem)
    (h : sizeofSharedSem * i + k = sizeofSharedSem * j + l) : i = j ∧ k = l := by
  rw [sizeofSharedSem] at *
  omega

theorem slot_name (i k : Nat) : name i k = sizeofSharedSem * i + (1 + k) := Nat.add_assoc _ 1 k

theorem slot_refCount (i k : Nat) : refCount i k = sizeofSharedSem * i + (48 + k) :=
  Nat.add_assoc _ 48 k

/-- Stores to one slot leave the other ones as they were. -/
theorem others_of_own (h : ∀ w ∈ writes, Own i w.1) (hne : j ≠ i) {k : Nat}
    (hk : k < sizeofSharedSem) :
    apply m writes (sizeofSharedSem * j + k) = m (sizeofSharedSem * j + k) := by
  refine apply_other fun w hw heq ↦ hne ?_
  obtain ⟨l, hl, hw⟩ := (h w hw).slot
  exact (slot_inj hk hl (heq.symm.trans hw)).1

/-- Whether a slot has a name depends on `used` and on as many bytes as the name has. -/
theorem Named.congr {m' : Mem} (hused : m' (used j) = m (used j))
    (hname : ∀ k ≤ s.length, m' (name j k) = m (name j k)) : Named m' s j ↔ Named m s j := by
  rw [Named, Named, hused, read_congr fun k hk ↦ hname k (Nat.le_of_lt_succ hk)]

/-! ## A name that is found -/

/-- `table[idx].refCount++` -/
def countUp (m : Mem) (idx : Nat) : Writes :=
  bytesAt (refCount idx) (toBytes 4 (ofBytes (Stores.read m (refCount idx) 4) + 1))

theorem sharedSemOpen_found (hne : s ≠ []) (hfind : findByName m s = some i) :
    sharedSemOpen m (some s) newSemaphore = (0, countUp m i) := by
  rw [sharedSemOpen, hfind]
  · rfl
  · exact hne

/-- A short name is found in the same slot again. -/
theorem opens_found (hs : 0 ∉ s) (hne : s ≠ []) (hfind : findByName m s = some i)
    (hlen : s.length < 47) : Opens m (some s) (countUp m i) i := by
  have hown : ∀ w ∈ countUp m i, Own i w.1 := fun w hw ↦ own_refCount (mem_number hw)
  obtain ⟨hlt, hnamed, hfirst⟩ := (findByName_eq_some hs).1 hfind
  refine ⟨hlt, hown, fun j hj k hk ↦ others_of_own hown hj hk, ?_⟩
  have hsame : ∀ j k, k < 48 → apply m (countUp m i) (sizeofSharedSem * j + k) =
      m (sizeofSharedSem * j + k) := by
    intro j k hk
    refine apply_other fun w hw heq ↦ ?_
    obtain ⟨l, hl, hw⟩ := mem_number hw
    rw [hw, slot_refCount] at heq
    have hoff := (slot_inj (by rw [sizeofSharedSem]; omega) (by rw [sizeofSharedSem]; omega) heq).2
    omega
  have hcongr : ∀ j, Named (apply m (countUp m i)) s j ↔ Named m s j := fun j ↦
    Named.congr (hsame j 0 (by decide)) fun k hk ↦ by
      rw [slot_name]
      exact hsame j (1 + k) (by omega)
  cases s with
  | nil => exact absurd rfl hne
  | cons c s =>
      refine (findByName_eq_some hs).2 ⟨hlt, (hcongr i).2 hnamed, fun j hj ↦ ?_⟩
      rw [hcongr j]
      exact hfirst j hj

/-- The low byte of a number and that of the next one are different. -/
theorem headD_toBytes_succ (n k : Nat) :
    (toBytes (k + 1) (n + 1)).headD 0 ≠ (toBytes (k + 1) n).headD 0 := by
  intro h
  have h := congrArg UInt8.toNat h
  simp only [toBytes, List.headD_cons, UInt8.toNat_ofNat'] at h
  omega

theorem headD_toBytes_ofBytes {k : Nat} {b : UInt8} {bs : List UInt8} :
    (toBytes (k + 1) (ofBytes (b :: bs))).headD 0 = b := by
  rw [toBytes, List.headD_cons, ofBytes, ← UInt8.toNat_inj, UInt8.toNat_ofNat']
  have hb := b.toNat_lt
  omega

theorem refCount_distinct (i n : Nat) : Distinct (refCount i) n := by
  intro k _ l _ h
  rw [refCount, refCount] at h
  omega

/-- Two names in the same place are equal at each position. -/
theorem Named.eq_at {m' : Mem} (h : Named m s i) (h' : Named m' s i) {k : Nat}
    (hk : k ≤ s.length) : m' (name i k) = m (name i k) := by
  have hread := h.2.trans h'.2.symm
  have hat := congrArg (fun l : List UInt8 ↦ l[k]?) hread
  rw [getElem?_read (Nat.lt_succ_of_le hk), getElem?_read (Nat.lt_succ_of_le hk)] at hat
  exact (Option.some.inj hat).symm

/-- A name that reaches into `refCount` is not found there again. -/
theorem not_opens_found (hs : 0 ∉ s) (hne : s ≠ []) (hfind : findByName m s = some i)
    (hlen : 47 ≤ s.length) : ¬Opens m (some s) (countUp m i) j := by
  intro h
  obtain ⟨-, hnamed, -⟩ := (findByName_eq_some hs).1 hfind
  have hmem : (refCount i 0, (toBytes 4 (ofBytes (Stores.read m (refCount i) 4) + 1)).headD 0) ∈
      countUp m i := List.mem_cons_self
  obtain ⟨k, hk, hslot⟩ := (h.own _ hmem).slot
  obtain ⟨rfl, -⟩ := slot_inj (by decide) hk ((slot_refCount i 0).symm.trans hslot)
  have hfinds : findByName (apply m (countUp m i)) s = some i := by
    have hfinds := h.finds
    rwa [lookup] at hfinds
    exact hne
  have hlow := ((findByName_eq_some hs).1 hfinds).2.1.eq_at hnamed hlen
  have haddr : name i 47 = refCount i 0 := rfl
  have hwritten : apply m (countUp m i) (refCount i 0) =
      (toBytes 4 (ofBytes (Stores.read m (refCount i) 4) + 1)).headD 0 :=
    apply_bytesAt (refCount_distinct i _) (by rw [length_toBytes]; decide)
  rw [haddr, hwritten] at hlow
  refine headD_toBytes_succ (ofBytes (Stores.read m (refCount i) 4)) 3 (hlow.symm.trans ?_)
  exact headD_toBytes_ofBytes.symm

/-! ## A name that is new -/

/-- What is stored in the slot of a new name. -/
def create (idx : Nat) (s : List UInt8) (newSemaphore : Nat) : Writes :=
  (used idx, 1) :: strcpy (name idx 0) s ++ bytesAt (sem idx) (toBytes 8 newSemaphore) ++
    bytesAt (refCount idx) (toBytes 4 1)

theorem sharedSemOpen_new (hne : s ≠ []) (hfind : findByName m s = none) :
    sharedSemOpen m (some s) newSemaphore =
      if findFreeSlot m = none ∨ newSemaphore = 0 then (-1, [])
      else (0, create ((findFreeSlot m).getD 0) s newSemaphore) := by
  rw [sharedSemOpen, hfind]
  · cases findFreeSlot m with
    | none => rfl
    | some idx => simp [create]
  · exact hne

/-- The stores of a new slot. -/
theorem mem_create {w : Nat × UInt8} :
    w ∈ create i s newSemaphore →
      w = (used i, 1) ∨ (∃ k ≤ s.length, w.1 = name i k) ∨ (∃ k < 8, w.1 = sem i k) ∨
        ∃ k < 4, w.1 = refCount i k := by
  intro h
  rw [create, List.mem_append, List.mem_append, List.mem_cons] at h
  rcases h with ((rfl | h) | h) | h
  · exact .inl rfl
  · rw [strcpy_eq] at h
    obtain ⟨k, hk, hw⟩ := exists_of_mem_bytesAt h
    rw [List.length_append, List.length_singleton] at hk
    exact .inr (.inl ⟨k, Nat.le_of_lt_succ hk, hw⟩)
  · exact .inr (.inr (.inl (mem_number h)))
  · exact .inr (.inr (.inr (mem_number h)))

/-- A short name stays in its field. -/
theorem own_create (hlen : s.length < SEM_NAME_MAX) :
    ∀ w ∈ create i s newSemaphore, Own i w.1 := by
  intro w hw
  rcases mem_create hw with rfl | ⟨k, hk, hw⟩ | h | h
  · exact .inl rfl
  · exact .inr (.inl ⟨k, Nat.lt_of_le_of_lt hk hlen, hw⟩)
  · exact .inr (.inr (.inl h))
  · exact .inr (.inr (.inr h))

theorem name_distinct (i n : Nat) : Distinct (name i) n := by
  intro k _ l _ h
  rw [name, name] at h
  omega

/-- The slot has the name that has been copied to it. -/
theorem named_create (hlen : s.length < SEM_NAME_MAX) :
    Named (apply m (create i s newSemaphore)) s i := by
  rw [SEM_NAME_MAX] at hlen
  rw [create, apply_append, apply_append]
  constructor
  · rw [apply_other, apply_other, apply, List.foldl_cons, ← apply, apply_other]
    · rw [Function.update_self]
      exact (by decide : (1 : UInt8) ≠ 0)
    · intro w hw
      rw [strcpy_eq] at hw
      obtain ⟨k, -, hw⟩ := exists_of_mem_bytesAt hw
      rw [hw, name, used]
      omega
    · intro w hw
      obtain ⟨k, -, hw⟩ := mem_number hw
      rw [hw, sem, used]
      omega
    · intro w hw
      obtain ⟨k, -, hw⟩ := mem_number hw
      rw [hw, refCount, used]
      omega
  · rw [read_apply, read_apply, apply, List.foldl_cons, ← apply, strcpy_eq]
    · have hread := @read_bytesAt Nat _ (Function.update m (used i) 1) (name i) (s ++ [0])
        (name_distinct i _)
      rwa [List.length_append, List.length_singleton] at hread
    · intro w hw k hk
      obtain ⟨l, -, hw⟩ := mem_number hw
      rw [hw, sem, name]
      omega
    · intro w hw k hk
      obtain ⟨l, -, hw⟩ := mem_number hw
      rw [hw, refCount, name]
      omega

/-- A short new name is found in its slot. -/
theorem opens_create (hs : 0 ∉ s) (hne : s ≠ []) (hfind : findByName m s = none)
    (hfree : findFreeSlot m = some i) (hlen : s.length < SEM_NAME_MAX) :
    Opens m (some s) (create i s newSemaphore) i := by
  have hlt := findFreeSlot_lt hfree
  refine ⟨hlt, own_create hlen, fun j hj k hk ↦ others_of_own (own_create hlen) hj hk, ?_⟩
  rw [lookup]
  · refine (findByName_eq_some hs).2 ⟨hlt, named_create hlen, fun j hj ↦ ?_⟩
    have hsame : ∀ k < sizeofSharedSem, _ := fun k hk ↦
      others_of_own (m := m) (@own_create s i newSemaphore hlen) hj.ne hk
    rw [Named.congr (hsame 0 (by decide)) fun k hk ↦ ?_]
    · exact (findByName_eq_none hs).1 hfind j (hj.trans hlt)
    · rw [SEM_NAME_MAX] at hlen
      rw [slot_name]
      exact hsame (1 + k) (by rw [sizeofSharedSem]; omega)
  · exact hne

/-- A long one is written past its field. -/
theorem not_opens_create (hlen : SEM_NAME_MAX ≤ s.length) :
    ¬Opens m (some s) (create i s newSemaphore) j := by
  intro h
  rw [SEM_NAME_MAX] at hlen
  have hlt : 32 < (s ++ [0]).length := by
    rw [List.length_append, List.length_singleton]
    omega
  have hmem : (name i 32, (s ++ [0])[32]) ∈ create i s newSemaphore := by
    rw [create, strcpy_eq, List.append_assoc, List.cons_append, List.mem_cons, List.mem_append]
    exact .inr (.inl (mem_bytesAt hlt))
  have hown := h.own _ hmem
  -- The byte 33 of a slot is padding.
  obtain ⟨k, hk, hslot⟩ := hown.slot
  obtain ⟨rfl, -⟩ := slot_inj (by decide) hk ((slot_name i 32).symm.trans hslot)
  rcases hown with h | ⟨k, hk, h⟩ | ⟨k, hk, h⟩ | ⟨k, hk, h⟩
  · rw [name, used] at h
    omega
  · rw [name, name] at h
    rw [SEM_NAME_MAX] at hk
    omega
  · rw [name, sem] at h
    omega
  · rw [name, refCount] at h
    omega

/-! ## The condition -/

theorem opens_not_failed (h : (sharedSemOpen m (some s) newSemaphore).1 = 0) :
    Keeps m (some s) newSemaphore ↔
      ∃ i, Opens m (some s) (sharedSemOpen m (some s) newSemaphore).2 i := by
  rw [Keeps, h]
  exact or_iff_right fun h ↦ absurd h.1 (by decide)

/-- **`sharedSemOpen` keeps to its slot if and only if the name is short enough** for what the
call does with it. -/
theorem sharedSemOpen_keeps_iff (m : Mem) (s : Option (List UInt8)) (newSemaphore : Nat)
    (hs : ∀ t ∈ s, 0 ∉ t) :
    Keeps m s newSemaphore ↔ ∀ t ∈ s, t ≠ [] → Fits m t newSemaphore := by
  obtain _ | t := s
  · exact iff_of_true (.inl ⟨rfl, rfl⟩) fun t ht ↦ absurd ht (Option.not_mem_none t)
  have ht := hs t rfl
  simp only [Option.mem_some_iff, forall_eq']
  by_cases hne : t = []
  · subst hne
    exact iff_of_true (.inl ⟨rfl, rfl⟩) fun h ↦ absurd rfl h
  rw [Fits, forall_prop_of_true hne]
  cases hfind : findByName m t with
  | some i =>
      have hopen := @sharedSemOpen_found m t i newSemaphore hne hfind
      rw [opens_not_failed (by rw [hopen]), hopen]
      constructor
      · rintro ⟨j, hj⟩
        by_contra hlen
        exact not_opens_found ht hne hfind (Nat.le_of_not_lt hlen) hj
      · exact fun hlen ↦ ⟨i, opens_found ht hne hfind hlen⟩
  | none =>
      have hopen := @sharedSemOpen_new m t newSemaphore hne hfind
      by_cases hfail : findFreeSlot m = none ∨ newSemaphore = 0
      · rw [if_pos hfail] at hopen
        rw [Keeps, hopen]
        exact iff_of_true (.inl ⟨rfl, rfl⟩) (hfail.imp_right .inl)
      · rw [if_neg hfail] at hopen
        rw [opens_not_failed (by rw [hopen]), hopen]
        obtain ⟨hfree, hsem⟩ := not_or.1 hfail
        obtain ⟨i, hi⟩ := Option.ne_none_iff_exists'.1 hfree
        constructor
        · rintro ⟨j, hj⟩
          refine .inr (.inr ?_)
          by_contra hlen
          exact not_opens_create (Nat.le_of_not_lt hlen) hj
        · rintro (h | h | hlen)
          · exact absurd h hfree
          · exact absurd h hsem
          · rw [hi]
            exact ⟨i, opens_create ht hne hfind hi hlen⟩

/-- A short name, and an empty table. -/
theorem sharedSemOpen_keeps_mutex : Keeps (fun _ ↦ 0) (some [109, 117, 116, 101, 120]) 4096 := by
  refine (sharedSemOpen_keeps_iff _ _ _ (by decide)).2 fun t ht _ ↦ ?_
  obtain rfl := Option.mem_some_iff.1 ht
  have hfind : findByName (fun _ ↦ 0) [109, 117, 116, 101, 120] = none := by decide +kernel
  rw [Fits, hfind]
  exact .inr (.inr (by decide))

/-- A name of sixty characters is written over the fields of its own slot and of the next one. -/
theorem sharedSemOpen_overrun : ¬Keeps (fun _ ↦ 0) (some (List.replicate 60 120)) 4096 := by
  have hfind : findByName (fun _ ↦ 0) (List.replicate 60 120) = none := by decide +kernel
  have hfree : findFreeSlot (fun _ ↦ 0) = some 0 := by decide +kernel
  have hopen := @sharedSemOpen_new (fun _ ↦ 0) (List.replicate 60 120) 4096 (by decide) hfind
  rw [hfree, if_neg (by decide)] at hopen
  rw [opens_not_failed (by rw [hopen]), hopen]
  rintro ⟨j, hj⟩
  exact not_opens_create (by decide) hj

end BareBones.Semaphores.SharedTable
