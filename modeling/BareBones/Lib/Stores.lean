import Mathlib.Data.List.Basic
import Mathlib.Logic.Function.Basic
import Mathlib.Tactic.Ring

/-!
# Stores to a memory of bytes

A memory is a function from addresses to bytes, and what a function writes is the list of
its stores, in order.  Besides the memory afterwards, which is `apply`, such a list also says
which bytes have been written at all, whether or not their values have changed.

A word of `n` bytes is stored with its low byte first.  `bytesAt` stores a list of bytes at
addresses that are given by their indices, so that the address arithmetic of a user, which
may wrap around, is kept out of this file: all that is asked of it is that different indices
are different addresses.
-/

namespace BareBones.Lib

universe u

/-! ## The bytes of a number -/

/-- The `n` low bytes of a number, the lowest one first. -/
def toBytes : Nat → Nat → List UInt8
  | 0, _ => []
  | n + 1, v => UInt8.ofNat v :: toBytes n (v / 256)

/-- The number with the given bytes, the lowest one first. -/
def ofBytes : List UInt8 → Nat
  | [] => 0
  | b :: bs => b.toNat + 256 * ofBytes bs

@[simp] theorem length_toBytes (n v : Nat) : (toBytes n v).length = n := by
  induction n generalizing v with
  | zero => rfl
  | succ n ih => rw [toBytes, List.length_cons, ih]

theorem ofBytes_toBytes (n v : Nat) : ofBytes (toBytes n v) = v % 256 ^ n := by
  induction n generalizing v with
  | zero => rw [toBytes, ofBytes, pow_zero, Nat.mod_one]
  | succ n ih =>
      have hlow : (UInt8.ofNat v).toNat = v % 256 := UInt8.toNat_ofNat'
      rw [toBytes, ofBytes, ih, hlow, pow_succ', Nat.mod_mul]

namespace Stores

variable {α : Type u} [DecidableEq α] {m : α → UInt8} {ss ts : List (α × UInt8)} {a : α}
  {addr : Nat → α} {bs : List UInt8} {i n : Nat}

/-! ## Stores -/

/-- The memory after some stores. -/
def apply (m : α → UInt8) (ss : List (α × UInt8)) : α → UInt8 :=
  ss.foldl (fun m s ↦ Function.update m s.1 s.2) m

theorem apply_append (m : α → UInt8) (ss ts : List (α × UInt8)) :
    apply m (ss ++ ts) = apply (apply m ss) ts := List.foldl_append

/-- A byte that is not written stays. -/
theorem apply_other (h : ∀ s ∈ ss, s.1 ≠ a) : apply m ss a = m a := by
  induction ss generalizing m with
  | nil => rfl
  | cons s ss ih =>
      have hother := ih (m := Function.update m s.1 s.2) fun t ht ↦ h t (List.mem_cons_of_mem s ht)
      have hne : a ≠ s.1 := (h s List.mem_cons_self).symm
      rw [apply, List.foldl_cons, ← apply, hother, Function.update_of_ne hne]

/-- Bytes at the addresses `addr 0`, `addr 1`, … -/
def bytesAt (addr : Nat → α) : List UInt8 → List (α × UInt8)
  | [] => []
  | b :: bs => (addr 0, b) :: bytesAt (fun i ↦ addr (i + 1)) bs

omit [DecidableEq α] in
theorem exists_of_mem_bytesAt {s : α × UInt8} (h : s ∈ bytesAt addr bs) :
    ∃ i < bs.length, s.1 = addr i := by
  induction bs generalizing addr with
  | nil => cases h
  | cons b bs ih =>
      rcases List.mem_cons.mp h with rfl | h
      · exact ⟨0, Nat.succ_pos _, rfl⟩
      · obtain ⟨i, hi, heq⟩ := ih h
        exact ⟨i + 1, Nat.succ_lt_succ hi, heq⟩

omit [DecidableEq α] in
theorem mem_bytesAt (h : i < bs.length) : (addr i, bs[i]) ∈ bytesAt addr bs := by
  induction bs generalizing addr i with
  | nil => cases h
  | cons b bs ih =>
      cases i with
      | zero => exact List.mem_cons_self
      | succ i => exact List.mem_cons_of_mem _ (ih (Nat.lt_of_succ_lt_succ h))

/-- Different indices below `n` are different addresses. -/
def Distinct (addr : Nat → α) (n : Nat) : Prop := ∀ i < n, ∀ j < n, addr i = addr j → i = j

theorem apply_bytesAt (hdistinct : Distinct addr bs.length) (hi : i < bs.length) :
    apply m (bytesAt addr bs) (addr i) = bs[i] := by
  induction bs generalizing addr m i with
  | nil => cases hi
  | cons b bs ih =>
      rw [bytesAt, apply, List.foldl_cons, ← apply]
      cases i with
      | zero =>
          rw [apply_other]
          · exact Function.update_self _ _ _
          · intro s hs heq
            obtain ⟨j, hj, hs⟩ := exists_of_mem_bytesAt hs
            have hzero : j + 1 = 0 :=
              hdistinct (j + 1) (Nat.succ_lt_succ hj) 0 hi (hs.symm.trans heq)
            cases hzero
      | succ i =>
          have hlater : Distinct (fun i ↦ addr (i + 1)) bs.length := by
            intro j hj l hl heq
            exact Nat.succ.inj
              (hdistinct (j + 1) (Nat.succ_lt_succ hj) (l + 1) (Nat.succ_lt_succ hl) heq)
          exact ih hlater (Nat.lt_of_succ_lt_succ hi)

/-! ## Loads -/

/-- The bytes at the first `n` addresses. -/
def read (m : α → UInt8) (addr : Nat → α) : Nat → List UInt8
  | 0 => []
  | n + 1 => m (addr 0) :: read m (fun i ↦ addr (i + 1)) n

omit [DecidableEq α] in
@[simp] theorem length_read (m : α → UInt8) (addr : Nat → α) (n : Nat) :
    (read m addr n).length = n := by
  induction n generalizing addr with
  | zero => rfl
  | succ n ih => rw [read, List.length_cons, ih]

omit [DecidableEq α] in
theorem getElem?_read (h : i < n) : (read m addr n)[i]? = some (m (addr i)) := by
  induction n generalizing addr i with
  | zero => cases h
  | succ n ih =>
      cases i with
      | zero => rfl
      | succ i => exact ih (Nat.lt_of_succ_lt_succ h)

omit [DecidableEq α] in
/-- What is read depends on the bytes that are read. -/
theorem read_congr {m' : α → UInt8} (h : ∀ i < n, m' (addr i) = m (addr i)) :
    read m' addr n = read m addr n := by
  induction n generalizing addr with
  | zero => rfl
  | succ n ih =>
      rw [read, read, h 0 (Nat.succ_pos n)]
      congr 1
      exact ih fun i hi ↦ h (i + 1) (Nat.succ_lt_succ hi)

omit [DecidableEq α] in
theorem read_eq {n : Nat} (hlength : bs.length = n)
    (h : ∀ i (hi : i < bs.length), m (addr i) = bs[i]) : read m addr n = bs := by
  subst hlength
  induction bs generalizing addr with
  | nil => rfl
  | cons b bs ih =>
      rw [List.length_cons, read, h 0 (Nat.succ_pos _)]
      congr 1
      exact ih fun i hi ↦ h (i + 1) (Nat.succ_lt_succ hi)

/-- **What is stored is read back.** -/
theorem read_bytesAt (hdistinct : Distinct addr bs.length) :
    read (apply m (bytesAt addr bs)) addr bs.length = bs :=
  read_eq rfl fun _ hi ↦ apply_bytesAt hdistinct hi

/-- Stores elsewhere do not matter. -/
theorem read_apply (h : ∀ s ∈ ss, ∀ i < n, s.1 ≠ addr i) :
    read (apply m ss) addr n = read m addr n :=
  read_congr fun i hi ↦ apply_other fun s hs ↦ h s hs i hi

end Stores

end BareBones.Lib
