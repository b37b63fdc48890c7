import Mathlib.Data.Nat.Bitwise
import Mathlib.Tactic.Ring

/-!
# 64-bit machine words as naturals

Unsigned 64-bit arithmetic on `Nat`: a machine operation is the operation on
naturals followed by reduction modulo `2 ^ 64`.  The lemmas say when the
reduction does nothing, which is how the proofs about address arithmetic use
them.
-/

namespace BareBones.Lib

/-- The value a 64-bit register keeps of `n`. -/
def u64 (n : Nat) : Nat := n % 2 ^ 64

/-- Unsigned 64-bit subtraction, wrapping below zero. -/
def sub64 (a b : Nat) : Nat := u64 (a + 2 ^ 64 - b)

/-- 64-bit complement. -/
def not64 (a : Nat) : Nat := 2 ^ 64 - 1 - a

@[simp] theorem u64_of_lt {n : Nat} (h : n < 2 ^ 64) : u64 n = n := Nat.mod_eq_of_lt h

theorem u64_lt (n : Nat) : u64 n < 2 ^ 64 := Nat.mod_lt _ (by decide)

theorem sub64_of_le {a b : Nat} (hb : b ≤ a) (ha : a < 2 ^ 64) : sub64 a b = a - b := by
  unfold sub64 u64
  have hsplit : a + 2 ^ 64 - b = (a - b) + 2 ^ 64 := by omega
  rw [hsplit, Nat.add_mod_right]
  exact Nat.mod_eq_of_lt (by omega)

/-- Clearing the three low bits rounds down to a multiple of eight. -/
theorem and_not64_seven {x : Nat} (hx : x < 2 ^ 64) : x &&& not64 7 = x / 8 * 8 := by
  have hshift : x / 8 * 8 = (x >>> 3) <<< 3 := by
    rw [Nat.shiftRight_eq_div_pow, Nat.shiftLeft_eq]
  have hmask : not64 7 = 2 ^ 64 - (7 + 1) := rfl
  rw [hshift, hmask]
  refine Nat.eq_of_testBit_eq fun i ↦ ?_
  rw [Nat.testBit_and, Nat.testBit_two_pow_sub_succ (by decide), Nat.testBit_shiftLeft,
    Nat.testBit_shiftRight]
  by_cases hi : 3 ≤ i
  · have hlow : Nat.testBit 7 i = false :=
      Nat.testBit_lt_two_pow (lt_of_lt_of_le (by decide) (Nat.pow_le_pow_right (by decide) hi))
    have hback : 3 + (i - 3) = i := by omega
    by_cases h64 : i < 64
    · simp [hlow, hi, hback, h64]
    · have hzero : x.testBit i = false :=
        Nat.testBit_lt_two_pow (hx.trans_le (Nat.pow_le_pow_right (by decide) (by omega)))
      simp [hi, hback, hzero]
  · have hlow : Nat.testBit 7 i = true := by
      have : i = 0 ∨ i = 1 ∨ i = 2 := by omega
      rcases this with rfl | rfl | rfl <;> rfl
    simp [hi, hlow]

end BareBones.Lib
