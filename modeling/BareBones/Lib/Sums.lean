import Mathlib.Algebra.BigOperators.Group.Finset.Basic
import Mathlib.Algebra.Order.BigOperators.Group.Finset

/-!
# Sums in which one summand changes

The state of a system of processes is often described by a sum over the processes: how many
are at some place, how much each of them holds.  A step of one process changes one summand.
-/

namespace BareBones.Lib

variable {α : Type*} {β : Type*} {S : Finset α} {f g : α → β} {a b : α}

/-- One summand changes. -/
theorem sum_change [AddCommMonoid β] (ha : a ∈ S) (hother : ∀ b, b ≠ a → f b = g b) :
    S.sum f + g a = S.sum g + f a := by
  classical
  have hrest : (S.erase a).sum f = (S.erase a).sum g :=
    Finset.sum_congr rfl fun b hb ↦ hother b (Finset.ne_of_mem_erase hb)
  have hf : f a + (S.erase a).sum f = S.sum f := Finset.add_sum_erase S f ha
  have hg : g a + (S.erase a).sum g = S.sum g := Finset.add_sum_erase S g ha
  rw [← hf, ← hg, hrest, add_right_comm, add_right_comm (g a), add_comm (f a)]

/-- How many have a property. -/
def count (S : Finset α) (P : α → Prop) [DecidablePred P] : Nat :=
  S.sum fun a ↦ if P a then 1 else 0

section Count

variable {P Q : α → Prop} [DecidablePred P] [DecidablePred Q]

theorem count_congr_mem (h : ∀ a ∈ S, P a ↔ Q a) : count S P = count S Q :=
  Finset.sum_congr rfl fun a ha ↦ if_congr (h a ha) rfl rfl

theorem count_congr (h : ∀ a, P a ↔ Q a) : count S P = count S Q := count_congr_mem fun a _ ↦ h a

theorem count_eq_zero : count S P = 0 ↔ ∀ a ∈ S, ¬P a := by
  rw [count, Finset.sum_eq_zero_iff]
  exact forall₂_congr fun a _ ↦ by simp

theorem count_le_card : count S P ≤ S.card := by
  rw [count, Finset.card_eq_sum_ones]
  exact Finset.sum_le_sum fun a _ ↦ by split <;> omega

/-- Only `a` has gained or lost the property. -/
theorem count_change (ha : a ∈ S) (hother : ∀ b, b ≠ a → (Q b ↔ P b)) :
    count S Q + (if P a then 1 else 0) = count S P + if Q a then 1 else 0 :=
  sum_change ha fun b hb ↦ if_congr (hother b hb) rfl rfl

/-- One more has the property. -/
theorem count_enter (ha : a ∈ S) (hP : ¬P a) (hQ : Q a) (hother : ∀ b, b ≠ a → (Q b ↔ P b)) :
    count S Q = count S P + 1 := by
  have hchange := count_change ha hother
  rw [if_neg hP, if_pos hQ, Nat.add_zero] at hchange
  exact hchange

/-- One fewer has it. -/
theorem count_leave (ha : a ∈ S) (hP : P a) (hQ : ¬Q a) (hother : ∀ b, b ≠ a → (Q b ↔ P b)) :
    count S P = count S Q + 1 :=
  count_enter ha hQ hP fun b hb ↦ (hother b hb).symm

/-- If no two have the property, it is one and the same that has it. -/
theorem eq_of_count_le_one (h : count S P ≤ 1) (ha : a ∈ S) (hb : b ∈ S) (hPa : P a) (hPb : P b) :
    a = b := by
  classical
  by_contra hne
  have hsplit : (if P a then 1 else 0) + (S.erase a).sum (fun c ↦ if P c then 1 else 0) =
      count S P := Finset.add_sum_erase S (fun c ↦ if P c then 1 else 0) ha
  have hle : (if P b then 1 else 0) ≤ (S.erase a).sum fun c ↦ if P c then 1 else 0 :=
    Finset.single_le_sum (f := fun c ↦ if P c then 1 else 0) (fun _ _ ↦ Nat.zero_le _)
      (Finset.mem_erase.mpr ⟨Ne.symm hne, hb⟩)
  rw [if_pos hPa] at hsplit
  rw [if_pos hPb] at hle
  omega

theorem count_range_succ {P : Nat → Prop} [DecidablePred P] (n : Nat) :
    count (Finset.range (n + 1)) P = count (Finset.range n) P + if P n then 1 else 0 :=
  Finset.sum_range_succ _ n

end Count

end BareBones.Lib
