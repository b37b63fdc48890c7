import Mathlib.Data.List.Basic

/-!
# Overtaking in a queue

`Ahead c w queue` says that `w` waits in a queue in front of every place of `c`.  Whoever
joins at the back overtakes nobody, and whoever leaves lets nobody pass: the only way for
`c` to come to the head is that `w` has been there before, or has left.
-/

namespace BareBones.Lib

variable {α : Type*} [DecidableEq α] {c w d : α} {queue : List α}

/-- `w` waits, and `c` does not wait in front of it. -/
def Ahead (c w : α) (queue : List α) : Prop := w ∈ queue.takeWhile (· ≠ c)

instance : Decidable (Ahead c w queue) := inferInstanceAs (Decidable (_ ∈ _))

namespace Ahead

theorem mem (h : Ahead c w queue) : w ∈ queue := (List.takeWhile_prefix _).mem h

@[simp] theorem nil : ¬Ahead c w [] := List.not_mem_nil

/-- The head is not `c`; it is `w`, or `w` waits behind it. -/
theorem cons_iff : Ahead c w (d :: queue) ↔ d ≠ c ∧ (w = d ∨ Ahead c w queue) := by
  unfold Ahead
  by_cases hd : d = c
  · rw [List.takeWhile_cons_of_neg (by simpa using hd)]
    simp [hd]
  · rw [List.takeWhile_cons_of_pos (by simpa using hd), List.mem_cons]
    simp [hd]

/-- Others join at the back. -/
theorem append (h : Ahead c w queue) (others : List α) : Ahead c w (queue ++ others) := by
  induction queue with
  | nil => exact absurd h nil
  | cons d queue ih =>
      obtain ⟨hd, hw⟩ := cons_iff.mp h
      exact cons_iff.mpr ⟨hd, hw.imp_right ih⟩

/-- Others leave. -/
theorem filter (h : Ahead c w queue) {keep : α → Bool} (hw : keep w = true) :
    Ahead c w (queue.filter keep) := by
  induction queue with
  | nil => exact absurd h nil
  | cons d queue ih =>
      obtain ⟨hd, h⟩ := cons_iff.mp h
      by_cases hkeep : keep d = true
      · rw [List.filter_cons_of_pos hkeep]
        exact cons_iff.mpr ⟨hd, h.imp_right ih⟩
      · rw [List.filter_cons_of_neg hkeep]
        refine h.elim (fun heq ↦ ?_) ih
        rw [heq] at hw
        exact absurd hw hkeep

end Ahead

end BareBones.Lib
