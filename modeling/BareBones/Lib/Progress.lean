import BareBones.Lib.Run
import Mathlib.Data.List.Basic

/-!
# Bounded progress

A *measure* `μ : σ → ℕ` bounds what a system can still do before something happens: if no
event raises it, and every event of a certain kind lowers it, then a run that has more
events of this kind than the measure allows must have passed a state in which the thing has
happened (`run_within`).

The place of an element in a queue is such a measure: it does not grow when others join at
the back or leave, and it shrinks when the head is taken.

## Key results

- `run_within`: a run with more marked events than the measure of its first state passes a
  state of `S`.
- `idxOf_filter_le`: nobody who stays in a queue moves back when others leave.
-/

namespace BareBones.Lib

universe u v

section Measure

variable {σ : Type u} {ε : Type v} {step : σ → ε → Option σ} {ok ok' : σ → ε → Prop} {s t : σ}

/-- A weaker guard is met by the same runs. -/
theorem Guarded.mono (himp : ∀ s e, ok s e → ok' s e) {es : List ε} (h : Guarded step ok s es) :
    Guarded step ok' s es := by
  induction es generalizing s with
  | nil => trivial
  | cons e es ih =>
      constructor
      · exact himp s e h.1
      · exact fun t ht ↦ ih (h.2 t ht)

/-- Runs compose. -/
theorem run_append (es es' : List ε) (s : σ) :
    run step s (es ++ es') = (run step s es).bind fun t ↦ run step t es' := by
  induction es generalizing s with
  | nil => rfl
  | cons e es ih =>
      rw [List.cons_append, run, run, Option.bind_assoc]
      congr 1
      funext r
      exact ih r

/-- **The measure rule.**  If each event from a state of `W` leads to a state of `S`, or to
one of `W` whose measure is no larger, and smaller if the event is marked, then a run with
more marked events than the measure of its first state passes a state of `S`. -/
theorem run_within {W S : σ → Prop} {μ : σ → ℕ} {marked : ε → Bool}
    (hstep : ∀ s e t, W s → ok s e → step s e = some t →
      S t ∨ W t ∧ μ t + (if marked e then 1 else 0) ≤ μ s) {es : List ε} (hs : W s)
    (hguard : Guarded step ok s es) (hrun : run step s es = some t)
    (hlong : μ s < es.countP marked) :
    ∃ es₁ es₂ v, es = es₁ ++ es₂ ∧ run step s es₁ = some v ∧ S v := by
  induction es generalizing s with
  | nil => exact absurd hlong (Nat.not_lt_zero _)
  | cons e es ih =>
      obtain ⟨r, hr, hrest⟩ := Option.bind_eq_some_iff.mp hrun
      obtain ⟨hok, hguards⟩ := hguard
      rcases hstep s e r hs hok hr with hS | ⟨hW, hmeasure⟩
      · refine ⟨[e], es, r, rfl, ?_, hS⟩
        rw [run, hr]
        rfl
      · have hless : μ r < es.countP marked := by
          rw [List.countP_cons] at hlong
          omega
        obtain ⟨es₁, es₂, v, rfl, hv, hS⟩ := ih hW (hguards r hr) hrest hless
        refine ⟨e :: es₁, es₂, v, rfl, ?_, hS⟩
        rw [run, hr]
        exact hv

end Measure

section Place

variable {α : Type*} [DecidableEq α] {w : α} {queue : List α}

/-- Others leave the queue, and `w` stays. -/
theorem idxOf_filter_le {keep : α → Bool} (hw : keep w = true) :
    (queue.filter keep).idxOf w ≤ queue.idxOf w := by
  induction queue with
  | nil => exact Nat.le_refl _
  | cons d queue ih =>
      by_cases hd : d = w
      · rw [hd, List.filter_cons_of_pos hw, List.idxOf_cons_self]
        exact Nat.zero_le _
      · rw [List.idxOf_cons_ne _ hd]
        by_cases hkeep : keep d = true
        · rw [List.filter_cons_of_pos hkeep, List.idxOf_cons_ne _ hd]
          exact Nat.succ_le_succ ih
        · rw [List.filter_cons_of_neg hkeep]
          exact Nat.le_succ_of_le ih

end Place

end BareBones.Lib
