import Mathlib.Logic.Relation

/-!
# Guarded runs of a partial step function

A system is a step function `step : σ → ε → Option σ`: in state `s` the event
`e` is either impossible (`none`) or leads to one next state.  A *guard*
`ok : σ → ε → Prop` says which events of a run are considered, as a condition
on the state the event finds.  `Reach step ok s t` says that some run from `s`
all of whose events meet the guard ends in `t`; the guard `fun _ _ ↦ True`
gives plain reachability.

Every safety result about a modelled component goes through `Reach.invariant`,
so that the induction over the run is done once, here, and what is left per
component is the step lemma.
-/

namespace BareBones.Lib

universe u v

variable {σ : Type u} {ε : Type v}

/-- `Reach step ok s t`: a run from `s` whose events all meet the guard `ok`
ends in `t`. -/
inductive Reach (step : σ → ε → Option σ) (ok : σ → ε → Prop) (s : σ) : σ → Prop
  /-- The empty run. -/
  | refl : Reach step ok s s
  /-- One more event. -/
  | tail {t u : σ} {e : ε} :
      Reach step ok s t → ok t e → step t e = some u → Reach step ok s u

variable {step : σ → ε → Option σ} {ok ok' : σ → ε → Prop} {s t u : σ}

namespace Reach

/-- **The invariant rule.**  What holds at the start and is kept by every event
that meets the guard holds at the end of every guarded run. -/
theorem invariant {I : σ → Prop} (hinit : I s)
    (hstep : ∀ t e u, I t → ok t e → step t e = some u → I u)
    (h : Reach step ok s t) : I t := by
  induction h with
  | refl => exact hinit
  | tail _ hok he ih => exact hstep _ _ _ ih hok he

/-- Guarded runs compose. -/
theorem trans (h : Reach step ok s t) (h' : Reach step ok t u) : Reach step ok s u := by
  induction h' with
  | refl => exact h
  | tail _ hok he ih => exact .tail ih hok he

/-- A weaker guard admits more runs. -/
theorem mono (himp : ∀ s e, ok s e → ok' s e) (h : Reach step ok s t) :
    Reach step ok' s t := by
  induction h with
  | refl => exact .refl
  | tail _ hok he ih => exact .tail ih (himp _ _ hok) he

end Reach

/-- The state after a list of events, if each of them is possible. -/
def run (step : σ → ε → Option σ) : σ → List ε → Option σ
  | s, [] => some s
  | s, e :: es => (step s e).bind fun t ↦ run step t es

/-- Every event of the list meets the guard in the state it finds. -/
def Guarded (step : σ → ε → Option σ) (ok : σ → ε → Prop) : σ → List ε → Prop
  | _, [] => True
  | s, e :: es => ok s e ∧ ∀ t, step s e = some t → Guarded step ok t es

/-- A guard that does not look at the state is met if every event meets it. -/
theorem Guarded.of_forall {ok : ε → Prop} {es : List ε} (h : ∀ e ∈ es, ok e) (s : σ) :
    Guarded step (fun _ e ↦ ok e) s es := by
  induction es generalizing s with
  | nil => trivial
  | cons e es ih =>
      exact ⟨h e List.mem_cons_self, fun t _ ↦
        ih (fun e' he' ↦ h e' (List.mem_cons_of_mem e he')) t⟩

/-- Without a guard, every list of events is considered. -/
theorem Guarded.of_true (es : List ε) (s : σ) : Guarded step (fun _ _ ↦ True) s es :=
  of_forall (fun _ _ ↦ trivial) s

/-- **The rule for what holds until something happens.**  If each event from a state of `W`
leads to a state of `S` or to one of `W`, a run either stays in `W` or passes a state of
`S`. -/
theorem run_until {W S : σ → Prop}
    (hstep : ∀ s e t, W s → step s e = some t → S t ∨ W t) {es : List ε} (hs : W s)
    (hrun : run step s es = some t) :
    W t ∨ ∃ es₁ es₂ v, es = es₁ ++ es₂ ∧ run step s es₁ = some v ∧ S v := by
  induction es generalizing s with
  | nil =>
      cases hrun
      exact .inl hs
  | cons e es ih =>
      obtain ⟨r, hr, hrest⟩ := Option.bind_eq_some_iff.mp hrun
      rcases hstep s e r hs hr with hS | hW
      · refine .inr ⟨[e], es, r, rfl, ?_, hS⟩
        rw [run, hr]
        rfl
      · rcases ih hW hrest with hend | ⟨es₁, es₂, v, rfl, hv, hS⟩
        · exact .inl hend
        · refine .inr ⟨e :: es₁, es₂, v, rfl, ?_, hS⟩
          rw [run, hr]
          exact hv

/-- A guard that can be evaluated can be evaluated along a list of events. -/
instance Guarded.decidable [∀ s e, Decidable (ok s e)] :
    ∀ (es : List ε) (s : σ), Decidable (Guarded step ok s es)
  | [], _ => isTrue trivial
  | e :: es, s =>
      match h : step s e with
      | none => decidable_of_iff (ok s e) ⟨fun hok ↦ ⟨hok, fun _ ht ↦ nomatch h.symm.trans ht⟩,
          fun hg ↦ hg.1⟩
      | some t =>
          have := decidable es t
          decidable_of_iff (ok s e ∧ Guarded step ok t es)
            ⟨fun hg ↦ ⟨hg.1, fun _ hu ↦ Option.some.inj (h.symm.trans hu) ▸ hg.2⟩,
              fun hg ↦ ⟨hg.1, hg.2 t h⟩⟩

/-- A concrete list of events is a guarded run. -/
theorem Reach.of_run : ∀ {es : List ε} {s : σ}, run step s es = some t →
    Guarded step ok s es → Reach step ok s t
  | [], s, h, _ => by
      cases h
      exact .refl
  | e :: es, s, h, hg => by
      obtain ⟨r, hr, hrun⟩ := Option.bind_eq_some_iff.mp h
      have hfirst : Reach step ok s r := .tail .refl hg.1 hr
      exact hfirst.trans (of_run hrun (hg.2 r hr))

end BareBones.Lib
