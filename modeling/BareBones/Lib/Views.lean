import BareBones.Lib.Rows

/-!
# What a program does to one part of its state

A program that draws touches one cell of a memory after the other.  What it leaves in *one* of
them is a computation of its own, on the contents of that cell: it does something whenever the
program gets to the cell, and nothing otherwise.

`Acts I get f g` says that `f`, as far as the part `get` of the state can tell, is `g`, in
states in which `I` holds, and that `I` holds after it.  The rules follow the constructors of a
program: sequence, counting loop, list of steps.

`forUpTo_once` and `foldl_hits` compute two such loops: one that gets to the cell at most once,
and one that leaves the same whenever it gets there.
-/

namespace BareBones.Lib.Views

open BareBones.Lib.Rows

universe u

variable {σ β ι : Type u} {I : σ → Prop} {get : σ → β} {f f' : σ → σ} {g g' : β → β}

/-- In states with `I`, `f` does `g` to the part `get`. -/
def Acts (I : σ → Prop) (get : σ → β) (f : σ → σ) (g : β → β) : Prop :=
  ∀ s, I s → I (f s) ∧ get (f s) = g (get s)

namespace Acts

theorem skip : Acts I get id id := fun _ h ↦ ⟨h, rfl⟩

theorem congr (h : Acts I get f g) (hg : ∀ b, g b = g' b) : Acts I get f g' := by
  intro s hs
  rw [← hg]
  exact h s hs

/-- One program after the other. -/
theorem seq (h : Acts I get f g) (h' : Acts I get f' g') : Acts I get (f' ∘ f) (g' ∘ g) := by
  intro s hs
  obtain ⟨hI, hget⟩ := h s hs
  obtain ⟨hI', hget'⟩ := h' (f s) hI
  exact ⟨hI', by rw [Function.comp_apply, Function.comp_apply, hget', hget]⟩

/-- A counting loop. -/
theorem loop {n : Nat} {body : Nat → σ → σ} {step : Nat → β → β}
    (h : ∀ i < n, Acts I get (body i) (step i)) :
    Acts I get (forUpTo n body) (forUpTo n step) := by
  induction n with
  | zero => exact skip
  | succ n ih => exact (ih fun i hi ↦ h i (Nat.lt_succ_of_lt hi)).seq (h n n.lt_succ_self)

/-- A list of steps. -/
theorem each {body : σ → ι → σ} {step : β → ι → β} {l : List ι}
    (h : ∀ a ∈ l, Acts I get (body · a) (step · a)) :
    Acts I get (l.foldl body) (l.foldl step) := by
  induction l with
  | nil => exact skip
  | cons a l ih =>
      exact (h a List.mem_cons_self).seq (ih fun b hb ↦ h b (List.mem_cons_of_mem a hb))

end Acts

/-! ## Loops over one cell -/

/-- A loop that does something in one of its rounds only. -/
theorem forUpTo_once (n k : Nat) (b : β) :
    forUpTo n (fun i b ↦ if i = k then g b else b) b = if k < n then g b else b := by
  induction n with
  | zero => rfl
  | succ n ih =>
      rw [forUpTo, ih]
      rcases lt_trichotomy n k with hlt | rfl | hgt
      · rw [if_neg (by omega), if_neg (by omega), if_neg (by omega)]
      · rw [if_pos rfl, if_neg (by omega), if_pos (by omega)]
      · rw [if_neg (by omega), if_pos hgt, if_pos (by omega)]

/-- A list of steps each of which leaves the same, if it does something. -/
theorem foldl_hits {hits : ι → Prop} [DecidablePred hits] {c : β} (l : List ι) (b : β) :
    l.foldl (fun b a ↦ if hits a then c else b) b = if ∃ a ∈ l, hits a then c else b := by
  induction l generalizing b with
  | nil => simp
  | cons a l ih =>
      rw [List.foldl_cons, ih]
      by_cases ha : hits a
      · simp [ha]
      · simp [ha]

end BareBones.Lib.Views
