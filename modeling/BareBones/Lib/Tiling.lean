import Mathlib.Data.List.Basic
import Mathlib.Data.List.Chain

/-!
# Tilings of an interval

A list of half-open intervals *tiles* `[lo, hi)` when the first starts at `lo`,
each one ends where the next begins, and the last ends at `hi`.  Memory
managers keep their blocks in such a list; what they need from it is that two
blocks never overlap, so that an address picks out at most one of them.
-/

namespace BareBones.Lib

/-- The intervals of the list, given as pairs `(start, end)`, tile `[lo, hi)`. -/
def Tiles : Nat → Nat → List (Nat × Nat) → Prop
  | lo, hi, [] => lo = hi
  | lo, hi, i :: is => i.1 = lo ∧ i.1 ≤ i.2 ∧ Tiles i.2 hi is

namespace Tiles

variable {lo mid hi : Nat} {is js : List (Nat × Nat)}

@[simp] theorem nil_iff : Tiles lo hi [] ↔ lo = hi := Iff.rfl

@[simp] theorem cons_iff {i : Nat × Nat} :
    Tiles lo hi (i :: is) ↔ i.1 = lo ∧ i.1 ≤ i.2 ∧ Tiles i.2 hi is := Iff.rfl

/-- A tiled interval is not reversed. -/
theorem le (h : Tiles lo hi is) : lo ≤ hi := by
  induction is generalizing lo with
  | nil => exact le_of_eq h
  | cons i is ih =>
      obtain ⟨rfl, hle, hrest⟩ := h
      exact hle.trans (ih hrest)

/-- Tilings of adjacent intervals concatenate. -/
theorem append (h : Tiles lo mid is) (h' : Tiles mid hi js) : Tiles lo hi (is ++ js) := by
  induction is generalizing lo with
  | nil =>
      cases h
      exact h'
  | cons i is ih => exact ⟨h.1, h.2.1, ih h.2.2⟩

/-- Every tile lies inside the tiled interval. -/
theorem bounds (h : Tiles lo hi is) {i : Nat × Nat} (hi' : i ∈ is) :
    lo ≤ i.1 ∧ i.1 ≤ i.2 ∧ i.2 ≤ hi := by
  induction is generalizing lo with
  | nil => cases hi'
  | cons j is ih =>
      obtain ⟨rfl, hle, hrest⟩ := h
      rcases List.mem_cons.mp hi' with rfl | hmem
      · exact ⟨le_refl _, hle, hrest.le⟩
      · obtain ⟨h₁, h₂, h₃⟩ := ih hrest hmem
        exact ⟨hle.trans h₁, h₂, h₃⟩

/-- Two tiles at different places in the list do not overlap: the earlier one
ends before the later one begins. -/
theorem pairwise (h : Tiles lo hi is) : is.Pairwise fun i j ↦ i.2 ≤ j.1 := by
  induction is generalizing lo with
  | nil => exact List.Pairwise.nil
  | cons i is ih =>
      exact List.Pairwise.cons (fun j hj ↦ (h.2.2.bounds hj).1) (ih h.2.2)

/-- Two different tiles do not overlap. -/
theorem disjoint (h : Tiles lo hi is) {i j : Nat × Nat} (hi' : i ∈ is) (hj : j ∈ is)
    (hne : i ≠ j) : i.2 ≤ j.1 ∨ j.2 ≤ i.1 := by
  have hsymm : Std.Symm fun i j : Nat × Nat ↦ i.2 ≤ j.1 ∨ j.2 ≤ i.1 := ⟨fun _ _ ↦ Or.symm⟩
  have hapart : is.Pairwise fun i j ↦ i.2 ≤ j.1 ∨ j.2 ≤ i.1 := h.pairwise.imp Or.inl
  exact hapart.forall hi' hj hne

end Tiles

end BareBones.Lib
