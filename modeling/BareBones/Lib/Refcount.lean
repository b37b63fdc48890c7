import Mathlib.Logic.Function.Basic
import Mathlib.Order.BooleanAlgebra.Set

/-!
# Reference counts

A heap of objects that carry a counter each.  `Counted` says what the counters mean: the
counter of an object is the number of references to it, and an object is alive as long as
there are any, or if it is *fresh*: created, and not referred to yet.

An object comes to life without references (`Counted.alloc`), gains (`Counted.acquire`) and
loses references (`Counted.drop`), and is freed without references (`Counted.free`).  What
the references are, is left open: the objects of one heap may be the references of another.
-/

namespace BareBones.Lib

variable {α : Type*}

/-- The counters count the references. -/
structure Counted (counter : α → Option Int) (refs : α → Nat) (fresh : Set α) : Prop where
  count : ∀ a n, counter a = some n → n = refs a
  live : ∀ a, counter a ≠ none ↔ 0 < refs a ∨ a ∈ fresh
  unused : ∀ a ∈ fresh, refs a = 0

namespace Counted

variable {counter counter' : α → Option Int} {refs refs' : α → Nat} {fresh : Set α} {a : α}
    {n : Int}

theorem refs_eq_zero (h : Counted counter refs fresh) (ha : counter a = none) : refs a = 0 := by
  by_contra hrefs
  exact (h.live a).mpr (.inl (Nat.pos_of_ne_zero hrefs)) ha

theorem notMem_fresh (h : Counted counter refs fresh) (ha : 0 < refs a) :
    a ∉ fresh := fun hfresh ↦ by
  have hzero := h.unused a hfresh
  omega

theorem live_of_pos (h : Counted counter refs fresh) (ha : 0 < refs a) : ∃ n, counter a = some n :=
  Option.ne_none_iff_exists'.mp ((h.live a).mpr (.inl ha))

theorem live_of_fresh (h : Counted counter refs fresh) (ha : a ∈ fresh) : ∃ n, counter a = some n :=
  Option.ne_none_iff_exists'.mp ((h.live a).mpr (.inr ha))

/-- If nothing is fresh, **an object is alive exactly as long as there are references to
it**. -/
theorem none_iff (h : Counted counter refs ∅) (a : α) : counter a = none ↔ refs a = 0 := by
  have hlive := h.live a
  rw [or_iff_left (Set.notMem_empty a)] at hlive
  rw [← not_iff_not]
  exact hlive.trans Nat.pos_iff_ne_zero

theorem congr (h : Counted counter refs fresh) (hcounter : ∀ a, counter' a = counter a)
    (hrefs : ∀ a, refs' a = refs a) : Counted counter' refs' fresh := by
  obtain rfl : counter' = counter := funext hcounter
  obtain rfl : refs' = refs := funext hrefs
  exact h

/-- An object is created. -/
theorem alloc (h : Counted counter refs fresh) (ha : counter a = none) (hself : counter' a = some 0)
    (hother : ∀ b, b ≠ a → counter' b = counter b) : Counted counter' refs (insert a fresh) := by
  have hzero := h.refs_eq_zero ha
  refine ⟨fun b n hb ↦ ?_, fun b ↦ ?_, fun b hb ↦ ?_⟩
  · by_cases hba : b = a
    · subst hba
      rw [hself] at hb
      cases hb
      rw [hzero]
      rfl
    · rw [hother b hba] at hb
      exact h.count b n hb
  · by_cases hba : b = a
    · subst hba
      exact iff_of_true (by rw [hself]; simp) (.inr (Set.mem_insert b fresh))
    · rw [hother b hba, h.live b, Set.mem_insert_iff, or_iff_right hba]
  · rcases Set.mem_insert_iff.mp hb with rfl | hb
    · exact hzero
    · exact h.unused b hb

/-- One more reference. -/
theorem acquire (h : Counted counter refs fresh) (ha : counter a = some n)
    (hself : counter' a = some (n + 1)) (hother : ∀ b, b ≠ a → counter' b = counter b)
    (hrefs : refs' a = refs a + 1) (hrest : ∀ b, b ≠ a → refs' b = refs b) :
    Counted counter' refs' (fresh \ {a}) := by
  have hn := h.count a n ha
  refine ⟨fun b k hb ↦ ?_, fun b ↦ ?_, fun b hb ↦ ?_⟩
  · by_cases hba : b = a
    · subst hba
      rw [hself] at hb
      cases hb
      omega
    · rw [hother b hba] at hb
      rw [hrest b hba]
      exact h.count b k hb
  · by_cases hba : b = a
    · subst hba
      exact iff_of_true (by rw [hself]; simp) (.inl (by omega))
    · rw [hother b hba, hrest b hba, h.live b, Set.mem_sdiff, Set.mem_singleton_iff,
        and_iff_left hba]
  · obtain ⟨hb, hba⟩ := hb
    rw [hrest b hba]
    exact h.unused b hb

/-- One reference less.  If it was the last one, the object is to be freed. -/
theorem drop (h : Counted counter refs fresh) (ha : counter a = some n)
    (hself : counter' a = some (n - 1)) (hother : ∀ b, b ≠ a → counter' b = counter b)
    (hrefs : refs a = refs' a + 1) (hrest : ∀ b, b ≠ a → refs' b = refs b) :
    Counted counter' refs' (if n - 1 ≤ 0 then insert a fresh else fresh) := by
  have hn := h.count a n ha
  have hnot := h.notMem_fresh (a := a) (by omega)
  refine ⟨fun b k hb ↦ ?_, fun b ↦ ?_, fun b hb ↦ ?_⟩
  · by_cases hba : b = a
    · subst hba
      rw [hself] at hb
      cases hb
      omega
    · rw [hother b hba] at hb
      rw [hrest b hba]
      exact h.count b k hb
  · by_cases hba : b = a
    · subst hba
      refine iff_of_true (by rw [hself]; simp) ?_
      split
      · exact .inr (Set.mem_insert b fresh)
      · exact .inl (by omega)
    · rw [hother b hba, hrest b hba, h.live b]
      split
      · rw [Set.mem_insert_iff, or_iff_right hba]
      · rfl
  · by_cases hba : b = a
    · subst hba
      split at hb
      · omega
      · exact absurd hb hnot
    · rw [hrest b hba]
      split at hb
      · exact h.unused b (Set.mem_of_mem_insert_of_ne hb hba)
      · exact h.unused b hb

/-- An object without references is freed. -/
theorem free (h : Counted counter refs fresh) (ha : a ∈ fresh) (hself : counter' a = none)
    (hother : ∀ b, b ≠ a → counter' b = counter b) : Counted counter' refs (fresh \ {a}) := by
  have hzero := h.unused a ha
  refine ⟨fun b n hb ↦ ?_, fun b ↦ ?_, fun b hb ↦ h.unused b hb.1⟩
  · by_cases hba : b = a
    · subst hba
      rw [hself] at hb
      cases hb
    · rw [hother b hba] at hb
      exact h.count b n hb
  · by_cases hba : b = a
    · subst hba
      refine iff_of_false (fun hb ↦ hb hself) ?_
      rintro (hpos | hmem)
      · omega
      · exact hmem.2 rfl
    · rw [hother b hba, h.live b, Set.mem_sdiff, Set.mem_singleton_iff, and_iff_left hba]

/-- The last reference is given up and the object is freed, or there are others. -/
theorem release (h : Counted counter refs fresh) (ha : counter a = some n)
    (hself : counter' a = if n - 1 ≤ 0 then none else some (n - 1))
    (hother : ∀ b, b ≠ a → counter' b = counter b)
    (hrefs : refs a = refs' a + 1) (hrest : ∀ b, b ≠ a → refs' b = refs b) :
    Counted counter' refs' fresh := by
  classical
  have hnot := h.notMem_fresh (a := a) (by omega)
  have hdrop : Counted (Function.update counter a (some (n - 1))) refs' _ :=
    h.drop ha (Function.update_self _ _ _) (fun b hb ↦ Function.update_of_ne hb _ _) hrefs hrest
  by_cases hlast : n - 1 ≤ 0
  · rw [if_pos hlast] at hdrop hself
    have hfree := hdrop.free (Set.mem_insert a fresh) hself fun b hb ↦ by
      rw [hother b hb, Function.update_of_ne hb]
    rwa [Set.insert_sdiff_of_mem _ (Set.mem_singleton a), Set.sdiff_singleton_eq_self hnot] at hfree
  · rw [if_neg hlast] at hdrop hself
    refine hdrop.congr (fun b ↦ ?_) fun _ ↦ rfl
    by_cases hb : b = a
    · rw [hb, hself, Function.update_self]
    · rw [hother b hb, Function.update_of_ne hb]

end Counted

end BareBones.Lib
