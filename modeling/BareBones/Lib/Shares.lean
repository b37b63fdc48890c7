import Mathlib.Algebra.GroupWithZero.Nat
import Mathlib.Data.List.Count
import Mathlib.Data.List.Rotate

/-!
# Rotations with shares

In a rotation of the elements of a list `order`, in which `c` has the turn for `share c`
slots before the next element takes over, the slots of one round are `shares share order`,
and slot `n` of the endless rotation is entry `n` of that list modulo its length.  Passing
the turn on is `shares_rotate`; every window as long as a round, wherever it starts, holds
`share c` slots of `c` (`count_window`).
-/

namespace BareBones.Lib

variable {α : Type*} {share : α → Nat} {order : List α} {c : α} {n : Nat}

/-- The slots of one round. -/
def shares (share : α → Nat) (order : List α) : List α :=
  order.flatMap fun c ↦ List.replicate (share c) c

@[simp] theorem shares_nil (share : α → Nat) : shares share [] = [] := rfl

@[simp] theorem shares_cons (share : α → Nat) (c : α) (order : List α) :
    shares share (c :: order) = List.replicate (share c) c ++ shares share order :=
  List.flatMap_cons

theorem shares_append (share : α → Nat) (order order' : List α) :
    shares share (order ++ order') = shares share order ++ shares share order' :=
  List.flatMap_append

@[simp] theorem length_shares (share : α → Nat) (order : List α) :
    (shares share order).length = (order.map share).sum := by
  induction order with
  | nil => rfl
  | cons c order ih =>
      rw [shares_cons, List.length_append, List.length_replicate, ih, List.map_cons, List.sum_cons]

/-- Once `c` has had its slots, the round goes on with the others. -/
theorem shares_rotate (share : α → Nat) (c : α) (order : List α) :
    shares share (order ++ [c]) = (shares share (c :: order)).rotate (share c) := by
  have hrotate := List.rotate_append_length_eq (List.replicate (share c) c) (shares share order)
  rw [List.length_replicate] at hrotate
  rw [shares_cons, hrotate, shares_append, shares_cons, shares_nil, List.append_nil]

theorem length_shares_rotate (share : α → Nat) (c : α) (order : List α) :
    (shares share (order ++ [c])).length = (shares share (c :: order)).length := by
  rw [shares_rotate, List.length_rotate]

/-- A slot of `c`'s turn. -/
theorem slot_turn (hn : n < share c) :
    (shares share (c :: order))[n % (shares share (c :: order)).length]? = some c := by
  have hlength : (shares share (c :: order)).length = share c + (shares share order).length := by
    rw [shares_cons, List.length_append, List.length_replicate]
  rw [Nat.mod_eq_of_lt (by omega), shares_cons, List.getElem?_append_left (by simpa using hn),
    List.getElem?_replicate, if_pos hn]

/-- A slot after `c`'s turn is one of the rotation that `c` has left at the end. -/
theorem slot_rotate (hn : share c ≤ n) (hpos : 0 < share c) :
    (shares share (order ++ [c]))[(n - share c) % (shares share (order ++ [c])).length]? =
      (shares share (c :: order))[n % (shares share (c :: order)).length]? := by
  have hlength : 0 < (shares share (c :: order)).length := by
    rw [shares_cons, List.length_append, List.length_replicate]
    omega
  rw [length_shares_rotate, shares_rotate, List.getElem?_rotate (Nat.mod_lt _ hlength),
    Nat.mod_add_mod, Nat.sub_add_cancel hn]

variable [DecidableEq α]

theorem count_shares (hnodup : order.Nodup) (hc : c ∈ order) :
    (shares share order).count c = share c := by
  induction order with
  | nil => cases hc
  | cons d order ih =>
      obtain ⟨hd, hnodup⟩ := List.nodup_cons.mp hnodup
      rw [shares_cons, List.count_append, List.count_replicate]
      rcases List.mem_cons.mp hc with rfl | hc
      · have hzero : (shares share order).count c = 0 := by
          rw [List.count_eq_zero]
          intro hmem
          obtain ⟨e, he, hrep⟩ := List.mem_flatMap.mp hmem
          rw [List.eq_of_mem_replicate hrep] at hd
          exact hd he
        rw [hzero, beq_self_eq_true, if_pos rfl, Nat.add_zero]
      · have hne : d ≠ c := fun heq ↦ hd (heq ▸ hc)
        rw [beq_eq_false_iff_ne.mpr hne, if_neg (by simp), ih hnodup hc, Nat.zero_add]

/-- Counting the entries of a list by their indices. -/
theorem countP_range_getElem? (l : List α) (c : α) :
    ((List.range l.length).countP fun i ↦ l[i]? = some c) = l.count c := by
  have hmap : (List.range l.length).map (fun i ↦ l[i]?) = l.map some := by
    refine List.ext_getElem? fun i ↦ ?_
    rw [List.getElem?_map, List.getElem?_map]
    by_cases hi : i < l.length
    · rw [List.getElem?_range hi, List.getElem?_eq_getElem hi]
      simp [hi]
    · rw [List.getElem?_eq_none (by simpa using hi), List.getElem?_eq_none (by simpa using hi)]
      rfl
  calc ((List.range l.length).countP fun i ↦ l[i]? = some c)
      = ((List.range l.length).map fun i ↦ l[i]?).count (some c) := by
        rw [List.count, List.countP_map]
        refine List.countP_congr fun i _ ↦ ?_
        simp
    _ = (l.map some).count (some c) := by rw [hmap]
    _ = l.count c := List.count_map_of_injective l some (fun _ _ ↦ Option.some.inj) c

/-- **Every window as long as a round gives `c` its share.** -/
theorem count_window (hnodup : order.Nodup) (hc : c ∈ order) (n : Nat) :
    ((List.range (shares share order).length).countP fun i ↦
      (shares share order)[(n + i) % (shares share order).length]? = some c) = share c := by
  have hrotate : ∀ i ∈ List.range (shares share order).length,
      (decide ((shares share order)[(n + i) % (shares share order).length]? = some c) = true ↔
        decide (((shares share order).rotate n)[i]? = some c) = true) := by
    intro i hi
    rw [List.getElem?_rotate (List.mem_range.mp hi), Nat.add_comm i n]
  rw [List.countP_congr hrotate, ← List.length_rotate (shares share order) n,
    countP_range_getElem?, (List.rotate_perm _ _).count_eq, count_shares hnodup hc]

end BareBones.Lib
