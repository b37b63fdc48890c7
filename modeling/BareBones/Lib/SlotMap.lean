import Mathlib.Data.Finmap
import Mathlib.Data.Finset.Card

/-!
# Slot tables as finite maps

A table of `N` slots, each empty or with a key and a value, stands for a finite map if no
key occurs twice (`Represents`).  A linear search for a key is then the lookup of the map,
a search for an empty slot fails exactly if the map has `N` keys, and filling, overwriting
and clearing a slot are insertion and deletion of a key, wherever the slot lies and
whatever has been in it before.
-/

namespace BareBones.Lib

variable {κ : Type*} {ν : Type*}

/-- The slots that are not empty. -/
def occupied (N : Nat) (slots : Nat → Option (κ × ν)) : Finset Nat :=
  (Finset.range N).filter fun i ↦ (slots i).isSome

theorem mem_occupied {N i : Nat} {slots : Nat → Option (κ × ν)} :
    i ∈ occupied N slots ↔ i < N ∧ (slots i).isSome := by
  rw [occupied, Finset.mem_filter, Finset.mem_range]

variable [DecidableEq κ]

/-- The table stands for the map. -/
structure Represents (N : Nat) (slots : Nat → Option (κ × ν)) (m : Finmap fun _ : κ ↦ ν) :
    Prop where
  distinct : ∀ i < N, ∀ j < N, ∀ k v w, slots i = some (k, v) → slots j = some (k, w) → i = j
  lookup : ∀ k v, m.lookup k = some v ↔ ∃ i < N, slots i = some (k, v)
  card : m.keys.card = (occupied N slots).card

variable {N : Nat} {slots slots' : Nat → Option (κ × ν)} {m : Finmap fun _ : κ ↦ ν}
  {i : Nat} {k : κ} {v w : ν}

theorem keys_insert (m : Finmap fun _ : κ ↦ ν) (k : κ) (v : ν) :
    (m.insert k v).keys = insert k m.keys := by
  ext j
  rw [Finmap.mem_keys, Finmap.mem_insert, Finset.mem_insert, Finmap.mem_keys]

namespace Represents

/-- An empty table stands for the empty map. -/
theorem empty (hslots : ∀ i < N, slots i = none) : Represents N slots ∅ := by
  constructor
  · intro i hi j _ k v w hiv
    rw [hslots i hi] at hiv
    cases hiv
  · intro k v
    constructor
    · intro hv
      rw [Finmap.lookup_empty] at hv
      cases hv
    · rintro ⟨i, hi, hiv⟩
      rw [hslots i hi] at hiv
      cases hiv
  · have hnone : occupied N slots = ∅ := by
      refine Finset.filter_eq_empty_iff.mpr fun i hi ↦ ?_
      rw [hslots i (Finset.mem_range.mp hi)]
      exact Bool.false_ne_true
    rw [hnone, Finmap.keys_empty]
    rfl

theorem card_le (h : Represents N slots m) : m.keys.card ≤ N := by
  rw [h.card]
  exact (Finset.card_filter_le _ _).trans (Finset.card_range N).le

/-- **Searching for a key** is the lookup of the map. -/
theorem find (h : Represents N slots m) {P : Nat → Bool} (k : κ)
    (hP : ∀ i < N, P i = true ↔ ∃ v, slots i = some (k, v)) :
    (∃ i v, (List.range N).find? P = some i ∧ i < N ∧ slots i = some (k, v) ∧
        m.lookup k = some v) ∨
      ((List.range N).find? P = none ∧ m.lookup k = none) := by
  cases hfind : (List.range N).find? P with
  | some i =>
      have hi := List.mem_range.mp (List.mem_of_find?_eq_some hfind)
      obtain ⟨v, hv⟩ := (hP i hi).mp (List.find?_some hfind)
      exact .inl ⟨i, v, rfl, hi, hv, (h.lookup k v).mpr ⟨i, hi, hv⟩⟩
  | none =>
      refine .inr ⟨rfl, Option.eq_none_iff_forall_ne_some.mpr fun v hv ↦ ?_⟩
      obtain ⟨i, hi, hiv⟩ := (h.lookup k v).mp hv
      exact List.find?_eq_none.mp hfind i (List.mem_range.mpr hi) ((hP i hi).mpr ⟨v, hiv⟩)

/-- **Searching for an empty slot** fails exactly if the map is full. -/
theorem findFree (h : Represents N slots m) {P : Nat → Bool}
    (hP : ∀ i < N, P i = true ↔ slots i = none) :
    (∃ i, (List.range N).find? P = some i ∧ i < N ∧ slots i = none ∧ m.keys.card < N) ∨
      ((List.range N).find? P = none ∧ m.keys.card = N) := by
  cases hfind : (List.range N).find? P with
  | some i =>
      have hi := List.mem_range.mp (List.mem_of_find?_eq_some hfind)
      have hnone := (hP i hi).mp (List.find?_some hfind)
      refine .inl ⟨i, rfl, hi, hnone, ?_⟩
      have hlt : occupied N slots ⊂ Finset.range N := by
        refine Finset.filter_ssubset.mpr ⟨i, Finset.mem_range.mpr hi, ?_⟩
        rw [hnone]
        exact Bool.false_ne_true
      calc m.keys.card = (occupied N slots).card := h.card
        _ < (Finset.range N).card := Finset.card_lt_card hlt
        _ = N := Finset.card_range N
  | none =>
      have hfull : occupied N slots = Finset.range N := by
        refine Finset.filter_eq_self.mpr fun i hi ↦ ?_
        have hP' := List.find?_eq_none.mp hfind i (List.mem_range.mpr (Finset.mem_range.mp hi))
        rw [hP i (Finset.mem_range.mp hi)] at hP'
        exact Option.isSome_iff_ne_none.mpr hP'
      exact .inr ⟨rfl, by rw [h.card, hfull, Finset.card_range]⟩

/-- Only slot `i` has changed, and now holds the key `k`, which no other slot holds. -/
theorem set (h : Represents N slots m) (hi : i < N) (hset : slots' i = some (k, v))
    (hother : ∀ j < N, j ≠ i → slots' j = slots j)
    (hkey : ∀ j < N, j ≠ i → ∀ w, slots j ≠ some (k, w))
    (hold : ∀ k' w, slots i = some (k', w) → k' = k) :
    (∀ i' < N, ∀ j < N, ∀ k v w, slots' i' = some (k, v) → slots' j = some (k, w) → i' = j) ∧
      ∀ k' w, (m.insert k v).lookup k' = some w ↔ ∃ j < N, slots' j = some (k', w) := by
  constructor
  · intro a ha b hb k' v' w' hav hbw
    by_cases hai : a = i <;> by_cases hbi : b = i
    · rw [hai, hbi]
    · rw [hai, hset] at hav
      cases hav
      exact absurd ((hother b hb hbi).symm.trans hbw) (hkey b hb hbi w')
    · rw [hbi, hset] at hbw
      cases hbw
      exact absurd ((hother a ha hai).symm.trans hav) (hkey a ha hai v')
    · rw [hother a ha hai] at hav
      rw [hother b hb hbi] at hbw
      exact h.distinct a ha b hb k' v' w' hav hbw
  · intro k' w
    by_cases hk : k' = k
    · rw [hk, Finmap.lookup_insert]
      constructor
      · intro hw
        exact ⟨i, hi, by rw [hset, Option.some.inj hw]⟩
      · rintro ⟨j, hj, hjw⟩
        by_cases hji : j = i
        · rw [hji, hset] at hjw
          cases hjw
          rfl
        · exact absurd ((hother j hj hji).symm.trans hjw) (hkey j hj hji w)
    · rw [Finmap.lookup_insert_of_ne _ hk, h.lookup]
      constructor
      · rintro ⟨j, hj, hjw⟩
        have hji : j ≠ i := fun hji ↦ hk (hold k' w (hji ▸ hjw))
        exact ⟨j, hj, by rw [hother j hj hji]; exact hjw⟩
      · rintro ⟨j, hj, hjw⟩
        by_cases hji : j = i
        · rw [hji, hset] at hjw
          cases hjw
          exact absurd rfl hk
        · exact ⟨j, hj, by rw [← hother j hj hji]; exact hjw⟩

/-- **Filling an empty slot** with a new key is an insertion. -/
theorem insert (h : Represents N slots m) (hi : i < N) (hempty : slots i = none)
    (hk : m.lookup k = none) (hset : slots' i = some (k, v))
    (hother : ∀ j < N, j ≠ i → slots' j = slots j) : Represents N slots' (m.insert k v) := by
  have hkey : ∀ j < N, j ≠ i → ∀ w, slots j ≠ some (k, w) := by
    intro j hj _ w hjw
    rw [(h.lookup k w).mpr ⟨j, hj, hjw⟩] at hk
    cases hk
  obtain ⟨hdistinct, hlookup⟩ := h.set hi hset hother hkey fun k' w hw ↦ by
    rw [hempty] at hw
    cases hw
  refine ⟨hdistinct, hlookup, ?_⟩
  have hoccupied : occupied N slots' = Insert.insert i (occupied N slots) := by
    ext j
    rw [Finset.mem_insert, mem_occupied, mem_occupied]
    by_cases hji : j = i
    · rw [hji, hset]
      simp [hi]
    · constructor
      · rintro ⟨hj, hsome⟩
        exact .inr ⟨hj, by rw [← hother j hj hji]; exact hsome⟩
      · rintro (rfl | ⟨hj, hsome⟩)
        · exact absurd rfl hji
        · exact ⟨hj, by rw [hother j hj hji]; exact hsome⟩
  have hi' : i ∉ occupied N slots := by
    rw [mem_occupied, hempty]
    simp
  rw [keys_insert, Finset.card_insert_of_notMem, hoccupied, Finset.card_insert_of_notMem hi',
    h.card]
  rw [Finmap.mem_keys]
  exact Finmap.lookup_eq_none.mp hk

/-- **Overwriting a slot** under its key is an insertion. -/
theorem update (h : Represents N slots m) (hi : i < N) (hfull : slots i = some (k, w))
    (hset : slots' i = some (k, v)) (hother : ∀ j < N, j ≠ i → slots' j = slots j) :
    Represents N slots' (m.insert k v) := by
  obtain ⟨hdistinct, hlookup⟩ := h.set hi hset hother
    (fun j hj hji w' hjw ↦ hji (h.distinct j hj i hi k w' w hjw hfull))
    fun k' w' hw ↦ by
      rw [hfull] at hw
      cases hw
      rfl
  refine ⟨hdistinct, hlookup, ?_⟩
  have hoccupied : occupied N slots' = occupied N slots := by
    refine Finset.filter_congr fun j hj ↦ ?_
    by_cases hji : j = i
    · rw [hji, hset, hfull]
      rfl
    · rw [hother j (Finset.mem_range.mp hj) hji]
  have hmem : k ∈ m.keys := by
    rw [Finmap.mem_keys]
    exact Finmap.mem_of_lookup_eq_some ((h.lookup k w).mpr ⟨i, hi, hfull⟩)
  rw [keys_insert, Finset.insert_eq_of_mem hmem, hoccupied, h.card]

/-- **Clearing a slot** is a deletion. -/
theorem erase (h : Represents N slots m) (hi : i < N) (hfull : slots i = some (k, w))
    (hclear : slots' i = none) (hother : ∀ j < N, j ≠ i → slots' j = slots j) :
    Represents N slots' (m.erase k) := by
  have hsub : ∀ j < N, ∀ e, slots' j = some e → j ≠ i ∧ slots j = some e := by
    intro j hj e hje
    have hji : j ≠ i := by
      rintro rfl
      rw [hclear] at hje
      cases hje
    exact ⟨hji, by rw [← hother j hj hji]; exact hje⟩
  constructor
  · intro a ha b hb k' v' w' hav hbw
    exact h.distinct a ha b hb k' v' w' (hsub a ha _ hav).2 (hsub b hb _ hbw).2
  · intro k' v'
    by_cases hk : k' = k
    · rw [hk, Finmap.lookup_erase]
      constructor
      · intro hv
        cases hv
      · rintro ⟨j, hj, hjv⟩
        obtain ⟨hji, hjv⟩ := hsub j hj _ hjv
        exact absurd (h.distinct j hj i hi k v' w hjv hfull) hji
    · rw [Finmap.lookup_erase_ne hk, h.lookup]
      constructor
      · rintro ⟨j, hj, hjv⟩
        have hji : j ≠ i := by
          rintro rfl
          rw [hfull] at hjv
          cases hjv
          exact hk rfl
        exact ⟨j, hj, by rw [hother j hj hji]; exact hjv⟩
      · rintro ⟨j, hj, hjv⟩
        exact ⟨j, hj, (hsub j hj _ hjv).2⟩
  · have hoccupied : occupied N slots' = (occupied N slots).erase i := by
      ext j
      rw [Finset.mem_erase, mem_occupied, mem_occupied]
      constructor
      · rintro ⟨hj, hsome⟩
        obtain ⟨e, he⟩ := Option.isSome_iff_exists.mp hsome
        obtain ⟨hji, he⟩ := hsub j hj e he
        exact ⟨hji, hj, by rw [he]; rfl⟩
      · rintro ⟨hji, hj, hsome⟩
        exact ⟨hj, by rw [hother j hj hji]; exact hsome⟩
    have hmem : i ∈ occupied N slots := by
      rw [mem_occupied, hfull]
      exact ⟨hi, rfl⟩
    have hkey : k ∈ m.keys := by
      rw [Finmap.mem_keys]
      exact Finmap.mem_of_lookup_eq_some ((h.lookup k w).mpr ⟨i, hi, hfull⟩)
    rw [Finmap.keys_erase, Finset.card_erase_of_mem hkey, hoccupied, Finset.card_erase_of_mem hmem,
      h.card]

end Represents

end BareBones.Lib
