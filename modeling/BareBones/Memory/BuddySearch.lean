import BareBones.Memory.BuddyTree

/-!
# What a search of the buddy tree finds

`Tree.alloc` walks the blocks from low to high.  It passes over those that are in
use or too small, takes a free block of exactly the requested order, and starts to
halve the first larger one it meets; each halving takes two slots from the reserve.

So three facts about the blocks decide its outcome: whether some free block has
exactly the order (`HasExact`), which free block is the first that is large enough
(`firstFit`), and how many slots are left (`Reserve.slots`).  `alloc_some_iff`
says when the search succeeds, `alloc_short` what it leaves behind when it runs out
of slots on the way, and `alloc_fresh` that a search which never runs out either
succeeds or changes nothing.
-/

namespace BareBones.Memory.Buddy

variable {req k o : Nat} {i : Int} {f : Bool} {t l r : Tree} {p p' : Reserve} {c : Leaf}

/-! ## The slots of the reserve -/

namespace Reserve

/-- The slots the reserve can still hand out: the recycled ones and those never
used. -/
def slots (p : Reserve) : Nat := p.recycled.length + (MAX_NODES - p.count).toNat

theorem slots_take {i : Int} (h : p.take = some (i, p')) : p.slots = p'.slots + 1 := by
  unfold take at h
  split at h
  next r rs hrec =>
      obtain ⟨-, rfl⟩ := Prod.mk.inj (Option.some.inj h)
      simp only [slots, hrec, List.length_cons]
      omega
  next hrec =>
      split at h
      · cases h
      next hlt =>
          obtain ⟨-, rfl⟩ := Prod.mk.inj (Option.some.inj h)
          simp only [slots, hrec, List.length_nil]
          omega

theorem slots_take_none (h : p.take = none) : p.slots = 0 := by
  unfold take at h
  split at h
  · cases h
  next hrec =>
      split at h
      next hge =>
          simp only [slots, hrec, List.length_nil]
          omega
      · cases h

theorem slots_give (p : Reserve) (i : Int) : (p.give i).slots = p.slots + 1 := by
  simp only [give, slots, List.length_cons]
  omega

/-- Two slots were there. -/
theorem slots_takeTwo {x : Int × Int} (h : p.takeTwo = (some x, p')) :
    p.slots = p'.slots + 2 := by
  unfold takeTwo at h
  split at h
  · cases h
  next i q hi =>
      split at h
      · cases h
      next j q' hj =>
          obtain ⟨-, rfl⟩ := Prod.mk.inj h
          rw [slots_take hi, slots_take hj]

/-- Two slots were not there. -/
theorem slots_takeTwo_none (h : p.takeTwo = (none, p')) : p.slots < 2 ∧ p'.slots = p.slots := by
  unfold takeTwo at h
  split at h
  next hnone =>
      obtain rfl := (Prod.mk.inj h).2
      rw [slots_take_none hnone]
      exact ⟨by decide, rfl⟩
  next i q hi =>
      split at h
      next hnone =>
          obtain rfl := (Prod.mk.inj h).2
          rw [slots_give, slots_take hi, slots_take_none hnone]
          exact ⟨by decide, rfl⟩
      · cases h

end Reserve

/-! ## What a request looks for -/

/-- The block is free and has at least the order of the request. -/
def Leaf.holds (req : Nat) (c : Leaf) : Bool := c.isFree && decide (req ≤ c.order)

theorem Leaf.holds_iff : c.holds req = true ↔ c.isFree = true ∧ req ≤ c.order := by
  simp [holds]

/-- The lowest block that holds the request. -/
def firstFit (req : Nat) (ls : List Leaf) : Option Leaf := ls.find? (Leaf.holds req)

/-- Some free block has exactly the order of the request. -/
def HasExact (req : Nat) (ls : List Leaf) : Prop := ∃ c ∈ ls, c.isFree = true ∧ c.order = req

theorem firstFit_append (ls ms : List Leaf) :
    firstFit req (ls ++ ms) = (firstFit req ls).or (firstFit req ms) := List.find?_append

theorem HasExact.append {ls ms : List Leaf} :
    HasExact req (ls ++ ms) ↔ HasExact req ls ∨ HasExact req ms := by
  simp only [HasExact, List.mem_append, or_and_right, exists_or]

theorem firstFit_eq_none {ls : List Leaf} :
    firstFit req ls = none ↔ ∀ c ∈ ls, c.holds req = false := by
  simp [firstFit]

theorem firstFit_some {ls : List Leaf} (h : firstFit req ls = some c) :
    c ∈ ls ∧ c.isFree = true ∧ req ≤ c.order :=
  ⟨List.mem_of_find?_eq_some h, Leaf.holds_iff.mp (List.find?_some h)⟩

/-- A tree smaller than the request holds no block for it. -/
theorem Tree.Fits.firstFit_small (ht : t.Fits k) (h : k < req) (o : Nat) :
    firstFit req (t.leaves k o) = none := by
  refine firstFit_eq_none.mpr fun c hc ↦ ?_
  have hle := (ht.order_le hc).2
  have hlt : ¬req ≤ c.order := by omega
  simp [Leaf.holds, hlt]

/-- A tree has a block at its own offset. -/
theorem Tree.exists_leaf_at (t : Tree) (k o : Nat) :
    ∃ d ∈ t.leaves k o, d.offset = o ∧ d.order ≤ k := by
  induction t generalizing k o with
  | leaf i f => exact ⟨_, List.mem_singleton_self _, rfl, le_rfl⟩
  | node i f l r ihl _ =>
      obtain ⟨d, hd, hoffset, horder⟩ := ihl (k - 1) o
      exact ⟨d, List.mem_append_left _ hd, hoffset, by omega⟩

/-! ## Searching two halves -/

section Halves

variable {find : Tree → Reserve → Found}

theorem Tree.search_isSome : (search find i f l r p).result.isSome ↔
    (find l p).result.isSome ∨
      (find l p).result = none ∧ (find r (find l p).reserve).result.isSome := by
  cases hl : (find l p).result with
  | some a => simp [search_left hl]
  | none =>
      cases hr : (find r (find l p).reserve).result with
      | some a => simp [search_right hl hr]
      | none => simp [search_none hl hr]

end Halves

/-! ## Outcomes -/

/-- Nothing fits: the search fails and changes nothing. -/
theorem Tree.alloc_unfit (k o : Nat) (t : Tree) (p : Reserve) (ht : t.Fits k)
    (h : firstFit req (t.leaves k o) = none) : t.alloc req k p = ⟨t, p, none⟩ := by
  induction k generalizing t p o with
  | zero => rfl
  | succ k ih =>
      cases t with
      | leaf i f =>
          have hno : k + 1 < req ∨ f = false := by
            have hholds := firstFit_eq_none.mp h _ (List.mem_singleton_self _)
            by_contra hnot
            obtain ⟨hle, hfree⟩ := not_or.mp hnot
            have hfree' : f = true := by simpa using hfree
            simp [Leaf.holds, hfree', not_lt.mp hle] at hholds
          rw [alloc, if_pos hno]
      | node i f l r =>
          obtain ⟨-, hl, hr⟩ := ht
          rw [leaves, firstFit_append, Option.or_eq_none_iff] at h
          have hleft := ih o l p hl h.1
          have hright := ih (o + 2 ^ k) r p hr h.2
          rw [alloc]
          split
          · rfl
          · rw [search_none (by rw [hleft]) (by rw [hleft, hright]), hleft]
            simp only [hright]

/-- A free block of exactly the order is always found, even with no slot left. -/
theorem Tree.alloc_exact (k o : Nat) (t : Tree) (p : Reserve) (ht : t.Fits k)
    (h : HasExact req (t.leaves k o)) : (t.alloc req k p).result.isSome := by
  induction k generalizing t p o with
  | zero => exact absurd ht.le (by decide)
  | succ k ih =>
      obtain ⟨c, hc, hfree, horder⟩ := h
      have hle := (ht.order_le hc).2
      cases t with
      | leaf i f =>
          obtain rfl := List.mem_singleton.mp hc
          simp only at hfree horder
          simp [alloc, hfree, horder]
      | node i f l r =>
          obtain ⟨-, hl, hr⟩ := ht
          rw [alloc, if_neg (by omega), search_isSome]
          cases hleft : (l.alloc req k p).result with
          | some a => exact Or.inl rfl
          | none =>
              refine Or.inr ⟨rfl, ?_⟩
              rcases List.mem_append.mp hc with hc | hc
              · have hsome := ih o l p hl ⟨c, hc, hfree, horder⟩
                rw [hleft] at hsome
                cases hsome
              · exact ih (o + 2 ^ k) r _ hr ⟨c, hc, hfree, horder⟩

/-- Halving a free block down to the request takes two slots for each order. -/
theorem Tree.alloc_halve (hreq : MIN_ORDER ≤ req) (k : Nat) (i : Int) (p : Reserve)
    (hk : req ≤ k) (h : 2 * (k - req) ≤ p.slots) :
    ((leaf i true).alloc req k p).result.isSome := by
  induction k generalizing i p with
  | zero => exact absurd (hreq.trans hk) (by decide)
  | succ k ih =>
      rw [alloc, if_neg (by simp; omega)]
      split
      · rfl
      next hne =>
          split
          next p' htake =>
              have hshort := (Reserve.slots_takeTwo_none htake).1
              omega
          next a b p' htake =>
              have hslots := Reserve.slots_takeTwo htake
              exact search_isSome.mpr (Or.inl (ih a p' (by omega) (by omega)))

/-- Without enough slots the halving stops on the way, and the block stays cut. -/
theorem Tree.alloc_halve_short (hreq : MIN_ORDER ≤ req) (k : Nat) (i : Int) (p : Reserve)
    (hk : req ≤ k) (h : p.slots < 2 * (k - req)) :
    ((leaf i true).alloc req k p).result = none ∧
      ((leaf i true).alloc req k p).reserve.slots < 2 ∧
      (2 ≤ p.slots → ∀ o, ∃ d ∈ ((leaf i true).alloc req k p).tree.leaves k o,
        d.offset = o ∧ d.order < k) := by
  induction k generalizing i p with
  | zero => exact absurd (hreq.trans hk) (by decide)
  | succ k ih =>
      rw [alloc, if_neg (by simp; omega), if_neg (by omega)]
      split
      next p' htake =>
          obtain ⟨hshort, hsame⟩ := Reserve.slots_takeTwo_none htake
          exact ⟨rfl, hsame.trans_lt hshort, fun htwo ↦ absurd hshort (by omega)⟩
      next a b p' htake =>
          have hslots := Reserve.slots_takeTwo htake
          obtain ⟨hleft, hrest, -⟩ := ih a p' (by omega) (by omega)
          -- what is left of the reserve cannot halve the right half either
          obtain ⟨hright, hrest', -⟩ :=
            ih b ((leaf a true).alloc req k p').reserve (by omega) (by omega)
          rw [search_none hleft hright]
          refine ⟨rfl, hrest', fun _ o ↦ ?_⟩
          obtain ⟨d, hd, hoffset, horder⟩ := exists_leaf_at ((leaf a true).alloc req k p').tree k o
          exact ⟨d, List.mem_append_left _ hd, hoffset, Nat.lt_succ_of_le horder⟩

/-- With fewer than two slots no block is cut: the search finds an exact block or
leaves the tree alone. -/
theorem Tree.alloc_starved (k o : Nat) (t : Tree) (p : Reserve) (ht : t.Fits k)
    (h : p.slots < 2) (hno : ¬HasExact req (t.leaves k o)) :
    (t.alloc req k p).result = none ∧ (t.alloc req k p).tree = t ∧
      (t.alloc req k p).reserve.slots < 2 := by
  induction k generalizing t p o with
  | zero => exact absurd ht.le (by decide)
  | succ k ih =>
      cases t with
      | leaf i f =>
          rw [alloc]
          split
          · exact ⟨rfl, rfl, h⟩
          next hlt =>
              obtain ⟨-, hfree⟩ := not_or.mp hlt
              split
              next heq =>
                  have hfree' : f = true := by simpa using hfree
                  exact absurd ⟨_, List.mem_singleton_self _, hfree', heq⟩ hno
              next hne =>
                  split
                  next p' htake =>
                      have hsame := (Reserve.slots_takeTwo_none htake).2
                      exact ⟨rfl, rfl, hsame.trans_lt h⟩
                  next a b p' htake =>
                      have hslots := Reserve.slots_takeTwo htake
                      omega
      | node i f l r =>
          obtain ⟨-, hl, hr⟩ := ht
          rw [leaves, HasExact.append, not_or] at hno
          obtain ⟨hleft, htree, hslots⟩ := ih o l p hl h hno.1
          obtain ⟨hright, htree', hslots'⟩ := ih (o + 2 ^ k) r _ hr hslots hno.2
          rw [alloc]
          split
          · exact ⟨rfl, rfl, h⟩
          · rw [search_none hleft hright]
            exact ⟨rfl, by simp only [htree, htree'], hslots'⟩

/-- The slots suffice for the first block that fits, so the search succeeds. -/
theorem Tree.alloc_served (hreq : MIN_ORDER ≤ req) (k o : Nat) (t : Tree) (p : Reserve)
    (ht : t.Fits k) (hfirst : firstFit req (t.leaves k o) = some c)
    (h : 2 * (c.order - req) ≤ p.slots) : (t.alloc req k p).result.isSome := by
  induction k generalizing t p o with
  | zero => exact absurd ht.le (by decide)
  | succ k ih =>
      obtain ⟨hc, hfree, horder⟩ := firstFit_some hfirst
      have hle := (ht.order_le hc).2
      cases t with
      | leaf i f =>
          obtain rfl := List.mem_singleton.mp hc
          simp only at hfree horder h
          rw [hfree]
          exact alloc_halve hreq (k + 1) i p horder h
      | node i f l r =>
          obtain ⟨-, hl, hr⟩ := ht
          rw [leaves, firstFit_append] at hfirst
          rw [alloc, if_neg (by omega), search_isSome]
          rcases Option.or_eq_some_iff.mp hfirst with hleft | ⟨hnone, hright⟩
          · exact Or.inl (ih o l p hl hleft h)
          · have hsame := alloc_unfit k o l p hl hnone
            rw [hsame]
            exact Or.inr ⟨rfl, ih (o + 2 ^ k) r p hr hright h⟩

/-- **The search runs out of slots.**  It fails, at most one slot is left, and if
there were two to begin with then the first block that fits has been cut. -/
theorem Tree.alloc_short (hreq : MIN_ORDER ≤ req) (k o : Nat) (t : Tree) (p : Reserve)
    (ht : t.Fits k) (hno : ¬HasExact req (t.leaves k o))
    (hfirst : firstFit req (t.leaves k o) = some c) (h : p.slots < 2 * (c.order - req)) :
    (t.alloc req k p).result = none ∧ (t.alloc req k p).reserve.slots < 2 ∧
      (2 ≤ p.slots → ∃ d ∈ (t.alloc req k p).tree.leaves k o,
        d.offset = c.offset ∧ d.order < c.order) := by
  induction k generalizing t p o with
  | zero => exact absurd ht.le (by decide)
  | succ k ih =>
      obtain ⟨hc, hfree, horder⟩ := firstFit_some hfirst
      have hle := (ht.order_le hc).2
      cases t with
      | leaf i f =>
          obtain rfl := List.mem_singleton.mp hc
          simp only at hfree horder h
          rw [hfree]
          obtain ⟨hres, hslots, hcut⟩ := alloc_halve_short hreq (k + 1) i p horder h
          exact ⟨hres, hslots, fun htwo ↦ hcut htwo o⟩
      | node i f l r =>
          obtain ⟨-, hl, hr⟩ := ht
          rw [leaves, firstFit_append] at hfirst
          rw [leaves, HasExact.append, not_or] at hno
          rw [alloc, if_neg (by omega)]
          rcases Option.or_eq_some_iff.mp hfirst with hleft | ⟨hnone, hright⟩
          · obtain ⟨hres, hslots, hcut⟩ := ih o l p hl hno.1 hleft h
            obtain ⟨hres', -, hslots'⟩ := alloc_starved k (o + 2 ^ k) r _ hr hslots hno.2
            rw [search_none hres hres']
            refine ⟨rfl, hslots', fun htwo ↦ ?_⟩
            obtain ⟨d, hd, hplace⟩ := hcut htwo
            exact ⟨d, List.mem_append_left _ hd, hplace⟩
          · have hsame := alloc_unfit k o l p hl hnone
            obtain ⟨hres, hslots, hcut⟩ := ih (o + 2 ^ k) r p hr hno.2 hright h
            rw [search_none (by rw [hsame]) (by rw [hsame]; exact hres), hsame]
            refine ⟨rfl, hslots, fun htwo ↦ ?_⟩
            obtain ⟨d, hd, hplace⟩ := hcut htwo
            exact ⟨d, List.mem_append_right _ hd, hplace⟩

/-- A request is served when a free block of exactly its order exists, or the slots
suffice to halve the first block that fits. -/
def Served (req : Nat) (ls : List Leaf) (slots : Nat) : Prop :=
  HasExact req ls ∨ ∃ c, firstFit req ls = some c ∧ 2 * (c.order - req) ≤ slots

/-- **When a search succeeds.** -/
theorem Tree.alloc_isSome_iff (hreq : MIN_ORDER ≤ req) (k o : Nat) (t : Tree) (p : Reserve)
    (ht : t.Fits k) :
    (t.alloc req k p).result.isSome ↔ Served req (t.leaves k o) p.slots := by
  constructor
  · intro hsome
    by_contra hno
    obtain ⟨hexact, hserved⟩ := not_or.mp hno
    cases hfirst : firstFit req (t.leaves k o) with
    | none =>
        rw [alloc_unfit k o t p ht hfirst] at hsome
        cases hsome
    | some c =>
        have hshort : p.slots < 2 * (c.order - req) := by
          by_contra hge
          exact hserved ⟨c, hfirst, not_lt.mp hge⟩
        rw [(alloc_short hreq k o t p ht hexact hfirst hshort).1] at hsome
        cases hsome
  · rintro (hexact | ⟨c, hfirst, hslots⟩)
    · exact alloc_exact k o t p ht hexact
    · exact alloc_served hreq k o t p ht hfirst hslots

/-- A search only cuts free blocks: every block after it is a block from before, or
lies inside one that was free. -/
theorem Tree.alloc_within (hreq : MIN_ORDER ≤ req) (k o : Nat) (t : Tree) (p : Reserve)
    (ht : t.Fits k) {e : Leaf} (he : e ∈ (t.alloc req k p).tree.leaves k o) :
    e ∈ t.leaves k o ∨ ∃ d ∈ t.leaves k o, d.isFree = true ∧ d.offset ≤ e.offset ∧
      e.offset + 2 ^ e.order ≤ d.offset + 2 ^ d.order := by
  induction k generalizing t p o with
  | zero => exact absurd ht.le (by decide)
  | succ k ih =>
      cases t with
      | leaf i f =>
          cases f with
          | false =>
              rw [alloc, if_pos (Or.inr rfl)] at he
              exact Or.inl he
          | true =>
              have hin := ((leaf i true).alloc_spec hreq (k + 1) o p ht).fits.bounds he
              exact Or.inr ⟨_, List.mem_singleton_self _, rfl, hin⟩
      | node i f l r =>
          obtain ⟨-, hl, hr⟩ := ht
          have hlift : ∀ q, (e ∈ (l.alloc req k p).tree.leaves k o ∨
              e ∈ (r.alloc req k q).tree.leaves k (o + 2 ^ k) ∨ e ∈ r.leaves k (o + 2 ^ k)) →
              e ∈ (node i f l r).leaves (k + 1) o ∨ ∃ d ∈ (node i f l r).leaves (k + 1) o,
                d.isFree = true ∧ d.offset ≤ e.offset ∧
                  e.offset + 2 ^ e.order ≤ d.offset + 2 ^ d.order := by
            rintro q (hin | hin | hin)
            · rcases ih o l p hl hin with hold | ⟨d, hd, h⟩
              · exact Or.inl (List.mem_append_left _ hold)
              · exact Or.inr ⟨d, List.mem_append_left _ hd, h⟩
            · rcases ih (o + 2 ^ k) r q hr hin with hold | ⟨d, hd, h⟩
              · exact Or.inl (List.mem_append_right _ hold)
              · exact Or.inr ⟨d, List.mem_append_right _ hd, h⟩
            · exact Or.inl (List.mem_append_right _ hin)
          rw [alloc] at he
          split at he
          · exact Or.inl he
          · refine hlift (l.alloc req k p).reserve ?_
            cases hresl : (l.alloc req k p).result with
            | some a =>
                rw [search_left hresl] at he
                rcases List.mem_append.mp he with he | he
                · exact Or.inl he
                · exact Or.inr (Or.inr he)
            | none =>
                cases hresr : (r.alloc req k (l.alloc req k p).reserve).result with
                | some a =>
                    rw [search_right hresl hresr] at he
                    exact (List.mem_append.mp he).imp id Or.inl
                | none =>
                    rw [search_none hresl hresr] at he
                    exact (List.mem_append.mp he).imp id Or.inl

/-- A search that fails without ever running out of slots, or with fewer than two of
them, changes nothing. -/
theorem Tree.alloc_none (k o : Nat) (t : Tree) (p : Reserve) (hreq : MIN_ORDER ≤ req)
    (ht : t.Fits k) (hres : (t.alloc req k p).result = none)
    (h : (∀ c, firstFit req (t.leaves k o) = some c → 2 * (c.order - req) ≤ p.slots) ∨
      p.slots < 2) : (t.alloc req k p).tree = t := by
  have hserved := (alloc_isSome_iff hreq k o t p ht).not.mp (by rw [hres]; decide)
  obtain ⟨hexact, hslots⟩ := not_or.mp hserved
  rcases h with henough | hstarved
  · cases hfirst : firstFit req (t.leaves k o) with
    | none => rw [alloc_unfit k o t p ht hfirst]
    | some c => exact absurd ⟨c, hfirst, henough c hfirst⟩ hslots
  · exact (alloc_starved k o t p ht hstarved hexact).2.1

/-- Halving a block down to the request takes no more than two slots for each
order. -/
theorem Tree.alloc_halve_slots (hreq : MIN_ORDER ≤ req) (k : Nat) (i : Int) (p : Reserve)
    (hk : req ≤ k) (h : 2 * (k - req) ≤ p.slots) :
    p.slots ≤ ((leaf i true).alloc req k p).reserve.slots + 2 * (k - req) := by
  induction k generalizing i p with
  | zero => exact absurd (hreq.trans hk) (by decide)
  | succ k ih =>
      rw [alloc, if_neg (by simp; omega)]
      split
      · exact Nat.le_add_right _ _
      next hne =>
          split
          next p' htake =>
              have hshort := (Reserve.slots_takeTwo_none htake).1
              omega
          next a b p' htake =>
              have hslots := Reserve.slots_takeTwo htake
              have hsome := alloc_halve hreq k a p' (by omega) (by omega)
              obtain ⟨x, hx⟩ := Option.isSome_iff_exists.mp hsome
              have hleft := ih a p' (by omega) (by omega)
              rw [search_left hx]
              simp only
              omega

/-- A search that succeeds in the first block that fits takes no more slots than it
needs there. -/
theorem Tree.alloc_slots (hreq : MIN_ORDER ≤ req) (k o : Nat) (t : Tree) (p : Reserve)
    (ht : t.Fits k) (hfirst : firstFit req (t.leaves k o) = some c)
    (h : 2 * (c.order - req) ≤ p.slots) :
    p.slots ≤ (t.alloc req k p).reserve.slots + 2 * (c.order - req) := by
  induction k generalizing t p o with
  | zero => exact absurd ht.le (by decide)
  | succ k ih =>
      obtain ⟨hc, hfree, horder⟩ := firstFit_some hfirst
      have hle := (ht.order_le hc).2
      cases t with
      | leaf i f =>
          obtain rfl := List.mem_singleton.mp hc
          simp only at hfree horder h
          rw [hfree]
          exact alloc_halve_slots hreq (k + 1) i p horder h
      | node i f l r =>
          obtain ⟨-, hl, hr⟩ := ht
          rw [leaves, firstFit_append] at hfirst
          rw [alloc, if_neg (by omega)]
          rcases Option.or_eq_some_iff.mp hfirst with hleft | ⟨hnone, hright⟩
          · obtain ⟨x, hx⟩ := Option.isSome_iff_exists.mp (alloc_served hreq k o l p hl hleft h)
            rw [search_left hx]
            exact ih o l p hl hleft h
          · have hsame := alloc_unfit k o l p hl hnone
            obtain ⟨x, hx⟩ := Option.isSome_iff_exists.mp
              (alloc_served hreq k (o + 2 ^ k) r p hr hright h)
            rw [search_right (by rw [hsame]) (by rw [hsame]; exact hx), hsame]
            exact ih (o + 2 ^ k) r p hr hright h

/-- A search leaves no free block that is smaller than the request, unless there was
one before. -/
theorem Tree.alloc_free_ge {m : Nat} (hm : m ≤ req) (k o : Nat) (t : Tree) (p : Reserve)
    (h : ∀ e ∈ t.leaves k o, e.isFree = true → m ≤ e.order) :
    ∀ e ∈ (t.alloc req k p).tree.leaves k o, e.isFree = true → m ≤ e.order := by
  induction k generalizing t p o with
  | zero => exact h
  | succ k ih =>
      -- searching two halves keeps what holds of both
      have hsearch : ∀ (i : Int) (f : Bool) (l r : Tree) (p : Reserve),
          (∀ e ∈ l.leaves k o, e.isFree = true → m ≤ e.order) →
          (∀ e ∈ r.leaves k (o + 2 ^ k), e.isFree = true → m ≤ e.order) →
          ∀ e ∈ (search (alloc req k) i f l r p).tree.leaves (k + 1) o,
            e.isFree = true → m ≤ e.order := by
        intro i f l r p hl hr e he
        cases hresl : (l.alloc req k p).result with
        | some a =>
            rw [search_left hresl] at he
            exact (List.mem_append.mp he).elim (ih o l p hl e) (hr e)
        | none =>
            cases hresr : (r.alloc req k (l.alloc req k p).reserve).result with
            | some a =>
                rw [search_right hresl hresr] at he
                exact (List.mem_append.mp he).elim (ih o l p hl e) (ih (o + 2 ^ k) r _ hr e)
            | none =>
                rw [search_none hresl hresr] at he
                exact (List.mem_append.mp he).elim (ih o l p hl e) (ih (o + 2 ^ k) r _ hr e)
      cases t with
      | leaf i f =>
          rw [alloc]
          split
          · exact h
          next hlt =>
              split
              next heq =>
                  intro e he hfree
                  rw [List.mem_singleton.mp he] at hfree
                  cases hfree
              next hne =>
                  have hhalf : ∀ (j : Int) (o : Nat), ∀ e ∈ (leaf j true).leaves k o,
                      e.isFree = true → m ≤ e.order := fun j o e he _ ↦ by
                    rw [List.mem_singleton.mp he]
                    simp only
                    omega
                  split
                  · exact h
                  · exact hsearch _ _ _ _ _ (hhalf _ o) (hhalf _ _)
      | node i f l r =>
          rw [alloc]
          split
          · exact h
          · exact hsearch i f l r p (fun e he ↦ h e (List.mem_append_left _ he))
              (fun e he ↦ h e (List.mem_append_right _ he))

end BareBones.Memory.Buddy
