import BareBones.Memory.BuddyRun
import BareBones.Memory.BuddySearch
import Mathlib.Order.Interval.Finset.Defs
import Mathlib.Data.Int.Interval

/-!
# The contract of the buddy `mem_alloc`

What a caller may expect of `mem_alloc(n)`: a returned block was free, has room for
`n` bytes and overlaps nothing in use, and as long as the slots suffice `NULL` means
that no free block has room (`Contract`).

This holds up to one exception.  `getOrder` clamps the order of a request to the
order of the whole memory, so a request for more than the whole memory is treated
as one for all of it, and granted if all of it is free (`contract_iff`).
-/

namespace BareBones.Memory.Buddy

open BareBones.Lib

variable {b : Manager} {p p' : Reserve} {t t' : Tree} {i parent : Int} {k o n m : Nat}
  {start size : Nat} {s : State}

/-! ## The order of a request -/

/-- The loop stops at an order that covers the size, or at the largest. -/
theorem getOrderGo_covers {maxOrder : Nat} (hmax : maxOrder < 64) (fuel order : Nat)
    (hfuel : maxOrder - order ≤ fuel) (hle : order ≤ maxOrder) :
    n ≤ 2 ^ getOrderGo n maxOrder fuel order ∨ getOrderGo n maxOrder fuel order = maxOrder := by
  induction fuel generalizing order with
  | zero => exact Or.inr (by rw [getOrderGo]; omega)
  | succ fuel ih =>
      unfold getOrderGo
      split
      next hcond => exact ih (order + 1) (by omega) hcond.2
      next hcond =>
          rw [shl1_of_lt (by omega)] at hcond
          omega

/-- The orders the loop passes do not cover the size. -/
theorem getOrderGo_least {maxOrder : Nat} (hmax : maxOrder < 64) (fuel order : Nat) {j : Nat}
    (hj : order ≤ j) (hlt : j < getOrderGo n maxOrder fuel order) : 2 ^ j < n := by
  induction fuel generalizing order with
  | zero =>
      rw [getOrderGo] at hlt
      omega
  | succ fuel ih =>
      unfold getOrderGo at hlt
      split at hlt
      next hcond =>
          rcases Nat.eq_or_lt_of_le hj with rfl | hj
          · rw [shl1_of_lt (by omega)] at hcond
            exact hcond.1
          · exact ih (order + 1) hj hlt
      next => omega

theorem Inv.maxOrder_lt (hr : Region start size) (h : Inv start size s t p) :
    s.buddy.maxOrder < 63 :=
  (Nat.pow_lt_pow_iff_right (by decide)).mp (h.two_pow_lt hr)

/-- A block holds a request if and only if its order does, for requests that are
not larger than the memory. -/
theorem Inv.getOrder_le_iff (hr : Region start size) (h : Inv start size s t p)
    (hn : n ≤ 2 ^ s.buddy.maxOrder) {j : Nat} (hj : MIN_ORDER ≤ j) :
    getOrder s.buddy n ≤ j ↔ n ≤ 2 ^ j := by
  have hmax := h.maxOrder_lt hr
  constructor
  · intro hle
    have hpow : 2 ^ getOrder s.buddy n ≤ 2 ^ j := Nat.pow_le_pow_right (by decide) hle
    rcases getOrderGo_covers (n := n) (by omega) 64 MIN_ORDER (by omega) h.region.minOrder
      with hcover | htop
    · exact hcover.trans hpow
    · rw [getOrder, htop] at hpow
      exact hn.trans hpow
  · intro hle
    by_contra hlt
    have hless := getOrderGo_least (n := n) (by omega) 64 MIN_ORDER hj (not_le.mp hlt)
    omega

/-- A request larger than the memory is clamped. -/
theorem Inv.getOrder_clamped (hr : Region start size) (h : Inv start size s t p)
    (hn : 2 ^ s.buddy.maxOrder < n) : getOrder s.buddy n = s.buddy.maxOrder := by
  have hmax := h.maxOrder_lt hr
  rcases getOrderGo_covers (n := n) (by omega) 64 MIN_ORDER (by omega) h.region.minOrder
    with hcover | htop
  · have hpow : 2 ^ getOrder s.buddy n ≤ 2 ^ s.buddy.maxOrder :=
      Nat.pow_le_pow_right (by decide) (h.getOrder_bounds n).2
    exact absurd (hcover.trans hpow) (by omega)
  · exact htop

/-! ## The slots outside the tree -/

/-- The slots of the pool that the tree does not use. -/
def spare (t : Tree) : Nat := MAX_NODES.toNat - t.indices.length

/-- The tree and the reserve share the pool. -/
theorem Reserve.Covers.slots (h : p.Covers t.indices) :
    p.slots = spare t ∧ t.indices.length ≤ MAX_NODES.toNat := by
  have hset : (t.indices ++ p.recycled).toFinset = Finset.Ico 0 p.count := by
    ext j
    rw [List.mem_toFinset, Finset.mem_Ico]
    exact h.mem j
  have hcard := List.toFinset_card_of_nodup h.nodup
  rw [hset, Int.card_Ico, List.length_append] at hcard
  have hle := h.le
  have hnonneg := h.count_nonneg
  simp only [Reserve.slots, spare, MAX_NODES] at hle ⊢
  omega

/-- The pool of a state represents one tree only. -/
theorem Tree.At.unique {nodes : Int → BuddyNode} (h : t.At nodes parent k o)
    (h' : t'.At nodes parent k o) (hidx : t.idx = t'.idx) (hnonneg : ∀ j ∈ t.indices, 0 ≤ j)
    (hnonneg' : ∀ j ∈ t'.indices, 0 ≤ j) : t = t' := by
  induction t generalizing t' parent k o with
  | leaf i f =>
      cases t' with
      | leaf i' f' =>
          obtain rfl : i = i' := hidx
          have hslot := h.2.symm.trans h'.2
          rw [(BuddyNode.mk.inj hslot).1]
      | node i' f' l r =>
          obtain rfl : i = i' := hidx
          have hslot := h.2.symm.trans h'.2.1
          have hl : 0 ≤ l.idx := hnonneg' _ (by simp [l.idx_mem_indices])
          have heq := (BuddyNode.mk.inj hslot).2.2.2.1
          omega
  | node i f l r ihl ihr =>
      cases t' with
      | leaf i' f' =>
          obtain rfl : i = i' := hidx
          have hslot := h.2.1.symm.trans h'.2
          have hl : 0 ≤ l.idx := hnonneg _ (by simp [l.idx_mem_indices])
          have heq := (BuddyNode.mk.inj hslot).2.2.2.1
          omega
      | node i' f' l' r' =>
          obtain rfl : i = i' := hidx
          obtain ⟨hf, -, -, hleft, hright, -⟩ := BuddyNode.mk.inj (h.2.1.symm.trans h'.2.1)
          rw [hf, ihl h.2.2.1 h'.2.2.1 hleft (fun j hj ↦ hnonneg j (by simp [hj]))
              (fun j hj ↦ hnonneg' j (by simp [hj])),
            ihr h.2.2.2 h'.2.2.2 hright (fun j hj ↦ hnonneg j (by simp [hj]))
              (fun j hj ↦ hnonneg' j (by simp [hj]))]

theorem TreeInv.nonneg (h : TreeInv s t p) {j : Int} (hj : j ∈ t.indices) : 0 ≤ j :=
  ((h.slots j).mp (List.mem_append_left _ hj)).1

theorem TreeInv.unique (h : TreeInv s t p) (h' : TreeInv s t' p') : t = t' :=
  h.tree.unique h'.tree (h.root.symm.trans h'.root) (fun _ ↦ h.nonneg) (fun _ ↦ h'.nonneg)

/-! ## A pointer is good -/

/-- The request for `n` bytes was granted: the address belongs to a block in use
that has room, lay inside a free block before, and overlaps no block then in use. -/
def Granted (s : State) (t : Tree) (n : Nat) (b' : Manager) (a : Nat) : Prop :=
  ∃ t' p', TreeInv ⟨b', a :: s.live⟩ t' p' ∧ ∃ c ∈ t'.leaves b'.maxOrder 0,
    c.isFree = false ∧ a = s.buddy.minAddress + c.offset ∧ n ≤ 2 ^ c.order ∧
      (∃ d ∈ t.leaves s.buddy.maxOrder 0, d.isFree = true ∧ d.offset ≤ c.offset ∧
        c.offset + 2 ^ c.order ≤ d.offset + 2 ^ d.order) ∧
      ∀ e ∈ occupied (t.leaves s.buddy.maxOrder 0),
        c.offset + 2 ^ c.order ≤ e.offset ∨ e.offset + 2 ^ e.order ≤ c.offset

/-- The slots suffice for the splits a request of order `req` needs: none if a free
block has exactly this order, else two for each order between the request and the
first block that holds it. -/
def Enough (req : Nat) (t : Tree) (k : Nat) : Prop :=
  HasExact req (t.leaves k 0) ∨
    ∀ c, firstFit req (t.leaves k 0) = some c → 2 * (c.order - req) ≤ spare t

/-- **The contract of `mem_alloc`** for a request of `n` bytes in state `s`. -/
def Contract (s : State) (n : Nat) : Prop :=
  ∃ t p b' a, TreeInv s t p ∧ mem_alloc s.buddy n = some (b', a) ∧
    (a ≠ 0 → Granted s t n b' a) ∧
    (a = 0 → Enough (getOrder s.buddy n) t s.buddy.maxOrder →
      ∀ d ∈ t.leaves s.buddy.maxOrder 0, d.isFree = true → 2 ^ d.order < n)

/-- All of the memory is one free block. -/
def AllFree (s : State) : Prop :=
  (s.buddy.nodes s.buddy.rootIndex).isFree = true ∧
    (s.buddy.nodes s.buddy.rootIndex).leftChild = -1

/-- The blocks of a tree are all different. -/
theorem Tree.Fits.leaves_nodup (ht : t.Fits k) (o : Nat) : (t.leaves k o).Nodup := by
  have hpair := List.pairwise_map.mp (ht.tiles o).pairwise
  refine hpair.imp fun {c d} h heq ↦ ?_
  have hpos : 0 < 2 ^ c.order := Nat.two_pow_pos _
  rw [← heq] at h
  simp only [Leaf.interval] at h
  omega

/-- Two blocks of a tree do not overlap. -/
theorem Tree.Fits.apart (ht : t.Fits k) {c d : Leaf} (hc : c ∈ t.leaves k o)
    (hd : d ∈ t.leaves k o) (hne : c ≠ d) :
    c.offset + 2 ^ c.order ≤ d.offset ∨ d.offset + 2 ^ d.order ≤ c.offset :=
  (ht.tiles o).disjoint (List.mem_map_of_mem hc) (List.mem_map_of_mem hd)
    fun heq ↦ hne (ht.leaf_unique hc hd (Prod.mk.inj heq).1)

/-- The memory is one free block if and only if the tree is. -/
theorem TreeInv.allFree_iff (h : TreeInv s t p) : AllFree s ↔ ∃ i, t = .leaf i true := by
  unfold AllFree
  rw [h.root]
  cases t with
  | leaf i f =>
      rw [Tree.idx_leaf, h.tree.2]
      simp
  | node i f l r =>
      have hl : 0 ≤ l.idx := h.nonneg (by simp [l.idx_mem_indices])
      have hne : l.idx ≠ -1 := by omega
      rw [Tree.idx_node, h.tree.2.1]
      simp [hne]

/-- What a successful search returns is a good block. -/
theorem Inv.granted (hr : Region start size) (h : Inv start size s t p) (hn : n ≠ 0)
    (hroom : n ≤ 2 ^ getOrder s.buddy n) {b' : Manager} {a : Nat}
    (hcall : Buddy.mem_alloc s.buddy n = some (b', a)) (ha : a ≠ 0) : Granted s t n b' a := by
  obtain ⟨b'', hmax, ⟨-, hnull, -⟩ | ⟨c, hc, -, horder, hused, hperm, hsome, hinv⟩⟩ :=
    h.alloc_sim hr hn
  · rw [hcall] at hnull
    exact absurd (Prod.mk.inj (Option.some.inj hnull)).2 ha
  · rw [hcall] at hsome
    obtain ⟨rfl, rfl⟩ := Prod.mk.inj (Option.some.inj hsome)
    have hfits : Tree.Fits _ s.buddy.maxOrder := hmax ▸ hinv.tree.fits
    have hnodup : (c :: occupied (t.leaves s.buddy.maxOrder 0)).Nodup :=
      hperm.nodup_iff.mp ((hfits.leaves_nodup 0).filter _)
    have hnot := (List.nodup_cons.mp hnodup).1
    refine ⟨_, _, hinv.treeInv, c, hmax ▸ hc, hused, by rw [h.region.minAddress],
      horder ▸ hroom, ?_, fun e he ↦ ?_⟩
    · rcases Tree.alloc_within (h.getOrder_bounds n).1 _ 0 t p h.tree.fits hc with hold | hin
      · exact absurd (mem_occupied.mpr ⟨hold, hused⟩) hnot
      · exact hin
    · have hmem := (mem_occupied.mp (hperm.symm.subset (List.mem_cons_of_mem c he))).1
      exact hfits.apart hc hmem fun heq ↦ hnot (heq ▸ he)

/-- With enough slots, a `NULL` means that no block holds the request. -/
theorem Inv.null_honest (hr : Region start size) (h : Inv start size s t p) (hn : n ≠ 0)
    {b' : Manager} (hcall : Buddy.mem_alloc s.buddy n = some (b', 0))
    (henough : Enough (getOrder s.buddy n) t s.buddy.maxOrder) :
    firstFit (getOrder s.buddy n) (t.leaves s.buddy.maxOrder 0) = none := by
  have hstart := hr.start_pos
  obtain ⟨b'', -, ⟨hres, -, -⟩ | ⟨c, -, -, -, -, -, hsome, -⟩⟩ := h.alloc_sim hr hn
  · have hserved := (t.alloc_isSome_iff (h.getOrder_bounds n).1 _ 0 p h.tree.fits).not.mp
      (by rw [hres]; decide)
    obtain ⟨hexact, hslots⟩ := not_or.mp hserved
    by_contra hsome
    obtain ⟨c, hc⟩ := Option.ne_none_iff_exists'.mp hsome
    refine hslots ⟨c, hc, ?_⟩
    rw [h.rep.covers.slots.1]
    exact henough.resolve_left hexact c hc
  · rw [hcall] at hsome
    have hzero := (Prod.mk.inj (Option.some.inj hsome)).2
    omega

/-- A request of at most the whole memory meets the contract. -/
theorem Inv.contract (hr : Region start size) (h : Inv start size s t p) (hpos : 1 ≤ n)
    (hn : n ≤ 2 ^ s.buddy.maxOrder) : Contract s n := by
  obtain ⟨b', a, -, -, hcall, -⟩ := h.mem_alloc hr n
  have hroom : n ≤ 2 ^ getOrder s.buddy n :=
    (h.getOrder_le_iff hr hn (h.getOrder_bounds n).1).mp le_rfl
  refine ⟨t, p, b', a, h.treeInv, hcall, h.granted hr (by omega) hroom hcall, ?_⟩
  rintro rfl henough d hd hfree
  have hnone := firstFit_eq_none.mp (h.null_honest hr (by omega) hcall henough) d hd
  have hmin := (h.tree.fits.order_le hd).1
  by_contra hle
  have hholds : d.holds (getOrder s.buddy n) = true :=
    Leaf.holds_iff.mpr ⟨hfree, (h.getOrder_le_iff hr hn hmin).mpr (not_lt.mp hle)⟩
  rw [hholds] at hnone
  cases hnone

/-- A request for more than the whole memory fails when some of it is in use. -/
theorem Inv.contract_of_not_allFree (hr : Region start size) (h : Inv start size s t p)
    (hn : 2 ^ s.buddy.maxOrder < n) (hfree : ¬AllFree s) : Contract s n := by
  have hne : n ≠ 0 := Nat.ne_zero_of_lt hn
  have hreq := h.getOrder_clamped hr hn
  have hnone : firstFit s.buddy.maxOrder (t.leaves s.buddy.maxOrder 0) = none := by
    refine firstFit_eq_none.mpr fun c hc ↦ ?_
    rw [h.treeInv.allFree_iff] at hfree
    by_contra hholds
    obtain ⟨hcfree, horder⟩ := Leaf.holds_iff.mp (Bool.not_eq_false _ ▸ hholds)
    have hfits := h.tree.fits
    cases t with
    | leaf i f =>
        obtain rfl := List.mem_singleton.mp hc
        simp only at hcfree
        exact hfree ⟨i, by rw [hcfree]⟩
    | node i f l r =>
        obtain ⟨hk, hl, hr'⟩ := hfits
        have hmin : 0 < s.buddy.maxOrder := Nat.zero_lt_of_lt hk
        rcases List.mem_append.mp hc with hc | hc
        · have := (hl.order_le hc).2
          omega
        · have := (hr'.order_le hc).2
          omega
  have hsame := t.alloc_unfit s.buddy.maxOrder 0 p h.tree.fits hnone
  obtain ⟨b', -, ⟨-, hcall, -⟩ | ⟨c, -, hres, -⟩⟩ := h.alloc_sim hr hne
  · refine ⟨t, p, b', 0, h.treeInv, hcall, fun hne ↦ absurd rfl hne, fun _ _ d hd _ ↦ ?_⟩
    have hle : 2 ^ d.order ≤ 2 ^ s.buddy.maxOrder :=
      Nat.pow_le_pow_right (by decide) (h.tree.fits.order_le hd).2
    omega
  · rw [hreq, hsame] at hres
    cases hres

/-- A request for more than the whole memory is granted when all of it is free. -/
theorem Inv.not_contract (hr : Region start size) (h : Inv start size s t p)
    (hn : 2 ^ s.buddy.maxOrder < n) (hfree : AllFree s) : ¬Contract s n := by
  rintro ⟨t₁, p₁, b', a, -, hcall, hgrant, -⟩
  obtain ⟨i, rfl⟩ := h.treeInv.allFree_iff.mp hfree
  have hreq := h.getOrder_clamped hr hn
  have hstart := hr.start_pos
  obtain ⟨b'', hmax, ⟨hres, -, -⟩ | ⟨c, -, -, -, -, -, hsome, -⟩⟩ :=
    h.alloc_sim hr (Nat.ne_zero_of_lt hn)
  · have hexact : HasExact s.buddy.maxOrder ((Tree.leaf i true).leaves s.buddy.maxOrder 0) :=
      ⟨_, List.mem_singleton_self _, rfl, rfl⟩
    have hsome := Tree.alloc_exact s.buddy.maxOrder 0 (.leaf i true) p h.tree.fits hexact
    rw [hreq] at hres
    rw [hres] at hsome
    cases hsome
  · rw [hcall] at hsome
    obtain ⟨rfl, rfl⟩ := Prod.mk.inj (Option.some.inj hsome)
    -- no block of the memory has room for the request
    obtain ⟨t', p', hinv, d, hd, -, -, hroom, -⟩ := hgrant (by omega)
    have hle : 2 ^ d.order ≤ 2 ^ s.buddy.maxOrder :=
      Nat.pow_le_pow_right (by decide) (hmax ▸ (hinv.tree.fits.order_le hd).2)
    omega

/-- **`mem_alloc` meets its contract except for requests beyond the memory.**  In
every state a run can reach, a request meets the contract if and only if it asks for
at most the memory that is managed, or not all of that memory is one free block. -/
theorem contract_iff (hr : Region start size) {nodes : Int → BuddyNode} {rootIndex : Int}
    (hreach : Reach step Valid (State.init nodes rootIndex start size) s) (hpos : 1 ≤ n) :
    Contract s n ↔ n ≤ 2 ^ s.buddy.maxOrder ∨ ¬AllFree s := by
  obtain ⟨t, p, hinv⟩ := inv_reach hr hreach
  constructor
  · intro hcontract
    by_contra hno
    obtain ⟨hn, hfree⟩ := not_or.mp hno
    exact hinv.not_contract hr (not_le.mp hn) (not_not.mp hfree) hcontract
  · rintro (hn | hfree)
    · exact hinv.contract hr hpos hn
    · rcases Nat.lt_or_ge (2 ^ s.buddy.maxOrder) n with hn | hn
      · exact hinv.contract_of_not_allFree hr hn hfree
      · exact hinv.contract hr hpos hn

/-- The kernel's heap after `mem_init`. -/
theorem region_boot : Region 0x1000000 (256 * 1024 * 1024) :=
  ⟨by decide, by decide, by decide, by decide⟩

/-- After `mem_init` a request for twenty bytes meets the contract. -/
theorem contract_iff_boot :
    Contract (State.init blank 0 0x1000000 (256 * 1024 * 1024)) 20 :=
  (contract_iff region_boot .refl (by decide)).mpr (Or.inl (by decide))

/-- After `mem_init` a request for one byte more than the heap is granted. -/
theorem oversized_request : ∃ s, Reach step Valid
    (State.init blank 0 0x1000000 (256 * 1024 * 1024)) s ∧ ¬Contract s (256 * 1024 * 1024 + 1) :=
  ⟨_, .refl, (inv_init region_boot blank 0).not_contract region_boot (by decide)
    ⟨by decide, by decide⟩⟩

end BareBones.Memory.Buddy
