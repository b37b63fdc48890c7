import BareBones.Memory.BuddyRep
import Mathlib.Tactic.Linarith

/-!
# The buddy manager over whole runs

The calls of the manager on a represented tree: what `mem_alloc` and `mem_free`
do to the blocks in use, and what `mem_status` counts.  `TreeInv` relates a state
to the tree and the reserve its pool represents; `inv_step` is the step lemma,
and `buddy_invariant` collects what holds in every state a run can reach.
-/

namespace BareBones.Memory.Buddy

open BareBones.Lib

variable {b : Manager} {p : Reserve} {used others : List Int} {t : Tree} {ctx : List Frame}
  {i parent : Int} {k o K : Nat} {f : Bool} {start size : Nat} {s : State}

/-! ## `mem_free` -/

/-- What the code does when it releases slot `i` under frames `ctx`. -/
def Releases (r : Option Manager) (b : Manager) (K : Nat) (ctx : List Frame) (i : Int)
    (p : Reserve) : Prop :=
  ∃ b', r = some b' ∧ (release ctx i p).1.At b'.nodes (-1) K 0 ∧
    Rep b' (release ctx i p).2 (release ctx i p).1.indices ∧ Agrees b b' []

/-- Freeing one block of a tree takes it, and nothing else, out of use. -/
theorem CtxAt.occupied_hole {nodes : Int → BuddyNode} (hctx : CtxAt nodes K ctx i k o parent) :
    (occupied ((Buddy.plug ctx (.leaf i false)).leaves K 0)).Perm
      (⟨i, k, o, false⟩ :: occupied ((Buddy.plug ctx (.leaf i true)).leaves K 0)) := by
  obtain ⟨pre, post, hplug⟩ := hctx.leaves
  simp only [hplug, occupied_append, Tree.leaves, occupied_cons, if_true, Bool.false_eq_true,
    if_false, List.append_assoc, List.singleton_append]
  exact List.perm_middle

/-- The blocks do not depend on the flags of the split blocks. -/
theorem CtxAt.leaves_refresh {nodes : Int → BuddyNode} {fr : Frame}
    (hctx : CtxAt nodes K (fr :: ctx) i k o parent) (s : Tree) :
    (Buddy.plug (fr.refresh :: ctx) s).leaves K 0 = (Buddy.plug (fr :: ctx) s).leaves K 0 := by
  cases hctx with
  | left hctx _ _ _ | right hctx _ _ _ =>
      obtain ⟨pre, post, hplug⟩ := hctx.leaves
      simp only [Buddy.plug, hplug, Frame.refresh, Frame.plug, Tree.leaves]

/-- The flag of a slot in use outside the frames does not matter to them. -/
theorem CtxAt.setFree (hctx : CtxAt b.nodes K ctx i k o parent) (h : Rep b p (i :: ctxIndices ctx))
    (f : Bool) : CtxAt (b.setFree i f).nodes K ctx i k o parent :=
  hctx.frame (Agrees.write b _ h.not_mem).nodes

/-- Refreshing the flag of the split block above a released one. -/
theorem updateNodeStatus_frame {fr : Frame} (hctx : CtxAt b.nodes K (fr :: ctx) i k o parent)
    (ht : (Tree.leaf i true).At b.nodes parent k o) (h : Rep b p (i :: ctxIndices (fr :: ctx))) :
    let b' := updateNodeStatus b parent
    CtxAt b'.nodes K (fr.refresh :: ctx) i k o parent ∧ (Tree.leaf i true).At b'.nodes parent k o ∧
      Rep b' p (i :: ctxIndices (fr.refresh :: ctx)) ∧ Agrees b b' [] := by
  have hi := ht.2
  have hinonneg : 0 ≤ i := h.nonneg (by simp)
  cases hctx with
  | @left _ _ j pp _ _ f r hctx hk hj hr =>
      have hmem : parent ∈ i :: ctxIndices (.left parent f r :: ctx) := by
        simp [ctxIndices, Frame.idx]
      have hstatus : updateNodeStatus b parent = b.setFree parent r.isFree := by
        unfold updateNodeStatus
        rw [if_neg (h.in_range hmem), if_neg (by simp only [hj]; omega)]
        simp [hj, hi, hr.root.1]
      have hperm : (i :: ctxIndices (.left parent f r :: ctx)).Perm
          (parent :: i :: (r.indices ++ ctxIndices ctx)) := List.Perm.swap _ _ _
      have hnot := (h.perm hperm).not_mem
      have hagree : Agrees b (b.setFree parent r.isFree) (i :: (r.indices ++ ctxIndices ctx)) :=
        .write b _ hnot
      rw [hstatus]
      refine ⟨.left (hctx.frame fun z hz ↦ hagree.nodes z (by simp [hz])) hk ?_
          (hr.frame fun z hz ↦ hagree.nodes z (by simp [hz])),
        ht.frame fun z hz ↦ hagree.nodes z (by simp_all), h.write hmem _, hagree.mono (by simp)⟩
      simp [Manager.setFree, hj]
  | @right _ _ j pp _ o f l hctx hk hj hl =>
      have hmem : parent ∈ i :: ctxIndices (.right parent f l :: ctx) := by
        simp [ctxIndices, Frame.idx]
      have hlidx : 0 ≤ l.idx :=
        h.nonneg (by simp [ctxIndices, Frame.sibling, l.idx_mem_indices])
      have hstatus : updateNodeStatus b parent = b.setFree parent l.isFree := by
        unfold updateNodeStatus
        rw [if_neg (h.in_range hmem), if_neg (by simp only [hj]; omega)]
        simp [hj, hi, hl.root.1]
      have hperm : (i :: ctxIndices (.right parent f l :: ctx)).Perm
          (parent :: i :: (l.indices ++ ctxIndices ctx)) := List.Perm.swap _ _ _
      have hnot := (h.perm hperm).not_mem
      have hagree : Agrees b (b.setFree parent l.isFree) (i :: (l.indices ++ ctxIndices ctx)) :=
        .write b _ hnot
      rw [hstatus]
      refine ⟨.right (hctx.frame fun z hz ↦ hagree.nodes z (by simp [hz])) hk ?_
          (hl.frame fun z hz ↦ hagree.nodes z (by simp [hz])),
        ht.frame fun z hz ↦ hagree.nodes z (by simp_all), h.write hmem _, hagree.mono (by simp)⟩
      simp [Manager.setFree, hj]

/-- **The code releases as the abstract tree does**, and the released block is the
only one that goes out of use. -/
theorem mem_free_sim {ptr : Nat} (hptr : ptr ≠ 0) (hfind : findNodeByAddress b ptr = i)
    (hK : b.maxOrder = K) (hctx : CtxAt b.nodes K ctx i k o parent)
    (ht : (Tree.leaf i f).At b.nodes parent k o) (h : Rep b p (i :: ctxIndices ctx)) :
    Releases (mem_free b ptr) b K ctx i p ∧
      (occupied ((plug ctx (.leaf i false)).leaves K 0)).Perm
        (⟨i, k, o, false⟩ :: occupied ((release ctx i p).1.leaves K 0)) := by
  have hnonneg : 0 ≤ i := h.nonneg (by simp)
  have hfuel : ctx.length < b.maxOrder + 1 := by
    have := hctx.length
    omega
  have hctx₁ := hctx.setFree h true
  have ht₁ : (Tree.leaf i true).At (b.setFree i true).nodes parent k o :=
    ⟨ht.1, by simp [Manager.setFree, ht.2]⟩
  have hrep₁ : Rep (b.setFree i true) p (i :: ctxIndices ctx) := h.write (by simp) _
  have hagree₁ : Agrees b (b.setFree i true) [] := .write b _ (by simp)
  have hpar : ((b.setFree i true).nodes i).parent = parent := by rw [ht₁.2]
  unfold mem_free
  simp only [hptr, hfind, if_false, hpar]
  rw [if_neg (by omega)]
  cases ctx with
  | nil =>
      have hmerge := tryMerge_sim (b.maxOrder + 1) hfuel hctx₁ ht₁ hrep₁
      have hroot := hctx.occupied_hole
      cases hctx
      rw [if_neg (by omega)]
      obtain ⟨b', hcall, hat, hrep, hagree⟩ := hmerge
      exact ⟨⟨b', hcall, hat, hrep, hagree₁.trans hagree⟩, hroot⟩
  | cons fr ctx =>
      have hparent : 0 ≤ parent := h.nonneg (by cases hctx <;> simp [ctxIndices, Frame.idx])
      rw [if_pos hparent]
      obtain ⟨hctx₂, ht₂, hrep₂, hagree₂⟩ := updateNodeStatus_frame hctx₁ ht₁ hrep₁
      have hmax : (updateNodeStatus (b.setFree i true) parent).maxOrder = b.maxOrder :=
        hagree₂.maxOrder
      obtain ⟨b', hcall, hat, hrep, hagree⟩ :=
        tryMerge_sim (b.maxOrder + 1) (by simpa using hfuel) hctx₂ ht₂ hrep₂
      refine ⟨⟨b', by rw [hmax]; exact hcall, hat, hrep, (hagree₁.trans hagree₂).trans hagree⟩, ?_⟩
      rw [release, mergeUp_occupied hctx₂, hctx.leaves_refresh]
      exact hctx.occupied_hole

/-! ## `findNodeByAddress` -/

/-- What the scan looks for, in any slot below `nodeCount`, is a block in use:
recycled slots are free, and split blocks have a left child. -/
theorem occupied_of_slot (ht : t.At b.nodes (-1) K 0) (h : Rep b p t.indices) (hi : 0 ≤ i)
    (hlt : i < b.nodeCount) (hused : (b.nodes i).isFree = false)
    (hleaf : (b.nodes i).leftChild = -1) :
    ∃ c ∈ occupied (t.leaves K 0), c.idx = i ∧ c.offset = (b.nodes i).offset := by
  have hmem : i ∈ t.indices := by
    rcases List.mem_append.mp ((h.covers.mem i).mpr ⟨hi, h.count ▸ hlt⟩) with hi | hi
    · exact hi
    · simp [h.links.isFree hi] at hused
  obtain ⟨c, hc, rfl⟩ := ht.exists_leaf (fun j hj ↦ h.nonneg hj) hmem hleaf
  obtain ⟨par, hslot⟩ := ht.leaf_slot hc
  rw [hslot] at hused
  exact ⟨c, mem_occupied.mpr ⟨hc, hused⟩, rfl, by rw [hslot]⟩

/-- The scan finds the block in use at an address. -/
theorem findNodeByAddress_live {c : Leaf} (ht : t.At b.nodes (-1) K 0) (h : Rep b p t.indices)
    (hspace : b.minAddress + b.totalSize < 2 ^ 64) (hfits : 2 ^ K ≤ b.totalSize)
    (hc : c ∈ occupied (t.leaves K 0)) :
    findNodeByAddress b (b.minAddress + c.offset) = c.idx := by
  obtain ⟨hleaf, hused⟩ := mem_occupied.mp hc
  have hbounds := ht.fits.bounds hleaf
  have hpos : 0 < 2 ^ c.order := Nat.two_pow_pos _
  have hmem : c.idx ∈ t.indices := Tree.mem_indices_of_leaf hleaf
  obtain ⟨par, hslot⟩ := ht.leaf_slot hleaf
  have hnonneg := h.nonneg hmem
  have hlt := h.covers.lt hmem
  have hcount := h.count
  unfold findNodeByAddress
  rw [if_neg (by rw [u64_of_lt hspace]; omega), Nat.add_sub_cancel_left]
  dsimp only
  split
  next i hfound =>
      have hin := List.mem_range.mp (List.mem_of_find?_eq_some hfound)
      have hprop := List.find?_some hfound
      simp only [decide_eq_true_eq, Bool.not_eq_true'] at hprop
      obtain ⟨d, hd, hidx, hoffset⟩ := occupied_of_slot ht h (Int.natCast_nonneg i)
        (by omega) hprop.2.1 hprop.2.2
      rw [← hidx, ht.fits.leaf_unique (mem_occupied.mp hd).1 hleaf (hoffset.trans hprop.1)]
  next hnone =>
      have := List.find?_eq_none.mp hnone c.idx.toNat (List.mem_range.mpr (by omega))
      rw [Int.toNat_of_nonneg hnonneg, hslot] at this
      simp [hused] at this

/-- The scan finds nothing at any other address. -/
theorem findNodeByAddress_other {ptr : Nat} (ht : t.At b.nodes (-1) K 0) (h : Rep b p t.indices)
    (hptr : ∀ c ∈ occupied (t.leaves K 0), ptr ≠ b.minAddress + c.offset) :
    findNodeByAddress b ptr = -1 := by
  unfold findNodeByAddress
  by_cases hrange : ptr < b.minAddress ∨ ptr ≥ u64 (b.minAddress + b.totalSize)
  · rw [if_pos hrange]
  rw [if_neg hrange]
  dsimp only
  split
  next i hfound =>
      have hin := List.mem_range.mp (List.mem_of_find?_eq_some hfound)
      have hprop := List.find?_some hfound
      simp only [decide_eq_true_eq, Bool.not_eq_true'] at hprop
      obtain ⟨d, hd, hidx, hoffset⟩ := occupied_of_slot ht h (Int.natCast_nonneg i)
        (by omega) hprop.2.1 hprop.2.2
      have := hptr d hd
      omega
  next => rfl

/-! ## `mem_status` -/

/-- What a leaf adds to the counters. -/
def LeafCount.add (c : LeafCount) (l : Leaf) : LeafCount :=
  if l.isFree then
    { c with freeCount := u64 (c.freeCount + 1), freeMemory := u64 (c.freeMemory + shl1 l.order) }
  else
    { c with allocatedCount := u64 (c.allocatedCount + 1)
             allocatedMemory := u64 (c.allocatedMemory + shl1 l.order) }

/-- The code counts the blocks of the tree. -/
theorem countLeafNodes_sim (others : List Int) (fuel : Nat) (c : LeafCount) (hfuel : k < fuel)
    (ht : t.At b.nodes parent k o) (h : Rep b p (t.indices ++ others))
    (hroot : parent = -1 → t.idx = b.rootIndex) :
    countLeafNodes fuel b t.idx c = some ((t.leaves k o).foldl LeafCount.add c) := by
  induction fuel generalizing t parent k o c others with
  | zero => exact absurd hfuel (Nat.not_lt_zero _)
  | succ fuel ih =>
      have hin := h.in_range (List.mem_append_left _ t.idx_mem_indices)
      have hparent : ¬((b.nodes t.idx).parent = -1 ∧ t.idx ≠ b.rootIndex) := by
        rw [ht.root.2.2.2]
        exact fun hboth ↦ hboth.2 (hroot hboth.1)
      unfold countLeafNodes
      rw [if_neg hin, if_neg hparent]
      cases t with
      | leaf i f => simp [ht.2, Tree.leaves, LeafCount.add]
      | node i f l r =>
          obtain ⟨hk, hi, hl, hr⟩ := ht
          have hinonneg : 0 ≤ i := h.nonneg (by simp)
          have hlidx : 0 ≤ l.idx := h.nonneg (by simp [l.idx_mem_indices])
          have hne : l.idx ≠ -1 := by omega
          have hleft := ih (i :: (r.indices ++ others)) c (by omega) hl
            (h.perm (List.perm_iff_count.mpr fun x ↦ by
              simp only [Tree.indices_node, List.cons_append, List.count_cons, List.count_append]
              omega)) (by omega)
          have hright := ih (i :: (l.indices ++ others))
            ((l.leaves (k - 1) o).foldl LeafCount.add c) (by omega) hr
            (h.perm (List.perm_iff_count.mpr fun x ↦ by
              simp only [Tree.indices_node, List.cons_append, List.count_cons, List.count_append]
              omega)) (by omega)
          simp [hi, hne, hleft, hright, Tree.leaves]

/-- The bytes of a list of blocks. -/
def bytes (ls : List Leaf) : Nat := (ls.map fun l ↦ 2 ^ l.order).sum

@[simp] theorem bytes_nil : bytes [] = 0 := rfl

@[simp] theorem bytes_cons (l : Leaf) (ls : List Leaf) :
    bytes (l :: ls) = 2 ^ l.order + bytes ls := by
  simp [bytes]

@[simp] theorem bytes_append (ls ms : List Leaf) : bytes (ls ++ ms) = bytes ls + bytes ms := by
  simp [bytes]

/-- The blocks of a tree of order `k` have `2 ^ k` bytes. -/
theorem Tree.Fits.bytes (ht : t.Fits k) (o : Nat) : bytes (t.leaves k o) = 2 ^ k := by
  induction t generalizing k o with
  | leaf i f => simp [Tree.leaves]
  | node i f l r ihl ihr =>
      obtain ⟨hk, hl, hr⟩ := ht
      rw [Tree.leaves, bytes_append, ihl hl, ihr hr, two_pow_pred_add (Nat.zero_lt_of_lt hk)]

/-- The counters add up all blocks, as long as they do not wrap. -/
theorem foldl_add_memory (ls : List Leaf) (c : LeafCount)
    (hsum : c.allocatedMemory + c.freeMemory + bytes ls < 2 ^ 64) :
    (ls.foldl LeafCount.add c).allocatedMemory = c.allocatedMemory + bytes (occupied ls) ∧
      (ls.foldl LeafCount.add c).allocatedMemory + (ls.foldl LeafCount.add c).freeMemory =
        c.allocatedMemory + c.freeMemory + bytes ls := by
  induction ls generalizing c with
  | nil => simp
  | cons l ls ih =>
      rw [bytes_cons] at hsum
      have hpow : 2 ^ l.order < 2 ^ 64 := by omega
      have horder := (Nat.pow_lt_pow_iff_right (by decide)).mp hpow
      have hshl := shl1_of_lt horder
      have hadd : (c.add l).allocatedMemory =
            c.allocatedMemory + (if l.isFree then 0 else 2 ^ l.order) ∧
          (c.add l).freeMemory = c.freeMemory + (if l.isFree then 2 ^ l.order else 0) := by
        cases hfree : l.isFree
        · have hsmall : c.allocatedMemory + 2 ^ l.order < 2 ^ 64 := by omega
          simp [LeafCount.add, hfree, hshl, u64_of_lt hsmall]
        · have hsmall : c.freeMemory + 2 ^ l.order < 2 ^ 64 := by omega
          simp [LeafCount.add, hfree, hshl, u64_of_lt hsmall]
      obtain ⟨ha, hf⟩ := hadd
      cases hfree : l.isFree <;> simp only [hfree, if_true, if_false, Bool.false_eq_true] at ha hf
      · obtain ⟨h₁, h₂⟩ := ih (c.add l) (by omega)
        simp only [List.foldl_cons, bytes_cons, occupied_cons, hfree, Bool.false_eq_true, if_false]
        omega
      · obtain ⟨h₁, h₂⟩ := ih (c.add l) (by omega)
        simp only [List.foldl_cons, bytes_cons, occupied_cons, hfree, if_true]
        omega

/-! ## The invariant -/

/-- The pool of a state represents a tree and a reserve, and the blocks in use are
the live pointers. -/
structure TreeInv (s : State) (t : Tree) (p : Reserve) : Prop where
  /-- The tree hangs below `rootIndex`. -/
  root : s.buddy.rootIndex = t.idx
  /-- Orders, offsets, children and parents are as the position in the tree says. -/
  tree : t.At s.buddy.nodes (-1) s.buddy.maxOrder 0
  /-- The recycled slots are linked without a cycle, and free. -/
  recycled : Links s.buddy.nodes s.buddy.firstFreeNode p.recycled
  /-- No slot is twice in the tree or in the recycled list, or in both. -/
  disjoint : (t.indices ++ p.recycled).Nodup
  /-- Together they are the slots below `nodeCount`. -/
  slots : ∀ i, i ∈ t.indices ++ p.recycled ↔ 0 ≤ i ∧ i < s.buddy.nodeCount
  /-- The blocks tile the memory that is managed. -/
  tiles : Tiles 0 (2 ^ s.buddy.maxOrder) ((t.leaves s.buddy.maxOrder 0).map Leaf.interval)
  /-- The blocks in use are the live pointers. -/
  live : s.live.Perm ((occupied (t.leaves s.buddy.maxOrder 0)).map fun c ↦
    s.buddy.minAddress + c.offset)

/-- The parameters of the manager fit the region given to `mem_init`. -/
structure RegionInv (start size : Nat) (b : Manager) : Prop where
  minAddress : b.minAddress = start
  totalSize : b.totalSize = size
  maxOrder : 2 ^ b.maxOrder ≤ size
  minOrder : MIN_ORDER ≤ b.maxOrder

/-- The invariant of the runs. -/
structure Inv (start size : Nat) (s : State) (t : Tree) (p : Reserve) : Prop where
  region : RegionInv start size s.buddy
  root : s.buddy.rootIndex = t.idx
  tree : t.At s.buddy.nodes (-1) s.buddy.maxOrder 0
  rep : Rep s.buddy p t.indices
  live : s.live.Perm ((occupied (t.leaves s.buddy.maxOrder 0)).map fun c ↦ start + c.offset)

/-- A region that ends below `2 ^ 64` and does not contain `NULL`. -/
structure Region (start size : Nat) : Prop where
  start_pos : 0 < start
  size_ge : 16 ≤ size
  size_lt : size < 2 ^ 63
  fits : start + size < 2 ^ 64

theorem RegionInv.agrees {b b' : Manager} (h : RegionInv start size b)
    (hagree : Agrees b b' others) :
    RegionInv start size b' where
  minAddress := hagree.minAddress.trans h.minAddress
  totalSize := hagree.totalSize.trans h.totalSize
  maxOrder := hagree.maxOrder.symm ▸ h.maxOrder
  minOrder := hagree.maxOrder.symm ▸ h.minOrder

theorem Inv.treeInv (h : Inv start size s t p) : TreeInv s t p where
  root := h.root
  tree := h.tree
  recycled := h.rep.links
  disjoint := h.rep.covers.nodup
  slots i := by rw [h.rep.count]; exact h.rep.covers.mem i
  tiles := by simpa using h.tree.fits.tiles 0
  live := h.region.minAddress ▸ h.live

/-- The order chosen by `mem_init` is at least the smallest and fits the region. -/
theorem maxOrderGo_spec (capacity : Nat) (hsize : size < 2 ^ 63) (fuel order : Nat)
    (hfits : 2 ^ order ≤ size) :
    order ≤ maxOrderGo size capacity fuel order ∧
      2 ^ maxOrderGo size capacity fuel order ≤ size := by
  induction fuel generalizing order with
  | zero => exact ⟨le_refl _, hfits⟩
  | succ fuel ih =>
      unfold maxOrderGo
      split
      next hcond =>
          have horder : order < 63 :=
            (Nat.pow_lt_pow_iff_right (by decide)).mp (hfits.trans_lt hsize)
          have hnext : 2 ^ (order + 1) ≤ size := by
            rw [← shl1_of_lt (by omega)]
            exact hcond.1
          exact (ih (order + 1) hnext).imp (fun h ↦ by omega) id
      next => exact ⟨le_refl _, hfits⟩

theorem getOrderGo_spec (size maxOrder fuel order : Nat) :
    order ≤ getOrderGo size maxOrder fuel order ∧
      getOrderGo size maxOrder fuel order ≤ max order maxOrder := by
  induction fuel generalizing order with
  | zero => exact ⟨le_refl _, le_max_left _ _⟩
  | succ fuel ih =>
      unfold getOrderGo
      split
      next hcond =>
          obtain ⟨hlow, hhigh⟩ := ih (order + 1)
          exact ⟨by omega, by omega⟩
      next => exact ⟨le_refl _, le_max_left _ _⟩

/-- The empty pool represents the empty reserve. -/
theorem rep_empty {b : Manager} (hcount : b.nodeCount = 0) (hfirst : b.firstFreeNode = -1) :
    Rep b ⟨[], 0⟩ [] where
  count := hcount
  links := hfirst
  covers := ⟨by simp, by simp, le_refl _, by decide⟩

theorem inv_init (hr : Region start size) (nodes : Int → BuddyNode) (rootIndex : Int) :
    Inv start size (State.init nodes rootIndex start size) (.leaf 0 true) ⟨[], 1⟩ := by
  obtain ⟨hlow, hhigh⟩ := maxOrderGo_spec (log2Int size) hr.size_lt 64 MIN_ORDER
    hr.size_ge
  have horder : maxOrderGo size (log2Int size) 64 MIN_ORDER < 63 :=
    (Nat.pow_lt_pow_iff_right (by decide)).mp (hhigh.trans_lt hr.size_lt)
  have hmod : maxOrderGo size (log2Int size) 64 MIN_ORDER % 256 =
      maxOrderGo size (log2Int size) 64 MIN_ORDER := Nat.mod_eq_of_lt (by omega)
  have hempty : Rep ⟨start, size, maxOrderGo size (log2Int size) 64 MIN_ORDER, nodes, 0, rootIndex,
      -1⟩ ⟨[], 0⟩ [] := rep_empty rfl rfl
  have hfirst : Reserve.take ⟨[], 0⟩ = some (0, ⟨[], 1⟩) := rfl
  obtain ⟨b', hcreate, hrep, hnode, hagree⟩ :=
    createNode_some hempty hfirst (maxOrderGo size (log2Int size) 64 MIN_ORDER) 0 (-1)
  have hstate : State.init nodes rootIndex start size = ⟨{ b' with rootIndex := 0 }, []⟩ := by
    simp only [State.init, mem_init, hmod, hcreate]
  rw [hstate]
  have hmax : b'.maxOrder = maxOrderGo size (log2Int size) 64 MIN_ORDER := hagree.maxOrder
  refine ⟨⟨hagree.minAddress, hagree.totalSize, by rw [hmax]; exact hhigh,
    by rw [hmax]; exact hlow⟩, rfl, ⟨by rw [hmax]; exact hlow, by rw [hmax]; exact hnode⟩,
    ⟨hrep.count, hrep.links, hrep.covers⟩, ?_⟩
  simp [Tree.leaves]

/-- **The code releases as the abstract tree does**: a live pointer is a block in use,
and releasing it is `release` under the frames above that block. -/
theorem Inv.free_sim {ptr : Nat} (hr : Region start size) (h : Inv start size s t p)
    (hptr : ptr ∈ s.live) : ∃ c ∈ occupied (t.leaves s.buddy.maxOrder 0),
      ptr = start + c.offset ∧ ∃ b' ctx, mem_free s.buddy ptr = some b' ∧
        b'.maxOrder = s.buddy.maxOrder ∧ plug ctx (.leaf c.idx false) = t ∧
        Inv start size ⟨b', s.live.erase ptr⟩ (release ctx c.idx p).1 (release ctx c.idx p).2 ∧
        (occupied (t.leaves s.buddy.maxOrder 0)).Perm
          (c :: occupied ((release ctx c.idx p).1.leaves s.buddy.maxOrder 0)) := by
  obtain ⟨c, hc, hptr'⟩ := List.mem_map.mp (h.live.subset hptr)
  have hstart := hr.start_pos
  have hfind : findNodeByAddress s.buddy ptr = c.idx := by
    rw [← hptr', ← h.region.minAddress]
    refine findNodeByAddress_live h.tree h.rep ?_ ?_ hc
    · rw [h.region.minAddress, h.region.totalSize]
      exact hr.fits
    · rw [h.region.totalSize]
      exact h.region.maxOrder
  obtain ⟨hleaf, hused⟩ := mem_occupied.mp hc
  have hroot : CtxAt s.buddy.nodes s.buddy.maxOrder [] t.idx s.buddy.maxOrder 0 (-1) :=
    .root t.idx
  obtain ⟨ctx, par, hctx, hat, hplug⟩ := hroot.exists_of_leaf h.tree hleaf
  rw [hused] at hat hplug
  have hrep : Rep s.buddy p (c.idx :: ctxIndices ctx) := h.rep.perm (by
    have hperm := plug_indices ctx (.leaf c.idx false)
    rwa [hplug] at hperm)
  obtain ⟨⟨b', hcall, hat', hrep', hagree⟩, hocc⟩ :=
    mem_free_sim (by omega) hfind rfl hctx hat hrep
  have hc' : c = ⟨c.idx, c.order, c.offset, false⟩ := by rw [← hused]
  rw [hplug, ← hc'] at hocc
  refine ⟨c, hc, hptr'.symm, b', ctx, hcall, hagree.maxOrder, hplug,
    ⟨h.region.agrees hagree, ?_, hagree.maxOrder ▸ hat', hrep', ?_⟩, hocc⟩
  · show b'.rootIndex = _
    rw [hagree.rootIndex, h.root, release_idx ctx c.idx p false, hplug]
    rfl
  · have hlive := h.live.trans (hocc.map _)
    rw [List.map_cons, hptr'] at hlive
    have herase := hlive.erase ptr
    rw [List.erase_cons_head] at herase
    rw [hagree.maxOrder]
    exact herase

/-- Releasing any other pointer. -/
theorem Inv.mem_free_other {ptr : Nat} (h : Inv start size s t p) (hptr : ptr ∉ s.live) :
    mem_free s.buddy ptr = some s.buddy := by
  unfold mem_free
  by_cases hnull : ptr = 0
  · rw [if_pos hnull]
  have hfind : findNodeByAddress s.buddy ptr = -1 :=
    findNodeByAddress_other h.tree h.rep fun c hc heq ↦
      hptr (h.live.symm.subset (List.mem_map.mpr ⟨c, hc, by rw [heq, h.region.minAddress]⟩))
  simp [hnull, hfind]

/-- The managed memory lies inside the address space. -/
theorem Inv.two_pow_lt (hr : Region start size) (h : Inv start size s t p) :
    2 ^ s.buddy.maxOrder < 2 ^ 63 :=
  h.region.maxOrder.trans_lt hr.size_lt

/-- `mem_status` counts the managed memory. -/
theorem Inv.mem_status (hr : Region start size) (h : Inv start size s t p) :
    ∃ info, mem_status s.buddy = some info ∧ info.total = size ∧
      info.occupied = bytes (occupied (t.leaves s.buddy.maxOrder 0)) ∧
      info.occupied + info.free = 2 ^ s.buddy.maxOrder := by
  have hlt := h.two_pow_lt hr
  have hcount := countLeafNodes_sim [] (s.buddy.maxOrder + 1) ⟨0, 0, 0, 0⟩
    (Nat.lt_succ_self _) h.tree (by simpa using h.rep) (fun _ ↦ h.root.symm)
  have hbytes := h.tree.fits.bytes 0
  obtain ⟨hocc, hsum⟩ := foldl_add_memory (t.leaves s.buddy.maxOrder 0) ⟨0, 0, 0, 0⟩ (by
    simp only [hbytes]
    omega)
  refine ⟨_, by rw [Buddy.mem_status, h.root, hcount, Option.map_some], h.region.totalSize, ?_, ?_⟩
  · simpa using hocc
  · simpa [hbytes] using hsum

/-- The order of a request is that of a block the tree can have. -/
theorem Inv.getOrder_bounds (h : Inv start size s t p) (n : Nat) :
    MIN_ORDER ≤ getOrder s.buddy n ∧ getOrder s.buddy n ≤ s.buddy.maxOrder := by
  obtain ⟨hlow, hhigh⟩ := getOrderGo_spec n s.buddy.maxOrder 64 MIN_ORDER
  rw [max_eq_right h.region.minOrder] at hhigh
  exact ⟨hlow, hhigh⟩

/-- **The code allocates as the abstract tree does**: a failed search is a `NULL`,
a successful one returns the block it took into use. -/
theorem Inv.alloc_sim (hr : Region start size) (h : Inv start size s t p) {n : Nat} (hn : n ≠ 0) :
    let found := t.alloc (getOrder s.buddy n) s.buddy.maxOrder p
    ∃ b', b'.maxOrder = s.buddy.maxOrder ∧
      ((found.result = none ∧ mem_alloc s.buddy n = some (b', 0) ∧
          Inv start size ⟨b', s.live⟩ found.tree found.reserve) ∨
        ∃ c ∈ found.tree.leaves s.buddy.maxOrder 0, found.result = some c.idx ∧
          c.order = getOrder s.buddy n ∧ c.isFree = false ∧
          (occupied (found.tree.leaves s.buddy.maxOrder 0)).Perm
            (c :: occupied (t.leaves s.buddy.maxOrder 0)) ∧
          mem_alloc s.buddy n = some (b', start + c.offset) ∧
          Inv start size ⟨b', (start + c.offset) :: s.live⟩ found.tree found.reserve) := by
  have hlt := h.two_pow_lt hr
  have hmax : s.buddy.maxOrder < 63 := (Nat.pow_lt_pow_iff_right (by decide)).mp hlt
  obtain ⟨hreq, hhigh⟩ := h.getOrder_bounds n
  have horder : getOrder s.buddy n % 256 = getOrder s.buddy n := Nat.mod_eq_of_lt (by omega)
  obtain ⟨b', hcall, hat, hrep, hagree⟩ := findAndAllocate_sim hreq (s.buddy.maxOrder + 1)
    s.buddy.maxOrder t p s.buddy [] (-1) 0 (Nat.lt_succ_self _) (by omega) h.tree
    (by simpa using h.rep)
  have hspec := t.alloc_spec hreq s.buddy.maxOrder 0 p h.tree.fits
  have hroot : b'.rootIndex = (t.alloc (getOrder s.buddy n) s.buddy.maxOrder p).tree.idx := by
    rw [hagree.rootIndex, h.root, hspec.idx]
  rw [List.append_nil] at hrep
  have hregion := h.region.agrees hagree
  refine ⟨b', hagree.maxOrder, ?_⟩
  unfold Buddy.mem_alloc
  rw [if_neg hn]
  simp only [horder, h.root, hcall, Option.bind_eq_bind, Option.bind_some]
  cases hres : (t.alloc (getOrder s.buddy n) s.buddy.maxOrder p).result with
  | none =>
      have hindex : (t.alloc (getOrder s.buddy n) s.buddy.maxOrder p).index = -1 := by
        simp [Found.index, hres]
      refine Or.inl ⟨rfl, by simp [hindex], hregion, hroot, hagree.maxOrder ▸ hat, hrep, ?_⟩
      simpa [hagree.maxOrder, hspec.failed hres] using h.live
  | some i =>
      obtain ⟨c, hc, rfl, hcorder, hcfree, hperm⟩ := hspec.done i hres
      have hindex : (t.alloc (getOrder s.buddy n) s.buddy.maxOrder p).index = c.idx := by
        simp [Found.index, hres]
      have hnonneg : 0 ≤ c.idx := hrep.nonneg (Tree.mem_indices_of_leaf hc)
      obtain ⟨par, hslot⟩ := hat.leaf_slot hc
      have hbounds := hspec.fits.bounds hc
      have hpos : 0 < 2 ^ c.order := Nat.two_pow_pos _
      have hfits := hr.fits
      have hle := h.region.maxOrder
      have haddr : u64 (b'.minAddress + (b'.nodes c.idx).offset) = start + c.offset := by
        rw [hregion.minAddress, hslot]
        exact u64_of_lt (by simp only; omega)
      refine Or.inr ⟨c, hc, rfl, hcorder, hcfree, hperm, ?_, hregion, hroot,
        hagree.maxOrder ▸ hat, hrep, ?_⟩
      · rw [hindex, if_neg (by omega), haddr]
        rfl
      · have hmap := hperm.map fun d : Leaf ↦ start + d.offset
        rw [hagree.maxOrder]
        exact (h.live.cons _).trans hmap.symm

/-- What `mem_alloc` does. -/
theorem Inv.mem_alloc (hr : Region start size) (h : Inv start size s t p) (n : Nat) :
    ∃ b' a t' p', mem_alloc s.buddy n = some (b', a) ∧
      Inv start size ⟨b', if a = 0 then s.live else a :: s.live⟩ t' p' := by
  by_cases hn : n = 0
  · exact ⟨s.buddy, 0, t, p, by rw [Buddy.mem_alloc, if_pos hn], by simpa using h⟩
  have hstart := hr.start_pos
  obtain ⟨b', -, ⟨-, hcall, hinv⟩ | ⟨c, -, -, -, -, -, hcall, hinv⟩⟩ := h.alloc_sim hr hn
  · exact ⟨b', 0, _, _, hcall, by simpa using hinv⟩
  · exact ⟨b', _, _, _, hcall, by rw [if_neg (by omega)]; exact hinv⟩

/-- **The step lemma.**  No call runs out of fuel, and every call keeps the
invariant. -/
theorem inv_step (hr : Region start size) (h : Inv start size s t p) (op : Op) :
    ∃ s' t' p', step s op = some s' ∧ Inv start size s' t' p' := by
  cases op with
  | alloc n =>
      obtain ⟨b', a, t', p', hcall, hinv⟩ := h.mem_alloc hr n
      exact ⟨_, t', p', by rw [step, hcall, Option.map_some], hinv⟩
  | free ptr =>
      by_cases hptr : ptr ∈ s.live
      · obtain ⟨c, -, -, b', ctx, hcall, -, -, hinv, -⟩ := h.free_sim hr hptr
        exact ⟨_, _, _, by rw [step, hcall, Option.map_some], hinv⟩
      · refine ⟨_, t, p, by rw [step, h.mem_free_other hptr, Option.map_some], ?_⟩
        rw [List.erase_of_not_mem hptr]
        exact h

/-- **The run lemma.** -/
theorem inv_reach (hr : Region start size) {nodes : Int → BuddyNode} {rootIndex : Int}
    (hreach : Reach step Valid (State.init nodes rootIndex start size) s) :
    ∃ t p, Inv start size s t p := by
  refine hreach.invariant (I := fun s ↦ ∃ t p, Inv start size s t p)
    ⟨_, _, inv_init hr nodes rootIndex⟩ fun s op s' hinv _ hstep ↦ ?_
  obtain ⟨t, p, hinv⟩ := hinv
  obtain ⟨s'', t', p', hstep', hinv'⟩ := inv_step hr hinv op
  rw [hstep] at hstep'
  exact ⟨t', p', (Option.some.inj hstep') ▸ hinv'⟩

/-- **The buddy manager over whole runs.**  In every state reached by allocations
of any size and releases of any pointer, the pool represents a tree whose blocks in
use are the live pointers (`TreeInv`).  Releasing a live pointer takes its block out
of use and nothing else, releasing any other pointer changes nothing, `mem_status`
accounts for the memory that is managed, and every call returns. -/
theorem buddy_invariant (hr : Region start size) {nodes : Int → BuddyNode} {rootIndex : Int}
    (hreach : Reach step Valid (State.init nodes rootIndex start size) s) :
    ∃ t p, TreeInv s t p ∧
      (∀ ptr ∈ s.live, ∃ c ∈ occupied (t.leaves s.buddy.maxOrder 0),
        ptr = s.buddy.minAddress + c.offset ∧ ∃ b' t' p', mem_free s.buddy ptr = some b' ∧
          TreeInv ⟨b', s.live.erase ptr⟩ t' p' ∧ b'.maxOrder = s.buddy.maxOrder ∧
          (occupied (t.leaves s.buddy.maxOrder 0)).Perm
            (c :: occupied (t'.leaves s.buddy.maxOrder 0))) ∧
      (∀ ptr, ptr ∉ s.live → mem_free s.buddy ptr = some s.buddy) ∧
      (∃ info, mem_status s.buddy = some info ∧
        info.occupied + info.free = 2 ^ s.buddy.maxOrder) ∧
      ∀ op, (step s op).isSome := by
  obtain ⟨t, p, hinv⟩ := inv_reach hr hreach
  refine ⟨t, p, hinv.treeInv, fun ptr hptr ↦ ?_, fun ptr ↦ hinv.mem_free_other, ?_, fun op ↦ ?_⟩
  · obtain ⟨c, hc, haddr, b', ctx, hcall, hmax, -, hinv', hocc⟩ := hinv.free_sim hr hptr
    exact ⟨c, hc, by rw [hinv.region.minAddress, haddr], b', _, _, hcall, hinv'.treeInv, hmax,
      hocc⟩
  · obtain ⟨info, hcall, -, -, hsum⟩ := hinv.mem_status hr
    exact ⟨info, hcall, hsum⟩
  · obtain ⟨s', -, -, hstep, -⟩ := inv_step hr hinv op
    rw [hstep]
    rfl

/-- A pool whose slots have never been written. -/
def blank : Int → BuddyNode := fun _ ↦ ⟨false, 0, 0, 0, 0, 0⟩

/-- A region of 64 bytes in which one block was allocated and released again. -/
theorem buddy_invariant_alloc_free : ∃ s, s.live = [0x1000] ∧ ∃ t p, TreeInv s t p ∧
    (∀ ptr ∈ s.live, ∃ c ∈ occupied (t.leaves s.buddy.maxOrder 0),
      ptr = s.buddy.minAddress + c.offset ∧ ∃ b' t' p', mem_free s.buddy ptr = some b' ∧
        TreeInv ⟨b', s.live.erase ptr⟩ t' p' ∧ b'.maxOrder = s.buddy.maxOrder ∧
        (occupied (t.leaves s.buddy.maxOrder 0)).Perm
          (c :: occupied (t'.leaves s.buddy.maxOrder 0))) ∧
    (∀ ptr, ptr ∉ s.live → mem_free s.buddy ptr = some s.buddy) ∧
    (∃ info, mem_status s.buddy = some info ∧
      info.occupied + info.free = 2 ^ s.buddy.maxOrder) ∧
    ∀ op, (step s op).isSome := by
  have hr : Region 0x1000 64 := ⟨by decide, by decide, by decide, by decide⟩
  have hrun : (run step (State.init blank 0 0x1000 64) [.alloc 20, .alloc 10, .free 0x1020]).map
      State.live = some [0x1000] := by decide
  obtain ⟨s, hrun, hlive⟩ := Option.map_eq_some_iff.mp hrun
  have hguard : Guarded step Valid (State.init blank 0 0x1000 64)
      [.alloc 20, .alloc 10, .free 0x1020] :=
    ⟨(by decide : 20 < 2 ^ 64), fun _ _ ↦ ⟨(by decide : 10 < 2 ^ 64), fun _ _ ↦
      ⟨(by decide : 0x1020 < 2 ^ 64), fun _ _ ↦ trivial⟩⟩⟩
  exact ⟨s, hlive, buddy_invariant hr (.of_run hrun hguard)⟩

end BareBones.Memory.Buddy
