import BareBones.Memory.BuddyTree

/-!
# The pool represents the tree

`Tree.At` says that the pool holds a tree below a given parent, with the order,
offset, children and parent of every slot as the position in the tree dictates;
`Links` that it holds the list of recycled slots; and `Rep` that these two fill
the slots in use.  A search changes the slots of the subtree it is called on and
of the reserve, so each lemma carries the remaining slots as a frame (`Agrees`).

The main results are `findAndAllocate_sim` and `tryMerge_sim`: the code computes
`Tree.alloc` and `mergeUp`, and it does so within the fuel given to it.
-/

namespace BareBones.Memory.Buddy

open BareBones.Lib

/-- The pool holds the tree, of order `k` at offset `o`, below `parent`. -/
def Tree.At (nodes : Int → BuddyNode) : Tree → Int → Nat → Nat → Prop
  | leaf i f, parent, k, o => MIN_ORDER ≤ k ∧ nodes i = ⟨f, k, o, -1, -1, parent⟩
  | node i f l r, parent, k, o =>
      MIN_ORDER < k ∧ nodes i = ⟨f, k, o, l.idx, r.idx, parent⟩ ∧
        l.At nodes i (k - 1) o ∧ r.At nodes i (k - 1) (o + 2 ^ (k - 1))

/-- The recycled slots, linked through `leftChild` from `first`, all free. -/
def Links (nodes : Int → BuddyNode) : Int → List Int → Prop
  | first, [] => first = -1
  | first, i :: is => first = i ∧ (nodes i).isFree = true ∧ Links nodes (nodes i).leftChild is

/-- The pool holds the reserve, and the slots in use outside it are `used`. -/
structure Rep (b : Manager) (p : Reserve) (used : List Int) : Prop where
  count : b.nodeCount = p.count
  links : Links b.nodes b.firstFreeNode p.recycled
  covers : p.Covers used

/-- Two managers with the same parameters whose slots in `keep` are the same. -/
structure Agrees (b b' : Manager) (keep : List Int) : Prop where
  minAddress : b'.minAddress = b.minAddress
  totalSize : b'.totalSize = b.totalSize
  maxOrder : b'.maxOrder = b.maxOrder
  rootIndex : b'.rootIndex = b.rootIndex
  nodes : ∀ i ∈ keep, b'.nodes i = b.nodes i

variable {b b' b'' : Manager} {p p' : Reserve} {used keep others : List Int} {t l r : Tree}
  {i j parent first : Int} {k o : Nat} {f : Bool}

/-! ## Frames -/

namespace Agrees

theorem refl (b : Manager) (keep : List Int) : Agrees b b keep :=
  ⟨rfl, rfl, rfl, rfl, fun _ _ ↦ rfl⟩

theorem trans (h : Agrees b b' keep) (h' : Agrees b' b'' keep) : Agrees b b'' keep where
  minAddress := h'.minAddress.trans h.minAddress
  totalSize := h'.totalSize.trans h.totalSize
  maxOrder := h'.maxOrder.trans h.maxOrder
  rootIndex := h'.rootIndex.trans h.rootIndex
  nodes i hi := (h'.nodes i hi).trans (h.nodes i hi)

theorem mono {small : List Int} (h : Agrees b b' keep) (hsub : ∀ i ∈ small, i ∈ keep) :
    Agrees b b' small :=
  { h with nodes := fun i hi ↦ h.nodes i (hsub i hi) }

end Agrees

/-- A tree stays where it is when its slots do. -/
theorem Tree.At.frame {nodes nodes' : Int → BuddyNode} (h : t.At nodes parent k o)
    (hsame : ∀ i ∈ t.indices, nodes' i = nodes i) : t.At nodes' parent k o := by
  induction t generalizing parent k o with
  | leaf i f => exact ⟨h.1, (hsame i (by simp)).trans h.2⟩
  | node i f l r ihl ihr =>
      obtain ⟨hk, hi, hl, hr⟩ := h
      exact ⟨hk, (hsame i (by simp)).trans hi, ihl hl fun j hj ↦ hsame j (by simp [hj]),
        ihr hr fun j hj ↦ hsame j (by simp [hj])⟩

theorem Links.frame {nodes nodes' : Int → BuddyNode} {is : List Int} (h : Links nodes first is)
    (hsame : ∀ i ∈ is, nodes' i = nodes i) : Links nodes' first is := by
  induction is generalizing first with
  | nil => exact h
  | cons i is ih =>
      obtain ⟨hfirst, hfree, hrest⟩ := h
      have hi := hsame i (by simp)
      refine ⟨hfirst, by rw [hi]; exact hfree, ?_⟩
      rw [hi]
      exact ih hrest fun j hj ↦ hsame j (by simp [hj])

theorem Links.isFree {nodes : Int → BuddyNode} {is : List Int} (h : Links nodes first is)
    (hi : i ∈ is) : (nodes i).isFree = true := by
  induction is generalizing first with
  | nil => cases hi
  | cons j is ih =>
      rcases List.mem_cons.mp hi with rfl | hi
      · exact h.2.1
      · exact ih h.2.2 hi

theorem Tree.At.fits {nodes : Int → BuddyNode} (h : t.At nodes parent k o) : t.Fits k := by
  induction t generalizing parent k o with
  | leaf i f => exact h.1
  | node i f l r ihl ihr => exact ⟨h.1, ihl h.2.2.1, ihr h.2.2.2⟩

/-- The root slot of a tree of order `k` at offset `o`. -/
theorem Tree.At.root {nodes : Int → BuddyNode} (h : t.At nodes parent k o) :
    (nodes t.idx).isFree = t.isFree ∧ (nodes t.idx).order = k ∧ (nodes t.idx).offset = o ∧
      (nodes t.idx).parent = parent := by
  cases t with
  | leaf i f => simp [h.2]
  | node i f l r => simp [h.2.1]

/-- The slot of a block. -/
theorem Tree.At.leaf_slot {nodes : Int → BuddyNode} (h : t.At nodes parent k o) {c : Leaf}
    (hc : c ∈ t.leaves k o) : ∃ par, nodes c.idx = ⟨c.isFree, c.order, c.offset, -1, -1, par⟩ := by
  induction t generalizing parent k o with
  | leaf i f =>
      simp only [leaves, List.mem_singleton] at hc
      subst hc
      exact ⟨parent, h.2⟩
  | node i f l r ihl ihr =>
      rcases List.mem_append.mp hc with hc | hc
      · exact ihl h.2.2.1 hc
      · exact ihr h.2.2.2 hc

/-- A slot of the tree without a left child is a block. -/
theorem Tree.At.exists_leaf {nodes : Int → BuddyNode} (h : t.At nodes parent k o)
    (hnonneg : ∀ j ∈ t.indices, 0 ≤ j) (hi : i ∈ t.indices) (hleaf : (nodes i).leftChild = -1) :
    ∃ c ∈ t.leaves k o, c.idx = i := by
  induction t generalizing parent k o with
  | leaf j f =>
      simp only [indices_leaf, List.mem_singleton] at hi
      exact ⟨_, List.mem_singleton_self _, hi.symm⟩
  | node j f l r ihl ihr =>
      obtain ⟨-, hj, hl, hr⟩ := h
      simp only [indices_node, List.mem_cons, List.mem_append] at hi
      rcases hi with rfl | hi | hi
      · have hidx : 0 ≤ l.idx := hnonneg _ (by simp [l.idx_mem_indices])
        rw [hj] at hleaf
        simp only at hleaf
        omega
      · obtain ⟨c, hc, hidx⟩ := ihl hl (fun j hj ↦ hnonneg j (by simp [hj])) hi
        exact ⟨c, List.mem_append_left _ hc, hidx⟩
      · obtain ⟨c, hc, hidx⟩ := ihr hr (fun j hj ↦ hnonneg j (by simp [hj])) hi
        exact ⟨c, List.mem_append_right _ hc, hidx⟩

/-! ## The reserve -/

theorem Rep.perm {used' : List Int} (h : Rep b p used) (hperm : used.Perm used') :
    Rep b p used' :=
  { h with covers := h.covers.perm hperm }

theorem Rep.nonneg (h : Rep b p used) (hi : i ∈ used) : 0 ≤ i := h.covers.nonneg hi

theorem Rep.in_range (h : Rep b p used) (hi : i ∈ used) : ¬(i < 0 ∨ i ≥ b.nodeCount) := by
  have := h.covers.nonneg hi
  have := h.covers.lt hi
  have := h.count
  omega

/-- Writing a slot that is in use keeps the reserve. -/
theorem Rep.write (h : Rep b p used) (hi : i ∈ used) (n : BuddyNode) :
    Rep (b.write i n) p used where
  count := h.count
  links := h.links.frame fun j hj ↦ by
    have hne : j ≠ i := fun heq ↦ h.covers.not_recycled hi (heq ▸ hj)
    simp [Manager.write, hne]
  covers := h.covers

@[simp] theorem Manager.write_self (b : Manager) (i : Int) (n : BuddyNode) :
    (b.write i n).nodes i = n := by simp [Manager.write]

theorem Manager.write_other (b : Manager) (n : BuddyNode) (h : j ≠ i) :
    (b.write i n).nodes j = b.nodes j := by simp [Manager.write, h]

/-- Writing a slot keeps the others. -/
theorem Agrees.write (b : Manager) (n : BuddyNode) (hi : i ∉ keep) :
    Agrees b (b.write i n) keep where
  minAddress := rfl
  totalSize := rfl
  maxOrder := rfl
  rootIndex := rfl
  nodes _ hj := b.write_other n fun heq ↦ hi (heq ▸ hj)

/-- Recycling a slot gives it back to the reserve. -/
theorem Rep.recycle (h : Rep b p (i :: used)) (hfree : (b.nodes i).isFree = true) :
    Rep (b.recycle i) (p.give i) used where
  count := h.count
  links := by
    have hnot : i ∉ p.recycled := h.covers.not_recycled List.mem_cons_self
    refine ⟨rfl, by simp [Manager.recycle, Manager.write, hfree], ?_⟩
    have hlink : ((b.recycle i).nodes i).leftChild = b.firstFreeNode := by
      simp [Manager.recycle, Manager.write]
    rw [hlink]
    exact h.links.frame fun j hj ↦ b.write_other _ fun heq ↦ hnot (heq ▸ hj)
  covers := h.covers.give

theorem Agrees.recycle (b : Manager) (hi : i ∉ keep) : Agrees b (b.recycle i) keep where
  minAddress := rfl
  totalSize := rfl
  maxOrder := rfl
  rootIndex := rfl
  nodes _ hj := b.write_other _ fun heq ↦ hi (heq ▸ hj)

theorem Rep.not_mem (h : Rep b p (i :: used)) : i ∉ used := fun hi ↦ by
  have := h.covers.nodup
  simp [hi] at this

/-! ## `createNode` and `splitNode` -/

theorem createNode_none (h : Rep b p used) (htake : p.take = none) (order offset : Nat)
    (parent : Int) : createNode b order offset parent = (b, -1) := by
  unfold Reserve.take at htake
  split at htake
  · cases htake
  next hrec =>
      have hfirst : b.firstFreeNode = -1 := by simpa [hrec, Links] using h.links
      have hfull : p.count ≥ MAX_NODES := by
        by_contra hlt
        simp [hlt] at htake
      have hcount := h.count
      unfold createNode
      rw [if_neg (by simp [hfirst]), if_pos (by omega)]

theorem createNode_some (h : Rep b p used) (htake : p.take = some (i, p')) (order offset : Nat)
    (parent : Int) : ∃ b', createNode b order offset parent = (b', i) ∧ Rep b' p' (i :: used) ∧
      b'.nodes i = ⟨true, order, offset, -1, -1, parent⟩ ∧ Agrees b b' used := by
  have hcovers := h.covers.take htake
  have hnot : i ∉ used := fun hi ↦ by
    have := hcovers.nodup
    simp [hi] at this
  unfold Reserve.take at htake
  split at htake
  next first rest hrec =>
      obtain ⟨rfl, rfl⟩ := Prod.mk.inj (Option.some.inj htake)
      have hlinks : Links b.nodes b.firstFreeNode (first :: rest) := hrec ▸ h.links
      obtain ⟨hfirst, -, hrest⟩ := hlinks
      have hnonneg : 0 ≤ first := hcovers.nonneg List.mem_cons_self
      have hnotrest : first ∉ rest := hcovers.not_recycled List.mem_cons_self
      refine ⟨_, by unfold createNode; rw [if_pos (by omega), hfirst], ?_, by simp, ?_⟩
      · refine ⟨h.count, ?_, hcovers⟩
        exact Links.frame hrest fun j hj ↦ Manager.write_other _ _ fun heq ↦ hnotrest (heq ▸ hj)
      · exact ⟨rfl, rfl, rfl, rfl, fun j hj ↦ Manager.write_other _ _ fun heq ↦ hnot (heq ▸ hj)⟩
  next hrec =>
      split at htake
      · cases htake
      next hlt =>
          obtain ⟨rfl, rfl⟩ := Prod.mk.inj (Option.some.inj htake)
          have hfirst : b.firstFreeNode = -1 := by simpa [hrec, Links] using h.links
          have hcount := h.count
          refine ⟨_, by
            unfold createNode
            rw [if_neg (by simp [hfirst]), if_neg (by omega), hcount], ?_, by simp, ?_⟩
          · exact ⟨rfl, by simpa [hrec, Links, Manager.write] using hfirst, hcovers⟩
          · exact ⟨rfl, rfl, rfl, rfl, fun j hj ↦ Manager.write_other _ _ fun heq ↦ hnot (heq ▸ hj)⟩

theorem shl1_of_lt {k : Nat} (h : k < 64) : shl1 k = 2 ^ k :=
  u64_of_lt (Nat.pow_lt_pow_right (by decide) h)

/-- The halves of a block inside the address space. -/
theorem half_lt {k o : Nat} (hk : MIN_ORDER < k) (hspace : o + 2 ^ k < 2 ^ 64) :
    k - 1 < 64 ∧ o + 2 ^ (k - 1) < 2 ^ 64 ∧ o + 2 ^ (k - 1) + 2 ^ (k - 1) < 2 ^ 64 := by
  have hsum := two_pow_pred_add (Nat.zero_lt_of_lt hk)
  have hlt : 2 ^ k < 2 ^ 64 := by omega
  have := (Nat.pow_lt_pow_iff_right (by decide)).mp hlt
  have := Nat.two_pow_pos (k - 1)
  omega

/-- The reserve has no two slots: the block stays as it is. -/
theorem splitNode_none (h : Rep b p (i :: others)) (hk : MIN_ORDER < k)
    (hi : b.nodes i = ⟨true, k, o, -1, -1, parent⟩) (htake : p.takeTwo = (none, p')) :
    ∃ b', splitNode b i = (b', -1) ∧ Rep b' p' (i :: others) ∧ Agrees b b' (i :: others) := by
  have hin := h.in_range List.mem_cons_self
  unfold Reserve.takeTwo at htake
  split at htake
  next hnone =>
      obtain rfl := (Prod.mk.inj htake).2
      have hcreate := createNode_none h hnone
      refine ⟨b, ?_, h, .refl _ _⟩
      unfold splitNode
      rw [if_neg hin, if_neg (by simp [hi, hk]), if_neg (by simp [hi])]
      simp [hcreate]
  next x q hx =>
      split at htake
      next hnone =>
          obtain rfl := (Prod.mk.inj htake).2
          obtain ⟨b₁, hcreate, hrep₁, hnode₁, hagree₁⟩ := createNode_some h hx (k - 1) o i
          have hcreate₂ := createNode_none hrep₁ hnone
          have hnonneg := hrep₁.nonneg List.mem_cons_self
          refine ⟨b₁.recycle x, ?_, hrep₁.recycle (by simp [hnode₁]),
            hagree₁.trans (.recycle b₁ hrep₁.not_mem)⟩
          unfold splitNode
          rw [if_neg hin, if_neg (by simp [hi, hk]), if_neg (by simp [hi])]
          simp only [hi, hcreate, hcreate₂]
          rw [if_neg (by omega), if_pos (by omega)]
      · cases htake

/-- The block is split into two free halves. -/
theorem splitNode_some {x y : Int} (h : Rep b p (i :: others)) (hk : MIN_ORDER < k)
    (hspace : o + 2 ^ k < 2 ^ 64) (hi : b.nodes i = ⟨true, k, o, -1, -1, parent⟩)
    (htake : p.takeTwo = (some (x, y), p')) :
    let t := Tree.node i true (.leaf x true) (.leaf y true)
    ∃ b', splitNode b i = (b', 0) ∧ t.At b'.nodes parent k o ∧ Rep b' p' (t.indices ++ others) ∧
      Agrees b b' others := by
  have hin := h.in_range List.mem_cons_self
  obtain ⟨hk64, hhalf, -⟩ := half_lt hk hspace
  unfold Reserve.takeTwo at htake
  split at htake
  · cases htake
  next x' q hx =>
      split at htake
      · cases htake
      next y' q' hy =>
          obtain ⟨heq, rfl⟩ := Prod.mk.inj htake
          obtain ⟨rfl, rfl⟩ := Prod.mk.inj (Option.some.inj heq)
          have hoffset : u64 (o + shl1 (k - 1)) = o + 2 ^ (k - 1) := by
            rw [shl1_of_lt hk64, u64_of_lt hhalf]
          obtain ⟨b₁, hcreate₁, hrep₁, hnode₁, hagree₁⟩ := createNode_some h hx (k - 1) o i
          obtain ⟨b₂, hcreate₂, hrep₂, hnode₂, hagree₂⟩ :=
            createNode_some hrep₁ hy (k - 1) (o + 2 ^ (k - 1)) i
          have hx₂ : b₂.nodes x' = ⟨true, k - 1, o, -1, -1, i⟩ := by
            rw [hagree₂.nodes x' (by simp), hnode₁]
          have hi₂ : b₂.nodes i = ⟨true, k, o, -1, -1, parent⟩ := by
            rw [hagree₂.nodes i (by simp), hagree₁.nodes i (by simp), hi]
          have hperm : (y' :: x' :: i :: others).Perm (i :: (x' :: y' :: others)) :=
            List.perm_iff_count.mpr fun z ↦ by
              simp only [List.count_cons]
              omega
          have hrep := (hrep₂.perm hperm).write List.mem_cons_self
            { b₂.nodes i with leftChild := x', rightChild := y' }
          have hnot := (hrep₂.perm hperm).not_mem
          simp only [List.mem_cons, not_or] at hnot
          refine ⟨b₂.setChildren i x' y', ?_, ⟨hk, ?_, ⟨?_, ?_⟩, ⟨?_, ?_⟩⟩, hrep, ?_⟩
          · unfold splitNode
            have hxnonneg := hrep₁.nonneg List.mem_cons_self
            have hynonneg := hrep₂.nonneg List.mem_cons_self
            rw [if_neg hin, if_neg (by simp [hi, hk]), if_neg (by simp [hi])]
            simp only [hi, hcreate₁, hoffset, hcreate₂]
            rw [if_neg (by omega), if_neg (by omega)]
          · simp [Manager.setChildren, hi₂]
          · omega
          · rw [Manager.setChildren, Manager.write_other _ _ (Ne.symm hnot.1), hx₂]
          · omega
          · rw [Manager.setChildren, Manager.write_other _ _ (Ne.symm hnot.2.1), hnode₂]
          · have hagree₁₂ : Agrees b b₂ others :=
              (hagree₁.mono fun j hj ↦ List.mem_cons_of_mem _ hj).trans
                (hagree₂.mono fun j hj ↦ by simp [hj])
            exact hagree₁₂.trans (.write _ _ hnot.2.2)

/-! ## `findAndAllocate` -/

/-- The index a search returns: the slot, or `-1`. -/
def Found.index (found : Found) : Int := found.result.getD (-1)

/-- What the code does when it searches the tree of order `k` at offset `o` and
the outcome in the abstract is `found`. -/
def Simulates (r : Option (Manager × Int)) (b : Manager) (found : Found) (parent : Int) (k o : Nat)
    (others : List Int) : Prop :=
  ∃ b', r = some (b', found.index) ∧ found.tree.At b'.nodes parent k o ∧
    Rep b' found.reserve (found.tree.indices ++ others) ∧ Agrees b b' others

/-- `updateNodeStatus` at a split node. -/
theorem updateNodeStatus_node (h : Rep b p ((Tree.node i f l r).indices ++ others))
    (ht : (Tree.node i f l r).At b.nodes parent k o) :
    let t := Tree.node i (l.isFree && r.isFree) l r
    t.At (updateNodeStatus b i).nodes parent k o ∧
      Rep (updateNodeStatus b i) p (t.indices ++ others) ∧
      Agrees b (updateNodeStatus b i) (l.indices ++ r.indices ++ others) := by
  obtain ⟨hk, hi, hl, hr⟩ := ht
  have hmem : i ∈ (Tree.node i f l r).indices ++ others := by simp
  have hnot : i ∉ l.indices ++ r.indices ++ others := by
    have := h.not_mem
    simpa using this
  have hlidx : 0 ≤ l.idx := h.nonneg (by simp [l.idx_mem_indices])
  have hstatus : updateNodeStatus b i = b.setFree i (l.isFree && r.isFree) := by
    unfold updateNodeStatus
    rw [if_neg (h.in_range hmem), if_neg (by simp [hi]; omega)]
    simp only [hi, hl.root.1, hr.root.1]
  have hagree : Agrees b (b.setFree i (l.isFree && r.isFree)) (l.indices ++ r.indices ++ others) :=
    .write b _ hnot
  rw [hstatus]
  refine ⟨⟨hk, by simp [Manager.setFree, hi], ?_, ?_⟩, h.write hmem _, hagree⟩
  · exact hl.frame fun j hj ↦ hagree.nodes j (by simp [hj])
  · exact hr.frame fun j hj ↦ hagree.nodes j (by simp [hj])

/-- Searching the two halves of a split block. -/
theorem searchChildren_sim {find : Manager → Int → Option (Manager × Int)}
    {afind : Tree → Reserve → Found} {req : Nat} (hspace : o + 2 ^ k < 2 ^ 64)
    (hspec : ∀ t p o, t.Fits (k - 1) → (afind t p).Spec req (k - 1) o t)
    (hfind : ∀ t p b others parent o, o + 2 ^ (k - 1) < 2 ^ 64 → t.At b.nodes parent (k - 1) o →
      Rep b p (t.indices ++ others) →
      Simulates (find b t.idx) b (afind t p) parent (k - 1) o others)
    (ht : (Tree.node i f l r).At b.nodes parent k o)
    (h : Rep b p ((Tree.node i f l r).indices ++ others)) :
    Simulates (searchChildren find b i) b (Tree.search afind i f l r p) parent k o others := by
  obtain ⟨hk, hi, hl, hr⟩ := ht
  obtain ⟨-, hspacel, hspacer⟩ := half_lt hk hspace
  -- the left half, framed by the split block, the right half and the rest
  obtain ⟨b₁, hcall₁, hat₁, hrep₁, hagree₁⟩ := hfind l p b (i :: (r.indices ++ others)) i o
    hspacel hl (h.perm (List.perm_iff_count.mpr fun x ↦ by
      simp only [Tree.indices_node, List.cons_append, List.count_cons, List.count_append]
      omega))
  have hspecl := hspec l p o hl.fits
  have hi₁ : b₁.nodes i = ⟨f, k, o, l.idx, r.idx, parent⟩ := by rw [hagree₁.nodes i (by simp), hi]
  have hr₁ : r.At b₁.nodes i (k - 1) (o + 2 ^ (k - 1)) :=
    hr.frame fun j hj ↦ hagree₁.nodes j (by simp [hj])
  have hnode₁ : (Tree.node i f (afind l p).tree r).At b₁.nodes parent k o :=
    ⟨hk, by rw [hi₁, hspecl.idx], hat₁, hr₁⟩
  have hrep₁' : Rep b₁ (afind l p).reserve
      ((Tree.node i f (afind l p).tree r).indices ++ others) :=
    hrep₁.perm (List.perm_iff_count.mpr fun x ↦ by
      simp only [Tree.indices_node, List.cons_append, List.count_cons, List.count_append]
      omega)
  have hothers₁ : Agrees b b₁ others := hagree₁.mono fun j hj ↦ by simp [hj]
  cases hresl : (afind l p).result with
  | some a =>
      obtain ⟨hat, hrep, hagree⟩ := updateNodeStatus_node hrep₁' hnode₁
      obtain ⟨c, hc, hidx, -⟩ := hspecl.done a hresl
      have hnonneg : 0 ≤ a := hrep₁.nonneg (by
        simp [← hidx, Tree.mem_indices_of_leaf hc])
      rw [Tree.search_left hresl]
      refine ⟨updateNodeStatus b₁ i, ?_, hat, hrep,
        hothers₁.trans (hagree.mono fun j hj ↦ by simp [hj])⟩
      have hne : a ≠ -1 := by omega
      simp [searchChildren, hi, hcall₁, Found.index, hresl, hne]
  | none =>
      -- the right half, framed by the split block, the searched left half and the rest
      obtain ⟨b₂, hcall₂, hat₂, hrep₂, hagree₂⟩ := hfind r (afind l p).reserve b₁
        (i :: ((afind l p).tree.indices ++ others)) i (o + 2 ^ (k - 1)) hspacer hr₁
        (hrep₁'.perm (List.perm_iff_count.mpr fun x ↦ by
          simp only [Tree.indices_node, List.cons_append, List.count_cons, List.count_append]
          omega))
      have hspecr := hspec r (afind l p).reserve (o + 2 ^ (k - 1)) hr.fits
      have hnode₂ : (Tree.node i f (afind l p).tree (afind r (afind l p).reserve).tree).At
          b₂.nodes parent k o := by
        refine ⟨hk, ?_, hat₁.frame fun j hj ↦ hagree₂.nodes j (by simp [hj]), hat₂⟩
        rw [hagree₂.nodes i (by simp), hi₁, hspecl.idx, hspecr.idx]
      have hrep₂' : Rep b₂ (afind r (afind l p).reserve).reserve
          ((Tree.node i f (afind l p).tree (afind r (afind l p).reserve).tree).indices ++
            others) :=
        hrep₂.perm (List.perm_iff_count.mpr fun x ↦ by
          simp only [Tree.indices_node, List.cons_append, List.count_cons, List.count_append]
          omega)
      have hothers₂ : Agrees b b₂ others :=
        hothers₁.trans (hagree₂.mono fun j hj ↦ by simp [hj])
      cases hresr : (afind r (afind l p).reserve).result with
      | some a =>
          obtain ⟨hat, hrep, hagree⟩ := updateNodeStatus_node hrep₂' hnode₂
          obtain ⟨c, hc, hidx, -⟩ := hspecr.done a hresr
          have hnonneg : 0 ≤ a := hrep₂.nonneg (by
            simp [← hidx, Tree.mem_indices_of_leaf hc])
          rw [Tree.search_right hresl hresr]
          refine ⟨updateNodeStatus b₂ i, ?_, hat, hrep,
            hothers₂.trans (hagree.mono fun j hj ↦ by simp [hj])⟩
          have hne : a ≠ -1 := by omega
          simp [searchChildren, hi, hi₁, hcall₁, hcall₂, Found.index, hresl, hresr, hne]
      | none =>
          rw [Tree.search_none hresl hresr]
          refine ⟨b₂, ?_, hnode₂, hrep₂', hothers₂⟩
          simp [searchChildren, hi, hi₁, hcall₁, hcall₂, Found.index, hresl, hresr]

/-- **The code searches as the abstract tree does.** -/
theorem findAndAllocate_sim {req : Nat} (hreq : MIN_ORDER ≤ req) (fuel : Nat) :
    ∀ (k : Nat) (t : Tree) (p : Reserve) (b : Manager) (others : List Int) (parent : Int) (o : Nat),
      k < fuel → o + 2 ^ k < 2 ^ 64 → t.At b.nodes parent k o → Rep b p (t.indices ++ others) →
      Simulates (findAndAllocate req fuel b t.idx) b (t.alloc req k p) parent k o others := by
  induction fuel with
  | zero => exact fun k t p b others parent o hfuel ↦ absurd hfuel (Nat.not_lt_zero _)
  | succ fuel ih =>
      intro k t p b others parent o hfuel hspace ht h
      obtain ⟨k, rfl⟩ : ∃ n, k = n + 1 :=
        Nat.exists_eq_succ_of_ne_zero (Nat.ne_of_gt (lt_of_lt_of_le (by decide) ht.fits.le))
      have hin := h.in_range (List.mem_append_left _ t.idx_mem_indices)
      have horder := ht.root.2.1
      have hspec : ∀ (t : Tree) p o, t.Fits k → (t.alloc req k p).Spec req k o t :=
        fun t p o ht ↦ t.alloc_spec hreq k o p ht
      have hfind : ∀ (t : Tree) p b others parent o, o + 2 ^ k < 2 ^ 64 → t.At b.nodes parent k o →
          Rep b p (t.indices ++ others) → Simulates (findAndAllocate req fuel b t.idx) b
            (t.alloc req k p) parent k o others :=
        fun t p b others parent o ↦ ih k t p b others parent o (by omega)
      unfold findAndAllocate
      rw [if_neg hin, horder]
      by_cases hsmall : k + 1 < req
      · rw [if_pos hsmall, Tree.alloc_small hsmall]
        exact ⟨b, rfl, ht, h, .refl _ _⟩
      rw [if_neg hsmall]
      cases t with
      | node i f l r =>
          have hi := ht.2.1
          have hlidx : 0 ≤ l.idx := h.nonneg (by simp [l.idx_mem_indices])
          have hexact : tryAllocateExactSize b i req = (b, -1) := by
            have hne : ¬(l.idx = -1) := by omega
            simp [tryAllocateExactSize, hi, hne]
          simp only [Tree.idx_node, hexact, ne_eq, not_true_eq_false, if_false, hi]
          rw [if_neg (by omega), Tree.alloc, if_neg hsmall]
          exact searchChildren_sim hspace hspec hfind ht h
      | leaf i f =>
          obtain ⟨hk, hi⟩ := ht
          cases f with
          | false =>
              have halloc : (Tree.leaf i false).alloc req (k + 1) p =
                  ⟨.leaf i false, p, none⟩ := by simp [Tree.alloc]
              rw [halloc]
              refine ⟨b, ?_, ⟨hk, hi⟩, h, .refl _ _⟩
              simp [tryAllocateExactSize, trySplitAndAllocate, hi, Found.index]
          | true =>
              by_cases heq : k + 1 = req
              · subst heq
                have hnonneg : 0 ≤ i := h.nonneg (by simp)
                have hne : i ≠ -1 := by omega
                have hexact : tryAllocateExactSize b i (k + 1) = (b.setFree i false, i) := by
                  simp [tryAllocateExactSize, hi]
                have halloc : (Tree.leaf i true).alloc (k + 1) (k + 1) p =
                    ⟨.leaf i false, p, some i⟩ := by simp [Tree.alloc]
                rw [halloc]
                refine ⟨b.setFree i false, ?_, ⟨hk, ?_⟩, h.write (by simp) _,
                  .write b _ h.not_mem⟩
                · simp [hexact, Found.index, hne]
                · simp [Manager.setFree, hi]
              · have hexact : tryAllocateExactSize b i req = (b, -1) := by
                  simp [tryAllocateExactSize, hi, heq]
                have hlarge : MIN_ORDER < k + 1 := by omega
                cases htake : p.takeTwo with
                | mk slots p' =>
                  cases slots with
                  | none =>
                      obtain ⟨b', hsplit, hrep, hagree⟩ := splitNode_none h hlarge hi htake
                      have halloc : (Tree.leaf i true).alloc req (k + 1) p =
                          ⟨.leaf i true, p', none⟩ := by simp [Tree.alloc, hsmall, heq, htake]
                      rw [halloc]
                      refine ⟨b', ?_, ⟨hk, ?_⟩, hrep, hagree.mono fun j hj ↦ by simp [hj]⟩
                      · simp [hexact, hi, trySplitAndAllocate, hsplit, Found.index]
                      · rw [hagree.nodes i (by simp), hi]
                  | some xy =>
                      obtain ⟨x, y⟩ := xy
                      obtain ⟨b', hsplit, hat, hrep, hagree⟩ :=
                        splitNode_some h hlarge hspace hi htake
                      have halloc : (Tree.leaf i true).alloc req (k + 1) p =
                          Tree.search (Tree.alloc req k) i true (.leaf x true) (.leaf y true)
                            p' := by
                        simp [Tree.alloc, hsmall, heq, htake]
                      rw [halloc]
                      obtain ⟨b'', hcall, hat', hrep', hagree'⟩ :=
                        searchChildren_sim hspace hspec hfind hat hrep
                      refine ⟨b'', ?_, hat', hrep', hagree.trans hagree'⟩
                      simp [hexact, hi, trySplitAndAllocate, hsplit, hcall]

/-! ## `tryMerge` -/

/-- The pool, whose tree has order `K`, holds the frames above the subtree in slot
`h`, of order `k` at offset `o`; the last argument is the parent of `h`. -/
inductive CtxAt (nodes : Int → BuddyNode) (K : Nat) : List Frame → Int → Nat → Nat → Int → Prop
  | root (h : Int) : CtxAt nodes K [] h K 0 (-1)
  | left {ctx : List Frame} {h j pp : Int} {k o : Nat} {f : Bool} {r : Tree} :
      CtxAt nodes K ctx j (k + 1) o pp → MIN_ORDER ≤ k →
      nodes j = ⟨f, k + 1, o, h, r.idx, pp⟩ → r.At nodes j k (o + 2 ^ k) →
      CtxAt nodes K (.left j f r :: ctx) h k o j
  | right {ctx : List Frame} {h j pp : Int} {k o : Nat} {f : Bool} {l : Tree} :
      CtxAt nodes K ctx j (k + 1) o pp → MIN_ORDER ≤ k →
      nodes j = ⟨f, k + 1, o, l.idx, h, pp⟩ → l.At nodes j k o →
      CtxAt nodes K (.right j f l :: ctx) h k (o + 2 ^ k) j

namespace CtxAt

variable {nodes nodes' : Int → BuddyNode} {K : Nat} {ctx : List Frame} {h : Int}

theorem frame (hctx : CtxAt nodes K ctx h k o parent)
    (hsame : ∀ i ∈ ctxIndices ctx, nodes' i = nodes i) : CtxAt nodes' K ctx h k o parent := by
  induction hctx with
  | root h => exact .root h
  | left _ hk hj hr ih =>
      refine .left (ih fun i hi ↦ hsame i (by simp [ctxIndices, hi])) hk ?_
        (hr.frame fun i hi ↦ hsame i (by simp [ctxIndices, Frame.sibling, hi]))
      rw [hsame _ (by simp [ctxIndices, Frame.idx]), hj]
  | right _ hk hj hl ih =>
      refine .right (ih fun i hi ↦ hsame i (by simp [ctxIndices, hi])) hk ?_
        (hl.frame fun i hi ↦ hsame i (by simp [ctxIndices, Frame.sibling, hi]))
      rw [hsame _ (by simp [ctxIndices, Frame.idx]), hj]

/-- A subtree and the frames above it make up the tree. -/
theorem plug (hctx : CtxAt nodes K ctx h k o parent) (ht : t.At nodes parent k o)
    (hidx : t.idx = h) : (plug ctx t).At nodes (-1) K 0 := by
  induction hctx generalizing t with
  | root h => exact ht
  | left _ hk hj hr ih => exact ih ⟨Nat.lt_succ_of_le hk, by rw [hj, hidx], ht, hr⟩ rfl
  | right _ hk hj hl ih => exact ih ⟨Nat.lt_succ_of_le hk, by rw [hj, hidx], hl, ht⟩ rfl

/-- There is one frame for each level above the subtree. -/
theorem length (hctx : CtxAt nodes K ctx h k o parent) : k + ctx.length = K := by
  induction hctx with
  | root h => rfl
  | left _ _ _ _ ih | right _ _ _ _ ih =>
      rw [List.length_cons]
      omega

/-- The blocks outside the hole are the same whatever fills it. -/
theorem leaves (hctx : CtxAt nodes K ctx h k o parent) : ∃ pre post : List Leaf, ∀ s : Tree,
    (Buddy.plug ctx s).leaves K 0 = pre ++ s.leaves k o ++ post := by
  induction hctx with
  | root h => exact ⟨[], [], fun s ↦ by simp [Buddy.plug]⟩
  | @left ctx h j pp k o f r _ _ _ _ ih =>
      obtain ⟨pre, post, hplug⟩ := ih
      exact ⟨pre, r.leaves k (o + 2 ^ k) ++ post, fun s ↦ by
        simp [Buddy.plug, Frame.plug, hplug, Tree.leaves]⟩
  | @right ctx h j pp k o f l _ _ _ _ ih =>
      obtain ⟨pre, post, hplug⟩ := ih
      exact ⟨pre ++ l.leaves k o, post, fun s ↦ by
        simp [Buddy.plug, Frame.plug, hplug, Tree.leaves]⟩

/-- The tree can be cut at any of its blocks. -/
theorem exists_of_leaf {c : Leaf} (hctx : CtxAt nodes K ctx t.idx k o parent)
    (ht : t.At nodes parent k o) (hc : c ∈ t.leaves k o) :
    ∃ ctx' par, CtxAt nodes K ctx' c.idx c.order c.offset par ∧
      (Tree.leaf c.idx c.isFree).At nodes par c.order c.offset ∧
      Buddy.plug ctx' (.leaf c.idx c.isFree) = Buddy.plug ctx t := by
  induction t generalizing parent k o ctx with
  | leaf i f =>
      simp only [Tree.leaves, List.mem_singleton] at hc
      subst hc
      exact ⟨ctx, parent, hctx, ht, rfl⟩
  | node i f l r ihl ihr =>
      obtain ⟨hk, hi, hl, hr⟩ := ht
      obtain ⟨k, rfl⟩ := Nat.exists_eq_succ_of_ne_zero (Nat.ne_of_gt (Nat.zero_lt_of_lt hk))
      rcases List.mem_append.mp hc with hc | hc
      · exact ihl (.left hctx (Nat.le_of_lt_succ hk) hi hr) hl hc
      · exact ihr (.right hctx (Nat.le_of_lt_succ hk) hi hl) hr hc

end CtxAt

/-- Merging changes no block in use. -/
theorem mergeUp_occupied {nodes : Int → BuddyNode} {K : Nat} {ctx : List Frame} {h : Int}
    (hctx : CtxAt nodes K ctx h k o parent) (p : Reserve) :
    occupied ((mergeUp ctx h p).1.leaves K 0) =
      occupied ((plug ctx (.leaf h true)).leaves K 0) := by
  induction hctx generalizing p with
  | root h => rfl
  | @left ctx h j pp k o f r hctx hk hj hr ih =>
      obtain ⟨pre, post, hplug⟩ := hctx.leaves
      cases r with
      | leaf g free =>
          cases free with
          | true => simp [mergeUp, ih, plug, Frame.plug, hplug, Tree.leaves]
          | false => simp [mergeUp]
      | node => simp [mergeUp]
  | @right ctx h j pp k o f l hctx hk hj hl ih =>
      obtain ⟨pre, post, hplug⟩ := hctx.leaves
      cases l with
      | leaf g free =>
          cases free with
          | true => simp [mergeUp, ih, plug, Frame.plug, hplug, Tree.leaves]
          | false => simp [mergeUp]
      | node => simp [mergeUp]

/-- The pool after `mergeBuddies` has merged the halves `x` and `y` of `j`. -/
def merged (b : Manager) (j x y : Int) : Manager :=
  (recycleChildNodes (b.setFree j true) x y).setChildren j (-1) (-1)

theorem merged_spec {x y pp : Int} (h : Rep b p (x :: y :: j :: others))
    (hj : b.nodes j = ⟨f, k, o, x, y, pp⟩) (hx : (b.nodes x).isFree = true)
    (hy : (b.nodes y).isFree = true) :
    Rep (merged b j x y) ((p.give x).give y) (j :: others) ∧
      (merged b j x y).nodes j = ⟨true, k, o, -1, -1, pp⟩ ∧ Agrees b (merged b j x y) others := by
  have hnodup := h.covers.nodup
  simp only [List.cons_append, List.nodup_cons, List.mem_cons, List.mem_append, not_or] at hnodup
  obtain ⟨⟨hxy, hxj, hxo, -⟩, ⟨hyj, hyo, -⟩, ⟨hjo, -⟩, -⟩ := hnodup
  have hrep₁ : Rep (b.setFree j true) p (x :: y :: j :: others) := h.write (by simp) _
  have hrep₂ : Rep ((b.setFree j true).recycle x) (p.give x) (y :: j :: others) :=
    hrep₁.recycle (by simp [Manager.setFree, Manager.write_other _ _ hxj, hx])
  have hrep₃ : Rep (recycleChildNodes (b.setFree j true) x y) ((p.give x).give y) (j :: others) :=
    hrep₂.recycle (by
      simp [Manager.recycle, Manager.setFree, Manager.write, Ne.symm hxy, hyj, hy])
  refine ⟨hrep₃.write (by simp) _, ?_, ?_⟩
  · simp [merged, recycleChildNodes, Manager.setChildren, Manager.recycle, Manager.setFree,
      Manager.write, Ne.symm hxj, Ne.symm hyj, hj]
  · have hfree : Agrees b (b.setFree j true) others := .write b _ hjo
    have hrecycled : Agrees (b.setFree j true) (recycleChildNodes (b.setFree j true) x y) others :=
      (Agrees.recycle _ hxo).trans (.recycle _ hyo)
    exact (hfree.trans hrecycled).trans (.write _ _ hjo)

/-- What the code does when it merges upwards from slot `i` under frames `ctx`. -/
def Merges (r : Option Manager) (b : Manager) (K : Nat) (ctx : List Frame) (i : Int) (p : Reserve) :
    Prop :=
  ∃ b', r = some b' ∧ (mergeUp ctx i p).1.At b'.nodes (-1) K 0 ∧
    Rep b' (mergeUp ctx i p).2 (mergeUp ctx i p).1.indices ∧ Agrees b b' []

/-- There is nothing to merge. -/
theorem Merges.stop {K : Nat} {ctx : List Frame} (hctx : CtxAt b.nodes K ctx i k o parent)
    (ht : (Tree.leaf i true).At b.nodes parent k o) (h : Rep b p (i :: ctxIndices ctx))
    (hstop : mergeUp ctx i p = (plug ctx (.leaf i true), p)) : Merges (some b) b K ctx i p := by
  refine ⟨b, rfl, ?_, ?_, .refl _ _⟩ <;> rw [hstop]
  · exact hctx.plug ht rfl
  · exact h.perm (plug_indices ctx (.leaf i true)).symm

/-- `tryMerge` below a split block with halves `x` and `y`. -/
theorem tryMerge_below {x y pp : Int} (fuel : Nat) (hi : i ∈ used) (h : Rep b p used)
    (hparent : (b.nodes i).parent = j) (hj : b.nodes j = ⟨f, k, o, x, y, pp⟩) (hjmem : j ∈ used)
    (hx : 0 ≤ x) (hy : 0 ≤ y) :
    tryMerge (fuel + 1) b i = mergeBuddies (tryMerge fuel) b j x y := by
  have hjnonneg := h.nonneg hjmem
  unfold tryMerge
  rw [if_neg (h.in_range hi)]
  simp only [hparent, hj]
  rw [if_neg (by omega), if_pos ⟨hx, hy⟩]

/-- `mergeBuddies` when one half is in use or split. -/
theorem mergeBuddies_stop {tm : Manager → Int → Option Manager} {x y : Int} {s : Tree}
    (hs : s.At b.nodes parent k o) (hchildren : ∀ j ∈ s.indices, 0 ≤ j)
    (hxy : s.idx = x ∨ s.idx = y) (hnot : ∀ g, s ≠ .leaf g true) :
    mergeBuddies tm b j x y = some b := by
  have hstop : ¬((b.nodes s.idx).isFree = true ∧ (b.nodes s.idx).leftChild = -1) := by
    cases s with
    | leaf g f =>
        cases f with
        | true => exact absurd rfl (hnot g)
        | false => simp [hs.2]
    | node g f l r =>
        have : 0 ≤ l.idx := hchildren _ (by simp [l.idx_mem_indices])
        have hne : l.idx ≠ -1 := by omega
        simp [hs.2.1, hne]
  unfold mergeBuddies
  rw [if_neg]
  rintro ⟨hxf, hyf, hxl, hyl⟩
  rcases hxy with rfl | rfl
  · exact hstop ⟨hxf, hxl⟩
  · exact hstop ⟨hyf, hyl⟩

/-- `mergeBuddies` when both halves are free and unsplit. -/
theorem mergeBuddies_go {tm : Manager → Int → Option Manager} {x y px py : Int} {kx ky ox oy : Nat}
    (hx : b.nodes x = ⟨true, kx, ox, -1, -1, px⟩) (hy : b.nodes y = ⟨true, ky, oy, -1, -1, py⟩) :
    mergeBuddies tm b j x y = tm (merged b j x y) j := by
  unfold mergeBuddies
  rw [if_pos (by simp [hx, hy])]
  rfl

/-- **The code merges as the abstract tree does.** -/
theorem tryMerge_sim {K : Nat} {ctx : List Frame} (fuel : Nat) (hfuel : ctx.length < fuel)
    (hctx : CtxAt b.nodes K ctx i k o parent) (ht : (Tree.leaf i true).At b.nodes parent k o)
    (h : Rep b p (i :: ctxIndices ctx)) : Merges (tryMerge fuel b i) b K ctx i p := by
  induction fuel generalizing ctx i k o parent b p with
  | zero => exact absurd hfuel (Nat.not_lt_zero _)
  | succ fuel ih =>
      have hi := ht.2
      cases hctx with
      | root =>
          have hnone : tryMerge (fuel + 1) b i = some b := by
            unfold tryMerge
            simp [hi]
          rw [hnone]
          exact .stop (.root i) ht h rfl
      | @left ctx _ j pp _ _ f r hctx hk hj hr =>
          have hmem : ∀ z ∈ r.indices, 0 ≤ z := fun z hz ↦
            h.nonneg (by simp [ctxIndices, Frame.sibling, hz])
          rw [tryMerge_below fuel (by simp) h (by simp [hi]) hj (by simp [ctxIndices, Frame.idx])
            (h.nonneg (by simp)) (hmem _ r.idx_mem_indices)]
          by_cases hfree : ∃ g, r = .leaf g true
          · obtain ⟨g, rfl⟩ := hfree
            rw [Tree.idx_leaf] at hj ⊢
            rw [mergeBuddies_go hi hr.2]
            have hperm : (i :: ctxIndices (.left parent f (.leaf g true) :: ctx)).Perm
                (i :: g :: parent :: ctxIndices ctx) := (List.Perm.swap _ _ _).cons i
            obtain ⟨hrep, hnode, hagree⟩ :=
              merged_spec (h.perm hperm) hj (by simp [hi]) (by simp [hr.2])
            obtain ⟨b', hcall, hat, hrep', hagree'⟩ := ih (by simpa using hfuel)
              (hctx.frame hagree.nodes) ⟨Nat.le_succ_of_le hk, hnode⟩ hrep
            exact ⟨b', hcall, hat, hrep', (hagree.mono (by simp)).trans hagree'⟩
          · rw [mergeBuddies_stop hr hmem (.inr rfl) (fun g hg ↦ hfree ⟨g, hg⟩)]
            refine .stop (.left hctx hk hj hr) ht h ?_
            cases r with
            | leaf g free =>
                cases free with
                | true => exact absurd ⟨g, rfl⟩ hfree
                | false => rfl
            | node => rfl
      | @right ctx _ j pp _ o f l hctx hk hj hl =>
          have hmem : ∀ z ∈ l.indices, 0 ≤ z := fun z hz ↦
            h.nonneg (by simp [ctxIndices, Frame.sibling, hz])
          rw [tryMerge_below fuel (by simp) h (by simp [hi]) hj (by simp [ctxIndices, Frame.idx])
            (hmem _ l.idx_mem_indices) (h.nonneg (by simp))]
          by_cases hfree : ∃ g, l = .leaf g true
          · obtain ⟨g, rfl⟩ := hfree
            rw [Tree.idx_leaf] at hj ⊢
            rw [mergeBuddies_go hl.2 hi]
            have hperm : (i :: ctxIndices (.right parent f (.leaf g true) :: ctx)).Perm
                (g :: i :: parent :: ctxIndices ctx) :=
              ((List.Perm.swap _ _ _).cons i).trans (List.Perm.swap _ _ _)
            obtain ⟨hrep, hnode, hagree⟩ :=
              merged_spec (h.perm hperm) hj (by simp [hl.2]) (by simp [hi])
            obtain ⟨b', hcall, hat, hrep', hagree'⟩ := ih (by simpa using hfuel)
              (hctx.frame hagree.nodes) ⟨Nat.le_succ_of_le hk, hnode⟩ hrep
            exact ⟨b', hcall, hat, hrep', (hagree.mono (by simp)).trans hagree'⟩
          · rw [mergeBuddies_stop hl hmem (.inl rfl) (fun g hg ↦ hfree ⟨g, hg⟩)]
            refine .stop (.right hctx hk hj hl) ht h ?_
            cases l with
            | leaf g free =>
                cases free with
                | true => exact absurd ⟨g, rfl⟩ hfree
                | false => rfl
            | node => rfl

end BareBones.Memory.Buddy
