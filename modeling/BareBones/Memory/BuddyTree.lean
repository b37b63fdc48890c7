import BareBones.Lib.Tiling
import BareBones.Memory.Buddy
import Mathlib.Data.List.Perm.Basic
import Mathlib.Data.List.Nodup

/-!
# The buddy tree, abstractly

What the pool of `BareBones.Memory.Buddy` stands for: a binary tree whose nodes
carry the slot they occupy and the flag the slot holds, beside a reserve of slots
that are recycled or were never used.  The position of a subtree is its order and
its offset; both are determined from the root downwards, so they are arguments
and not fields.

Allocation is the recursion `Tree.alloc`.  Release is `mergeUp`: the tree is cut
at the released leaf into a focus and the frames above it, and the merge climbs
the frames.  `BareBones.Memory.BuddyRep` shows that the code computes these two.
-/

namespace BareBones.Memory.Buddy

open BareBones.Lib

/-- The tree the pool represents. -/
inductive Tree
  /-- A block that is not split. -/
  | leaf (idx : Int) (isFree : Bool)
  /-- A split block. -/
  | node (idx : Int) (isFree : Bool) (l r : Tree)
deriving DecidableEq, Repr

namespace Tree

/-- The slot of the root. -/
def idx : Tree → Int
  | leaf i _ | node i _ _ _ => i

/-- The flag in the slot of the root. -/
def isFree : Tree → Bool
  | leaf _ f | node _ f _ _ => f

/-- The slots of the tree. -/
def indices : Tree → List Int
  | leaf i _ => [i]
  | node i _ l r => i :: (l.indices ++ r.indices)

/-- A tree of order `k`: what is split is larger than the smallest block. -/
def Fits : Tree → Nat → Prop
  | leaf _ _, k => MIN_ORDER ≤ k
  | node _ _ l r, k => MIN_ORDER < k ∧ l.Fits (k - 1) ∧ r.Fits (k - 1)

@[simp] theorem idx_leaf (i : Int) (f : Bool) : (leaf i f).idx = i := rfl
@[simp] theorem idx_node (i : Int) (f : Bool) (l r : Tree) : (node i f l r).idx = i := rfl
@[simp] theorem isFree_leaf (i : Int) (f : Bool) : (leaf i f).isFree = f := rfl
@[simp] theorem isFree_node (i : Int) (f : Bool) (l r : Tree) : (node i f l r).isFree = f := rfl
@[simp] theorem indices_leaf (i : Int) (f : Bool) : (leaf i f).indices = [i] := rfl
@[simp] theorem indices_node (i : Int) (f : Bool) (l r : Tree) :
    (node i f l r).indices = i :: (l.indices ++ r.indices) := rfl

theorem idx_mem_indices (t : Tree) : t.idx ∈ t.indices := by
  cases t <;> simp

theorem Fits.le {t : Tree} {k : Nat} (h : t.Fits k) : MIN_ORDER ≤ k := by
  cases t with
  | leaf i f => exact h
  | node i f l r => exact le_of_lt h.1

end Tree

/-! ## Blocks -/

/-- An unsplit block: its slot, its place and whether it is free. -/
structure Leaf where
  idx : Int
  order : Nat
  offset : Nat
  isFree : Bool
deriving DecidableEq, Repr

/-- The bytes of a block, as displacements from `minAddress`. -/
def Leaf.interval (b : Leaf) : Nat × Nat := (b.offset, b.offset + 2 ^ b.order)

/-- The unsplit blocks of a tree of order `k` at offset `o`, from low to high. -/
def Tree.leaves : Tree → Nat → Nat → List Leaf
  | leaf i f, k, o => [⟨i, k, o, f⟩]
  | node _ _ l r, k, o => l.leaves (k - 1) o ++ r.leaves (k - 1) (o + 2 ^ (k - 1))

/-- The blocks in use. -/
def occupied (bs : List Leaf) : List Leaf := bs.filter fun b ↦ !b.isFree

@[simp] theorem occupied_nil : occupied [] = [] := rfl

@[simp] theorem occupied_cons (b : Leaf) (bs : List Leaf) :
    occupied (b :: bs) = if b.isFree then occupied bs else b :: occupied bs := by
  cases hfree : b.isFree <;> simp [occupied, hfree]

@[simp] theorem occupied_append (bs cs : List Leaf) :
    occupied (bs ++ cs) = occupied bs ++ occupied cs := by
  simp [occupied]

theorem mem_occupied {bs : List Leaf} {b : Leaf} :
    b ∈ occupied bs ↔ b ∈ bs ∧ b.isFree = false := by
  simp [occupied]

/-- Half of a block of positive order, twice. -/
theorem two_pow_pred_add {k : Nat} (h : 0 < k) : 2 ^ (k - 1) + 2 ^ (k - 1) = 2 ^ k := by
  obtain ⟨k, rfl⟩ := Nat.exists_eq_succ_of_ne_zero h.ne'
  simp only [Nat.succ_eq_add_one, Nat.add_sub_cancel]
  ring

/-- **The blocks tile the tree.** -/
theorem Tree.Fits.tiles {t : Tree} {k : Nat} (h : t.Fits k) (o : Nat) :
    Tiles o (o + 2 ^ k) ((t.leaves k o).map Leaf.interval) := by
  induction t generalizing k o with
  | leaf i f => simp [Tree.leaves, Leaf.interval]
  | node i f l r ihl ihr =>
      obtain ⟨hk, hl, hr⟩ := h
      have hsum := two_pow_pred_add (Nat.zero_lt_of_lt hk)
      have hright := ihr hr (o + 2 ^ (k - 1))
      rw [Nat.add_assoc, hsum] at hright
      rw [Tree.leaves, List.map_append]
      exact (ihl hl o).append hright

/-- The slots of the blocks are slots of the tree. -/
theorem Tree.mem_indices_of_leaf {t : Tree} {k o : Nat} {b : Leaf} (h : b ∈ t.leaves k o) :
    b.idx ∈ t.indices := by
  induction t generalizing k o with
  | leaf i f =>
      simp only [Tree.leaves, List.mem_singleton] at h
      simp [h]
  | node i f l r ihl ihr =>
      rcases List.mem_append.mp h with h | h
      · simp [ihl h]
      · simp [ihr h]

/-- Blocks are at least as large as the smallest block. -/
theorem Tree.Fits.order_le {t : Tree} {k o : Nat} (ht : t.Fits k) {b : Leaf}
    (h : b ∈ t.leaves k o) : MIN_ORDER ≤ b.order ∧ b.order ≤ k := by
  induction t generalizing k o with
  | leaf i f =>
      simp only [Tree.leaves, List.mem_singleton] at h
      subst h
      exact ⟨ht, le_refl _⟩
  | node i f l r ihl ihr =>
      obtain ⟨hk, hl, hr⟩ := ht
      rcases List.mem_append.mp h with h | h
      · exact (ihl hl h).imp id fun h ↦ by omega
      · exact (ihr hr h).imp id fun h ↦ by omega

/-- The bytes of a block lie inside the tree. -/
theorem Tree.Fits.bounds {t : Tree} {k o : Nat} (ht : t.Fits k) {b : Leaf}
    (h : b ∈ t.leaves k o) : o ≤ b.offset ∧ b.offset + 2 ^ b.order ≤ o + 2 ^ k := by
  have hin := (ht.tiles o).bounds (List.mem_map_of_mem h)
  exact ⟨hin.1, hin.2.2⟩

/-- Two blocks at the same offset are the same block. -/
theorem Tree.Fits.leaf_unique {t : Tree} {k o : Nat} (ht : t.Fits k) {b c : Leaf}
    (hb : b ∈ t.leaves k o) (hc : c ∈ t.leaves k o) (h : b.offset = c.offset) : b = c := by
  induction t generalizing k o with
  | leaf i f =>
      simp only [Tree.leaves, List.mem_singleton] at hb hc
      rw [hb, hc]
  | node i f l r ihl ihr =>
      obtain ⟨hk, hl, hr⟩ := ht
      have hposb : 0 < 2 ^ b.order := Nat.two_pow_pos _
      have hposc : 0 < 2 ^ c.order := Nat.two_pow_pos _
      rcases List.mem_append.mp hb with hb | hb <;> rcases List.mem_append.mp hc with hc | hc
      · exact ihl hl hb hc
      · have := hl.bounds hb
        have := hr.bounds hc
        omega
      · have := hr.bounds hb
        have := hl.bounds hc
        omega
      · exact ihr hr hb hc

/-! ## The reserve of slots -/

/-- The slots outside the tree. -/
structure Reserve where
  /-- The recycled slots, most recent first. -/
  recycled : List Int
  /-- The slots from `count` on were never used. -/
  count : Int

namespace Reserve

/-- One slot from the reserve, if there is one. -/
def take (p : Reserve) : Option (Int × Reserve) :=
  match p.recycled with
  | i :: is => some (i, { p with recycled := is })
  | [] => if p.count ≥ MAX_NODES then none else some (p.count, { p with count := p.count + 1 })

/-- Give a slot back. -/
def give (p : Reserve) (i : Int) : Reserve := { p with recycled := i :: p.recycled }

/-- Two slots from the reserve.  If only one is left it is taken and given back,
which recycles it in case it was never used. -/
def takeTwo (p : Reserve) : Option (Int × Int) × Reserve :=
  match p.take with
  | none => (none, p)
  | some (i, p) =>
      match p.take with
      | none => (none, p.give i)
      | some (j, p) => (some (i, j), p)

/-- The slots below `count` are the recycled ones and those of `used`, each of
them once. -/
structure Covers (p : Reserve) (used : List Int) : Prop where
  nodup : (used ++ p.recycled).Nodup
  mem : ∀ i, i ∈ used ++ p.recycled ↔ 0 ≤ i ∧ i < p.count
  count_nonneg : 0 ≤ p.count
  le : p.count ≤ MAX_NODES

variable {p p' : Reserve} {used used' : List Int} {i : Int}

theorem Covers.perm (h : p.Covers used) (hperm : used.Perm used') : p.Covers used' where
  nodup := (hperm.append_right _).nodup_iff.mp h.nodup
  mem i := by rw [← h.mem i, (hperm.append_right _).mem_iff]
  count_nonneg := h.count_nonneg
  le := h.le

theorem Covers.nonneg (h : p.Covers used) (hi : i ∈ used) : 0 ≤ i :=
  ((h.mem i).mp (List.mem_append_left _ hi)).1

theorem Covers.lt (h : p.Covers used) (hi : i ∈ used) : i < p.count :=
  ((h.mem i).mp (List.mem_append_left _ hi)).2

theorem Covers.not_recycled (h : p.Covers used) (hi : i ∈ used) : i ∉ p.recycled :=
  fun hrec ↦ (List.nodup_append.mp h.nodup).2.2 i hi i hrec rfl

theorem Covers.take (h : p.Covers used) (htake : p.take = some (i, p')) :
    p'.Covers (i :: used) := by
  unfold Reserve.take at htake
  split at htake
  next r rs hrec =>
      obtain ⟨rfl, rfl⟩ := Prod.mk.inj (Option.some.inj htake)
      have hperm : (used ++ p.recycled).Perm (r :: used ++ rs) := by
        rw [hrec]
        exact List.perm_middle
      exact ⟨hperm.nodup_iff.mp h.nodup, fun j ↦ by rw [← hperm.mem_iff]; exact h.mem j,
        h.count_nonneg, h.le⟩
  next hrec =>
      split at htake
      · cases htake
      next hlt =>
          obtain ⟨rfl, rfl⟩ := Prod.mk.inj (Option.some.inj htake)
          have hmem : ∀ j, j ∈ used ↔ 0 ≤ j ∧ j < p.count := by simpa [hrec] using h.mem
          have hfresh : p.count ∉ used := fun hin ↦ absurd ((hmem _).mp hin).2 (lt_irrefl _)
          have hnonneg := h.count_nonneg
          refine ⟨?_, fun j ↦ ?_, ?_, ?_⟩
          · have hnodup : used.Nodup := by simpa [hrec] using h.nodup
            simpa [hrec] using ⟨hfresh, hnodup⟩
          · simp only [hrec, List.append_nil, List.mem_cons, hmem]
            omega
          · show 0 ≤ p.count + 1
            omega
          · show p.count + 1 ≤ MAX_NODES
            omega

theorem Covers.give (h : p.Covers (i :: used)) : (p.give i).Covers used := by
  have hperm : (i :: used ++ p.recycled).Perm (used ++ (p.give i).recycled) :=
    List.perm_middle.symm
  exact ⟨hperm.nodup_iff.mp h.nodup, fun j ↦ by rw [← hperm.mem_iff]; exact h.mem j,
    h.count_nonneg, h.le⟩

end Reserve

/-! ## Allocation -/

/-- The outcome of a search: the tree and the reserve after it, and the slot that
was allocated. -/
structure Found where
  tree : Tree
  reserve : Reserve
  result : Option Int

/-- Search the two halves of a split block, and refresh its flag on success. -/
def Tree.search (find : Tree → Reserve → Found) (i : Int) (f : Bool) (l r : Tree) (p : Reserve) :
    Found :=
  let left := find l p
  match left.result with
  | some a => ⟨node i (left.tree.isFree && r.isFree) left.tree r, left.reserve, some a⟩
  | none =>
      let right := find r left.reserve
      match right.result with
      | some a =>
          ⟨node i (left.tree.isFree && right.tree.isFree) left.tree right.tree, right.reserve,
            some a⟩
      | none => ⟨node i f left.tree right.tree, right.reserve, none⟩

/-- Allocate a block of order `req` in a tree of order `k`. -/
def Tree.alloc (req : Nat) : Nat → Tree → Reserve → Found
  | 0, t, p => ⟨t, p, none⟩
  | k + 1, leaf i f, p =>
      if k + 1 < req ∨ f = false then ⟨leaf i f, p, none⟩
      else if k + 1 = req then ⟨leaf i false, p, some i⟩
      else
        match p.takeTwo with
        | (none, p) => ⟨leaf i f, p, none⟩
        | (some (a, b), p) => search (alloc req k) i f (leaf a true) (leaf b true) p
  | k + 1, node i f l r, p =>
      if k + 1 < req then ⟨node i f l r, p, none⟩ else search (alloc req k) i f l r p

/-- A tree smaller than the request has no block for it. -/
theorem Tree.alloc_small {req k : Nat} (h : k < req) (t : Tree) (p : Reserve) :
    t.alloc req k p = ⟨t, p, none⟩ := by
  cases k with
  | zero => rfl
  | succ k => cases t <;> simp [alloc, h]

/-- What a search for a block of order `req` promises, for a tree of order `k` at
offset `o` and its outcome. -/
structure Found.Spec (req k o : Nat) (t : Tree) (found : Found) : Prop where
  idx : found.tree.idx = t.idx
  fits : found.tree.Fits k
  /-- A failed search takes nothing into use. -/
  failed : found.result = none →
    occupied (found.tree.leaves k o) = occupied (t.leaves k o)
  /-- A search that succeeds takes one block into use. -/
  done : ∀ a, found.result = some a → ∃ b ∈ found.tree.leaves k o,
    b.idx = a ∧ b.order = req ∧ b.isFree = false ∧
      (occupied (found.tree.leaves k o)).Perm (b :: occupied (t.leaves k o))

section Search

variable {find : Tree → Reserve → Found} {req k o : Nat} {i a : Int} {f : Bool} {l r : Tree}
  {p : Reserve}

/-- The left half has a block. -/
theorem Tree.search_left (h : (find l p).result = some a) : search find i f l r p =
    ⟨node i ((find l p).tree.isFree && r.isFree) (find l p).tree r, (find l p).reserve,
      some a⟩ := by
  simp only [search, h]

/-- The left half has no block, the right one has. -/
theorem Tree.search_right (hl : (find l p).result = none)
    (hr : (find r (find l p).reserve).result = some a) : search find i f l r p =
      let right := find r (find l p).reserve
      ⟨node i ((find l p).tree.isFree && right.tree.isFree) (find l p).tree right.tree,
        right.reserve, some a⟩ := by
  simp only [search, hl, hr]

/-- Neither half has a block. -/
theorem Tree.search_none (hl : (find l p).result = none)
    (hr : (find r (find l p).reserve).result = none) : search find i f l r p =
      let right := find r (find l p).reserve
      ⟨node i f (find l p).tree right.tree, right.reserve, none⟩ := by
  simp only [search, hl, hr]

/-- The spec of the two halves gives the spec of the whole. -/
theorem Tree.search_spec (hk : MIN_ORDER < k) (hl : l.Fits (k - 1)) (hr : r.Fits (k - 1))
    (hfind : ∀ t p o, t.Fits (k - 1) → (find t p).Spec req (k - 1) o t) :
    (search find i f l r p).Spec req k o (node i f l r) := by
  have hleft := hfind l p o hl
  have hright := hfind r (find l p).reserve (o + 2 ^ (k - 1)) hr
  cases hresl : (find l p).result with
  | some a =>
      obtain ⟨b, hb, hidx, horder, hfree, hperm⟩ := hleft.done a hresl
      rw [search_left hresl]
      refine ⟨rfl, ⟨hk, hleft.fits, hr⟩, fun hnone ↦ (nomatch hnone), fun a' ha' ↦ ?_⟩
      obtain rfl := Option.some.inj ha'
      refine ⟨b, List.mem_append_left _ hb, hidx, horder, hfree, ?_⟩
      simpa [leaves] using hperm.append_right _
  | none =>
      have hsame := hleft.failed hresl
      cases hresr : (find r (find l p).reserve).result with
      | some a =>
          obtain ⟨b, hb, hidx, horder, hfree, hperm⟩ := hright.done a hresr
          rw [search_right hresl hresr]
          refine ⟨rfl, ⟨hk, hleft.fits, hright.fits⟩, fun hnone ↦ (nomatch hnone), fun a' ha' ↦ ?_⟩
          obtain rfl := Option.some.inj ha'
          refine ⟨b, List.mem_append_right _ hb, hidx, horder, hfree, ?_⟩
          simp only [leaves, occupied_append, hsame]
          exact (hperm.append_left _).trans List.perm_middle
      | none =>
          rw [search_none hresl hresr]
          refine ⟨rfl, ⟨hk, hleft.fits, hright.fits⟩, fun _ ↦ ?_, fun a' ha' ↦ (nomatch ha')⟩
          simp [leaves, hsame, hright.failed hresr]

end Search

/-- **Allocation in the abstract tree.**  A failed search leaves the blocks in use
as they are, a successful one adds one block of the requested order. -/
theorem Tree.alloc_spec {req : Nat} (hreq : MIN_ORDER ≤ req) (k o : Nat) (t : Tree) (p : Reserve)
    (ht : t.Fits k) : (t.alloc req k p).Spec req k o t := by
  induction k generalizing t p o with
  | zero => exact absurd ht.le (by decide)
  | succ k ih =>
      cases t with
      | leaf i f =>
          unfold alloc
          split
          next => exact ⟨rfl, ht, fun _ ↦ rfl, fun a ha ↦ (nomatch ha)⟩
          next hlt =>
              obtain ⟨hle, hfree⟩ := not_or.mp hlt
              obtain rfl : f = true := by simpa using hfree
              split
              next heq =>
                  refine ⟨rfl, ht, fun hnone ↦ (nomatch hnone), fun a ha ↦ ?_⟩
                  obtain rfl := Option.some.inj ha
                  exact ⟨⟨i, k + 1, o, false⟩, by simp [leaves], rfl, heq, rfl, by simp [leaves]⟩
              next hne =>
                  split
                  next => exact ⟨rfl, ht, fun _ ↦ rfl, fun a ha ↦ (nomatch ha)⟩
                  next a b p' htake =>
                      have hk : MIN_ORDER < k + 1 := by omega
                      have hhalf : ∀ j, (leaf j true).Fits k := fun j ↦ Nat.le_of_lt_succ hk
                      have hspec := search_spec (i := i) (f := true) (p := p') (o := o) hk
                        (hhalf a) (hhalf b) (fun t p o ht ↦ ih o t p ht)
                      have hsplit : occupied ((node i true (leaf a true) (leaf b true)).leaves
                          (k + 1) o) = occupied ((leaf i true).leaves (k + 1) o) := by
                        simp [leaves]
                      exact ⟨hspec.idx, hspec.fits, fun hnone ↦ (hspec.failed hnone).trans hsplit,
                        fun a ha ↦ hsplit ▸ hspec.done a ha⟩
      | node i f l r =>
          obtain ⟨hk, hl, hr⟩ := ht
          unfold alloc
          split
          next => exact ⟨rfl, ⟨hk, hl, hr⟩, fun _ ↦ rfl, fun a ha ↦ (nomatch ha)⟩
          next => exact search_spec hk hl hr fun t p o ht ↦ ih o t p ht

/-! ## Release -/

/-- A split block with one half missing: what lies above a subtree. -/
inductive Frame
  /-- The left half is missing. -/
  | left (idx : Int) (isFree : Bool) (r : Tree)
  /-- The right half is missing. -/
  | right (idx : Int) (isFree : Bool) (l : Tree)
deriving DecidableEq, Repr

namespace Frame

/-- The half that is there. -/
def sibling : Frame → Tree
  | left _ _ t | right _ _ t => t

/-- The slot of the split block. -/
def idx : Frame → Int
  | left i _ _ | right i _ _ => i

/-- Fill in the missing half. -/
def plug : Frame → Tree → Tree
  | left i f r, t => .node i f t r
  | right i f l, t => .node i f l t

/-- The flag of the split block once the missing half is free. -/
def refresh : Frame → Frame
  | left i _ r => left i r.isFree r
  | right i _ l => right i l.isFree l

end Frame

/-- Fill in the hole of a stack of frames, the innermost first. -/
def plug : List Frame → Tree → Tree
  | [], t => t
  | fr :: ctx, t => plug ctx (fr.plug t)

/-- The slots in a stack of frames. -/
def ctxIndices : List Frame → List Int
  | [] => []
  | fr :: ctx => fr.idx :: (fr.sibling.indices ++ ctxIndices ctx)

/-- Climb from a free block in slot `i`: as long as the other half is an unsplit
free block, give both slots back and go on with the merged block. -/
def mergeUp : List Frame → Int → Reserve → Tree × Reserve
  | [], i, p => (.leaf i true, p)
  | .left j _ (.leaf b true) :: ctx, i, p => mergeUp ctx j ((p.give i).give b)
  | .right j _ (.leaf a true) :: ctx, i, p => mergeUp ctx j ((p.give a).give i)
  | fr :: ctx, i, p => (plug (fr :: ctx) (.leaf i true), p)

/-- Release the block in slot `i` under a stack of frames: refresh the flag of the
frame next to it, then merge. -/
def release : List Frame → Int → Reserve → Tree × Reserve
  | [], i, p => mergeUp [] i p
  | fr :: ctx, i, p => mergeUp (fr.refresh :: ctx) i p

theorem plug_indices (ctx : List Frame) (t : Tree) :
    (plug ctx t).indices.Perm (t.indices ++ ctxIndices ctx) := by
  induction ctx generalizing t with
  | nil => simp [plug, ctxIndices]
  | cons fr ctx ih =>
      refine (ih (fr.plug t)).trans (List.perm_iff_count.mpr fun x ↦ ?_)
      cases fr <;>
        simp only [Frame.plug, Tree.indices_node, ctxIndices, Frame.idx, Frame.sibling,
          List.cons_append, List.count_append, List.count_cons] <;> omega

/-- The slot of the root does not depend on what is below it. -/
theorem plug_idx (ctx : List Frame) {s t : Tree} (h : s.idx = t.idx) :
    (plug ctx s).idx = (plug ctx t).idx := by
  cases ctx with
  | nil => exact h
  | cons fr ctx =>
      refine plug_idx ctx ?_
      cases fr <;> rfl

theorem mergeUp_idx (ctx : List Frame) (i : Int) (p : Reserve) :
    (mergeUp ctx i p).1.idx = (plug ctx (.leaf i true)).idx := by
  fun_induction mergeUp ctx i p with
  | case1 => rfl
  | case2 j f b ctx i p ih | case3 j f a ctx i p ih =>
      rw [ih]
      exact plug_idx ctx rfl
  | case4 => rfl

theorem release_idx (ctx : List Frame) (i : Int) (p : Reserve) (f : Bool) :
    (release ctx i p).1.idx = (plug ctx (.leaf i f)).idx := by
  cases ctx with
  | nil => rfl
  | cons fr ctx =>
      rw [release, mergeUp_idx]
      refine plug_idx ctx ?_
      cases fr <;> rfl

end BareBones.Memory.Buddy
