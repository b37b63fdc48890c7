import BareBones.Memory.BuddyRun
import BareBones.Memory.BuddySearch

/-!
# Coalescing of the buddy tree

As long as the pool of slots never runs out, the tree holds no more nodes than the
blocks in use require: every split block has a block in use below it, so two free
halves are never left side by side, and the flag of a split block is never stale.

The invariant is `Tree.Settled`, one condition at each split block.  A search that
does not run out of slots either changes nothing or splits along one path to a block
it takes into use (`Tree.alloc_settled`).  A release merges upwards for as long as
the other half is a free block, and where it stops there is a block in use in the
other half (`release_settled`); the flags further up need no refresh because of
that block.

`exhausts` follows the search of the code and says whether `createNode` reports
exhaustion on the way, so that runs can be restricted to those where it never does.
-/

namespace BareBones.Memory.Buddy

open BareBones.Lib

variable {b : Manager} {p p' : Reserve} {t l r : Tree} {ctx : List Frame} {i : Int} {f : Bool}
  {req k o n : Nat} {start size : Nat} {s : State} {others : List Int}

/-! ## Settled trees -/

namespace Tree

/-- The flags of the unsplit blocks, from low to high. -/
def marks : Tree → List Bool
  | leaf _ f => [f]
  | node _ _ l r => l.marks ++ r.marks

/-- The blocks a tree is made of, split or not. -/
def subtrees : Tree → List Tree
  | leaf i f => [leaf i f]
  | node i f l r => node i f l r :: (l.subtrees ++ r.subtrees)

/-- Every split block has a block in use below it, and is marked as not free. -/
def Settled : Tree → Prop
  | leaf _ _ => True
  | node _ f l r => f = false ∧ false ∈ l.marks ++ r.marks ∧ l.Settled ∧ r.Settled

@[simp] theorem marks_leaf (i : Int) (f : Bool) : (leaf i f).marks = [f] := rfl

@[simp] theorem marks_node (i : Int) (f : Bool) (l r : Tree) :
    (node i f l r).marks = l.marks ++ r.marks := rfl

theorem marks_eq (t : Tree) (k o : Nat) : t.marks = (t.leaves k o).map Leaf.isFree := by
  induction t generalizing k o with
  | leaf i f => rfl
  | node i f l r ihl ihr => rw [marks, leaves, List.map_append, ← ihl, ← ihr]

/-- The flag of a settled tree is set exactly when all of it is free. -/
theorem Settled.isFree_iff (h : t.Settled) : t.isFree = true ↔ ∀ f ∈ t.marks, f = true := by
  cases t with
  | leaf i f => simp
  | node i f l r =>
      obtain ⟨rfl, hused, -, -⟩ := h
      refine iff_of_false (by simp) fun hall ↦ ?_
      cases hall false hused

/-- A settled tree that is not a free block has a block in use. -/
theorem Settled.used_of_not_leaf (h : t.Settled) (hnot : ∀ i, t ≠ leaf i true) :
    t.isFree = false ∧ false ∈ t.marks := by
  cases t with
  | leaf i f =>
      cases f with
      | true => exact absurd rfl (hnot i)
      | false => exact ⟨rfl, List.mem_singleton_self _⟩
  | node i f l r => exact ⟨h.1, h.2.1⟩

/-- The parts of a settled tree are settled. -/
theorem Settled.subtree {u : Tree} (h : t.Settled) (hu : u ∈ t.subtrees) : u.Settled := by
  induction t with
  | leaf i f =>
      rw [List.mem_singleton.mp hu]
      trivial
  | node i f l r ihl ihr =>
      rcases List.mem_cons.mp hu with rfl | hu
      · exact h
      · rcases List.mem_append.mp hu with hu | hu
        · exact ihl h.2.2.1 hu
        · exact ihr h.2.2.2 hu

end Tree

/-! ## Allocation -/

/-- The slots suffice for the first block that fits, if there is one. -/
def Supplied (req : Nat) (ls : List Leaf) (slots : Nat) : Prop :=
  ∀ c, firstFit req ls = some c → 2 * (c.order - req) ≤ slots

/-- **A search that does not run out of slots** and succeeds leaves a settled tree
with a block in use. -/
theorem Tree.alloc_settled (hreq : MIN_ORDER ≤ req) (k o : Nat) (t : Tree) (p : Reserve)
    (ht : t.Fits k) (hset : t.Settled) (h : Supplied req (t.leaves k o) p.slots) {a : Int}
    (hres : (t.alloc req k p).result = some a) :
    (t.alloc req k p).tree.Settled ∧ (t.alloc req k p).tree.isFree = false ∧
      false ∈ (t.alloc req k p).tree.marks := by
  induction k generalizing t p o a with
  | zero => exact absurd ht.le (by decide)
  | succ k ih =>
      cases t with
      | leaf i f =>
          rw [alloc] at hres ⊢
          split at hres
          · cases hres
          next hlt =>
              rw [if_neg hlt]
              obtain ⟨hle, hfree⟩ := not_or.mp hlt
              split at hres
              next heq =>
                  rw [if_pos heq]
                  exact ⟨trivial, rfl, List.mem_singleton_self _⟩
              next hne =>
                  rw [if_neg hne]
                  have hholds : (⟨i, k + 1, o, f⟩ : Leaf).holds req = true :=
                    Leaf.holds_iff.mpr ⟨by simpa using hfree, not_lt.mp hle⟩
                  have hslots := h _ (List.find?_cons_of_pos hholds)
                  simp only at hslots
                  split at hres
                  · cases hres
                  next x y p' htake =>
                      have hslots' := Reserve.slots_takeTwo htake
                      have hhalf : Supplied req ((leaf x true).leaves k o) p'.slots := fun c hc ↦ by
                        obtain rfl := List.mem_singleton.mp (firstFit_some hc).1
                        simp only
                        omega
                      obtain ⟨z, hz⟩ := Option.isSome_iff_exists.mp
                        (alloc_halve hreq k x p' (by omega) (by omega))
                      obtain ⟨hl, hlfree, hlused⟩ :=
                        ih o (leaf x true) p' (by simp only [Fits]; omega) trivial hhalf hz
                      rw [search_left hz]
                      refine ⟨⟨by simp [hlfree], List.mem_append_left _ hlused, hl, trivial⟩,
                        by simp [hlfree], List.mem_append_left _ hlused⟩
      | node i f l r =>
          obtain ⟨-, hl, hr⟩ := ht
          obtain ⟨-, -, hlset, hrset⟩ := hset
          rw [alloc] at hres ⊢
          split at hres
          · cases hres
          next hlt =>
              rw [if_neg hlt]
              have hleft : Supplied req (l.leaves k o) p.slots := fun c hc ↦
                h c (by rw [leaves, firstFit_append]; exact Option.or_eq_some_iff.mpr (Or.inl hc))
              cases hresl : (l.alloc req k p).result with
              | some x =>
                  obtain ⟨hset', hfree, hused⟩ := ih o l p hl hlset hleft hresl
                  rw [search_left hresl]
                  exact ⟨⟨by simp [hfree], List.mem_append_left _ hused, hset', hrset⟩,
                    by simp [hfree], List.mem_append_left _ hused⟩
              | none =>
                  -- the left half holds no block for the request
                  have hnone : firstFit req (l.leaves k o) = none := by
                    by_contra hsome
                    obtain ⟨c, hc⟩ := Option.ne_none_iff_exists'.mp hsome
                    have hserved := alloc_served hreq k o l p hl hc (hleft c hc)
                    rw [hresl] at hserved
                    cases hserved
                  have hsame := alloc_unfit k o l p hl hnone
                  have hright : Supplied req (r.leaves k (o + 2 ^ k)) p.slots := fun c hc ↦
                    h c (by
                      rw [leaves, firstFit_append]
                      exact Option.or_eq_some_iff.mpr (Or.inr ⟨hnone, hc⟩))
                  rw [search, hsame] at hres ⊢
                  simp only at hres ⊢
                  cases hresr : (r.alloc req k p).result with
                  | some x =>
                      obtain ⟨hset', hfree, hused⟩ := ih (o + 2 ^ k) r p hr hrset hright hresr
                      exact ⟨⟨by simp [hfree], List.mem_append_right _ hused, hlset, hset'⟩,
                        by simp [hfree], List.mem_append_right _ hused⟩
                  | none => simp [hresr] at hres

/-! ## Release -/

/-- The frames above a subtree are those of a settled tree. -/
def SettledFrames (ctx : List Frame) : Prop :=
  ∀ fr ∈ ctx, fr.sibling.Settled ∧ ∀ t, (fr.plug t).isFree = false

/-- A settled subtree with a block in use settles the whole tree. -/
theorem plug_settled (hctx : SettledFrames ctx) (ht : t.Settled) (hused : false ∈ t.marks) :
    (plug ctx t).Settled := by
  induction ctx generalizing t with
  | nil => exact ht
  | cons fr ctx ih =>
      obtain ⟨hsib, hflag⟩ := hctx fr List.mem_cons_self
      refine ih (fun g hg ↦ hctx g (List.mem_cons_of_mem _ hg)) ?_ ?_
      · cases fr with
        | left j f r => exact ⟨hflag t, List.mem_append_left _ hused, ht, hsib⟩
        | right j f l => exact ⟨hflag t, List.mem_append_right _ hused, hsib, ht⟩
      · cases fr with
        | left j f r => exact List.mem_append_left _ hused
        | right j f l => exact List.mem_append_right _ hused

/-- The frames of a settled tree. -/
theorem settledFrames_of_plug (h : (plug ctx t).Settled) : SettledFrames ctx ∧ t.Settled := by
  induction ctx generalizing t with
  | nil => exact ⟨fun fr hfr ↦ (by cases hfr), h⟩
  | cons fr ctx ih =>
      obtain ⟨hctx, hset⟩ := ih h
      cases fr with
      | left j f r =>
          obtain ⟨rfl, -, ht, hr⟩ := hset
          refine ⟨fun g hg ↦ ?_, ht⟩
          rcases List.mem_cons.mp hg with rfl | hg
          · exact ⟨hr, fun _ ↦ rfl⟩
          · exact hctx g hg
      | right j f l =>
          obtain ⟨rfl, -, hl, ht⟩ := hset
          refine ⟨fun g hg ↦ ?_, ht⟩
          rcases List.mem_cons.mp hg with rfl | hg
          · exact ⟨hl, fun _ ↦ rfl⟩
          · exact hctx g hg

/-- Where the merge stops, the other half has a block in use. -/
theorem plug_settled_of_stop {fr : Frame} (hctx : SettledFrames (fr :: ctx))
    (hnot : ∀ j, fr.sibling ≠ .leaf j true) (i : Int) :
    (plug (fr :: ctx) (.leaf i true)).Settled := by
  obtain ⟨hsib, hflag⟩ := hctx fr List.mem_cons_self
  obtain ⟨-, hused⟩ := hsib.used_of_not_leaf hnot
  have habove : SettledFrames ctx := fun g hg ↦ hctx g (List.mem_cons_of_mem _ hg)
  cases fr with
  | left j f r =>
      have hnode : (Tree.node j f (.leaf i true) r).Settled :=
        ⟨hflag (.leaf i true), List.mem_append_right _ hused, trivial, hsib⟩
      exact plug_settled (t := .node j f (.leaf i true) r) habove hnode hnode.2.1
  | right j f l =>
      have hnode : (Tree.node j f l (.leaf i true)).Settled :=
        ⟨hflag (.leaf i true), List.mem_append_left _ hused, hsib, trivial⟩
      exact plug_settled (t := .node j f l (.leaf i true)) habove hnode hnode.2.1

theorem mergeUp_settled (hctx : SettledFrames ctx) (i : Int) (p : Reserve) :
    (mergeUp ctx i p).1.Settled := by
  fun_induction mergeUp ctx i p with
  | case1 => trivial
  | case2 j f c ctx i p ih | case3 j f c ctx i p ih =>
      exact ih fun g hg ↦ hctx g (List.mem_cons_of_mem _ hg)
  | case4 fr ctx i p hleft hright =>
      refine plug_settled_of_stop hctx (fun j hj ↦ ?_) i
      cases fr with
      | left a f r => exact hleft a f j (congrArg (Frame.left a f) hj)
      | right a f l => exact hright a f j (congrArg (Frame.right a f) hj)

/-- **A release leaves a settled tree.** -/
theorem release_settled (h : (plug ctx (.leaf i false)).Settled) (p : Reserve) :
    (release ctx i p).1.Settled := by
  obtain ⟨hctx, -⟩ := settledFrames_of_plug h
  cases ctx with
  | nil => trivial
  | cons fr ctx =>
      obtain ⟨hsib, -⟩ := hctx fr List.mem_cons_self
      have habove : SettledFrames ctx := fun g hg ↦ hctx g (List.mem_cons_of_mem _ hg)
      rw [release]
      by_cases hleaf : ∃ j, fr.sibling = .leaf j true
      · -- the two halves merge, so the refreshed flag is gone
        obtain ⟨j, hj⟩ := hleaf
        cases fr with
        | left a f r =>
            obtain rfl : r = .leaf j true := hj
            exact mergeUp_settled habove a _
        | right a f l =>
            obtain rfl : l = .leaf j true := hj
            exact mergeUp_settled habove a _
      · have hnot : ∀ j, fr.sibling ≠ .leaf j true := fun j hj ↦ hleaf ⟨j, hj⟩
        have hflag := (hsib.used_of_not_leaf hnot).1
        refine mergeUp_settled (fun g hg ↦ ?_) i p
        rcases List.mem_cons.mp hg with rfl | hg
        · cases fr with
          | left a f r => exact ⟨hsib, fun _ ↦ hflag⟩
          | right a f l => exact ⟨hsib, fun _ ↦ hflag⟩
        · exact habove g hg

/-! ## Runs in which the pool suffices -/

/-- Whether `createNode` reports exhaustion while the two children of a node are
searched. -/
def exhaustsBelow (exhausts : Manager → Int → Bool)
    (find : Manager → Int → Option (Manager × Int)) (b : Manager) (nodeIdx : Int) : Bool :=
  exhausts b (b.nodes nodeIdx).leftChild ||
    match find b (b.nodes nodeIdx).leftChild with
    | some (b, result) => result = -1 && exhausts b (b.nodes nodeIdx).rightChild
    | none => false

/-- Whether `createNode` reports exhaustion somewhere in the search of
`findAndAllocate`: in a `splitNode` that fails although the block is large enough to
be split. -/
def exhausts (requiredOrder : Nat) : Nat → Manager → Int → Bool
  | 0, _, _ => false
  | fuel + 1, b, nodeIdx =>
      if nodeIdx < 0 ∨ nodeIdx ≥ b.nodeCount then false
      else if (b.nodes nodeIdx).order < requiredOrder then false
      else if (tryAllocateExactSize b nodeIdx requiredOrder).2 ≠ -1 then false
      else if (b.nodes nodeIdx).leftChild = -1 then
        if !(b.nodes nodeIdx).isFree then false
        else if (splitNode b nodeIdx).2 < 0 then MIN_ORDER < (b.nodes nodeIdx).order
        else exhaustsBelow (exhausts requiredOrder fuel) (findAndAllocate requiredOrder fuel)
          (splitNode b nodeIdx).1 nodeIdx
      else exhaustsBelow (exhausts requiredOrder fuel) (findAndAllocate requiredOrder fuel)
        b nodeIdx

/-- Any call with a 64-bit argument in which `createNode` does not report exhaustion. -/
def NeverExhausted (s : State) : Op → Prop
  | .alloc n => n < 2 ^ 64 ∧ (n ≠ 0 → exhausts (getOrder s.buddy n % 256) (s.buddy.maxOrder + 1)
      s.buddy s.buddy.rootIndex = false)
  | .free ptr => ptr < 2 ^ 64

/-- Searching two halves without exhaustion, if that is so for each of them. -/
theorem exhaustsBelow_sim {fuel : Nat} {parent : Int} (hreq : MIN_ORDER ≤ req)
    (hfuel : k - 1 < fuel) (hspace : o + 2 ^ k < 2 ^ 64)
    (hsub : ∀ (t : Tree) p b others parent o, o + 2 ^ (k - 1) < 2 ^ 64 →
      t.At b.nodes parent (k - 1) o → Rep b p (t.indices ++ others) →
      exhausts req fuel b t.idx = false → Supplied req (t.leaves (k - 1) o) p.slots)
    (ht : (Tree.node i f l r).At b.nodes parent k o)
    (h : Rep b p ((Tree.node i f l r).indices ++ others))
    (hnot : exhaustsBelow (exhausts req fuel) (findAndAllocate req fuel) b i = false) :
    Supplied req ((Tree.node i f l r).leaves k o) p.slots := by
  obtain ⟨hk, hi, hl, hr⟩ := ht
  obtain ⟨-, hspacel, hspacer⟩ := half_lt hk hspace
  have hrepl : Rep b p (l.indices ++ (i :: (r.indices ++ others))) :=
    h.perm (List.perm_iff_count.mpr fun x ↦ by
      simp only [Tree.indices_node, List.cons_append, List.count_cons, List.count_append]
      omega)
  obtain ⟨b₁, hcall, hat₁, hrep₁, hagree⟩ := findAndAllocate_sim hreq fuel (k - 1) l p b
    (i :: (r.indices ++ others)) i o hfuel hspacel hl hrepl
  unfold exhaustsBelow at hnot
  rw [Bool.or_eq_false_iff, hi, hcall] at hnot
  obtain ⟨hnotl, hnotr⟩ := hnot
  have hleft := hsub l p b _ i o hspacel hl hrepl hnotl
  intro c hc
  rw [Tree.leaves, firstFit_append] at hc
  rcases Option.or_eq_some_iff.mp hc with hc | ⟨hnone, hc⟩
  · exact hleft c hc
  · -- nothing fits in the left half, so the right one is searched in the same state
    have hsame := l.alloc_unfit (k - 1) o p hl.fits hnone
    rw [hsame] at hrep₁ hnotr
    have hi₁ := hagree.nodes i (by simp)
    rw [hi] at hi₁
    simp only [Found.index, Option.getD_none, decide_true, Bool.true_and, hi₁] at hnotr
    refine hsub r p b₁ (l.indices ++ (i :: others)) i (o + 2 ^ (k - 1)) hspacer
      (hr.frame fun j hj ↦ hagree.nodes j (by simp [hj])) (hrep₁.perm ?_) hnotr c hc
    refine List.perm_iff_count.mpr fun x ↦ ?_
    simp only [List.count_cons, List.count_append]
    omega

/-- **A search in which `createNode` does not report exhaustion has the slots it
needs.** -/
theorem exhausts_sim (hreq : MIN_ORDER ≤ req) (fuel : Nat) :
    ∀ (k : Nat) (t : Tree) (p : Reserve) (b : Manager) (others : List Int) (parent : Int) (o : Nat),
      k < fuel → o + 2 ^ k < 2 ^ 64 → t.At b.nodes parent k o → Rep b p (t.indices ++ others) →
      exhausts req fuel b t.idx = false → Supplied req (t.leaves k o) p.slots := by
  induction fuel with
  | zero => exact fun k t p b others parent o hfuel ↦ absurd hfuel (Nat.not_lt_zero _)
  | succ fuel ih =>
      intro k t p b others parent o hfuel hspace ht h hnot
      have hin := h.in_range (List.mem_append_left _ t.idx_mem_indices)
      have horder := ht.root.2.1
      unfold exhausts at hnot
      rw [if_neg hin, horder] at hnot
      by_cases hsmall : k < req
      · intro c hc
        rw [ht.fits.firstFit_small hsmall] at hc
        cases hc
      rw [if_neg hsmall] at hnot
      have hsub : ∀ (t : Tree) p b others parent o, o + 2 ^ (k - 1) < 2 ^ 64 →
          t.At b.nodes parent (k - 1) o → Rep b p (t.indices ++ others) →
          exhausts req fuel b t.idx = false → Supplied req (t.leaves (k - 1) o) p.slots :=
        fun t p b others parent o ↦ ih (k - 1) t p b others parent o (by
          have := ht.fits.le
          simp only [MIN_ORDER] at this
          omega)
      have hfuel' : k - 1 < fuel := by
        have := ht.fits.le
        simp only [MIN_ORDER] at this
        omega
      cases t with
      | node i f l r =>
          have hi := ht.2.1
          have hlidx : 0 ≤ l.idx := h.nonneg (by simp [l.idx_mem_indices])
          have hne : l.idx ≠ -1 := by omega
          have hexact : tryAllocateExactSize b i req = (b, -1) := by
            simp [tryAllocateExactSize, hi, hne]
          simp only [Tree.idx_node, hexact, hi, ne_eq, not_true_eq_false, if_false, hne] at hnot
          exact exhaustsBelow_sim hreq hfuel' hspace hsub ht h hnot
      | leaf i f =>
          obtain ⟨hk, hi⟩ := ht
          intro c hc
          obtain ⟨hmem, hfree, -⟩ := firstFit_some hc
          obtain rfl := List.mem_singleton.mp hmem
          obtain rfl : f = true := hfree
          rcases Nat.eq_or_lt_of_le (not_lt.mp hsmall) with rfl | hlt
          · simp
          · have hexact : tryAllocateExactSize b i req = (b, -1) := by
              simp [tryAllocateExactSize, hi, ne_of_gt hlt]
            have hlarge : MIN_ORDER < k := hreq.trans_lt hlt
            simp only [Tree.idx_leaf, hexact, hi, ne_eq, not_true_eq_false, if_false, if_true,
              Bool.not_true, Bool.false_eq_true, hlarge, decide_true] at hnot
            cases htake : p.takeTwo with
            | mk slots p' =>
              cases slots with
              | none =>
                  obtain ⟨b', hsplit, -, -⟩ := splitNode_none h hlarge hi htake
                  simp [hsplit] at hnot
              | some xy =>
                  obtain ⟨x, y⟩ := xy
                  obtain ⟨b', hsplit, hat, hrep, -⟩ := splitNode_some h hlarge hspace hi htake
                  simp only [hsplit, lt_irrefl, if_false] at hnot
                  have hbelow := exhaustsBelow_sim hreq hfuel' hspace hsub hat hrep hnot
                  have hslots := Reserve.slots_takeTwo htake
                  have hhalf := hbelow ⟨x, k - 1, o, true⟩ (by
                    have hholds : (⟨x, k - 1, o, true⟩ : Leaf).holds req = true :=
                      Leaf.holds_iff.mpr ⟨rfl, by simp only; omega⟩
                    exact List.find?_cons_of_pos hholds)
                  simp only at hhalf ⊢
                  omega

/-- The pool represents a settled tree. -/
def SettledInv (start size : Nat) (s : State) : Prop :=
  ∃ t p, Inv start size s t p ∧ t.Settled

/-- **The step lemma.** -/
theorem settled_step (hr : Region start size) {s' : State} {op : Op} (h : SettledInv start size s)
    (hok : NeverExhausted s op) (hstep : step s op = some s') : SettledInv start size s' := by
  obtain ⟨t, p, hinv, hset⟩ := h
  have hstart := hr.start_pos
  cases op with
  | alloc n =>
      rcases Nat.eq_zero_or_pos n with rfl | hpos
      · rw [step, Buddy.mem_alloc, if_pos rfl, Option.map_some, if_pos rfl] at hstep
        obtain rfl := Option.some.inj hstep
        exact ⟨t, p, hinv, hset⟩
      · have hn : n ≠ 0 := by omega
        have hmax : s.buddy.maxOrder < 63 :=
          (Nat.pow_lt_pow_iff_right (by decide)).mp (hinv.two_pow_lt hr)
        obtain ⟨hreq, hhigh⟩ := hinv.getOrder_bounds n
        have hnot := hok.2 hn
        rw [Nat.mod_eq_of_lt (by omega), hinv.root] at hnot
        have hlt := hinv.two_pow_lt hr
        have hsupplied := exhausts_sim hreq (s.buddy.maxOrder + 1) s.buddy.maxOrder t p s.buddy []
          (-1) 0 (Nat.lt_succ_self _) (by omega) hinv.tree (by simpa using hinv.rep) hnot
        obtain ⟨b', -, ⟨hres, hcall, hinv'⟩ | ⟨c, -, hres, -, -, -, hcall, hinv'⟩⟩ :=
          hinv.alloc_sim hr hn
        · rw [step, hcall, Option.map_some, if_pos rfl] at hstep
          obtain rfl := Option.some.inj hstep
          rw [t.alloc_none s.buddy.maxOrder 0 p hreq hinv.tree.fits hres (Or.inl hsupplied)]
            at hinv'
          exact ⟨t, _, hinv', hset⟩
        · rw [step, hcall, Option.map_some, if_neg (by simp only; omega)] at hstep
          obtain rfl := Option.some.inj hstep
          exact ⟨_, _, hinv', (t.alloc_settled hreq s.buddy.maxOrder 0 p hinv.tree.fits hset
            hsupplied hres).1⟩
  | free ptr =>
      by_cases hptr : ptr ∈ s.live
      · obtain ⟨c, -, -, b', ctx, hcall, -, hplug, hinv', -⟩ := hinv.free_sim hr hptr
        rw [step, hcall, Option.map_some] at hstep
        obtain rfl := Option.some.inj hstep
        exact ⟨_, _, hinv', release_settled (hplug ▸ hset) p⟩
      · rw [step, hinv.mem_free_other hptr, Option.map_some, List.erase_of_not_mem hptr] at hstep
        obtain rfl := Option.some.inj hstep
        exact ⟨t, p, hinv, hset⟩

/-- The flag in the slot of every part of the tree. -/
theorem Tree.At.subtree_isFree {nodes : Int → BuddyNode} {parent : Int} {u : Tree}
    (h : t.At nodes parent k o) (hu : u ∈ t.subtrees) : (nodes u.idx).isFree = u.isFree := by
  induction t generalizing parent k o with
  | leaf i f =>
      rw [List.mem_singleton.mp hu]
      exact h.root.1
  | node i f l r ihl ihr =>
      rcases List.mem_cons.mp hu with rfl | hu
      · exact h.root.1
      · rcases List.mem_append.mp hu with hu | hu
        · exact ihl h.2.2.1 hu
        · exact ihr h.2.2.2 hu

/-- **Coalescing is complete** in the pool `nodes` that represents the tree. -/
structure Coalesced (nodes : Int → BuddyNode) (t : Tree) : Prop where
  /-- No split block has two free unsplit halves. -/
  merged : ∀ i f l r, Tree.node i f l r ∈ t.subtrees →
    ¬((∃ j, l = .leaf j true) ∧ ∃ j, r = .leaf j true)
  /-- The flag of a slot is set exactly when all blocks below it are free. -/
  flags : ∀ u ∈ t.subtrees, ((nodes u.idx).isFree = true ↔ ∀ f ∈ u.marks, f = true)
  /-- Every split block has a block in use below it. -/
  used : ∀ i f l r, Tree.node i f l r ∈ t.subtrees → false ∈ (Tree.node i f l r).marks

theorem Tree.Settled.coalesced {nodes : Int → BuddyNode} {parent : Int}
    (h : t.At nodes parent k o) (hset : t.Settled) : Coalesced nodes t where
  merged i f l r hu := by
    rintro ⟨⟨j, rfl⟩, j', rfl⟩
    have hused := (hset.subtree hu).2.1
    simp at hused
  flags u hu := by
    rw [h.subtree_isFree hu]
    exact (hset.subtree hu).isFree_iff
  used i f l r hu := (hset.subtree hu).2.1

/-- A settled tree without a block in use is a single free block. -/
theorem Tree.Settled.eq_leaf (hset : t.Settled) (h : ∀ f ∈ t.marks, f = true) :
    t = .leaf t.idx true := by
  cases t with
  | leaf i f => rw [h f (List.mem_singleton_self _), idx_leaf]
  | node i f l r =>
      have hfalse := h false hset.2.1
      cases hfalse

/-- **Coalescing over whole runs.**  In every state that allocations of any size and
releases of any pointer reach without `createNode` ever reporting exhaustion,
coalescing is complete; and when no block is in use, the tree is the free root and
every other slot is recycled. -/
theorem coalescing_complete (hr : Region start size) {nodes : Int → BuddyNode} {rootIndex : Int}
    (hreach : Reach step NeverExhausted (State.init nodes rootIndex start size) s) :
    ∃ t p, TreeInv s t p ∧ Coalesced s.buddy.nodes t ∧
      (s.live = [] → t = .leaf s.buddy.rootIndex true ∧
        ∀ j, 0 ≤ j → j < s.buddy.nodeCount → j ≠ s.buddy.rootIndex → j ∈ p.recycled) := by
  obtain ⟨t, p, hinv, hset⟩ := hreach.invariant (I := SettledInv start size)
    ⟨_, _, inv_init hr nodes rootIndex, trivial⟩ fun _ _ _ ↦ settled_step hr
  refine ⟨t, p, hinv.treeInv, hset.coalesced hinv.tree, fun hlive ↦ ?_⟩
  have hocc : occupied (t.leaves s.buddy.maxOrder 0) = [] := by
    have hperm := hinv.live
    rw [hlive] at hperm
    exact List.map_eq_nil_iff.mp (List.nil_perm.mp hperm)
  have hall : ∀ f ∈ t.marks, f = true := fun f hf ↦ by
    rw [t.marks_eq s.buddy.maxOrder 0] at hf
    obtain ⟨c, hc, rfl⟩ := List.mem_map.mp hf
    by_contra hused
    have hmem := mem_occupied.mpr ⟨hc, by simpa using hused⟩
    rw [hocc] at hmem
    cases hmem
  have hleaf := hset.eq_leaf hall
  rw [← hinv.root] at hleaf
  refine ⟨hleaf, fun j hj hlt hne ↦ ?_⟩
  have hmem := (hinv.treeInv.slots j).mpr ⟨hj, hlt⟩
  rw [hleaf] at hmem
  exact (List.mem_append.mp hmem).resolve_left fun hroot ↦ hne (List.mem_singleton.mp hroot)

/-- A region of 64 bytes in which two blocks were allocated and released in the order
they were allocated. -/
theorem coalescing_complete_drained : ∃ s, s.live = [] ∧ ∃ t p, TreeInv s t p ∧
    Coalesced s.buddy.nodes t ∧
      (s.live = [] → t = .leaf s.buddy.rootIndex true ∧
        ∀ j, 0 ≤ j → j < s.buddy.nodeCount → j ≠ s.buddy.rootIndex → j ∈ p.recycled) := by
  have hr : Region 0x1000 64 := ⟨by decide, by decide, by decide, by decide⟩
  have hrun : (run step (State.init blank 0 0x1000 64)
      [.alloc 20, .alloc 10, .free 0x1000, .free 0x1020]).map State.live = some [] := by decide
  obtain ⟨s, hrun, hlive⟩ := Option.map_eq_some_iff.mp hrun
  have hfirst : exhausts (getOrder (State.init blank 0 0x1000 64).buddy 20 % 256)
      ((State.init blank 0 0x1000 64).buddy.maxOrder + 1) (State.init blank 0 0x1000 64).buddy
      (State.init blank 0 0x1000 64).buddy.rootIndex = false := by decide
  have hsecond : ∀ t, step (State.init blank 0 0x1000 64) (.alloc 20) = some t →
      exhausts (getOrder t.buddy 10 % 256) (t.buddy.maxOrder + 1) t.buddy t.buddy.rootIndex =
        false := by
    intro t ht
    obtain rfl := Option.some.inj ht
    decide
  have hguard : Guarded step NeverExhausted (State.init blank 0 0x1000 64)
      [.alloc 20, .alloc 10, .free 0x1000, .free 0x1020] :=
    ⟨⟨by decide, fun _ ↦ hfirst⟩, fun t ht ↦ ⟨⟨by decide, fun _ ↦ hsecond t ht⟩, fun _ _ ↦
      ⟨(by decide : 0x1000 < 2 ^ 64), fun _ _ ↦ ⟨(by decide : 0x1020 < 2 ^ 64), fun _ _ ↦
        trivial⟩⟩⟩⟩
  exact ⟨s, hlive, coalescing_complete hr (.of_run hrun hguard)⟩

end BareBones.Memory.Buddy
