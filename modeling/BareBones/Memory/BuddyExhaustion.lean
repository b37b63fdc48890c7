import BareBones.Memory.BuddyContract
import Mathlib.Data.List.Find

/-!
# Failed requests and the slot pool

A `NULL` of `mem_alloc` should cost nothing: the blocks are the same as before, and
so are the requests that can be met (`FailsClean`).  A search that finds nothing to
halve keeps to that.  One that runs out of slots on the way down does not: the
halvings it has already done stay, with two free halves side by side that no release
will merge.

`failsClean_iff` says that this is the only way for a failed request to leave a
trace, and `dirty_failure` that the kernel's heap can get there: small requests use
up the pool long before they use up the memory.
-/

namespace BareBones.Memory.Buddy

open BareBones.Lib

variable {b : Manager} {p p' : Reserve} {t t' : Tree} {k o n m : Nat} {start size : Nat} {s : State}

/-- The blocks of a state: offset, order and whether it is free. -/
def blocks (s : State) : Set (Nat × Nat × Bool) :=
  {x | ∃ t p, TreeInv s t p ∧
    ∃ i, (⟨i, x.2.1, x.1, x.2.2⟩ : Leaf) ∈ t.leaves s.buddy.maxOrder 0}

/-- The request can be met. -/
def Satisfiable (b : Manager) (n : Nat) : Prop := ∃ b' a, mem_alloc b n = some (b', a) ∧ a ≠ 0

/-- **A failed request leaves no trace**: if `mem_alloc(n)` returns `NULL`, the blocks
are the same as before, and what could be allocated before still can. -/
def FailsClean (s : State) (n : Nat) : Prop :=
  ∀ b', mem_alloc s.buddy n = some (b', 0) →
    blocks ⟨b', s.live⟩ = blocks s ∧ ∀ m, Satisfiable s.buddy m → Satisfiable b' m

theorem TreeInv.mem_blocks (h : TreeInv s t p) {x : Nat × Nat × Bool} :
    x ∈ blocks s ↔ ∃ i, (⟨i, x.2.1, x.1, x.2.2⟩ : Leaf) ∈ t.leaves s.buddy.maxOrder 0 := by
  constructor
  · rintro ⟨t', p', h', hx⟩
    rwa [← h'.unique h]
  · exact fun hx ↦ ⟨t, p, h, hx⟩

/-- Which requests can be met is read off the tree. -/
theorem Inv.satisfiable_iff (hr : Region start size) (h : Inv start size s t p) :
    Satisfiable s.buddy m ↔ m ≠ 0 ∧
      Served (getOrder s.buddy m) (t.leaves s.buddy.maxOrder 0) (spare t) := by
  have hstart := hr.start_pos
  rcases Nat.eq_zero_or_pos m with rfl | hpos
  · refine iff_of_false ?_ fun hm ↦ hm.1 rfl
    rintro ⟨b', a, hcall, ha⟩
    rw [Buddy.mem_alloc, if_pos rfl] at hcall
    exact ha (Prod.mk.inj (Option.some.inj hcall)).2.symm
  · have hm : m ≠ 0 := by omega
    have hsome := t.alloc_isSome_iff (h.getOrder_bounds m).1 s.buddy.maxOrder 0 p h.tree.fits
    rw [h.rep.covers.slots.1] at hsome
    rw [← hsome]
    obtain ⟨b', -, ⟨hres, hcall, -⟩ | ⟨c, -, hres, -, -, -, hcall, -⟩⟩ := h.alloc_sim hr hm
    · refine iff_of_false ?_ (by simp [hres])
      rintro ⟨b'', a, hcall', ha⟩
      rw [hcall] at hcall'
      exact ha (Prod.mk.inj (Option.some.inj hcall')).2.symm
    · refine iff_of_true ⟨b', _, hcall, by omega⟩ ⟨hm, by simp [hres]⟩

/-- A failure that leaves the tree alone leaves no trace. -/
theorem Inv.failsClean (hr : Region start size) (h : Inv start size s t p)
    (hsame : n ≠ 0 → (t.alloc (getOrder s.buddy n) s.buddy.maxOrder p).result = none →
      (t.alloc (getOrder s.buddy n) s.buddy.maxOrder p).tree = t) : FailsClean s n := by
  have hstart := hr.start_pos
  intro b' hcall
  rcases Nat.eq_zero_or_pos n with rfl | hpos
  · rw [Buddy.mem_alloc, if_pos rfl] at hcall
    obtain rfl := (Prod.mk.inj (Option.some.inj hcall)).1
    exact ⟨rfl, fun _ hm ↦ hm⟩
  · have hn : n ≠ 0 := by omega
    obtain ⟨b'', hmax, ⟨hres, hnull, hinv⟩ | ⟨c, -, -, -, -, -, hsome, -⟩⟩ := h.alloc_sim hr hn
    · rw [hcall] at hnull
      obtain rfl := (Prod.mk.inj (Option.some.inj hnull)).1
      rw [hsame hn hres] at hinv
      refine ⟨?_, fun m hm ↦ ?_⟩
      · ext x
        rw [hinv.treeInv.mem_blocks, h.treeInv.mem_blocks]
        simp only [hmax]
      · have horder : getOrder b' m = getOrder s.buddy m := by rw [getOrder, getOrder, hmax]
        rw [hinv.satisfiable_iff hr]
        simp only [hmax, horder]
        exact (h.satisfiable_iff hr).mp hm
    · rw [hcall] at hsome
      have hzero := (Prod.mk.inj (Option.some.inj hsome)).2
      omega

/-- A search that runs out of slots after it has cut a block leaves a trace. -/
theorem Inv.not_failsClean (hr : Region start size) (h : Inv start size s t p) (hn : n ≠ 0)
    (hshort : ¬Enough (getOrder s.buddy n) t s.buddy.maxOrder) (htwo : 2 ≤ spare t) :
    ¬FailsClean s n := by
  intro hclean
  unfold Enough at hshort
  push Not at hshort
  obtain ⟨hexact, c, hfirst, hslots⟩ := hshort
  rw [← h.rep.covers.slots.1] at hslots htwo
  obtain ⟨hres, -, hcut⟩ := Tree.alloc_short (h.getOrder_bounds n).1 s.buddy.maxOrder 0 t p
    h.tree.fits hexact hfirst hslots
  obtain ⟨b', hmax, ⟨-, hcall, hinv⟩ | ⟨d, -, hsome, -⟩⟩ := h.alloc_sim hr hn
  · obtain ⟨d, hd, hoffset, horder⟩ := hcut htwo
    obtain ⟨hc, hfree, -⟩ := firstFit_some hfirst
    have hold : (c.offset, c.order, true) ∈ blocks s :=
      h.treeInv.mem_blocks.mpr ⟨c.idx, hfree ▸ hc⟩
    rw [← (hclean b' hcall).1, hinv.treeInv.mem_blocks] at hold
    obtain ⟨i, hi⟩ := hold
    have hfits := hinv.tree.fits
    simp only [hmax] at hi hfits
    -- the block at this offset is a smaller one now
    have heq := hfits.leaf_unique hd hi hoffset
    rw [heq] at horder
    exact lt_irrefl _ horder
  · rw [hres] at hsome
    cases hsome

/-- **When a failed request leaves no trace.**  In every state a run can reach, a
request either succeeds or leaves no trace if and only if it is empty, or the slots
suffice for the splits it needs, or fewer than two slots are left, so that it cannot
split at all. -/
theorem failsClean_iff (hr : Region start size) {nodes : Int → BuddyNode} {rootIndex : Int}
    (hreach : Reach step Valid (State.init nodes rootIndex start size) s) (ht : TreeInv s t p) :
    FailsClean s n ↔
      n = 0 ∨ Enough (getOrder s.buddy n) t s.buddy.maxOrder ∨ spare t < 2 := by
  obtain ⟨t', p', hinv⟩ := inv_reach hr hreach
  obtain rfl := ht.unique hinv.treeInv
  constructor
  · intro hclean
    by_contra hno
    obtain ⟨hn, hshort, htwo⟩ := by simpa only [not_or] using hno
    exact hinv.not_failsClean hr hn hshort (not_lt.mp htwo) hclean
  · intro hcond
    refine hinv.failsClean hr fun hn hres ↦ ?_
    have hreq := (hinv.getOrder_bounds n).1
    rcases hcond with hzero | (hexact | hslots) | hstarved
    · exact absurd hzero hn
    · have hsome := t.alloc_exact s.buddy.maxOrder 0 p' hinv.tree.fits hexact
      rw [hres] at hsome
      cases hsome
    · rw [← hinv.rep.covers.slots.1] at hslots
      exact t.alloc_none s.buddy.maxOrder 0 p' hreq hinv.tree.fits hres (Or.inl hslots)
    · rw [← hinv.rep.covers.slots.1] at hstarved
      exact t.alloc_none s.buddy.maxOrder 0 p' hreq hinv.tree.fits hres (Or.inr hstarved)

/-- After `mem_init` a request for more than half of the heap leaves no trace. -/
theorem failsClean_iff_boot :
    FailsClean (State.init blank 0 0x1000000 (256 * 1024 * 1024)) (2 ^ 27 + 1) :=
  (failsClean_iff region_boot .refl (inv_init region_boot blank 0).treeInv).mpr
    (Or.inr (Or.inl (Or.inl ⟨_, List.mem_singleton_self _, rfl, by decide⟩)))

/-! ## The kernel's heap gets there -/

theorem Tree.length_leaves_le (t : Tree) (k o : Nat) :
    (t.leaves k o).length ≤ t.indices.length := by
  induction t generalizing k o with
  | leaf i f => simp [leaves]
  | node i f l r ihl ihr =>
      have hl := ihl (k - 1) o
      have hr := ihr (k - 1) (o + 2 ^ (k - 1))
      simp only [leaves, indices_node, List.length_append, List.length_cons]
      omega

/-- The bytes of blocks that all have the same order. -/
theorem bytes_eq_of_order {ls : List Leaf} (h : ∀ c ∈ ls, c.order = m) :
    bytes ls = ls.length * 2 ^ m := by
  induction ls with
  | nil => simp
  | cons c cs ih =>
      rw [bytes_cons, ih fun d hd ↦ h d (List.mem_cons_of_mem c hd), h c List.mem_cons_self,
        List.length_cons]
      ring

/-- A state of the kernel's heap in which only blocks of 32 bytes were allocated, `m`
of them, and no smaller block is free. -/
structure Small (s : State) (t : Tree) (p : Reserve) (m : Nat) : Prop where
  reach : Reach step Valid (State.init blank 0 0x1000000 (256 * 1024 * 1024)) s
  inv : Inv 0x1000000 (256 * 1024 * 1024) s t p
  maxOrder : s.buddy.maxOrder = 28
  count : s.live.length = m
  used : ∀ c ∈ occupied (t.leaves 28 0), c.order = 5
  free : ∀ c ∈ t.leaves 28 0, c.isFree = true → 5 ≤ c.order
  spare : 2 ≤ spare t

namespace Small

/-- The pool has fewer slots than the heap has blocks of 32 bytes. -/
theorem le (h : Small s t p m) : m ≤ 8192 := by
  have hlive := h.inv.live.length_eq
  have hslots := h.inv.rep.covers.slots.2
  have hleaves := t.length_leaves_le s.buddy.maxOrder 0
  have hocc : (occupied (t.leaves s.buddy.maxOrder 0)).length ≤
      (t.leaves s.buddy.maxOrder 0).length := List.length_filter_le _ _
  rw [List.length_map, h.count] at hlive
  simp only [MAX_NODES] at hslots
  omega

/-- So some block is still free. -/
theorem exists_free (h : Small s t p m) : firstFit 4 (t.leaves 28 0) ≠ none := by
  intro hnone
  have hall : occupied (t.leaves 28 0) = t.leaves 28 0 := by
    refine List.filter_eq_self.mpr fun c hc ↦ ?_
    have hno := firstFit_eq_none.mp hnone c hc
    cases hfree : c.isFree with
    | false => rfl
    | true =>
        have hge := h.free c hc hfree
        have hle : 4 ≤ c.order := by omega
        simp [Leaf.holds, hfree, hle] at hno
  have hfits := h.inv.tree.fits
  rw [h.maxOrder] at hfits
  have hbytes := hfits.bytes 0
  have hlive := h.inv.live.length_eq
  have hle := h.le
  rw [List.length_map, h.count, h.maxOrder, hall] at hlive
  rw [bytes_eq_of_order (hall ▸ h.used), ← hlive] at hbytes
  omega

/-- No block has exactly the smallest order. -/
theorem not_exact (h : Small s t p m) : ¬HasExact 4 (t.leaves 28 0) := by
  rintro ⟨c, hc, hfree, horder⟩
  have hge := h.free c hc hfree
  omega

/-- A block that holds 16 bytes holds 32. -/
theorem firstFit_eq (h : Small s t p m) :
    firstFit 5 (t.leaves 28 0) = firstFit 4 (t.leaves 28 0) := by
  refine List.find?_congr fun c hc ↦ ?_
  cases hfree : c.isFree with
  | false => simp [Leaf.holds, hfree]
  | true =>
      have hge := h.free c hc hfree
      have hge' : 4 ≤ c.order := by omega
      simp [Leaf.holds, hfree, hge, hge']

theorem getOrder_eq (h : Small s t p m) :
    getOrder s.buddy 16 = 4 ∧ getOrder s.buddy 32 = 5 := by
  rw [getOrder, getOrder, h.maxOrder]
  exact ⟨by decide, by decide⟩

/-- **One more small request.**  Either a request for 16 bytes runs out of slots on
the way down, or one for 32 bytes succeeds and leaves two slots. -/
theorem next (h : Small s t p m) :
    ¬FailsClean s 16 ∨ ∃ s' t' p', Small s' t' p' (m + 1) := by
  obtain ⟨c, hc⟩ := Option.ne_none_iff_exists'.mp h.exists_free
  obtain ⟨hmem, hfree, -⟩ := firstFit_some hc
  have hge := h.free c hmem hfree
  obtain ⟨hsmall, hlarge⟩ := h.getOrder_eq
  rcases Nat.lt_or_ge (Buddy.spare t) (2 * (c.order - 4)) with hshort | hslots
  · refine Or.inl (h.inv.not_failsClean region_boot (by decide) ?_ h.spare)
    rw [hsmall, h.maxOrder, Enough, not_or]
    exact ⟨h.not_exact, fun hall ↦ absurd (hall c hc) (not_le.mpr hshort)⟩
  · refine Or.inr ?_
    have hfirst : firstFit 5 (t.leaves 28 0) = some c := h.firstFit_eq.trans hc
    have hfits := h.inv.tree.fits
    rw [h.maxOrder] at hfits
    have hspare := h.inv.rep.covers.slots.1
    have henough : 2 * (c.order - 5) ≤ p.slots := by omega
    have hsome := Tree.alloc_served (by decide) 28 0 t p hfits hfirst henough
    have hrest := Tree.alloc_slots (by decide) 28 0 t p hfits hfirst henough
    obtain ⟨b', hmax, ⟨hres, -, -⟩ | ⟨d, -, -, horder, -, hperm, hcall, hinv⟩⟩ :=
      h.inv.alloc_sim region_boot (n := 32) (by decide)
    · rw [hlarge, h.maxOrder] at hres
      rw [hres] at hsome
      cases hsome
    · rw [hlarge] at horder hinv
      rw [hlarge, h.maxOrder] at hperm
      rw [h.maxOrder] at hmax hinv
      have hnull : 0x1000000 + d.offset ≠ 0 := by omega
      refine ⟨_, _, _, h.reach.tail (e := Op.alloc 32) (by decide : (32 : Nat) < 2 ^ 64)
        (by rw [step, hcall, Option.map_some, if_neg hnull]), hinv, hmax, ?_, ?_, ?_, ?_⟩
      · rw [List.length_cons, h.count]
      · intro e he
        rcases List.mem_cons.mp (hperm.subset he) with rfl | he
        · exact horder
        · exact h.used e he
      · exact Tree.alloc_free_ge le_rfl 28 0 t p h.free
      · rw [← hinv.rep.covers.slots.1]
        omega

end Small

/-- Right after `mem_init` nothing was allocated. -/
theorem small_init :
    Small (State.init blank 0 0x1000000 (256 * 1024 * 1024)) (.leaf 0 true) ⟨[], 1⟩ 0 where
  reach := .refl
  inv := inv_init region_boot blank 0
  maxOrder := by decide
  count := rfl
  used c hc := by
    simp [Tree.leaves] at hc
  free c hc _ := by
    obtain rfl := List.mem_singleton.mp hc
    decide
  spare := by decide

/-- Small requests go on until one of them fails halfway. -/
theorem dirty_or_small (m : Nat) :
    (∃ s, Reach step Valid (State.init blank 0 0x1000000 (256 * 1024 * 1024)) s ∧
      ¬FailsClean s 16) ∨ ∃ s t p, Small s t p m := by
  induction m with
  | zero => exact Or.inr ⟨_, _, _, small_init⟩
  | succ m ih =>
      rcases ih with hdirty | ⟨s, t, p, h⟩
      · exact Or.inl hdirty
      · exact h.next.imp (fun hdirty ↦ ⟨s, h.reach, hdirty⟩) id

/-- A request for 16 bytes in the kernel's heap, after enough requests for 32 bytes,
fails and leaves a trace. -/
theorem dirty_failure : ∃ s, Reach step Valid
    (State.init blank 0 0x1000000 (256 * 1024 * 1024)) s ∧ ¬FailsClean s 16 := by
  rcases dirty_or_small 8193 with hdirty | ⟨s, t, p, h⟩
  · exact hdirty
  · exact absurd h.le (by decide)

end BareBones.Memory.Buddy
