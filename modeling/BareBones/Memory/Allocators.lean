import BareBones.Lib.Arena
import BareBones.Memory.BuddyContract
import BareBones.Memory.FreeListContract

/-!
# The memory managers as allocators

Both memory managers do what users of a heap may expect (`Allocator.Sound`): the blocks in use
never overlap, a request is refused or answered with a block that has room for it, and the
other blocks keep their size.

For the free list this holds of every request that does not wrap around when it is rounded
(`FreeList.sound`), and for the buddy system of every request for no more than the memory that
is managed (`Buddy.sound`).  The block at an address has the size that its header says, or the
size of the leaf of the tree.
-/

namespace BareBones.Memory.FreeList

open BareBones.Lib

variable {h : Heap} {a b n ptr q x start size : Nat} {s : State} {cs : List Cell} {m : Extents}

/-- The free-list memory manager. -/
def allocator : Allocator Heap where
  alloc := mem_alloc
  free h ptr := some (mem_free h ptr)

/-- The blocks in use, by their payloads. -/
def Uses (start size : Nat) (h : Heap) (m : Extents) : Prop :=
  ∃ live cs, Inv start size ⟨h, live⟩ cs ∧
    ∀ q, m q = if q ∈ live then some (h.mem (q - HEADER_SIZE)).size else none

/-! ## Sizes that do not change -/

theorem setSize_size (hx : x ≠ a) : ((h.setSize a n).mem x).size = (h.mem x).size := by
  rw [Heap.setSize_mem, if_neg hx]

theorem setFree_size (f : Bool) : ((h.setFree a f).mem x).size = (h.mem x).size := by
  rw [Heap.setFree_mem]
  split
  next heq => rw [heq]
  next => rfl

theorem setPrev_size : ((h.setPrev a b).mem x).size = (h.mem x).size := by
  rw [Heap.setPrev_mem]
  split
  next heq => rw [heq]
  next => rfl

theorem setPrev_free : ((h.setPrev a b).mem x).free = (h.mem x).free := by
  rw [Heap.setPrev_mem]
  split
  next heq => rw [heq]
  next => rfl

theorem setNext_size : ((h.setNext a b).mem x).size = (h.mem x).size := by
  rw [Heap.setNext_mem]
  split
  next heq => rw [heq]
  next => rfl

/-- Carving a block leaves the sizes of the blocks in use as they are. -/
theorem carve_size (hx : x ≠ b) (hused : ((carve h b n).mem x).free = false) :
    ((carve h b n).mem x).size = (h.mem x).size := by
  unfold carve at hused ⊢
  dsimp only at hused ⊢
  split at hused
  next hfits =>
      rw [if_pos hfits, setFree_size, setSize_size hx, setNext_size]
      have hsplit : x ≠ u64 (b + HEADER_SIZE + n) := by
        rintro rfl
        rw [Heap.setFree_mem, if_neg hx, Heap.setSize_mem, if_neg hx, Heap.setNext_mem,
          if_neg hx] at hused
        split at hused
        · rw [setPrev_free, Heap.write_mem, if_pos rfl] at hused
          cases hused
        · rw [Heap.write_mem, if_pos rfl] at hused
          cases hused
      split
      · rw [setPrev_size, Heap.write_mem, if_neg hsplit]
      · rw [Heap.write_mem, if_neg hsplit]
  next hfits => rw [if_neg hfits, setFree_size]

theorem mergeNext_size (hx : x ≠ b) : ((mergeNext h b).mem x).size = (h.mem x).size := by
  unfold mergeNext
  dsimp only
  split
  · split
    · rw [setPrev_size, setNext_size, setSize_size hx]
    · rw [setNext_size, setSize_size hx]
  · rfl

theorem mergeNext_used (hx : x ≠ b) : ((mergeNext h b).mem x).free = (h.mem x).free := by
  unfold mergeNext
  dsimp only
  split
  · split
    · rw [setPrev_free, Heap.setNext_mem, if_neg hx, Heap.setSize_mem, if_neg hx]
    · rw [Heap.setNext_mem, if_neg hx, Heap.setSize_mem, if_neg hx]
  · rfl

theorem mergePrev_size (hused : (h.mem x).free = false) :
    ((mergePrev h b).mem x).size = (h.mem x).size := by
  unfold mergePrev
  dsimp only
  split
  next hprev =>
      have hx : x ≠ (h.mem b).prev := by
        rintro rfl
        rw [hused] at hprev
        exact Bool.false_ne_true hprev.2
      split
      · rw [setPrev_size, setNext_size, setSize_size hx]
      · rw [setNext_size, setSize_size hx]
  next => rfl

/-- Releasing a block leaves the sizes of the other blocks in use as they are. -/
theorem release_size (hx : x ≠ b) (hused : (h.mem x).free = false) :
    ((mergePrev (mergeNext (h.setFree b true) b) b).mem x).size = (h.mem x).size := by
  rw [mergePrev_size, mergeNext_size hx, setFree_size]
  rw [mergeNext_used hx, Heap.setFree_mem, if_neg hx]
  exact hused

theorem mem_free_size (hx : x ≠ sub64 ptr HEADER_SIZE) (hused : (h.mem x).free = false) :
    ((mem_free h ptr).mem x).size = (h.mem x).size := by
  by_cases hptr : ptr = 0
  · rw [mem_free, if_pos hptr]
  · simp only [mem_free, hptr, if_false]
    rw [release_size hx hused]

/-! ## The allocator -/

/-- A live pointer stands behind the header of a block in use. -/
theorem Inv.header (hr : Region start size) (hi : Inv start size s cs) (hq : q ∈ s.live) :
    HEADER_SIZE < q ∧ q < 2 ^ 64 ∧ (s.heap.mem (q - HEADER_SIZE)).free = false := by
  have hok := hi.heapOK hr
  obtain ⟨b, hb, hused, rfl⟩ := (hok.live q).mp hq
  obtain ⟨hlow, -, hhigh⟩ := hok.tiles.bounds
    (List.mem_map_of_mem (f := fun b ↦ (b, b + HEADER_SIZE + (s.heap.mem b).size)) hb)
  have hpos : 0 < b := hr.start_pos.trans_le hlow
  refine ⟨?_, ?_, ?_⟩
  · exact Nat.lt_add_of_pos_left hpos
  · exact ((Nat.le_add_right _ _).trans hhigh).trans_lt hr.end_lt
  · rwa [Nat.add_sub_cancel]

theorem Uses.alloc (hr : Region start size) (hu : Uses start size h m)
    (hn : n ≤ 2 ^ 64 - ALIGNMENT) : ∃ h' p, mem_alloc h n = some (h', p) ∧
      (p = 0 ∧ Uses start size h' m ∨
        m p = none ∧ ∃ a, n ≤ a ∧ Uses start size h' (Function.update m p (some a))) := by
  obtain ⟨live, cs, hi, hm⟩ := hu
  rcases mem_alloc_spec hr hi n with ⟨hnull, -⟩ | ⟨xs, c, ys, rfl, hfit, hbefore, hres⟩
  · exact ⟨h, 0, hnull, .inl ⟨rfl, live, cs, hi, hm⟩⟩
  · have hcarve := hi.carve hr hfit (alignUp_dvd n)
    have hnodup := (hcarve.heapOK hr).nodup
    obtain ⟨bs, -, -, -, hroom⟩ := (granted_of_fits hr hi hn hfit hbefore).taken
    have hnew : start + span xs + HEADER_SIZE ∉ live := (List.nodup_cons.mp hnodup).1
    refine ⟨_, _, hres, .inr ⟨?_, _, hroom, _, _, hcarve, fun q ↦ ?_⟩⟩
    · rw [hm, if_neg hnew]
    · by_cases hq : q = start + span xs + HEADER_SIZE
      · subst hq
        rw [Function.update_self, if_pos List.mem_cons_self, Nat.add_sub_cancel]
      · rw [Function.update_of_ne hq, hm]
        simp only [List.mem_cons, hq, false_or]
        split
        next hlive =>
            obtain ⟨hle, -, hused⟩ := hcarve.header hr (List.mem_cons_of_mem _ hlive)
            rw [carve_size (fun heq ↦ hq (by rw [← heq, Nat.sub_add_cancel hle.le])) hused]
        next => rfl

theorem Uses.free (hr : Region start size) (hu : Uses start size h m) (hptr : m ptr ≠ none) :
    Uses start size (mem_free h ptr) (Function.update m ptr none) := by
  obtain ⟨live, cs, hi, hm⟩ := hu
  have hlive : ptr ∈ live := by
    by_contra hnot
    exact hptr (by rw [hm, if_neg hnot])
  obtain ⟨s', cs', hstep, hinv⟩ := inv_free hr hi (.inr hlive)
  obtain rfl := Option.some.inj hstep
  have hnodup : live.Nodup := (hi.heapOK hr).nodup
  refine ⟨_, cs', hinv, fun q ↦ ?_⟩
  by_cases hq : q = ptr
  · subst hq
    rw [Function.update_self, if_neg hnodup.not_mem_erase]
  · rw [Function.update_of_ne hq, hm]
    simp only [List.mem_erase_of_ne hq]
    split
    next hmem =>
        obtain ⟨hle, -, hused⟩ := hi.header hr hmem
        obtain ⟨hle', hlt', -⟩ := hi.header hr hlive
        rw [mem_free_size ?_ hused]
        rw [sub64_of_le hle'.le hlt']
        exact fun heq ↦ hq (by rw [← Nat.sub_add_cancel hle.le, heq, Nat.sub_add_cancel hle'.le])
    next => rfl

/-- **The free list is a sound allocator** for requests that do not wrap around. -/
theorem sound (hr : Region start size) :
    allocator.Sound (fun n ↦ n ≤ 2 ^ 64 - ALIGNMENT) (Uses start size) where
  nonnull := by
    rintro h m ⟨live, cs, hi, hm⟩
    rw [hm, if_neg]
    intro hlive
    exact absurd (hi.header hr hlive).1 (by omega)
  apart := by
    rintro h m ⟨live, cs, hi, hm⟩ p q a b hp hq hne
    rw [hm] at hp hq
    split at hp
    next hlive =>
        split at hq
        next hlive' =>
            obtain rfl := Option.some.inj hp
            obtain rfl := Option.some.inj hq
            exact (hi.apart hr hlive hlive' (Ne.symm hne)).symm
        next => cases hq
    next => cases hp
  alloc hu hn := hu.alloc hr hn
  free hu hptr := ⟨_, rfl, hu.free hr hptr⟩

theorem uses_init (hr : Region start size) (mem : Nat → Block) :
    Uses start size (mem_init mem start size) .none :=
  ⟨[], _, inv_init hr mem, fun _ ↦ rfl⟩

/-- Without a block in use, the heap is the one free block that `mem_init` has made. -/
theorem Uses.drained (hr : Region start size) (hu : Uses start size h .none) :
    h.mem start = ⟨size - HEADER_SIZE, true, 0, 0⟩ := by
  obtain ⟨live, cs, hi, hm⟩ := hu
  have hlive : live = [] := by
    refine List.eq_nil_iff_forall_not_mem.mpr fun q hq ↦ ?_
    have hnone := hm q
    rw [if_pos hq] at hnone
    cases hnone
  obtain rfl := hi.drained hr hlive
  exact hi.chain.1

end BareBones.Memory.FreeList

namespace BareBones.Memory.Buddy

open BareBones.Lib

variable {b : Manager} {start size n ptr : Nat} {m : Extents}

/-- The buddy system. -/
def allocator : Allocator Manager where
  alloc := mem_alloc
  free := mem_free

/-- The blocks in use are the occupied leaves of the tree, which manages `2 ^ k` bytes. -/
def Uses (start size k : Nat) (b : Manager) (m : Extents) : Prop :=
  b.maxOrder = k ∧ ∃ live t p, Inv start size ⟨b, live⟩ t p ∧
    ∀ q a, m q = some a ↔ ∃ c ∈ occupied (t.leaves k 0), q = start + c.offset ∧ a = 2 ^ c.order

/-- Two leaves at one address are the same. -/
theorem Tree.Fits.leaf_at {t : Tree} {k : Nat} (ht : t.Fits k) {c d : Leaf}
    (hc : c ∈ t.leaves k 0) (hd : d ∈ t.leaves k 0) (heq : c.offset = d.offset) : c = d := by
  by_contra hne
  have hpos : 0 < 2 ^ c.order := Nat.two_pow_pos _
  have hpos' : 0 < 2 ^ d.order := Nat.two_pow_pos _
  have := ht.apart hc hd hne
  omega

variable {k : Nat}

theorem Uses.alloc (hr : Region start size) (hu : Uses start size k b m) (hn : n ≤ 2 ^ k) :
    ∃ b' q, mem_alloc b n = some (b', q) ∧
      (q = 0 ∧ Uses start size k b' m ∨
        m q = none ∧ ∃ a, n ≤ a ∧ Uses start size k b' (Function.update m q (some a))) := by
  obtain ⟨rfl, live, t, p, hi, hm⟩ := hu
  by_cases hzero : n = 0
  · refine ⟨b, 0, by rw [mem_alloc, if_pos hzero], .inl ⟨rfl, rfl, live, t, p, hi, hm⟩⟩
  · have hroom : n ≤ 2 ^ getOrder b n :=
      (hi.getOrder_le_iff hr hn (hi.getOrder_bounds n).1).mp le_rfl
    obtain ⟨b', hmax, ⟨hres, hcall, hinv⟩ | ⟨c, hc, -, horder, hused, hperm, hcall, hinv⟩⟩ :=
      hi.alloc_sim hr hzero
    · refine ⟨b', 0, hcall, .inl ⟨rfl, hmax, live, _, _, hinv, fun q a ↦ ?_⟩⟩
      have hocc := ((t.alloc_spec (hi.getOrder_bounds n).1 b.maxOrder 0 p hi.tree.fits).failed hres)
      dsimp only at hocc
      rw [hm, hocc]
    · have hfits : Tree.Fits _ b.maxOrder := hmax ▸ hinv.tree.fits
      have hnodup : (c :: occupied (t.leaves b.maxOrder 0)).Nodup :=
        hperm.nodup_iff.mp ((hfits.leaves_nodup 0).filter _)
      have hnew : ∀ d ∈ occupied (t.leaves b.maxOrder 0), d.offset ≠ c.offset := by
        intro d hd heq
        have hmem := (mem_occupied.mp (hperm.symm.subset (List.mem_cons_of_mem c hd))).1
        rw [hfits.leaf_at hmem hc heq] at hd
        exact (List.nodup_cons.mp hnodup).1 hd
      refine ⟨b', _, hcall, .inr ⟨?_, 2 ^ c.order, horder ▸ hroom, hmax, _, _, _, hinv, fun q a ↦
        ?_⟩⟩
      · by_contra hheld
        obtain ⟨a, ha⟩ := Option.ne_none_iff_exists'.mp hheld
        obtain ⟨d, hd, heq, -⟩ := (hm _ _).mp ha
        exact hnew d hd (by omega)
      · by_cases hq : q = start + c.offset
        · subst hq
          rw [Function.update_self]
          constructor
          · intro ha
            refine ⟨c, hperm.symm.subset List.mem_cons_self, rfl, ?_⟩
            exact (Option.some.inj ha).symm
          · rintro ⟨d, hd, heq, rfl⟩
            rcases List.mem_cons.mp (hperm.subset hd) with rfl | hd
            · rfl
            · exact absurd (by omega) (hnew d hd)
        · rw [Function.update_of_ne hq, hm]
          constructor
          · rintro ⟨d, hd, hrest⟩
            exact ⟨d, hperm.symm.subset (List.mem_cons_of_mem c hd), hrest⟩
          · rintro ⟨d, hd, heq, ha⟩
            rcases List.mem_cons.mp (hperm.subset hd) with rfl | hd
            · exact absurd heq hq
            · exact ⟨d, hd, heq, ha⟩

theorem Uses.free (hr : Region start size) (hu : Uses start size k b m) (hptr : m ptr ≠ none) :
    ∃ b', mem_free b ptr = some b' ∧ Uses start size k b' (Function.update m ptr none) := by
  obtain ⟨rfl, live, t, p, hi, hm⟩ := hu
  obtain ⟨a, ha⟩ := Option.ne_none_iff_exists'.mp hptr
  obtain ⟨d, hd, rfl, rfl⟩ := (hm _ _).mp ha
  have hlive : start + d.offset ∈ live :=
    hi.live.symm.subset (List.mem_map.mpr ⟨d, hd, rfl⟩)
  obtain ⟨c, hc, hptr', b', ctx, hcall, hmax, -, hinv, hperm⟩ := hi.free_sim hr hlive
  obtain rfl : d = c :=
    hi.tree.fits.leaf_at (mem_occupied.mp hd).1 (mem_occupied.mp hc).1 (by omega)
  refine ⟨b', hcall, hmax, _, _, _, hinv, fun q a ↦ ?_⟩
  have hnodup : (d :: occupied ((release ctx d.idx p).1.leaves b.maxOrder 0)).Nodup :=
    hperm.nodup_iff.mp ((hi.tree.fits.leaves_nodup 0).filter _)
  have hother : ∀ e ∈ occupied ((release ctx d.idx p).1.leaves b.maxOrder 0),
      start + e.offset ≠ start + d.offset := by
    intro e he heq
    have hmem := (mem_occupied.mp (hperm.symm.subset (List.mem_cons_of_mem d he))).1
    rw [hi.tree.fits.leaf_at hmem (mem_occupied.mp hd).1 (by omega)] at he
    exact (List.nodup_cons.mp hnodup).1 he
  by_cases hq : q = start + d.offset
  · subst hq
    rw [Function.update_self]
    refine iff_of_false (by simp) ?_
    rintro ⟨e, he, heq, -⟩
    exact hother e he heq.symm
  · rw [Function.update_of_ne hq, hm]
    constructor
    · rintro ⟨e, he, heq, ha⟩
      rcases List.mem_cons.mp (hperm.subset he) with rfl | he
      · exact absurd heq hq
      · exact ⟨e, he, heq, ha⟩
    · rintro ⟨e, he, hrest⟩
      exact ⟨e, hperm.symm.subset (List.mem_cons_of_mem d he), hrest⟩

/-- **The buddy system is a sound allocator** for requests of at most the memory that it
manages. -/
theorem sound (hr : Region start size) (k : Nat) :
    allocator.Sound (fun n ↦ n ≤ 2 ^ k) (Uses start size k) where
  nonnull := by
    rintro b m ⟨-, live, t, p, hi, hm⟩
    by_contra hheld
    obtain ⟨a, ha⟩ := Option.ne_none_iff_exists'.mp hheld
    obtain ⟨c, -, heq, -⟩ := (hm _ _).mp ha
    have := hr.start_pos
    omega
  apart := by
    rintro b m ⟨rfl, live, t, p, hi, hm⟩ q q' a a' hq hq' hne
    obtain ⟨c, hc, rfl, rfl⟩ := (hm _ _).mp hq
    obtain ⟨d, hd, rfl, rfl⟩ := (hm _ _).mp hq'
    have := hi.tree.fits.apart (mem_occupied.mp hc).1 (mem_occupied.mp hd).1
      (fun heq ↦ hne (by rw [heq]))
    omega
  alloc hu hn := hu.alloc hr hn
  free hu hptr := hu.free hr hptr

theorem uses_init (hr : Region start size) (nodes : Int → BuddyNode) (rootIndex : Int) :
    Uses start size (mem_init nodes rootIndex start size).maxOrder
      (mem_init nodes rootIndex start size) .none := by
  refine ⟨rfl, [], _, _, inv_init hr nodes rootIndex, fun q a ↦
    iff_of_false (fun hq ↦ by cases hq) ?_⟩
  rintro ⟨c, hc, -⟩
  obtain ⟨hleaf, hused⟩ := mem_occupied.mp hc
  obtain rfl := List.mem_singleton.mp hleaf
  cases hused

end BareBones.Memory.Buddy
