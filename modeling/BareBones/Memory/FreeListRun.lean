import BareBones.Memory.FreeListChain
import BareBones.Lib.Tiling
import Mathlib.Data.List.Perm.Basic
import Mathlib.Data.List.Chain

/-!
# The free-list heap over whole runs

The invariant `Inv` relates the heap in memory to a list of cells: the headers
represent the list (`Chain`), the list fills the heap, its payloads are
multiples of eight, no two neighbours are both free, and the cells in use are
exactly the live allocations.  `inv_step` is the step lemma; it also says that
the fuel of the loops never runs out.  `heap_invariant` reads the invariant back
as a statement about the blocks that `next` reaches from `baseBlock`.
-/

namespace BareBones.Memory.FreeList

open BareBones.Lib

/-! ## Abstract facts about lists of cells -/

/-- The payload addresses of the cells in use, for a list that starts at `a`. -/
def lives : Nat → List Cell → List Nat
  | _, [] => []
  | a, c :: cs =>
      if c.free then lives (a + HEADER_SIZE + c.size) cs
      else (a + HEADER_SIZE) :: lives (a + HEADER_SIZE + c.size) cs

/-- No two neighbours are both free. -/
def Coalesced (cs : List Cell) : Prop :=
  cs.IsChain fun c d ↦ c.free = false ∨ d.free = false

/-- Every payload is a multiple of the alignment. -/
def Aligned (cs : List Cell) : Prop := ∀ c ∈ cs, ALIGNMENT ∣ c.size

/-- First fit stops at the cell. -/
def Fits (size : Nat) (c : Cell) : Prop := c.free = true ∧ size ≤ c.size

variable {a p size start : Nat} {xs ys cs : List Cell} {c d m : Cell}

theorem lives_append (a : Nat) (xs ys : List Cell) :
    lives a (xs ++ ys) = lives a xs ++ lives (a + span xs) ys := by
  induction xs generalizing a with
  | nil => rfl
  | cons c cs ih =>
      have hspan : a + span (c :: cs) = a + HEADER_SIZE + c.size + span cs := by
        rw [span_cons]
        omega
      rw [List.cons_append, hspan]
      cases hfree : c.free <;> simp [lives, hfree, ih]

@[simp] theorem lives_cons_free (h : c.free = true) :
    lives a (c :: cs) = lives (a + HEADER_SIZE + c.size) cs := by simp [lives, h]

@[simp] theorem lives_cons_taken (h : c.free = false) :
    lives a (c :: cs) = (a + HEADER_SIZE) :: lives (a + HEADER_SIZE + c.size) cs := by
  simp [lives, h]

/-- A live payload belongs to a cell in use. -/
theorem exists_of_mem_lives {q : Nat} (h : q ∈ lives a cs) :
    ∃ xs c ys, cs = xs ++ c :: ys ∧ c.free = false ∧ q = a + span xs + HEADER_SIZE := by
  induction cs generalizing a with
  | nil => cases h
  | cons c cs ih =>
      have hrec : q ∈ lives (a + HEADER_SIZE + c.size) cs →
          ∃ xs d ys, c :: cs = xs ++ d :: ys ∧ d.free = false ∧
            q = a + span xs + HEADER_SIZE := by
        intro hq
        obtain ⟨xs, d, ys, rfl, hd, rfl⟩ := ih hq
        refine ⟨c :: xs, d, ys, rfl, hd, ?_⟩
        rw [span_cons]
        omega
      cases hfree : c.free with
      | true => exact hrec (by simpa [hfree] using h)
      | false =>
          rw [lives_cons_taken hfree] at h
          rcases List.mem_cons.mp h with rfl | hq
          · exact ⟨[], c, cs, rfl, hfree, rfl⟩
          · exact hrec hq

/-- Two cell lists laid out from `a` agree in extent, in the cells in use and in
alignment: what merging free neighbours and splitting off free space keep. -/
structure Reshaped (a : Nat) (cs cs' : List Cell) : Prop where
  span : span cs' = span cs
  lives : lives a cs' = lives a cs
  aligned : Aligned cs → Aligned cs'

theorem Reshaped.refl (a : Nat) (cs : List Cell) : Reshaped a cs cs := ⟨rfl, rfl, id⟩

theorem Reshaped.trans {cs₁ cs₂ cs₃ : List Cell} (h : Reshaped a cs₁ cs₂)
    (h' : Reshaped a cs₂ cs₃) : Reshaped a cs₁ cs₃ :=
  ⟨h'.span.trans h.span, h'.lives.trans h.lives, h'.aligned ∘ h.aligned⟩

/-- Reshaping a suffix reshapes the list. -/
theorem Reshaped.append_left {cs' : List Cell} (xs : List Cell)
    (h : Reshaped (a + FreeList.span xs) cs cs') : Reshaped a (xs ++ cs) (xs ++ cs') where
  span := by simp [h.span]
  lives := by rw [lives_append, lives_append, h.lives]
  aligned hal c hc := by
    rcases List.mem_append.mp hc with hc | hc
    · exact hal c (List.mem_append_left _ hc)
    · exact h.aligned (fun d hd ↦ hal d (List.mem_append_right _ hd)) c hc

/-- Two free neighbours may become one. -/
theorem Reshaped.fuse (hd : d.free = true) (hm : m.free = true) (ys : List Cell) :
    Reshaped a (d :: m :: ys) (⟨d.size + (HEADER_SIZE + m.size), true⟩ :: ys) where
  span := by
    simp only [span_cons]
    omega
  lives := by
    rw [lives_cons_free hd, lives_cons_free hm, lives_cons_free rfl]
    congr 1
    change a + HEADER_SIZE + (d.size + (HEADER_SIZE + m.size)) = _
    omega
  aligned hal c hc := by
    rcases List.mem_cons.mp hc with rfl | hc
    · have h₁ := hal d (by simp)
      have h₂ := hal m (by simp)
      have h₃ : ALIGNMENT ∣ HEADER_SIZE := by decide
      exact Nat.dvd_add h₁ (Nat.dvd_add h₃ h₂)
    · exact hal c (by simp [hc])

/-- Absorbing the right neighbour reshapes the list and leaves no free cell to
the right of the absorbing one. -/
theorem absorbNext_spec {n : Nat} (hco : Coalesced ys) :
    ∃ m ys', absorbNext ⟨n, true⟩ ys = m :: ys' ∧ m.free = true ∧ Coalesced (m :: ys') ∧
      Reshaped a (⟨n, true⟩ :: ys) (m :: ys') := by
  cases ys with
  | nil => exact ⟨_, [], rfl, rfl, List.isChain_singleton _, Reshaped.refl _ _⟩
  | cons d ys =>
      cases hd : d.free with
      | false =>
          refine ⟨⟨n, true⟩, d :: ys, by simp [absorbNext, hd], rfl, ?_, Reshaped.refl _ _⟩
          exact List.isChain_cons_cons.mpr ⟨Or.inr hd, hco⟩
      | true =>
          refine ⟨⟨n + (HEADER_SIZE + d.size), true⟩, ys, by simp [absorbNext, hd], rfl, ?_,
            Reshaped.fuse rfl hd ys⟩
          obtain ⟨hhead, htail⟩ := List.isChain_cons.mp hco
          refine List.isChain_cons.mpr ⟨fun e he ↦ Or.inr ?_, htail⟩
          simpa [hd] using hhead e he

/-! ## The invariant -/

/-- The heap is a region of the address space that `mem_init` can be given: not
`NULL`, aligned for a `Block`, its end still an address, its size a multiple of
the alignment and enough for one header and one payload. -/
structure Region (start size : Nat) : Prop where
  start_pos : 0 < start
  start_aligned : ALIGNMENT ∣ start
  size_aligned : ALIGNMENT ∣ size
  room : HEADER_SIZE + ALIGNMENT ≤ size
  end_lt : start + size < 2 ^ 64

/-- The heap invariant, relative to the cells the headers represent. -/
structure Inv (start size : Nat) (s : State) (cs : List Cell) : Prop where
  base : s.heap.baseBlock = start
  total : s.heap.totalBytes = size
  chain : Chain s.heap.mem 0 start cs
  full : span cs = size
  aligned : Aligned cs
  coalesced : Coalesced cs
  live : s.live.Perm (lives start cs)

variable {s s' : State}

theorem inv_init (hr : Region start size) (mem : Nat → Block) :
    Inv start size (State.init mem start size) [⟨size - HEADER_SIZE, true⟩] := by
  have hroom := hr.room
  have hend := hr.end_lt
  simp only [HEADER_SIZE, ALIGNMENT] at hroom
  have hsub : sub64 size HEADER_SIZE = size - HEADER_SIZE :=
    sub64_of_le (by rw [HEADER_SIZE]; omega) (by omega)
  refine ⟨rfl, rfl, ⟨?_, trivial⟩, ?_, ?_, List.isChain_singleton _, ?_⟩
  · simp [State.init, mem_init, hsub]
  · simp only [span_cons, span_nil, HEADER_SIZE]
    omega
  · intro c hc
    rw [List.mem_singleton.mp hc]
    exact Nat.dvd_sub hr.size_aligned (by decide)
  · simp [State.init, lives]

/-! ## Allocation -/

/-- The search loop stops at the first cell that fits, or runs to the end. -/
theorem allocFrom_spec {h : Heap} {fuel : Nat} (size : Nat) (hc : Chain h.mem p a cs)
    (ha : 0 < a) (hfuel : cs.length < fuel) :
    ((∀ c ∈ cs, ¬Fits size c) ∧ allocFrom h size fuel (link a cs) = some (h, 0)) ∨
      ∃ xs c ys, cs = xs ++ c :: ys ∧ (∀ x ∈ xs, ¬Fits size x) ∧ Fits size c ∧
        allocFrom h size fuel (link a cs) =
          some (carve h (a + span xs) size, u64 (a + span xs + HEADER_SIZE)) := by
  induction cs generalizing p a fuel with
  | nil =>
      obtain ⟨fuel, rfl⟩ := Nat.exists_eq_add_of_lt hfuel
      refine Or.inl ⟨fun c hc ↦ absurd hc (by simp), ?_⟩
      simp [allocFrom]
  | cons c cs ih =>
      obtain ⟨fuel, rfl⟩ : ∃ n, fuel = n + 1 := ⟨fuel - 1, by omega⟩
      obtain ⟨hhead, hrest⟩ := hc
      by_cases hfit : Fits size c
      · refine Or.inr ⟨[], c, cs, rfl, by simp, hfit, ?_⟩
        have hstop : ¬c.size < size := not_lt.mpr hfit.2
        simp [allocFrom, hhead, hfit.1, hstop, ne_of_gt ha]
      · have hskip : (!c.free || decide (c.size < size)) = true := by
          by_contra hno
          simp only [Bool.or_eq_true, Bool.not_eq_true', decide_eq_true_eq, not_or,
            Bool.not_eq_false, not_lt] at hno
          exact hfit hno
        have hloop : allocFrom h size (fuel + 1) (link a (c :: cs)) =
            allocFrom h size fuel (link (a + HEADER_SIZE + c.size) cs) := by
          simp [allocFrom, hhead, hskip, ne_of_gt ha]
        rw [hloop]
        rcases ih hrest (by omega) (by simpa using hfuel) with ⟨hnone, hres⟩ | h
        · refine Or.inl ⟨fun d hd ↦ ?_, hres⟩
          rcases List.mem_cons.mp hd with rfl | hd
          · exact hfit
          · exact hnone d hd
        · obtain ⟨xs, d, ys, rfl, hbefore, hd, hres⟩ := h
          have haddr : a + HEADER_SIZE + c.size + span xs = a + span (c :: xs) := by
            rw [span_cons]
            omega
          refine Or.inr ⟨c :: xs, d, ys, rfl, fun x hx ↦ ?_, hd, haddr ▸ hres⟩
          rcases List.mem_cons.mp hx with rfl | hx
          · exact hfit
          · exact hbefore x hx

theorem alignUp_eq (n : Nat) : alignUp n = u64 (n + 7) / 8 * 8 := and_not64_seven (u64_lt _)

theorem alignUp_dvd (n : Nat) : ALIGNMENT ∣ alignUp n := by
  rw [alignUp_eq]
  exact Nat.dvd_mul_left _ _

/-- Carving keeps alignment. -/
theorem aligned_carved {n : Nat} (hn : ALIGNMENT ∣ n) (hc : ALIGNMENT ∣ c.size) :
    Aligned (carved c n) := by
  have hhdr : ALIGNMENT ∣ HEADER_SIZE := by decide
  unfold carved
  split
  · rintro d hd
    rcases List.mem_cons.mp hd with rfl | hd
    · exact hn
    · rw [List.mem_singleton.mp hd]
      exact Nat.dvd_sub (Nat.dvd_sub hc hn) hhdr
  · rintro d hd
    rw [List.mem_singleton.mp hd]
    exact hc

/-- The first cell of a carving is in use and the rest is free. -/
theorem lives_carved (c : Cell) (n : Nat) : lives a (carved c n) = [a + HEADER_SIZE] := by
  unfold carved
  split <;> simp [lives]

/-- Carving a free cell keeps the list coalesced: the remainder is free, but its
right neighbour is not, since the carved cell was free. -/
theorem coalesced_carved {n : Nat} (hco : Coalesced (xs ++ c :: ys)) (hfree : c.free = true) :
    Coalesced (xs ++ carved c n ++ ys) := by
  obtain ⟨hxs, hcys, -⟩ := List.isChain_append.mp hco
  obtain ⟨hhead, hys⟩ := List.isChain_cons.mp hcys
  have hnext : ∀ d ∈ ys.head?, d.free = false := fun d hd ↦ by
    simpa [hfree] using hhead d hd
  rw [List.append_assoc]
  refine List.isChain_append.mpr ⟨hxs, ?_, fun x _ y hy ↦ Or.inr ?_⟩
  · unfold carved
    split
    · exact List.isChain_cons_cons.mpr ⟨Or.inl rfl,
        List.isChain_cons.mpr ⟨fun d hd ↦ Or.inr (hnext d hd), hys⟩⟩
    · exact List.isChain_cons.mpr ⟨fun _ _ ↦ Or.inl rfl, hys⟩
  · unfold carved at hy
    split at hy <;> (simp only [List.cons_append, List.head?_cons, Option.mem_some_iff] at hy
                     rw [← hy])

/-- What an allocation request does: `NULL` and no change, or the first cell that
fits is carved and its payload address returned. -/
theorem mem_alloc_spec (hr : Region start size) (hi : Inv start size s cs) (n : Nat) :
    (mem_alloc s.heap n = some (s.heap, 0) ∧ (n ≠ 0 → ∀ c ∈ cs, ¬Fits (alignUp n) c)) ∨
      ∃ xs c ys, cs = xs ++ c :: ys ∧ Fits (alignUp n) c ∧
        (∀ x ∈ xs, ¬Fits (alignUp n) x) ∧
        mem_alloc s.heap n =
          some (carve s.heap (start + span xs) (alignUp n), start + span xs + HEADER_SIZE) := by
  have hstart := hr.start_pos
  have hend := hr.end_lt
  unfold mem_alloc
  have hbase : s.heap.baseBlock ≠ 0 := by
    rw [hi.base]
    omega
  by_cases hzero : n = 0
  · exact Or.inl ⟨if_pos (Or.inl hzero), fun hne ↦ absurd hzero hne⟩
  · rw [if_neg (not_or.mpr ⟨hzero, hbase⟩)]
    have hcs : cs ≠ [] := by
      rintro rfl
      have hroom := hr.room
      rw [← hi.full] at hroom
      exact absurd hroom (by decide)
    have hlink : link start cs = s.heap.baseBlock := by
      obtain ⟨c, cs, rfl⟩ := List.exists_cons_of_ne_nil hcs
      exact hi.base.symm
    have hfuel : cs.length < s.heap.totalBytes + 1 := by
      rw [hi.total, ← hi.full]
      exact Nat.lt_succ_of_le (length_le_span cs)
    rcases allocFrom_spec (alignUp n) hi.chain hstart hfuel with ⟨hnone, hres⟩ | h
    · rw [← hlink]
      exact Or.inl ⟨hres, fun _ ↦ hnone⟩
    · obtain ⟨xs, c, ys, rfl, hbefore, hfit, hres⟩ := h
      rw [← hlink]
      refine Or.inr ⟨xs, c, ys, rfl, hfit, hbefore, hres.trans ?_⟩
      have hfull := hi.full
      simp only [span_append, span_cons] at hfull
      rw [u64_of_lt (by omega)]

/-- Carving a free cell for a live allocation keeps the invariant. -/
theorem Inv.carve (hr : Region start size) (hi : Inv start size s (xs ++ c :: ys)) {m : Nat}
    (hfit : Fits m c) (hm : ALIGNMENT ∣ m) :
    Inv start size ⟨FreeList.carve s.heap (start + span xs) m,
      (start + span xs + HEADER_SIZE) :: s.live⟩ (xs ++ carved c m ++ ys) := by
  have hstart := hr.start_pos
  have hend := hr.end_lt
  have hfull := hi.full
  have hsum : HEADER_SIZE + c.size ≤ size := by
    simp only [span_append, span_cons] at hfull
    omega
  have hcal : ALIGNMENT ∣ c.size := hi.aligned c (by simp)
  -- the bound that keeps `size + HEADER_SIZE + ALIGNMENT` from wrapping
  have hroom : m + HEADER_SIZE + ALIGNMENT < 2 ^ 64 := by
    have hle := hfit.2
    obtain ⟨k, hk⟩ := hr.start_aligned
    simp only [HEADER_SIZE, ALIGNMENT] at *
    omega
  obtain ⟨hchain, hbase, htotal⟩ :=
    hi.chain.carve hfit.2 hroom hstart (by rw [hfull]; exact hend)
  refine ⟨hbase.trans hi.base, htotal.trans hi.total, hchain, ?_, ?_, ?_, ?_⟩
  · rw [← hfull]
    simp only [span_append, span_carved, span_cons, span_nil]
    omega
  · intro d hd
    rcases List.mem_append.mp hd with hd | hd
    · rcases List.mem_append.mp hd with hd | hd
      · exact hi.aligned d (by simp [hd])
      · exact aligned_carved hm hcal d hd
    · exact hi.aligned d (by simp [hd])
  · exact coalesced_carved hi.coalesced hfit.1
  · have hsplit : lives start (xs ++ carved c m ++ ys) =
        lives start xs ++ (start + span xs + HEADER_SIZE) ::
          lives (start + span xs + HEADER_SIZE + c.size) ys := by
      rw [List.append_assoc, lives_append, lives_append, lives_carved, span_carved]
      simp [Nat.add_assoc]
    have hold : lives start (xs ++ c :: ys) =
        lives start xs ++ lives (start + span xs + HEADER_SIZE + c.size) ys := by
      rw [lives_append, lives_cons_free hfit.1]
    rw [hsplit]
    exact ((hi.live.trans (List.Perm.of_eq hold)).cons _).trans List.perm_middle.symm

theorem inv_alloc (hr : Region start size) (hi : Inv start size s cs) (n : Nat) :
    ∃ s' cs', step s (.alloc n) = some s' ∧ Inv start size s' cs' := by
  rcases mem_alloc_spec hr hi n with ⟨hnull, -⟩ | h
  · exact ⟨s, cs, by simp [step, hnull], hi⟩
  · obtain ⟨xs, c, ys, rfl, hfit, -, hres⟩ := h
    have hstart := hr.start_pos
    have hptr : start + span xs + HEADER_SIZE ≠ 0 := by omega
    refine ⟨⟨carve s.heap (start + span xs) (alignUp n),
        (start + span xs + HEADER_SIZE) :: s.live⟩, xs ++ carved c (alignUp n) ++ ys,
      by simp only [step, hres, Option.map_some, hptr, if_false], ?_⟩
    exact hi.carve hr hfit (alignUp_dvd n)

/-! ## Release -/

/-- Releasing a live block reshapes the cell list after its flag is cleared. -/
theorem mem_free_spec (hr : Region start size)
    (hi : Inv start size s (xs ++ c :: ys)) :
    ∃ cs', Chain (mem_free s.heap (start + span xs + HEADER_SIZE)).mem 0 start cs' ∧
      SameStatics s.heap (mem_free s.heap (start + span xs + HEADER_SIZE)) ∧
      Coalesced cs' ∧ Reshaped start (xs ++ ⟨c.size, true⟩ :: ys) cs' := by
  have hstart := hr.start_pos
  have hend := hr.end_lt
  have hfull := hi.full
  simp only [span_append, span_cons] at hfull
  have hb : sub64 (start + span xs + HEADER_SIZE) HEADER_SIZE = start + span xs := by
    rw [sub64_of_le (by omega) (by omega)]
    omega
  have hptr : start + span xs + HEADER_SIZE ≠ 0 := by omega
  unfold mem_free
  simp only [hptr, if_false, hb]
  obtain ⟨hxs, hcys, hseam⟩ := List.isChain_append.mp hi.coalesced
  have hys : Coalesced ys := (List.isChain_cons.mp hcys).2
  have hflag := hi.chain.setFree true
  have hflagEnd : start + span (xs ++ ({ c with free := true } : Cell) :: ys) < 2 ^ 64 := by
    simp only [span_append, span_cons]
    omega
  obtain ⟨hnext, hbase₁, htotal₁⟩ := hflag.mergeNext hstart hflagEnd
  obtain ⟨m, ys', hm, hmfree, hmco, hmre⟩ :=
    absorbNext_spec (a := start + span xs) (n := c.size) hys
  change Chain _ 0 start (xs ++ absorbNext ⟨c.size, true⟩ ys) at hnext
  rw [hm] at hnext
  have hre : Reshaped start (xs ++ ⟨c.size, true⟩ :: ys) (xs ++ m :: ys') :=
    hmre.append_left xs
  rcases List.eq_nil_or_concat xs with rfl | ⟨xs, d, rfl⟩
  · have hsame := hnext.mergePrev_nil
    simp only [span_nil, Nat.add_zero] at hsame hnext ⊢
    rw [hsame]
    exact ⟨m :: ys', hnext, ⟨hbase₁, htotal₁⟩, hmco, hre⟩
  · rw [List.concat_eq_append] at *
    have hnext' : Chain (FreeList.mergeNext (s.heap.setFree (start + span (xs ++ [d])) true)
        (start + span (xs ++ [d]))).mem 0 start (xs ++ d :: m :: ys') := by
      simpa using hnext
    cases hd : d.free with
    | false =>
        rw [hnext'.mergePrev_taken hd]
        refine ⟨xs ++ d :: m :: ys', hnext', ⟨hbase₁, htotal₁⟩, ?_, by simpa using hre⟩
        have hjoin : Coalesced ((xs ++ [d]) ++ m :: ys') :=
          List.isChain_append.mpr ⟨hxs, hmco, fun x hx _ _ ↦ Or.inl (by
            simp only [List.getLast?_append, List.getLast?_singleton, Option.some_or,
              Option.mem_some_iff] at hx
            rw [← hx, hd])⟩
        simpa using hjoin
    | true =>
        have hend' : start + span (xs ++ d :: m :: ys') < 2 ^ 64 := by
          have h := hre.span
          simp only [span_append, span_cons, span_nil] at h hfull ⊢
          omega
        obtain ⟨hprev, hbase₂, htotal₂⟩ := hnext'.mergePrev_free hd hstart hend'
        refine ⟨_, hprev, ⟨hbase₂.trans hbase₁, htotal₂.trans htotal₁⟩, ?_, ?_⟩
        · obtain ⟨hxs', -, hseam'⟩ := List.isChain_append.mp hxs
          obtain ⟨hmhead, hys'⟩ := List.isChain_cons.mp hmco
          refine List.isChain_append.mpr ⟨hxs', ?_, fun x hx y hy ↦ Or.inl ?_⟩
          · refine List.isChain_cons.mpr ⟨fun y hy ↦ Or.inr ?_, hys'⟩
            simpa [hmfree] using hmhead y hy
          · simpa [hd] using hseam' x hx d (by simp)
        · have hre' : Reshaped start (xs ++ [d] ++ ⟨c.size, true⟩ :: ys) (xs ++ d :: m :: ys') := by
            simpa using hre
          exact hre'.trans ((Reshaped.fuse hd hmfree ys').append_left xs)

theorem inv_free (hr : Region start size) (hi : Inv start size s cs) {ptr : Nat}
    (hptr : ptr = 0 ∨ ptr ∈ s.live) :
    ∃ s' cs', step s (.free ptr) = some s' ∧ Inv start size s' cs' := by
  have hstart := hr.start_pos
  rcases Nat.eq_zero_or_pos ptr with rfl | hpos
  · have hnot : 0 ∉ s.live := fun h0 ↦ by
      obtain ⟨xs, c, ys, -, -, h⟩ := exists_of_mem_lives (hi.live.subset h0)
      omega
    refine ⟨s, cs, ?_, hi⟩
    simp [step, mem_free, List.erase_of_not_mem hnot]
  · have hmem : ptr ∈ s.live := hptr.resolve_left (by omega)
    obtain ⟨xs, c, ys, rfl, hc, rfl⟩ := exists_of_mem_lives (hi.live.subset hmem)
    obtain ⟨cs', hchain, ⟨hbase, htotal⟩, hco, hre⟩ := mem_free_spec hr hi
    refine ⟨_, cs', rfl, hbase.trans hi.base, htotal.trans hi.total, hchain, ?_, ?_, hco, ?_⟩
    · rw [hre.span, ← hi.full]
      simp
    · refine hre.aligned fun d hd ↦ ?_
      rcases List.mem_append.mp hd with hd | hd
      · exact hi.aligned d (by simp [hd])
      · rcases List.mem_cons.mp hd with rfl | hd
        · exact hi.aligned c (by simp)
        · exact hi.aligned d (by simp [hd])
    · rw [hre.lives, lives_append, lives_cons_free rfl]
      have hold : lives start (xs ++ c :: ys) =
          lives start xs ++ (start + span xs + HEADER_SIZE) ::
            lives (start + span xs + HEADER_SIZE + c.size) ys := by
        rw [lives_append, lives_cons_taken hc]
      have hperm := ((hi.live.trans (List.Perm.of_eq hold)).trans List.perm_middle).erase
        (start + span xs + HEADER_SIZE)
      rwa [List.erase_cons_head] at hperm

/-- **The step lemma.**  Every call a correct client makes returns, and keeps the
heap invariant. -/
theorem inv_step (hr : Region start size) (hi : Inv start size s cs) {op : Op}
    (hv : Valid s op) : ∃ s' cs', step s op = some s' ∧ Inv start size s' cs' := by
  cases op with
  | alloc n => exact inv_alloc hr hi n
  | free ptr => exact inv_free hr hi hv

/-- Every state a correct client can reach satisfies the invariant. -/
theorem inv_reach (hr : Region start size) {mem : Nat → Block}
    (h : Reach step Valid (State.init mem start size) s) : ∃ cs, Inv start size s cs := by
  refine h.invariant (I := fun s ↦ ∃ cs, Inv start size s cs) ⟨_, inv_init hr mem⟩ ?_
  rintro t op u ⟨cs, hi⟩ hv hstep
  obtain ⟨s', cs', hs', hi'⟩ := inv_step hr hi hv
  rw [hstep, Option.some.injEq] at hs'
  exact ⟨cs', hs' ▸ hi'⟩

/-! ## The invariant in terms of the headers -/

/-- Following `next` from `b` visits the blocks `bs` and ends at `NULL`. -/
inductive Follows (mem : Nat → Block) : Nat → List Nat → Prop
  /-- `NULL` ends the walk. -/
  | nil : Follows mem 0 []
  /-- One block, then its successors. -/
  | cons {b : Nat} {bs : List Nat} (hb : b ≠ 0) (h : Follows mem (mem b).next bs) :
      Follows mem b (b :: bs)

/-- The addresses of the cells of a list that starts at `a`. -/
def addrs : Nat → List Cell → List Nat
  | _, [] => []
  | a, c :: cs => a :: addrs (a + HEADER_SIZE + c.size) cs

/-- The bytes and the number of the free cells. -/
def freeBytes (cs : List Cell) : Nat := ((cs.filter Cell.free).map Cell.size).sum

section Headers

variable {mem : Nat → Block}

theorem Chain.follows (hc : Chain mem p a cs) (ha : 0 < a) :
    Follows mem (link a cs) (addrs a cs) := by
  induction cs generalizing p a with
  | nil => exact .nil
  | cons c cs ih =>
      have hnext : (mem a).next = link (a + HEADER_SIZE + c.size) cs := by rw [hc.1]
      refine .cons (ne_of_gt ha) ?_
      rw [link_cons, hnext]
      exact ih hc.2 (by omega)

/-- The headers along the walk carry the cells. -/
theorem Chain.cells (hc : Chain mem p a cs) :
    (addrs a cs).map (fun b ↦ (⟨(mem b).size, (mem b).free⟩ : Cell)) = cs := by
  induction cs generalizing p a with
  | nil => rfl
  | cons c cs ih =>
      rw [addrs, List.map_cons, ih hc.2, hc.1]

theorem Chain.tiles (hc : Chain mem p a cs) :
    Tiles a (a + span cs) ((addrs a cs).map fun b ↦ (b, b + HEADER_SIZE + (mem b).size)) := by
  induction cs generalizing p a with
  | nil => rfl
  | cons c cs ih =>
      have hend : a + span (c :: cs) = a + HEADER_SIZE + c.size + span cs := by
        rw [span_cons]
        omega
      have hsize : (mem a).size = c.size := by rw [hc.1]
      have hle : a ≤ a + HEADER_SIZE + (mem a).size := by omega
      refine ⟨rfl, hle, ?_⟩
      simp only [hsize, hend]
      exact ih hc.2

/-- `next` leads forward. -/
theorem Chain.next_gt (hc : Chain mem p a cs) {b : Nat} (hb : b ∈ addrs a cs) :
    a ≤ b ∧ ((mem b).next = 0 ∨ b < (mem b).next) := by
  induction cs generalizing p a with
  | nil => cases hb
  | cons c cs ih =>
      rcases List.mem_cons.mp hb with rfl | hb
      · rw [hc.1]
        cases cs with
        | nil => exact ⟨le_rfl, Or.inl rfl⟩
        | cons d ds =>
            have hlt : b < b + HEADER_SIZE + c.size := by
              rw [HEADER_SIZE]
              omega
            exact ⟨le_rfl, Or.inr hlt⟩
      · obtain ⟨hle, hnext⟩ := ih hc.2 hb
        exact ⟨by omega, hnext⟩

/-- `prev` of the first block is `p`; `prev` of any other block is a block. -/
theorem Chain.prev_ge (hc : Chain mem p a cs) {b : Nat} (hb : b ∈ addrs a cs) :
    (b = a ∧ (mem b).prev = p) ∨ (a < b ∧ a ≤ (mem b).prev) := by
  induction cs generalizing p a with
  | nil => cases hb
  | cons c cs ih =>
      rcases List.mem_cons.mp hb with rfl | hb
      · exact Or.inl ⟨rfl, by rw [hc.1]⟩
      · have hpos : a < a + HEADER_SIZE + c.size := by
          rw [HEADER_SIZE]
          omega
        rcases ih hc.2 hb with ⟨rfl, hprev⟩ | ⟨hlt, hprev⟩
        · exact Or.inr ⟨hpos, hprev.ge⟩
        · exact Or.inr ⟨hpos.trans hlt, hpos.le.trans hprev⟩

/-- On the blocks of the walk, `prev` is the inverse of `next`. -/
theorem Chain.next_eq_iff (hc : Chain mem p a cs) (ha : 0 < a) (hp : p < a) {b d : Nat}
    (hb : b ∈ addrs a cs) (hd : d ∈ addrs a cs) : (mem b).next = d ↔ (mem d).prev = b := by
  induction cs generalizing p a with
  | nil => cases hb
  | cons c cs ih =>
      have hpos : a < a + HEADER_SIZE + c.size := by
        rw [HEADER_SIZE]
        omega
      rcases List.mem_cons.mp hb with rfl | hb' <;> rcases List.mem_cons.mp hd with rfl | hd'
      · have hnext := (hc.next_gt hb).2
        rw [hc.1] at hnext ⊢
        simp only at hnext ⊢
        omega
      · have hnext : (mem b).next = b + HEADER_SIZE + c.size := by
          rw [hc.1]
          cases cs with
          | nil => cases hd'
          | cons e es => rfl
        rw [hnext]
        rcases hc.2.prev_ge hd' with ⟨rfl, hprev⟩ | ⟨hlt, hprev⟩
        · exact iff_of_true rfl hprev
        · exact iff_of_false (by omega) (by omega)
      · obtain ⟨hle, hnext⟩ := hc.2.next_gt hb'
        have hprev : (mem d).prev = p := by rw [hc.1]
        rw [hprev]
        exact iff_of_false (by omega) (by omega)
      · exact ih hc.2 (by omega) hpos hb' hd'

/-- The cells in use and the live payloads, seen from the headers. -/
theorem Chain.mem_lives_iff (hc : Chain mem p a cs) {q : Nat} :
    q ∈ lives a cs ↔ ∃ b ∈ addrs a cs, (mem b).free = false ∧ q = b + HEADER_SIZE := by
  induction cs generalizing p a with
  | nil => simp [lives, addrs]
  | cons c cs ih =>
      have hhead : (mem a).free = c.free := by rw [hc.1]
      cases hfree : c.free <;> simp [addrs, hfree, hhead, ih hc.2]

/-- Payload addresses increase along the list. -/
theorem lives_pairwise (a : Nat) (cs : List Cell) :
    (lives a cs).Pairwise (· < ·) ∧ ∀ q ∈ lives a cs, a + HEADER_SIZE ≤ q := by
  induction cs generalizing a with
  | nil => simp [lives]
  | cons c cs ih =>
      obtain ⟨hsorted, hge⟩ := ih (a + HEADER_SIZE + c.size)
      have hge' : ∀ q ∈ lives (a + HEADER_SIZE + c.size) cs, a + HEADER_SIZE < q := fun q hq ↦ by
        have h := hge q hq
        rw [HEADER_SIZE] at *
        omega
      cases hfree : c.free with
      | true =>
          rw [lives_cons_free hfree]
          exact ⟨hsorted, fun q hq ↦ (hge' q hq).le⟩
      | false =>
          rw [lives_cons_taken hfree]
          refine ⟨List.Pairwise.cons hge' hsorted, fun q hq ↦ ?_⟩
          rcases List.mem_cons.mp hq with rfl | hq
          · exact le_rfl
          · exact (hge' q hq).le

/-- The free space is part of the extent. -/
theorem freeBytes_le (cs : List Cell) :
    freeBytes cs + (cs.filter Cell.free).length ≤ span cs := by
  induction cs with
  | nil => simp [freeBytes]
  | cons c cs ih =>
      unfold freeBytes at *
      cases hfree : c.free <;> simp [hfree, HEADER_SIZE] at ih ⊢ <;> omega

/-- The loop of `mem_status` adds up the free cells. -/
theorem statusFrom_spec {h : Heap} {fuel : Nat} (info : MemoryInfo)
    (hc : Chain h.mem p a cs) (ha : 0 < a) (hfuel : cs.length < fuel)
    (hfree : info.free + freeBytes cs < 2 ^ 64)
    (hfrag : info.fragments + (cs.filter Cell.free).length < 2 ^ 64) :
    statusFrom h fuel (link a cs) info = some { info with
      free := info.free + freeBytes cs
      fragments := info.fragments + (cs.filter Cell.free).length } := by
  induction cs generalizing p a fuel info with
  | nil =>
      obtain ⟨fuel, rfl⟩ := Nat.exists_eq_add_of_lt hfuel
      simp [statusFrom, freeBytes]
  | cons c cs ih =>
      obtain ⟨fuel, rfl⟩ : ∃ n, fuel = n + 1 := ⟨fuel - 1, by omega⟩
      obtain ⟨hhead, hrest⟩ := hc
      have hlen : cs.length < fuel := by simpa using hfuel
      have ha' : 0 < a + HEADER_SIZE + c.size := by omega
      rw [link_cons, statusFrom, if_neg (ne_of_gt ha), hhead]
      cases hflag : c.free with
      | false =>
          have hbytes : freeBytes (c :: cs) = freeBytes cs := by simp [freeBytes, hflag]
          have hcount : (c :: cs).filter Cell.free = cs.filter Cell.free := by simp [hflag]
          rw [hbytes] at hfree ⊢
          rw [hcount] at hfrag ⊢
          simpa using ih _ hrest ha' hlen hfree hfrag
      | true =>
          have hbytes : freeBytes (c :: cs) = c.size + freeBytes cs := by simp [freeBytes, hflag]
          have hcount : ((c :: cs).filter Cell.free).length = (cs.filter Cell.free).length + 1 := by
            simp [hflag]
          rw [hbytes] at hfree ⊢
          rw [hcount] at hfrag ⊢
          simp only [if_true]
          rw [u64_of_lt (by omega), u64_of_lt (by omega),
            ih _ hrest ha' hlen (by simp only; omega) (by simp only; omega)]
          simp only [Option.some.injEq, MemoryInfo.mk.injEq, true_and]
          omega

end Headers

/-- What holds of the blocks `bs` that `next` reaches from `baseBlock`. -/
structure HeapOK (start size : Nat) (s : State) (bs : List Nat) : Prop where
  /-- `bs` are the blocks reached from `baseBlock` through `next`. -/
  reached : Follows s.heap.mem s.heap.baseBlock bs
  /-- Header and payload of each block end where the next header begins. -/
  tiles : Tiles start (start + size)
    (bs.map fun b ↦ (b, b + HEADER_SIZE + (s.heap.mem b).size))
  /-- `prev` is the inverse of `next`, and the first block has no `prev`. -/
  links : ∀ b ∈ bs, ∀ d ∈ bs, (s.heap.mem b).next = d ↔ (s.heap.mem d).prev = b
  first : (s.heap.mem s.heap.baseBlock).prev = 0
  /-- Payload sizes are multiples of eight. -/
  aligned : ∀ b ∈ bs, 8 ∣ (s.heap.mem b).size
  /-- No two physically adjacent blocks are both free. -/
  coalesced : bs.IsChain fun b d ↦ ¬((s.heap.mem b).free = true ∧ (s.heap.mem d).free = true)
  /-- The blocks in use are exactly the live allocations. -/
  live : ∀ q, q ∈ s.live ↔ ∃ b ∈ bs, (s.heap.mem b).free = false ∧ q = b + HEADER_SIZE
  nodup : s.live.Nodup
  /-- `mem_status` adds up. -/
  status : ∃ info, mem_status s.heap = some info ∧ info.total = size ∧
    info.occupied + info.free = info.total ∧
    info.free = ((bs.filter fun b ↦ (s.heap.mem b).free).map fun b ↦ (s.heap.mem b).size).sum ∧
    info.fragments = (bs.filter fun b ↦ (s.heap.mem b).free).length
  /-- Every call of a correct client returns. -/
  returns : ∀ op, Valid s op → (step s op).isSome
  /-- With nothing live, the heap is the single free block `mem_init` made. -/
  drained : s.live = [] → ∀ mem : Nat → Block, bs = [start] ∧
    s.heap.baseBlock = (mem_init mem start size).baseBlock ∧
    s.heap.totalBytes = (mem_init mem start size).totalBytes ∧
    s.heap.mem start = (mem_init mem start size).mem start

theorem Inv.status (hr : Region start size) (hi : Inv start size s cs) :
    mem_status s.heap = some ⟨size, size - freeBytes cs, freeBytes cs,
      (cs.filter Cell.free).length⟩ := by
  have hend := hr.end_lt
  have hle := freeBytes_le cs
  have hlen := length_le_span cs
  rw [hi.full] at hle hlen
  have hfuel : cs.length < s.heap.totalBytes + 1 := by
    rw [hi.total]
    omega
  have hloop := statusFrom_spec ⟨s.heap.totalBytes, 0, 0, 0⟩ hi.chain hr.start_pos hfuel
    (by simp only; omega) (by simp only; omega)
  have hlink : link start cs = s.heap.baseBlock := by
    rw [hi.base]
    cases cs with
    | nil =>
        have hroom := hr.room
        rw [← hi.full] at hroom
        exact absurd hroom (by decide)
    | cons c cs => rfl
  rw [hlink] at hloop
  rw [mem_status, hloop]
  simp only [Option.map_some, Nat.zero_add, hi.total]
  rw [sub64_of_le (by omega) (by omega)]

/-- A coalesced list without cells in use is a single free cell. -/
theorem eq_singleton_of_lives_nil (hco : Coalesced cs) (hne : cs ≠ [])
    (h : lives a cs = []) : ∃ n, cs = [⟨n, true⟩] := by
  obtain ⟨c, cs, rfl⟩ := List.exists_cons_of_ne_nil hne
  have hc : c.free = true := by
    by_contra hc
    rw [lives_cons_taken (by simpa using hc)] at h
    cases h
  cases cs with
  | nil => exact ⟨c.size, by rw [← hc]⟩
  | cons d ds =>
      have hd : d.free = false := by simpa [hc] using (List.isChain_cons_cons.mp hco).1
      rw [lives_cons_free hc, lives_cons_taken hd] at h
      cases h

theorem Inv.drained (hr : Region start size) (hi : Inv start size s cs) (hlive : s.live = []) :
    cs = [⟨size - HEADER_SIZE, true⟩] := by
  have hnil : lives start cs = [] := List.nil_perm.mp (hlive ▸ hi.live)
  have hne : cs ≠ [] := by
    rintro rfl
    have hroom := hr.room
    rw [← hi.full] at hroom
    exact absurd hroom (by decide)
  obtain ⟨n, rfl⟩ := eq_singleton_of_lives_nil hi.coalesced hne hnil
  have hfull := hi.full
  rw [span_cons, span_nil, Nat.add_zero] at hfull
  have hn : n = size - HEADER_SIZE := by
    simp only at hfull
    omega
  rw [hn]

theorem Inv.heapOK (hr : Region start size) (hi : Inv start size s cs) :
    HeapOK start size s (addrs start cs) where
  reached := by
    have hlink : link start cs = s.heap.baseBlock := by
      rw [hi.base]
      cases cs with
      | nil =>
          have hroom := hr.room
          rw [← hi.full] at hroom
          exact absurd hroom (by decide)
      | cons c cs => rfl
    rw [← hlink]
    exact hi.chain.follows hr.start_pos
  tiles := by
    rw [← hi.full]
    exact hi.chain.tiles
  links b hb d hd := hi.chain.next_eq_iff hr.start_pos hr.start_pos hb hd
  first := by
    rw [hi.base]
    cases cs with
    | nil =>
        have hroom := hr.room
        rw [← hi.full] at hroom
        exact absurd hroom (by decide)
    | cons c cs => rw [hi.chain.1]
  aligned b hb := by
    refine hi.aligned ⟨(s.heap.mem b).size, (s.heap.mem b).free⟩ ?_
    rw [← hi.chain.cells]
    exact List.mem_map_of_mem hb
  coalesced := by
    have hco := hi.coalesced
    rw [← hi.chain.cells] at hco
    unfold Coalesced at hco
    rw [List.isChain_map] at hco
    refine hco.imp fun b d h ↦ ?_
    rcases h with h | h <;> simp at h <;> simp [h]
  live q := (hi.live.mem_iff).trans hi.chain.mem_lives_iff
  nodup := hi.live.nodup_iff.mpr ((lives_pairwise start cs).1.imp fun h ↦ ne_of_lt h)
  status := by
    have hle := freeBytes_le cs
    rw [hi.full] at hle
    refine ⟨_, hi.status hr, rfl, by simp only; omega, ?_, ?_⟩
    · conv_lhs => rw [← hi.chain.cells]
      simp [freeBytes, List.filter_map, Function.comp_def]
    · conv_lhs => rw [← hi.chain.cells]
      simp [List.filter_map, Function.comp_def]
  returns op hv := by
    obtain ⟨s', cs', hstep, -⟩ := inv_step hr hi hv
    rw [hstep]
    rfl
  drained hlive mem := by
    obtain rfl := hi.drained hr hlive
    have hinit := (inv_init hr mem).chain.1
    refine ⟨rfl, hi.base, hi.total, ?_⟩
    rw [hi.chain.1]
    exact hinit.symm

/-- **Heap invariant over whole runs.**  After `mem_init` on any region, and any
sequence of allocations of any 64-bit size and releases of `NULL` or of live
pointers, the block list is well formed. -/
theorem heap_invariant {start size : Nat} (hr : Region start size) {mem : Nat → Block}
    {s : State} (h : Reach step Valid (State.init mem start size) s) :
    ∃ bs, HeapOK start size s bs := by
  obtain ⟨cs, hi⟩ := inv_reach hr h
  exact ⟨_, hi.heapOK hr⟩

/-- The heap the kernel boots with, after one allocation and its release. -/
theorem heap_invariant_boot : ∃ s bs, s.live = [] ∧
    HeapOK MEM_HEAP_START MEM_HEAP_SIZE s bs := by
  have hr : Region MEM_HEAP_START MEM_HEAP_SIZE :=
    ⟨by decide, by decide, by decide, by decide, by decide⟩
  have h₁ : Reach step Valid
      (State.init (fun _ ↦ ⟨0, false, 0, 0⟩) MEM_HEAP_START MEM_HEAP_SIZE) _ :=
    .tail .refl (e := .alloc 100) (by decide : (100 : Nat) < 2 ^ 64) rfl
  have h₂ := h₁.tail (e := Op.free (MEM_HEAP_START + HEADER_SIZE))
    (Or.inr (List.mem_singleton.mpr rfl)) rfl
  obtain ⟨bs, hbs⟩ := heap_invariant hr h₂
  exact ⟨_, bs, rfl, hbs⟩

end BareBones.Memory.FreeList
