import BareBones.Memory.FreeListRun

/-!
# The contract of the free-list `mem_alloc`

What a caller of `mem_alloc(n)` may expect: `NULL` and an untouched heap when no
free block has room for `n` bytes, and otherwise the payload of the
lowest-addressed block that has, as a block in use of at least `n` bytes which
overlaps no other allocation.

`mem_alloc` compares the *rounded* size with the payloads.  Payloads are
multiples of eight, so rounding does not change which blocks fit, unless the
rounding itself wraps around: `alignUp` maps the last seven 64-bit sizes to `0`,
which fits every free block.  `alloc_contract` says that these requests, in
heaps that still have a free block, are the only ones that break the contract.
-/

namespace BareBones.Memory.FreeList

open BareBones.Lib

/-- The block at `b` is free and its payload holds `n` bytes. -/
def FitsAt (h : Heap) (n b : Nat) : Prop := (h.mem b).free = true ∧ n ≤ (h.mem b).size

/-- The request for `n` bytes was granted out of the block at `b`: `bs` are the
blocks before the call, `h` and `p` the heap and the pointer it returned. -/
structure Granted (s : State) (n : Nat) (bs : List Nat) (h : Heap) (p b : Nat) : Prop where
  mem : b ∈ bs
  fits : FitsAt s.heap n b
  /-- It is the first block that fits. -/
  lowest : ∀ d ∈ bs, FitsAt s.heap n d → b ≤ d
  payload : p = b + HEADER_SIZE
  aligned : 8 ∣ p
  /-- The block is now in use, in the block list, and spans the request. -/
  taken : ∃ bs', Follows h.mem h.baseBlock bs' ∧ b ∈ bs' ∧
    (h.mem b).free = false ∧ n ≤ (h.mem b).size
  /-- Its payload overlaps no payload of another live allocation. -/
  apart : ∀ q ∈ s.live, q + (h.mem (q - HEADER_SIZE)).size ≤ p ∨ p + (h.mem b).size ≤ q

/-- **The contract of `mem_alloc`** for a request of `n` bytes in state `s`. -/
def Contract (s : State) (n : Nat) : Prop :=
  ∃ bs h p, Follows s.heap.mem s.heap.baseBlock bs ∧ mem_alloc s.heap n = some (h, p) ∧
    ((p = 0 ∧ h = s.heap) ↔ ∀ b ∈ bs, ¬FitsAt s.heap n b) ∧
    ((∃ b ∈ bs, FitsAt s.heap n b) → ∃ b, Granted s n bs h p b)

/-- No block of the heap is free. -/
def AllTaken (s : State) : Prop :=
  ∃ bs, Follows s.heap.mem s.heap.baseBlock bs ∧ ∀ b ∈ bs, (s.heap.mem b).free = false

/-! ## Rounding -/

/-- Rounding up does nothing to the order between a request and a payload, as
long as it does not wrap. -/
theorem alignUp_le_iff {n m : Nat} (hn : n ≤ 2 ^ 64 - ALIGNMENT) (hm : ALIGNMENT ∣ m) :
    alignUp n ≤ m ↔ n ≤ m := by
  obtain ⟨k, rfl⟩ := hm
  rw [alignUp_eq]
  simp only [ALIGNMENT] at hn ⊢
  rw [u64_of_lt (by omega)]
  omega

/-- The last seven sizes round to nothing. -/
theorem alignUp_wraps {n : Nat} (hn : 2 ^ 64 - ALIGNMENT < n) (hlt : n < 2 ^ 64) :
    alignUp n = 0 := by
  rw [alignUp_eq]
  unfold u64
  simp only [ALIGNMENT] at hn
  omega

/-- Aligned cells take up an aligned stretch of the heap. -/
theorem dvd_span {cs : List Cell} (hal : Aligned cs) : ALIGNMENT ∣ span cs := by
  induction cs with
  | nil => exact Nat.dvd_zero _
  | cons c cs ih =>
      have hhead : ALIGNMENT ∣ c.size := hal c List.mem_cons_self
      have htail := ih fun d hd ↦ hal d (List.mem_cons_of_mem _ hd)
      exact Nat.dvd_add (Nat.dvd_add (by decide) hhead) htail

/-! ## Blocks and cells -/

section Headers

variable {mem : Nat → Block} {a p : Nat} {xs ys cs : List Cell} {c : Cell} {b : Nat}

theorem addrs_append (a : Nat) (xs ys : List Cell) :
    addrs a (xs ++ ys) = addrs a xs ++ addrs (a + span xs) ys := by
  induction xs generalizing a with
  | nil => rfl
  | cons x xs ih =>
      have hspan : a + span (x :: xs) = a + HEADER_SIZE + x.size + span xs := by
        rw [span_cons]
        omega
      rw [List.cons_append, addrs, addrs, ih, hspan, List.cons_append]

@[simp] theorem length_addrs (a : Nat) (cs : List Cell) : (addrs a cs).length = cs.length := by
  induction cs generalizing a with
  | nil => rfl
  | cons c cs ih => simp [addrs, ih]

/-- The walk over the blocks is determined by the headers. -/
theorem Follows.unique {bs bs' : List Nat} (h : Follows mem b bs) (h' : Follows mem b bs') :
    bs = bs' := by
  induction h generalizing bs' with
  | nil =>
      cases h' with
      | nil => rfl
      | cons hb _ => exact absurd rfl hb
  | cons hb _ ih =>
      cases h' with
      | nil => exact absurd rfl hb
      | cons _ h' => rw [ih h']

/-- The header at the place of a cell carries that cell. -/
theorem Chain.header (hc : Chain mem p a (xs ++ c :: ys)) :
    (mem (a + span xs)).size = c.size ∧ (mem (a + span xs)).free = c.free := by
  obtain ⟨-, hhead, -⟩ := Chain.append.mp hc
  rw [hhead]
  exact ⟨rfl, rfl⟩

/-- A block of the walk is in the list of cells. -/
theorem Chain.cell_mem (hc : Chain mem p a cs) (hb : b ∈ addrs a cs) :
    (⟨(mem b).size, (mem b).free⟩ : Cell) ∈ cs := by
  have hmem := List.mem_map_of_mem (f := fun b ↦ (⟨(mem b).size, (mem b).free⟩ : Cell)) hb
  rwa [hc.cells] at hmem

/-- A block of the walk is one of the cells before a given one, or stands no
lower than that one. -/
theorem Chain.before_or_ge (hc : Chain mem p a (xs ++ c :: ys))
    (hb : b ∈ addrs a (xs ++ c :: ys)) :
    (⟨(mem b).size, (mem b).free⟩ : Cell) ∈ xs ∨ a + span xs ≤ b := by
  have hcells := hc.cells
  rw [addrs_append, List.map_append] at hcells
  have hleft := (List.append_inj hcells (by simp)).1
  rw [addrs_append] at hb
  rcases List.mem_append.mp hb with hb | hb
  · refine Or.inl ?_
    rw [← hleft]
    exact List.mem_map_of_mem hb
  · obtain ⟨-, hright⟩ := Chain.append.mp hc
    exact Or.inr (hright.next_gt hb).1

theorem mem_addrs_self (a : Nat) (xs : List Cell) (c : Cell) (ys : List Cell) :
    a + span xs ∈ addrs a (xs ++ c :: ys) := by
  rw [addrs_append]
  exact List.mem_append_right _ List.mem_cons_self

end Headers

/-! ## The contract -/

section Contract

variable {start size n : Nat} {s : State} {cs : List Cell}

theorem Inv.follows (hr : Region start size) (hi : Inv start size s cs) :
    Follows s.heap.mem s.heap.baseBlock (addrs start cs) := (hi.heapOK hr).reached

/-- A block that fits is a cell that fits, for every request that rounds. -/
theorem Inv.fits_iff (hi : Inv start size s cs) (hn : n ≤ 2 ^ 64 - ALIGNMENT) {b : Nat}
    (hb : b ∈ addrs start cs) :
    FitsAt s.heap n b ↔ Fits (alignUp n) ⟨(s.heap.mem b).size, (s.heap.mem b).free⟩ :=
  and_congr Iff.rfl (alignUp_le_iff hn (hi.aligned _ (hi.chain.cell_mem hb))).symm

/-- Two live payloads do not overlap. -/
theorem Inv.apart (hr : Region start size) (hi : Inv start size s cs) {p q : Nat}
    (hp : p ∈ s.live) (hq : q ∈ s.live) (hne : q ≠ p) :
    q + (s.heap.mem (q - HEADER_SIZE)).size ≤ p ∨
      p + (s.heap.mem (p - HEADER_SIZE)).size ≤ q := by
  have hok := hi.heapOK hr
  obtain ⟨b, hb, -, rfl⟩ := (hok.live p).mp hp
  obtain ⟨d, hd, -, rfl⟩ := (hok.live q).mp hq
  simp only [Nat.add_sub_cancel]
  have hends := hok.tiles.disjoint (List.mem_map_of_mem hd) (List.mem_map_of_mem hb)
    (fun heq ↦ hne (congrArg (· + HEADER_SIZE) (Prod.mk.inj heq).1))
  simp only at hends
  omega

/-- **A request that rounds is granted out of the first block that fits.** -/
theorem granted_of_fits (hr : Region start size) {xs ys : List Cell} {c : Cell}
    (hi : Inv start size s (xs ++ c :: ys)) (hn : n ≤ 2 ^ 64 - ALIGNMENT)
    (hfit : Fits (alignUp n) c) (hbefore : ∀ x ∈ xs, ¬Fits (alignUp n) x) :
    Granted s n (addrs start (xs ++ c :: ys))
      (carve s.heap (start + span xs) (alignUp n)) (start + span xs + HEADER_SIZE)
      (start + span xs) := by
  have hcarve := hi.carve hr hfit (alignUp_dvd n)
  have hmem := mem_addrs_self start xs c ys
  obtain ⟨hsize, hfree⟩ := hi.chain.header
  have hcell : (⟨(s.heap.mem (start + span xs)).size, (s.heap.mem (start + span xs)).free⟩ : Cell)
      = c := by rw [hsize, hfree]
  -- the first cell of the carving is the block that was handed out
  obtain ⟨d, ds, hd, hroom, hused⟩ : ∃ d ds, carved c (alignUp n) = d :: ds ∧
      alignUp n ≤ d.size ∧ d.free = false := by
    unfold carved
    split
    · exact ⟨_, _, rfl, le_rfl, rfl⟩
    · exact ⟨_, _, rfl, hfit.2, rfl⟩
  rw [hd, List.append_assoc, List.cons_append] at hcarve
  obtain ⟨hsize', hfree'⟩ := hcarve.chain.header
  have hround : n ≤ d.size := by
    have hal : ALIGNMENT ∣ d.size := hcarve.aligned d (by simp)
    exact (alignUp_le_iff hn hal).mp hroom
  refine ⟨hmem, ?_, ?_, rfl, ?_, ?_, ?_⟩
  · rw [hi.fits_iff hn hmem, hcell]
    exact hfit
  · intro b hb hfits
    rcases hi.chain.before_or_ge hb with hxs | hge
    · exact absurd ((hi.fits_iff hn hb).mp hfits) (hbefore _ hxs)
    · exact hge
  · have hspan : ALIGNMENT ∣ span xs := dvd_span fun x hx ↦ hi.aligned x (by simp [hx])
    exact Nat.dvd_add (Nat.dvd_add hr.start_aligned hspan) (by decide)
  · refine ⟨_, hcarve.follows hr, mem_addrs_self start xs d (ds ++ ys), ?_, ?_⟩
    · exact hfree'.trans hused
    · exact hsize' ▸ hround
  · intro q hq
    have hnodup := (hcarve.heapOK hr).nodup
    have hne : q ≠ start + span xs + HEADER_SIZE := fun heq ↦
      (List.nodup_cons.mp hnodup).1 (heq ▸ hq)
    have hapart := hcarve.apart hr List.mem_cons_self (List.mem_cons_of_mem _ hq) hne
    rwa [Nat.add_sub_cancel] at hapart

/-- A request that rounds meets the contract. -/
theorem Inv.contract (hr : Region start size) (hi : Inv start size s cs) (hpos : 1 ≤ n)
    (hn : n ≤ 2 ^ 64 - ALIGNMENT) : Contract s n := by
  rcases mem_alloc_spec hr hi n with ⟨hnull, hnone⟩ | h
  · have hno : ∀ b ∈ addrs start cs, ¬FitsAt s.heap n b := fun b hb hfits ↦
      hnone (by omega) _ (hi.chain.cell_mem hb) ((hi.fits_iff hn hb).mp hfits)
    refine ⟨_, _, _, hi.follows hr, hnull, iff_of_true ⟨rfl, rfl⟩ hno, ?_⟩
    rintro ⟨b, hb, hfits⟩
    exact absurd hfits (hno b hb)
  · obtain ⟨xs, c, ys, rfl, hfit, hbefore, hres⟩ := h
    have hgrant := granted_of_fits hr hi hn hfit hbefore
    have hstart := hr.start_pos
    refine ⟨_, _, _, hi.follows hr, hres, iff_of_false ?_ ?_, fun _ ↦ ⟨_, hgrant⟩⟩
    · rintro ⟨hzero, -⟩
      omega
    · exact fun hno ↦ hno _ hgrant.mem hgrant.fits

/-- With no free block left, every request meets the contract: it fails. -/
theorem Inv.contract_of_allTaken (hr : Region start size) (hi : Inv start size s cs)
    (hall : ∀ b ∈ addrs start cs, (s.heap.mem b).free = false) : Contract s n := by
  have hno : ∀ b ∈ addrs start cs, ¬FitsAt s.heap n b := fun b hb hfits ↦ by
    rw [FitsAt, hall b hb] at hfits
    exact absurd hfits.1 (by decide)
  rcases mem_alloc_spec hr hi n with ⟨hnull, -⟩ | h
  · refine ⟨_, _, _, hi.follows hr, hnull, iff_of_true ⟨rfl, rfl⟩ hno, ?_⟩
    rintro ⟨b, hb, hfits⟩
    exact absurd hfits (hno b hb)
  · obtain ⟨xs, c, ys, rfl, hfit, -, -⟩ := h
    have hused := hall _ (mem_addrs_self start xs c ys)
    rw [hi.chain.header.2, hfit.1] at hused
    exact absurd hused (by decide)

/-- A request whose rounding wraps takes the first free block, whatever its
size. -/
theorem Inv.not_contract (hr : Region start size) (hi : Inv start size s cs) {b : Nat}
    (hb : b ∈ addrs start cs) (hfree : (s.heap.mem b).free = true)
    (hn : 2 ^ 64 - ALIGNMENT < n) (hlt : n < 2 ^ 64) : ¬Contract s n := by
  rintro ⟨bs, h, p, hbs, hres, hiff, -⟩
  rw [hbs.unique (hi.follows hr)] at hiff
  have hend := hr.end_lt
  have hroom := hr.room
  have hstart := hr.start_pos
  -- no payload holds that many bytes, so the contract asks for `NULL`
  have hno : ∀ d ∈ addrs start cs, ¬FitsAt s.heap n d := fun d hd hfits ↦ by
    have htile := (hi.heapOK hr).tiles.bounds (List.mem_map_of_mem hd)
    have hle := hfits.2
    simp only [ALIGNMENT, HEADER_SIZE] at *
    omega
  obtain ⟨hnull, -⟩ := hiff.mpr hno
  rcases mem_alloc_spec hr hi n with ⟨-, hnone⟩ | hsome
  · refine hnone (by omega) _ (hi.chain.cell_mem hb) ⟨hfree, ?_⟩
    rw [alignUp_wraps hn hlt]
    exact Nat.zero_le _
  · obtain ⟨xs, c, ys, -, -, -, hres'⟩ := hsome
    rw [hres', Option.some.injEq, Prod.mk.injEq] at hres
    omega

/-- **`mem_alloc` meets its contract for exactly the sizes that round.**  In
every heap a correct client can reach, a request meets the contract if and only
if rounding it up to the alignment does not wrap around `2 ^ 64`, or no block of
the heap is free. -/
theorem alloc_contract (hr : Region start size) {mem : Nat → Block}
    (h : Reach step Valid (State.init mem start size) s) (hpos : 1 ≤ n) (hlt : n < 2 ^ 64) :
    Contract s n ↔ n ≤ 2 ^ 64 - ALIGNMENT ∨ AllTaken s := by
  obtain ⟨cs, hi⟩ := inv_reach hr h
  constructor
  · intro hcontract
    by_contra hno
    obtain ⟨hn, hall⟩ := not_or.mp hno
    have hall' : ¬∀ b ∈ addrs start cs, (s.heap.mem b).free = false := fun hall' ↦
      hall ⟨_, hi.follows hr, hall'⟩
    push Not at hall'
    obtain ⟨b, hb, hfree⟩ := hall'
    exact hi.not_contract hr hb (by simpa using hfree) (by omega) hlt hcontract
  · rintro (hn | ⟨bs, hbs, hall⟩)
    · exact hi.contract hr hpos hn
    · obtain rfl := hbs.unique (hi.follows hr)
      exact hi.contract_of_allTaken hr hall

/-- The heap the kernel boots with grants a hundred bytes. -/
theorem alloc_contract_boot :
    Contract (State.init (fun _ ↦ ⟨0, false, 0, 0⟩) MEM_HEAP_START MEM_HEAP_SIZE) 100 :=
  (alloc_contract ⟨by decide, by decide, by decide, by decide, by decide⟩ .refl (by decide)
    (by decide)).mpr (Or.inl (by decide))

/-- A request for `2 ^ 64 - 1` bytes at boot is not refused. -/
theorem wrapped_request : ∃ s, Reach step Valid
    (State.init (fun _ ↦ ⟨0, false, 0, 0⟩) MEM_HEAP_START MEM_HEAP_SIZE) s ∧
      ¬Contract s (2 ^ 64 - 1) := by
  have hr : Region MEM_HEAP_START MEM_HEAP_SIZE :=
    ⟨by decide, by decide, by decide, by decide, by decide⟩
  exact ⟨_, .refl, (inv_init hr _).not_contract hr List.mem_cons_self rfl (by decide) (by decide)⟩

end Contract

end BareBones.Memory.FreeList
