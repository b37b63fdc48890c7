import BareBones.Memory.FreeList
import Mathlib.Data.List.Basic
import Mathlib.Tactic.Ring

/-!
# The block list behind the free-list heap

The abstract view of the heap is a list of *cells*, a payload size and a free
flag each; the address of a cell is the base address plus the space its
predecessors take.  `Chain` says that the headers in memory represent such a
list: at the address of each cell stands a header with its size and flag,
whose `prev` and `next` are the addresses of its neighbours, `NULL` at the ends.
Tiling and the two link directions are therefore one statement.

`Chain.append` cuts the representation at any cell, and `Seg.congr`,
`Chain.congr` say that each half only reads the headers in its own range.  The
three operations of the manager are then one local edit each:
`Chain.carve`, `Chain.mergeNext` and `Chain.mergePrev`.
-/

namespace BareBones.Memory.FreeList

open BareBones.Lib

/-- A block seen abstractly. -/
structure Cell where
  size : Nat
  free : Bool
deriving DecidableEq, Repr

/-- The bytes a run of cells occupies, headers included. -/
def span : List Cell → Nat
  | [] => 0
  | c :: cs => HEADER_SIZE + c.size + span cs

@[simp] theorem span_nil : span [] = 0 := rfl

@[simp] theorem span_cons (c : Cell) (cs : List Cell) :
    span (c :: cs) = HEADER_SIZE + c.size + span cs := rfl

@[simp] theorem span_append (xs ys : List Cell) : span (xs ++ ys) = span xs + span ys := by
  induction xs with
  | nil => simp
  | cons c cs ih =>
      simp only [List.cons_append, span_cons, ih]
      omega

theorem length_le_span (cs : List Cell) : cs.length ≤ span cs := by
  induction cs with
  | nil => simp
  | cons c cs ih =>
      simp only [List.length_cons, span_cons, HEADER_SIZE]
      omega

/-- What `next` holds when the rest of the list starts at `a`. -/
def link (a : Nat) : List Cell → Nat
  | [] => 0
  | _ :: _ => a

@[simp] theorem link_nil (a : Nat) : link a [] = 0 := rfl

@[simp] theorem link_cons (a : Nat) (c : Cell) (cs : List Cell) : link a (c :: cs) = a := rfl

/-- The headers from address `a` on represent the cells, up to the end of the
list; `p` is the address of the preceding header. -/
def Chain (mem : Nat → Block) : Nat → Nat → List Cell → Prop
  | _, _, [] => True
  | p, a, c :: cs =>
      mem a = ⟨c.size, c.free, p, link (a + HEADER_SIZE + c.size) cs⟩ ∧
        Chain mem a (a + HEADER_SIZE + c.size) cs

/-- Like `Chain`, for cells that something follows. -/
def Seg (mem : Nat → Block) : Nat → Nat → List Cell → Prop
  | _, _, [] => True
  | p, a, c :: cs =>
      mem a = ⟨c.size, c.free, p, a + HEADER_SIZE + c.size⟩ ∧
        Seg mem a (a + HEADER_SIZE + c.size) cs

/-- The address of the last cell, or `p` if there is none. -/
def lastAddr : Nat → Nat → List Cell → Nat
  | p, _, [] => p
  | _, a, c :: cs => lastAddr a (a + HEADER_SIZE + c.size) cs

variable {mem mem' : Nat → Block} {p a : Nat} {xs ys : List Cell} {c d : Cell}

/-- A chain is cut at a cell into a segment and a shorter chain. -/
theorem Chain.append : Chain mem p a (xs ++ c :: ys) ↔
    Seg mem p a xs ∧ Chain mem (lastAddr p a xs) (a + span xs) (c :: ys) := by
  induction xs generalizing p a with
  | nil => exact ⟨fun h ↦ ⟨trivial, h⟩, fun h ↦ h.2⟩
  | cons x xs ih =>
      have hlink : link (a + HEADER_SIZE + x.size) (xs ++ c :: ys) = a + HEADER_SIZE + x.size := by
        cases xs <;> rfl
      have hspan : a + span (x :: xs) = a + HEADER_SIZE + x.size + span xs := by
        rw [span_cons]
        omega
      rw [List.cons_append, hspan]
      simp only [Chain, Seg, lastAddr, hlink, ih, and_assoc]

/-- A segment reads only the headers in its range. -/
theorem Seg.congr (h : Seg mem p a xs)
    (hag : ∀ x, a ≤ x → x < a + span xs → mem' x = mem x) : Seg mem' p a xs := by
  induction xs generalizing p a with
  | nil => trivial
  | cons c cs ih =>
      rw [span_cons, HEADER_SIZE] at hag
      refine ⟨(hag a le_rfl (by omega)).trans h.1, ih h.2 fun x hx hlt ↦ ?_⟩
      rw [HEADER_SIZE] at hx hlt
      exact hag x (by omega) (by omega)

/-- A chain reads only the headers in its range. -/
theorem Chain.congr (h : Chain mem p a xs)
    (hag : ∀ x, a ≤ x → x < a + span xs → mem' x = mem x) : Chain mem' p a xs := by
  induction xs generalizing p a with
  | nil => trivial
  | cons c cs ih =>
      rw [span_cons, HEADER_SIZE] at hag
      refine ⟨(hag a le_rfl (by omega)).trans h.1, ih h.2 fun x hx hlt ↦ ?_⟩
      rw [HEADER_SIZE] at hx hlt
      exact hag x (by omega) (by omega)

/-- Redirecting the first header's `prev` attaches the chain elsewhere. -/
theorem Chain.relink {q : Nat} (h : Chain mem p a xs)
    (hhead : ∀ c cs, xs = c :: cs → mem' a = { mem a with prev := q })
    (hag : ∀ x, a < x → x < a + span xs → mem' x = mem x) : Chain mem' q a xs := by
  cases xs with
  | nil => trivial
  | cons c cs =>
      rw [span_cons, HEADER_SIZE] at hag
      refine ⟨by rw [hhead c cs rfl, h.1], h.2.congr fun x hx hlt ↦ ?_⟩
      rw [HEADER_SIZE] at hx hlt
      exact hag x (by omega) (by omega)

/-! ## Writing headers -/

@[simp] theorem Heap.write_mem (h : Heap) (a : Nat) (b : Block) (x : Nat) :
    (h.write a b).mem x = if x = a then b else h.mem x := rfl

@[simp] theorem Heap.setSize_mem (h : Heap) (a : Nat) (n : Nat) (x : Nat) :
    (h.setSize a n).mem x = if x = a then { h.mem a with size := n } else h.mem x := rfl

@[simp] theorem Heap.setFree_mem (h : Heap) (a : Nat) (f : Bool) (x : Nat) :
    (h.setFree a f).mem x = if x = a then { h.mem a with free := f } else h.mem x := rfl

@[simp] theorem Heap.setPrev_mem (h : Heap) (a q : Nat) (x : Nat) :
    (h.setPrev a q).mem x = if x = a then { h.mem a with prev := q } else h.mem x := rfl

@[simp] theorem Heap.setNext_mem (h : Heap) (a n : Nat) (x : Nat) :
    (h.setNext a n).mem x = if x = a then { h.mem a with next := n } else h.mem x := rfl

/-- Two heaps agree on the statics of the manager. -/
def SameStatics (h h' : Heap) : Prop :=
  h'.baseBlock = h.baseBlock ∧ h'.totalBytes = h.totalBytes

/-- The flag write of `mem_free`. -/
theorem Chain.setFree {h : Heap} (hc : Chain h.mem p a (xs ++ c :: ys)) (f : Bool) :
    Chain (h.setFree (a + span xs) f).mem p a (xs ++ { c with free := f } :: ys) := by
  obtain ⟨hseg, hhead, hrest⟩ := Chain.append.mp hc
  refine Chain.append.mpr ⟨hseg.congr fun x _ hlt ↦ ?_, ?_, hrest.congr fun x hx _ ↦ ?_⟩
  · simp [ne_of_lt hlt]
  · simp [hhead]
  · have hne : x ≠ a + span xs := by
      rw [HEADER_SIZE] at hx
      omega
    simp [hne]

/-! ## Splitting -/

/-- What an allocation of `size` bytes turns a cell into. -/
def carved (c : Cell) (size : Nat) : List Cell :=
  if size + HEADER_SIZE + ALIGNMENT ≤ c.size then
    [⟨size, false⟩, ⟨c.size - size - HEADER_SIZE, true⟩]
  else [⟨c.size, false⟩]

theorem span_carved (c : Cell) (size : Nat) : span (carved c size) = span [c] := by
  unfold carved
  split
  · rename_i h
    simp only [HEADER_SIZE, ALIGNMENT] at h
    simp only [span_cons, span_nil, HEADER_SIZE]
    omega
  · simp

/-- `carve` replaces the cell it is called on by what the allocation leaves of
it.  The bounds say that no address computation wraps. -/
theorem Chain.carve {h : Heap} {size : Nat} (hc : Chain h.mem p a (xs ++ c :: ys))
    (hfit : size ≤ c.size) (hsize : size + HEADER_SIZE + ALIGNMENT < 2 ^ 64) (ha : 0 < a)
    (hend : a + span (xs ++ c :: ys) < 2 ^ 64) :
    Chain (FreeList.carve h (a + span xs) size).mem p a (xs ++ carved c size ++ ys) ∧
      SameStatics h (FreeList.carve h (a + span xs) size) := by
  obtain ⟨hseg, hhead, hrest⟩ := Chain.append.mp hc
  rw [span_append, span_cons] at hend
  simp only [HEADER_SIZE, ALIGNMENT] at hsize hhead hrest hend
  set b := a + span xs with hb
  unfold FreeList.carve carved
  simp only [hhead, HEADER_SIZE, ALIGNMENT, u64_of_lt hsize]
  by_cases hroom : size + 32 + 8 ≤ c.size
  · simp only [hroom, if_true]
    have hsplit : u64 (b + 32 + size) = b + 32 + size := u64_of_lt (by omega)
    have hrem : sub64 (sub64 c.size size) 32 = c.size - size - 32 := by
      rw [sub64_of_le hfit (by omega), sub64_of_le (by omega) (by omega)]
    have hlast : b + 32 + size + 32 + (c.size - size - 32) = b + 32 + c.size := by omega
    rw [hsplit, hrem, List.append_assoc]
    cases ys with
    | nil =>
        refine ⟨Chain.append (c := ⟨size, false⟩).mpr
          ⟨hseg.congr fun x _ hlt ↦ ?_, ?_, ?_, trivial⟩, rfl, rfl⟩
        · have h₁ : x ≠ b := by omega
          have h₂ : x ≠ b + 32 + size := by omega
          simp [h₁, h₂]
        · have h₁ : b ≠ b + 32 + size := by omega
          simp [hhead, ← hb, h₁, HEADER_SIZE]
        · have h₁ : b + 32 + size ≠ b := by omega
          rw [← hb, HEADER_SIZE]
          simp [h₁]
    | cons d ys =>
        have hnext : link (b + 32 + c.size) (d :: ys) ≠ 0 := by
          rw [link_cons]
          omega
        rw [if_pos hnext]
        simp only [link_cons]
        refine ⟨Chain.append (c := ⟨size, false⟩).mpr
          ⟨hseg.congr fun x _ hlt ↦ ?_, ?_, ?_, ?_⟩, rfl, rfl⟩
        · have h₁ : x ≠ b := by omega
          have h₂ : x ≠ b + 32 + size := by omega
          have h₃ : x ≠ b + 32 + c.size := by omega
          simp [h₁, h₂, h₃]
        · have h₁ : b ≠ b + 32 + size := by omega
          have h₂ : b ≠ b + 32 + c.size := by omega
          simp [hhead, h₁, h₂, HEADER_SIZE, ← hb]
        · have h₁ : b + 32 + size ≠ b := by omega
          have h₂ : size ≠ c.size := by omega
          rw [← hb, HEADER_SIZE]
          simp [h₁, h₂, hlast]
        · rw [← hb, HEADER_SIZE, hlast]
          refine hrest.relink (fun e es _ ↦ ?_) fun x hx _ ↦ ?_
          · have h₁ : b + 32 + c.size ≠ b := by omega
            have h₂ : c.size ≠ size := by omega
            simp [h₁, h₂]
          · have h₁ : x ≠ b := by omega
            have h₂ : x ≠ b + 32 + size := by omega
            have h₃ : x ≠ b + 32 + c.size := by omega
            simp [h₁, h₂, h₃]
  · simp only [hroom, if_false]
    rw [List.append_assoc]
    exact ⟨hc.setFree false, rfl, rfl⟩

/-! ## Merging -/

/-- What absorbing a free right neighbour turns a cell and its successors
into. -/
def absorbNext (c : Cell) : List Cell → List Cell
  | [] => [c]
  | d :: ys => if d.free then ⟨c.size + (HEADER_SIZE + d.size), c.free⟩ :: ys else c :: d :: ys

theorem Chain.mergeNext {h : Heap} (hc : Chain h.mem p a (xs ++ c :: ys)) (ha : 0 < a)
    (hend : a + span (xs ++ c :: ys) < 2 ^ 64) :
    Chain (FreeList.mergeNext h (a + span xs)).mem p a (xs ++ absorbNext c ys) ∧
      SameStatics h (FreeList.mergeNext h (a + span xs)) := by
  obtain ⟨hseg, hhead, hrest⟩ := Chain.append.mp hc
  rw [span_append, span_cons] at hend
  simp only [HEADER_SIZE] at hhead hrest hend
  set b := a + span xs with hb
  unfold FreeList.mergeNext
  cases ys with
  | nil => simpa [hhead, absorbNext] using ⟨hc, rfl, rfl⟩
  | cons d ys =>
      obtain ⟨hd, hrest⟩ := hrest
      simp only [span_cons, HEADER_SIZE] at hend
      simp only [HEADER_SIZE] at hd hrest
      rw [link_cons] at hhead
      have hne : b + 32 + c.size ≠ 0 := by omega
      have hbd : b + 32 + c.size ≠ b := by omega
      have hsum : u64 (c.size + (32 + d.size)) = c.size + (32 + d.size) := u64_of_lt (by omega)
      have hafter : b + 32 + (c.size + (32 + d.size)) = b + 32 + c.size + 32 + d.size := by omega
      by_cases hfree : d.free = true
      · simp only [hhead, hd, hfree, hne, ne_eq, not_false_eq_true, and_self, if_true,
          absorbNext, HEADER_SIZE, hsum, Heap.setSize_mem, Heap.setNext_mem, if_neg hbd]
        cases ys with
        | nil =>
            refine ⟨Chain.append.mpr ⟨hseg.congr fun x _ hlt ↦ ?_, ?_, trivial⟩, rfl, rfl⟩
            · have h₁ : x ≠ b := by omega
              simp [h₁]
            · simp [hhead, ← hb, HEADER_SIZE]
        | cons e ys =>
            have hne' : b + 32 + c.size + 32 + d.size ≠ 0 := by omega
            simp only [link_cons, hne', not_false_eq_true, if_true]
            refine ⟨Chain.append.mpr ⟨hseg.congr fun x _ hlt ↦ ?_, ?_, ?_⟩, rfl, rfl⟩
            · have h₁ : x ≠ b := by omega
              have h₂ : x ≠ b + 32 + c.size + 32 + d.size := by omega
              simp [h₁, h₂]
            · have h₁ : b ≠ b + 32 + c.size + 32 + d.size := by omega
              simp [hhead, ← hb, h₁, HEADER_SIZE, hafter]
            · rw [← hb, HEADER_SIZE, hafter]
              refine hrest.relink (fun f fs _ ↦ ?_) fun x hx _ ↦ ?_
              · have h₁ : b + 32 + c.size + 32 + d.size ≠ b := by omega
                simp [h₁]
              · have h₁ : x ≠ b := by omega
                have h₂ : x ≠ b + 32 + c.size + 32 + d.size := by omega
                simp [h₁, h₂]
      · simp only [hhead, hd, hfree, absorbNext, Bool.false_eq_true, and_false, if_false]
        exact ⟨hc, rfl, rfl⟩

/-- `mergePrev` at the first block of the heap does nothing. -/
theorem Chain.mergePrev_nil {h : Heap} (hc : Chain h.mem 0 a (c :: ys)) :
    FreeList.mergePrev h a = h := by
  have hprev : (h.mem a).prev = 0 := by rw [hc.1]
  simp [FreeList.mergePrev, hprev]

/-- `mergePrev` behind a block in use does nothing. -/
theorem Chain.mergePrev_taken {h : Heap} (hc : Chain h.mem p a (xs ++ d :: c :: ys))
    (hd : d.free = false) :
    FreeList.mergePrev h (a + span (xs ++ [d])) = h := by
  obtain ⟨-, hhead, hrest⟩ := Chain.append.mp hc
  have haddr : a + span (xs ++ [d]) = a + span xs + HEADER_SIZE + d.size := by
    simp only [span_append, span_cons, span_nil]
    omega
  have hprev : (h.mem (a + span xs + HEADER_SIZE + d.size)).prev = a + span xs := by rw [hrest.1]
  rw [haddr]
  simp only [FreeList.mergePrev, hprev, hhead, hd, Bool.false_eq_true, and_false, if_false]

/-- `mergePrev` behind a free block makes one block of the two. -/
theorem Chain.mergePrev_free {h : Heap} (hc : Chain h.mem p a (xs ++ d :: c :: ys))
    (hd : d.free = true) (ha : 0 < a) (hend : a + span (xs ++ d :: c :: ys) < 2 ^ 64) :
    Chain (FreeList.mergePrev h (a + span (xs ++ [d]))).mem p a
        (xs ++ ⟨d.size + (HEADER_SIZE + c.size), true⟩ :: ys) ∧
      SameStatics h (FreeList.mergePrev h (a + span (xs ++ [d]))) := by
  obtain ⟨hseg, hhead, hcell, hrest⟩ := Chain.append.mp hc
  simp only [span_append, span_cons, HEADER_SIZE] at hend
  simp only [HEADER_SIZE, link_cons] at hhead hcell hrest
  have haddr : a + span (xs ++ [d]) = a + span xs + 32 + d.size := by
    simp only [span_append, span_cons, span_nil, HEADER_SIZE]
    omega
  rw [haddr]
  set q := a + span xs with hq
  have hq0 : q ≠ 0 := by omega
  have hbq : q + 32 + d.size ≠ q := by omega
  have hsum : u64 (d.size + (32 + c.size)) = d.size + (32 + c.size) := u64_of_lt (by omega)
  have hafter : q + 32 + (d.size + (32 + c.size)) = q + 32 + d.size + 32 + c.size := by omega
  unfold FreeList.mergePrev
  simp only [hcell, hhead, hd, hq0, ne_eq, not_false_eq_true, and_self, if_true, HEADER_SIZE,
    hsum, Heap.setSize_mem, Heap.setNext_mem, if_neg hbq]
  cases ys with
  | nil =>
      refine ⟨Chain.append.mpr ⟨hseg.congr fun x _ hlt ↦ ?_, ?_, trivial⟩, rfl, rfl⟩
      · have h₁ : x ≠ q := by omega
        simp [h₁]
      · simp [hhead, hd, ← hq, HEADER_SIZE]
  | cons e ys =>
      have hne : q + 32 + d.size + 32 + c.size ≠ 0 := by omega
      simp only [link_cons, hne, not_false_eq_true, if_true]
      refine ⟨Chain.append.mpr ⟨hseg.congr fun x _ hlt ↦ ?_, ?_, ?_⟩, rfl, rfl⟩
      · have h₁ : x ≠ q := by omega
        have h₂ : x ≠ q + 32 + d.size + 32 + c.size := by omega
        simp [h₁, h₂]
      · have h₁ : q ≠ q + 32 + d.size + 32 + c.size := by omega
        simp [hhead, hd, ← hq, h₁, HEADER_SIZE, hafter]
      · rw [← hq, HEADER_SIZE, hafter]
        refine hrest.relink (fun f fs _ ↦ ?_) fun x hx _ ↦ ?_
        · have h₁ : q + 32 + d.size + 32 + c.size ≠ q := by omega
          simp [h₁]
        · have h₁ : x ≠ q := by omega
          have h₂ : x ≠ q + 32 + d.size + 32 + c.size := by omega
          simp [h₁, h₂]

end BareBones.Memory.FreeList
