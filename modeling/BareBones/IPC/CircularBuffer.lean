import Mathlib.Data.List.Basic
import Mathlib.Data.List.Range
import Mathlib.Algebra.Order.Group.Nat

/-!
# The circular buffer of a pipe

The model of `circularBuffer.c`.  `contents` reads the buffer as the list of bytes
it holds, oldest first; under `Wf`, a write appends to that list and a read takes
its head, which is all that the pipe needs to know.

`Trace` is a buffer with the bytes that it has accepted and given out since it was made:
however often the indices wrap around, the bytes come out in the order in which they went
in (`fifo_correct`).
-/

namespace BareBones.IPC

/-- `EOF`, the byte that reading an empty buffer returns. -/
def EOF : UInt8 := 0

/-- `circularBufferCDT` -/
structure CircularBuffer where
  data : Nat → UInt8
  maxSize : Nat
  readIdx : Nat
  writeIdx : Nat
  count : Nat

/-- `newBuffer`; the bytes allocated for it hold anything. -/
def newBuffer (data : Nat → UInt8) (maxSize : Nat) : CircularBuffer :=
  { data := data, maxSize := maxSize, readIdx := 0, writeIdx := 0, count := 0 }

/-- `bufferIsFull` -/
def bufferIsFull (cb : CircularBuffer) : Bool := cb.count = cb.maxSize

/-- `bufferHasData` -/
def bufferHasData (cb : CircularBuffer) : Bool := 0 < cb.count

/-- `bufferWrite`: the flag says whether the byte was written. -/
def bufferWrite (cb : CircularBuffer) (byteToWrite : UInt8) : CircularBuffer × Bool :=
  if bufferIsFull cb then (cb, false)
  else
    ({ cb with data := fun i ↦ if i = cb.writeIdx then byteToWrite else cb.data i
               writeIdx := (cb.writeIdx + 1) % cb.maxSize
               count := cb.count + 1 }, true)

/-- `bufferRead` -/
def bufferRead (cb : CircularBuffer) : CircularBuffer × UInt8 :=
  if !bufferHasData cb then (cb, EOF)
  else
    ({ cb with readIdx := (cb.readIdx + 1) % cb.maxSize, count := cb.count - 1 },
      cb.data cb.readIdx)

namespace CircularBuffer

/-- The bytes in the buffer, oldest first. -/
def contents (cb : CircularBuffer) : List UInt8 :=
  (List.range cb.count).map fun i ↦ cb.data ((cb.readIdx + i) % cb.maxSize)

/-- The indices are in range, and the write index is `count` places after the read
index. -/
structure Wf (cb : CircularBuffer) : Prop where
  pos : 0 < cb.maxSize
  read_lt : cb.readIdx < cb.maxSize
  write_eq : cb.writeIdx = (cb.readIdx + cb.count) % cb.maxSize
  count_le : cb.count ≤ cb.maxSize

variable {cb : CircularBuffer} {c : UInt8}

@[simp] theorem length_contents (cb : CircularBuffer) : cb.contents.length = cb.count := by
  simp [contents]

theorem contents_eq_nil : cb.contents = [] ↔ cb.count = 0 := by
  rw [← List.length_eq_zero_iff, length_contents]

theorem hasData_iff : bufferHasData cb = true ↔ 0 < cb.count := by simp [bufferHasData]

theorem isFull_iff : bufferIsFull cb = true ↔ cb.count = cb.maxSize := by simp [bufferIsFull]

theorem new_wf (data : Nat → UInt8) {maxSize : Nat} (h : 0 < maxSize) :
    (newBuffer data maxSize).Wf :=
  ⟨h, h, by simp [newBuffer], Nat.zero_le _⟩

/-- Places of the buffer less than `maxSize` apart are different. -/
theorem mod_ne {r i n m : Nat} (hi : i < n) (hn : n < m) : (r + i) % m ≠ (r + n) % m := by
  intro h
  have hzero := Nat.sub_mod_eq_zero_of_mod_eq h.symm
  have hsub : r + n - (r + i) = n - i := by omega
  rw [hsub, Nat.mod_eq_of_lt (by omega)] at hzero
  omega

/-- A write to a buffer that is not full appends the byte. -/
theorem Wf.write (h : cb.Wf) (hroom : cb.count < cb.maxSize) (c : UInt8) :
    ∃ cb', bufferWrite cb c = (cb', true) ∧ cb'.Wf ∧ cb'.contents = cb.contents ++ [c] ∧
      cb'.maxSize = cb.maxSize ∧ cb'.count = cb.count + 1 := by
  have hfull : ¬bufferIsFull cb = true := by
    rw [isFull_iff]
    omega
  refine ⟨_, if_neg hfull, ⟨h.pos, h.read_lt, ?_, hroom⟩, ?_, rfl, rfl⟩
  · simp only [h.write_eq, Nat.mod_add_mod]
    congr 1
  · simp only [contents, List.range_succ, List.map_append, List.map_cons, List.map_nil]
    congr 1
    · refine List.map_congr_left fun i hi ↦ ?_
      rw [h.write_eq, if_neg (mod_ne (List.mem_range.mp hi) hroom)]
    · rw [h.write_eq, if_pos rfl]

/-- A write to a full buffer is refused. -/
theorem write_full (hfull : cb.count = cb.maxSize) (c : UInt8) :
    bufferWrite cb c = (cb, false) := by
  rw [bufferWrite, if_pos (isFull_iff.mpr hfull)]

/-- A read takes the oldest byte. -/
theorem Wf.read (h : cb.Wf) (hdata : 0 < cb.count) :
    ∃ cb' c, bufferRead cb = (cb', c) ∧ cb'.Wf ∧ cb.contents = c :: cb'.contents ∧
      cb'.maxSize = cb.maxSize ∧ cb'.count + 1 = cb.count := by
  have hhas : ¬(!bufferHasData cb) = true := by simp [hasData_iff.mpr hdata]
  obtain ⟨n, hn⟩ := Nat.exists_eq_succ_of_ne_zero hdata.ne'
  have hle := h.count_le
  refine ⟨_, _, if_neg hhas, ⟨h.pos, Nat.mod_lt _ h.pos, ?_, ?_⟩, ?_, rfl, ?_⟩
  · simp only [h.write_eq, hn, Nat.mod_add_mod, Nat.succ_eq_add_one, Nat.add_sub_cancel]
    congr 1
    omega
  · simp only
    omega
  · simp only [contents, hn, Nat.succ_eq_add_one, Nat.add_sub_cancel, List.range_succ_eq_map,
      List.map_cons, List.map_map, Nat.add_zero, Nat.mod_eq_of_lt h.read_lt]
    congr 1
    refine List.map_congr_left fun i _ ↦ ?_
    simp only [Function.comp_apply, Nat.mod_add_mod]
    congr 2
    omega
  · simp only
    omega

/-! ## Runs -/

/-- A call. -/
inductive Op
  | write (byteToWrite : UInt8)
  | read

/-- A buffer with its history. -/
structure Trace where
  cb : CircularBuffer
  /-- The bytes that were written. -/
  accepted : List UInt8
  /-- The bytes that were read. -/
  taken : List UInt8

namespace Trace

/-- One call. -/
def step (t : Trace) : Op → Trace
  | .write byteToWrite =>
      let (cb, written) := bufferWrite t.cb byteToWrite
      { t with cb := cb, accepted := t.accepted ++ if written then [byteToWrite] else [] }
  | .read =>
      let (cb, readByte) := bufferRead t.cb
      { t with cb := cb, taken := t.taken ++ if bufferHasData t.cb then [readByte] else [] }

/-- A buffer that was just made. -/
def start (data : Nat → UInt8) (maxSize : Nat) : Trace := ⟨newBuffer data maxSize, [], []⟩

/-- The buffer is a queue of at most `maxSize` bytes. -/
structure Correct (maxSize : Nat) (t : Trace) : Prop where
  size : t.cb.maxSize = maxSize
  read_lt : t.cb.readIdx < maxSize
  write_lt : t.cb.writeIdx < maxSize
  write_eq : t.cb.writeIdx = (t.cb.readIdx + t.cb.count) % maxSize
  count_le : t.cb.count ≤ maxSize
  order : t.taken ++ t.cb.contents = t.accepted
  full : t.cb.count = maxSize → ∀ c, bufferWrite t.cb c = (t.cb, false)
  empty : t.cb.count = 0 → bufferRead t.cb = (t.cb, EOF)

/-- What every call keeps. -/
structure Inv (maxSize : Nat) (t : Trace) : Prop where
  size : t.cb.maxSize = maxSize
  wf : t.cb.Wf
  order : t.taken ++ t.cb.contents = t.accepted

variable {maxSize : Nat} {t : Trace}

theorem Inv.correct (h : Inv maxSize t) : Correct maxSize t := by
  obtain ⟨rfl, hwf, horder⟩ := h
  constructor
  · rfl
  · exact hwf.read_lt
  · rw [hwf.write_eq]
    exact Nat.mod_lt _ hwf.pos
  · exact hwf.write_eq
  · exact hwf.count_le
  · exact horder
  · exact write_full
  · intro hzero
    have hdata : bufferHasData t.cb = false := by simp [bufferHasData, hzero]
    rw [bufferRead, hdata]
    rfl

theorem Inv.step (h : Inv maxSize t) (op : Op) : Inv maxSize (t.step op) := by
  obtain ⟨rfl, hwf, horder⟩ := h
  cases op with
  | write c =>
      simp only [Trace.step]
      rcases hwf.count_le.lt_or_eq with hroom | hfull
      · obtain ⟨cb', hwrite, hwf', hcontents, hsize, -⟩ := hwf.write hroom c
        rw [hwrite]
        refine ⟨hsize, hwf', ?_⟩
        simp [hcontents, ← horder]
      · rw [write_full hfull]
        refine ⟨rfl, hwf, ?_⟩
        simp [horder]
  | read =>
      simp only [Trace.step]
      rcases Nat.eq_zero_or_pos t.cb.count with hzero | hpos
      · have hdata : bufferHasData t.cb = false := by simp [bufferHasData, hzero]
        rw [bufferRead, hdata]
        refine ⟨rfl, hwf, ?_⟩
        simp [horder]
      · obtain ⟨cb', c, hread, hwf', hcontents, hsize, -⟩ := hwf.read hpos
        rw [hread, hasData_iff.mpr hpos]
        refine ⟨hsize, hwf', ?_⟩
        simp [← horder, hcontents]

/-- **The circular buffer is a bounded queue**, in every sequence of calls. -/
theorem fifo_correct (data : Nat → UInt8) (hsize : 1 ≤ maxSize) (ops : List Op) :
    Correct maxSize (ops.foldl step (start data maxSize)) := by
  suffices hrun : ∀ t, Inv maxSize t → Inv maxSize (ops.foldl step t) from
    (hrun _ ⟨rfl, new_wf data hsize, rfl⟩).correct
  induction ops with
  | nil => exact fun _ h ↦ h
  | cons op ops ih => exact fun t h ↦ ih _ (h.step op)

/-- Two places, and a byte that has wrapped around; a third byte was refused. -/
theorem fifo_correct_wraps :
    ∃ t : Trace, (t.cb.readIdx = 1 ∧ t.cb.writeIdx = 1 ∧ t.taken ++ t.cb.contents = [7, 8, 9]) ∧
      Correct 2 t :=
  ⟨_, by decide, fifo_correct (fun _ ↦ 0) (by decide)
    [.write 7, .write 8, .write 5, .read, .write 9]⟩

end Trace

end CircularBuffer

end BareBones.IPC
