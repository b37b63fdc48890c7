import BareBones.IPC.FileAccess
import BareBones.IPC.PipeFlow

/-!
# Reads through a descriptor

The model of `readFd`, by which a process reads from a pipe.  The drivers wake a reader by writing
a NUL, so `readFd` takes the NULs out of what it has read, and reads again if nothing is left.
A descriptor can also be asked to report the end of file once, by Ctrl+D: `readFd` looks for such
a request before it reads, and each time that it has read nothing but NULs.

The process is the only one that reads from the pipe, and does so through this descriptor; the
others write, and requests come at any time.  The processor is only taken from the reader where it
waits for data, and what follows when it goes on is the rest of its `readFd`.

`readFd_correct` says that **nothing is lost but the NULs**, and that **a read reports the end of
file exactly if it uses up a request, or if there is nothing left and there are no writers**.
-/

namespace BareBones.IPC

open BareBones.Lib BareBones.Process BareBones.Semaphores

/-- `FILE_NONBLOCK` -/
def FILE_NONBLOCK : UInt8 := 0x04

/-- `hasFlag`, on the flags of what a descriptor refers to -/
def hasFlag (fa : Option UInt8) (f : UInt8) : Bool := fa.any fun flags ↦ flags &&& f ≠ 0

/-- `isReadable` -/
def isReadable (fa : Option UInt8) : Bool := hasFlag fa FILE_READ

/-- `isNonblocking` -/
def isNonblocking (fa : Option UInt8) : Bool := hasFlag fa FILE_NONBLOCK

/-- The loop of `readFd` that moves what is not NUL to the front of the buffer, with how many
rounds it has still to go. -/
def compact : (rounds i out : Nat) → List UInt8 → List UInt8 × Nat
  | 0, _, out, buf => (buf, out)
  | rounds + 1, i, out, buf =>
      if buf.getD i 0 ≠ 0 then compact rounds (i + 1) (out + 1) (buf.set out (buf.getD i 0))
      else compact rounds (i + 1) out buf

/-- What is left of a text without its NULs. -/
def strip (bytes : List UInt8) : List UInt8 := bytes.filter (· ≠ 0)

@[simp] theorem strip_nil : strip [] = [] := rfl

@[simp] theorem strip_append (xs ys : List UInt8) : strip (xs ++ ys) = strip xs ++ strip ys :=
  List.filter_append xs ys

theorem zero_notMem_strip (bytes : List UInt8) : 0 ∉ strip bytes := by
  intro hmem
  simpa using (List.mem_filter.1 hmem).2

/-- The part of the buffer that has been looked at is compacted, the rest is as it was. -/
theorem compact_take (rounds : Nat) {i out : Nat} {buf : List UInt8} (hout : out ≤ i)
    (hlen : i + rounds = buf.length) :
    (compact rounds i out buf).2 = out + (strip (buf.drop i)).length ∧
      (compact rounds i out buf).1.take (compact rounds i out buf).2 =
        buf.take out ++ strip (buf.drop i) := by
  induction rounds generalizing i out buf with
  | zero =>
      have hdrop : buf.drop i = [] := List.drop_eq_nil_of_le (by omega)
      simp [compact, hdrop]
  | succ rounds ih =>
      have hi : i < buf.length := by omega
      have hget : buf.getD i 0 = buf[i] := by
        rw [List.getD_eq_getElem?_getD, List.getElem?_eq_getElem hi, Option.getD_some]
      rw [compact, List.drop_eq_getElem_cons hi, hget]
      by_cases hnul : buf[i] = 0
      · have hstrip : strip (buf[i] :: buf.drop (i + 1)) = strip (buf.drop (i + 1)) := by
          rw [strip, List.filter_cons_of_neg (by simp [hnul])]
          rfl
        rw [if_neg (not_not.2 hnul), hstrip]
        exact ih (by omega) (by omega)
      · have hstrip : strip (buf[i] :: buf.drop (i + 1)) = buf[i] :: strip (buf.drop (i + 1)) :=
          List.filter_cons_of_pos (by simp [hnul])
        have htake : (buf.set out buf[i]).take (out + 1) = buf.take out ++ [buf[i]] := by
          rw [List.take_add_one, List.take_set_of_le (Nat.le_refl out),
            List.getElem?_set_self (by omega)]
          rfl
        have hdrop : (buf.set out buf[i]).drop (i + 1) = buf.drop (i + 1) :=
          List.drop_set_of_lt (by omega)
        have hround : out + 1 ≤ i + 1 := by omega
        have hrest : i + 1 + rounds = (buf.set out buf[i]).length := by
          rw [List.length_set]
          omega
        obtain ⟨hout', htake'⟩ := ih hround hrest
        rw [if_pos hnul, hstrip, htake', hout', htake, hdrop]
        refine ⟨?_, ?_⟩
        · rw [List.length_cons]
          omega
        · rw [List.append_assoc]
          rfl

/-- **Compaction strips the NULs.** -/
theorem compact_eq (buf : List UInt8) :
    (compact buf.length 0 0 buf).2 = (strip buf).length ∧
      (compact buf.length 0 0 buf).1.take (compact buf.length 0 0 buf).2 = strip buf := by
  obtain ⟨hout, htake⟩ := compact_take buf.length (Nat.le_refl 0) (Nat.zero_add buf.length)
  exact ⟨hout.trans (Nat.zero_add _), htake⟩

/-- A call of `readFd` that has returned. -/
structure FdRead where
  count : Nat
  result : Int
  /-- The first `result` bytes of the caller's buffer. -/
  bytes : List UInt8
deriving DecidableEq, Repr

/-- A pipe and the descriptor through which it is read. -/
structure FdReader where
  pipe : Mixed
  /-- The flags of `fdTable[fd]`, if the descriptor is open. -/
  fd : Option UInt8
  /-- `eofRequests[fd]` -/
  eofRequest : Bool
  /-- The calls of `readFd` that have returned. -/
  returned : List FdRead

namespace FdReader

/-- The pipe, without the modes of its callers. -/
abbrev sys (x : FdReader) : Sys := x.pipe.sys

/-- The pipe changes. -/
def setSys (x : FdReader) (s : Sys) : FdReader := { x with pipe := { x.pipe with sys := s } }

/-- A call of `readFd` returns. -/
def returns (x : FdReader) (count : Nat) (result : Int) (bytes : List UInt8) : FdReader :=
  { x with returned := x.returned ++ [⟨count, result, bytes⟩] }

/-- What the last read of the pipe has put into the buffer of its caller. -/
def readBytes (s : Sys) : List UInt8 := (s.results.getLast?).elim [] (·.bytes)

/-- What `pipeRead` has returned in blocking mode, unless its caller waits. -/
def blockingResult (s : Sys) : Option (Int × List UInt8) :=
  if s.inUser then some ((readBytes s).length, readBytes s) else none

/-- What `pipeRead` has returned in nonblocking mode. -/
def nonblockingResult (r : Sys × Option Int) : Option (Int × List UInt8) :=
  r.2.map fun n ↦ (n, readBytes r.1)

/-- `fileRead`, with what it returns unless it waits -/
def fileRead (x : FdReader) (count : Nat) : Option (FdReader × Option (Int × List UInt8)) :=
  if !isReadable x.fd then some (x, some (-1, []))
  else if isNonblocking x.fd then
    let r := Sys.Nonblocking.pipeRead x.sys count
    some ({ x with pipe := x.pipe.setMode true }.setSys r.1, nonblockingResult r)
  else (Sys.pipeRead x.sys count).map fun s ↦
    ({ x with pipe := x.pipe.setMode false }.setSys s, blockingResult s)

/-- The rest of `fileRead` after a wait.  In nonblocking mode it does not wait for data. -/
def continueRead (x : FdReader) : Cont → Option (FdReader × Option (Int × List UInt8))
  | .readMutex count =>
      if isNonblocking x.fd then
        let r := Sys.Nonblocking.afterReadMutex count (x.sys.suspend .user)
        some (x.setSys r.1, nonblockingResult r)
      else (Sys.continueAt (x.sys.suspend .user) (.readMutex count)).map fun s ↦
        (x.setSys s, blockingResult s)
  | c => (Sys.continueAt (x.sys.suspend .user) c).map fun s ↦ (x.setSys s, blockingResult s)

/-- The loop body of `readFd` after `fileRead`. -/
def afterFileRead (loop : FdReader → Option FdReader) (count : Nat) :
    FdReader × Option (Int × List UInt8) → Option FdReader
  | (x, none) => some x
  | (x, some (n, bytes)) =>
      if n ≤ 0 then some (x.returns count n [])
      else
        let (buf, out) := compact n.toNat 0 0 bytes
        if out > 0 then some (x.returns count out (buf.take out))
        else if x.eofRequest then some ({ x with eofRequest := false }.returns count 0 [])
        else loop x

/-- The loop of `readFd`.  Every round but the last takes bytes from the buffer. -/
def readLoop (count : Nat) : (fuel : Nat) → FdReader → Option FdReader
  | 0, _ => none
  | fuel + 1, x => (x.fileRead count).bind (afterFileRead (readLoop count fuel) count)

/-- The fuel for the loop: one round for each byte and one more. -/
def fuel (x : FdReader) : Nat := x.sys.pipe.buffer.count + 1

/-- `readFd` -/
def readFd (x : FdReader) (count : Nat) : Option FdReader :=
  if x.fd = none then some (x.returns count (-1) [])
  else if x.eofRequest then some ({ x with eofRequest := false }.returns count 0 [])
  else readLoop count x.fuel x

/-- `requestEofOf` -/
def requestEofOf (x : FdReader) : FdReader × Int :=
  if x.fd = none then (x, -1) else ({ x with eofRequest := true }, 0)

/-- `closeFd` -/
def closeFd (x : FdReader) : FdReader × Int :=
  if x.fd = none then (x, -1) else ({ x with fd := none, eofRequest := false }, 0)

/-! ## The system -/

/-- What can happen. -/
inductive Event
  /-- What can happen to the pipe, reads aside. -/
  | pipe (e : Mixed.Event)
  /-- The reader calls `readFd`. -/
  | readFd (count : Nat)
  /-- The end of file is requested on the descriptor. -/
  | requestEof
  /-- The reader closes the descriptor. -/
  | closeFd
deriving DecidableEq, Repr

/-- A process that goes on in a read goes on in its `readFd`. -/
def resume (x : FdReader) : Option FdReader :=
  match x.sys.running with
  | none => none
  | some pr =>
      match pr.cont.reads with
      | none => x.pipe.resume.map fun m ↦ { x with pipe := m }
      | some count => (x.continueRead pr.cont).bind fun r ↦
          afterFileRead (readLoop count r.1.fuel) count r

/-- One event. -/
def step (reader : Int) (x : FdReader) : Event → Option FdReader
  | .pipe (.sys (.read _)) | .pipe (.read _) => none
  | .pipe (.sys .resume) => x.resume
  | .pipe (.sys (.kill pid)) => (x.pipe.step (.sys (.kill pid))).map fun m ↦
      if pid = reader then ({ x with pipe := m }.closeFd).1 else { x with pipe := m }
  | .pipe e => (x.pipe.step e).map fun m ↦ { x with pipe := m }
  | .readFd count =>
      if x.sys.inUser ∧ x.sys.procs.currentPID = reader then x.readFd count else none
  | .requestEof => some x.requestEofOf.1
  | .closeFd =>
      if x.sys.inUser ∧ x.sys.procs.currentPID = reader then some x.closeFd.1 else none

/-- The reads ask for something. -/
def Event.Asks : Event → Prop
  | .readFd count => 0 < count
  | _ => True

instance : (e : Event) → Decidable e.Asks
  | .readFd count => inferInstanceAs (Decidable (0 < count))
  | .pipe _ | .requestEof | .closeFd => isTrue trivial

/-- The system when `creator` has just opened the pipe, for a reader with this descriptor. -/
def init (data : Nat → UInt8) (creator : Int) (flags : UInt8) : FdReader :=
  ⟨Mixed.init data creator, some flags, false, []⟩

/-! ## What is read -/

/-- The reader has taken the bytes `bs` from the pipe on the way from `x` to `y`. -/
structure Advance (x y : FdReader) (bs : List UInt8) : Prop where
  inv : y.sys.Inv False
  flow : y.sys.Flow y.sys.results
  read : y.sys.results.flatMap (·.bytes) = x.sys.results.flatMap (·.bytes) ++ bs
  contents : x.sys.pipe.buffer.contents = bs ++ y.sys.pipe.buffer.contents
  writers : y.sys.pipe.writerCount = x.sys.pipe.writerCount
  fd : y.fd = x.fd
  eofRequest : y.eofRequest = x.eofRequest
  returned : y.returned = x.returned

/-- Nothing has been read. -/
theorem Advance.refl {x : FdReader} (hinv : x.sys.Inv False) (hflow : x.sys.Flow x.sys.results) :
    Advance x x [] := ⟨hinv, hflow, (List.append_nil _).symm, rfl, rfl, rfl, rfl, rfl⟩

/-- What `fileRead` can come to. -/
inductive Reads (x : FdReader) (count : Nat) : FdReader × Option (Int × List UInt8) → Prop
  /-- The descriptor is closed. -/
  | closed : x.fd = none → Reads x count (x, some (-1, []))
  /-- The reader waits, as there are bytes to come. -/
  | waits {y : FdReader} : Advance x y [] →
      x.sys.pipe.buffer.contents ≠ [] ∨ 0 < x.sys.pipe.writerCount → Reads x count (y, none)
  /-- There is data. -/
  | data {y : FdReader} {bs : List UInt8} : Advance x y bs → bs ≠ [] → bs.length ≤ count →
      y.sys.Running → Reads x count (y, some (bs.length, bs))
  /-- There is no data, and there are no writers. -/
  | eof {y : FdReader} : Advance x y [] → x.sys.pipe.buffer.contents = [] →
      x.sys.pipe.writerCount ≤ 0 → Reads x count (y, some (0, []))
  /-- There is no data, but there are writers. -/
  | wouldBlock {y : FdReader} : Advance x y [] → 0 < x.sys.pipe.writerCount →
      Reads x count (y, some (PIPE_WOULD_BLOCK, []))

/-- What `readFd` can come to once it has begun to read. -/
inductive ReadsFd (x : FdReader) (count : Nat) (y : FdReader) : Prop
  /-- The descriptor is closed. -/
  | closed {u : FdReader} {zs : List UInt8} : Advance x u zs → strip zs = [] → u.fd = none →
      y = u.returns count (-1) [] → ReadsFd x count y
  /-- The reader waits, as there are bytes to come. -/
  | waits {zs : List UInt8} : Advance x y zs → strip zs = [] →
      x.sys.pipe.buffer.contents ≠ [] ∨ 0 < x.sys.pipe.writerCount → ReadsFd x count y
  /-- It has read more than NULs. -/
  | data {u : FdReader} {bs : List UInt8} : Advance x u bs → strip bs ≠ [] →
      (strip bs).length ≤ count →
      y = u.returns count (strip bs).length (strip bs) → ReadsFd x count y
  /-- It has read NULs, and found a request. -/
  | request {u : FdReader} {zs : List UInt8} : Advance x u zs → strip zs = [] →
      u.eofRequest = true →
      y = { u with eofRequest := false }.returns count 0 [] → ReadsFd x count y
  /-- There is nothing left but NULs, and there are no writers. -/
  | eof {u : FdReader} {zs : List UInt8} : Advance x u zs → strip zs = [] →
      u.sys.pipe.buffer.contents = [] →
      x.sys.pipe.writerCount ≤ 0 → y = u.returns count 0 [] → ReadsFd x count y
  /-- There is nothing left but NULs, but there are writers. -/
  | wouldBlock {u : FdReader} {zs : List UInt8} : Advance x u zs → strip zs = [] →
      0 < x.sys.pipe.writerCount → y = u.returns count PIPE_WOULD_BLOCK [] → ReadsFd x count y

variable {x y u : FdReader} {count fuel : Nat} {bs zs : List UInt8} {t : Sys}

theorem Advance.trans (h : Advance x u zs) (h' : Advance u y bs) : Advance x y (zs ++ bs) where
  inv := h'.inv
  flow := h'.flow
  read := by rw [h'.read, h.read, List.append_assoc]
  contents := by rw [h.contents, h'.contents, List.append_assoc]
  writers := h'.writers.trans h.writers
  fd := h'.fd.trans h.fd
  eofRequest := h'.eofRequest.trans h.eofRequest
  returned := h'.returned.trans h.returned

/-- A round that has read only NULs goes before the others. -/
theorem ReadsFd.round (h : Advance x u zs) (hzs : strip zs = []) (h' : ReadsFd u count y) :
    ReadsFd x count y := by
  have hstrip : ∀ {bs}, strip (zs ++ bs) = strip bs := fun {bs} ↦ by
    rw [strip_append, hzs, List.nil_append]
  cases h' with
  | closed ha hnul hfd heq => exact .closed (h.trans ha) (hstrip.trans hnul) hfd heq
  | waits ha hnul hmore =>
      refine .waits (h.trans ha) (hstrip.trans hnul) ?_
      rcases hmore with hmore | hmore
      · refine .inl fun hnil ↦ hmore ?_
        rw [h.contents] at hnil
        exact (List.append_eq_nil_iff.1 hnil).2
      · exact .inr (h.writers ▸ hmore)
  | data ha hne hlen heq =>
      refine .data (h.trans ha) ?_ ?_ ?_ <;> rw [hstrip] <;> assumption
  | request ha hnul hreq heq => exact .request (h.trans ha) (hstrip.trans hnul) hreq heq
  | eof ha hnul hnil hw heq =>
      exact .eof (h.trans ha) (hstrip.trans hnul) hnil (h.writers ▸ hw) heq
  | wouldBlock ha hnul hw heq =>
      exact .wouldBlock (h.trans ha) (hstrip.trans hnul) (h.writers ▸ hw) heq

/-! ### `fileRead` -/

theorem readBytes_concat {s : Sys} {rs : List ReadResult} {r : ReadResult}
    (h : s.results = rs ++ [r]) : readBytes s = r.bytes := by
  rw [readBytes, h, List.getLast?_concat]
  rfl

theorem blockingResult_of_running {s : Sys} (h : s.Running) :
    blockingResult s = some (((readBytes s).length : Int), readBytes s) :=
  if_pos (Sys.inUser_iff.2 h)

/-- A process that waits has no result. -/
theorem blockingResult_blockOn (s : Sys) (x : PipeSem) (c : Cont) :
    blockingResult (s.blockOn x c) = none := by
  refine if_neg fun huser ↦ ?_
  have hrun : (s.procs.set s.procs.currentPID ⟨.BLOCKED, c⟩).table s.procs.currentPID =
      some ⟨.RUNNING, .user⟩ := Sys.inUser_iff.1 huser
  cases (Procs.set_self _ _ _).symm.trans hrun

/-- **What a blocking read returns.** -/
theorem Reads.of_outcome {woken : Bool} (hinv : x.sys.Inv False) (hflow : x.sys.Flow x.sys.results)
    (hrun : x.sys.Running) (hcount : 0 < count) (hout : Sys.ReadOutcome woken x.sys count t)
    (f : Int → Bool) :
    Reads x count ({ x with pipe := ⟨t, f⟩ }, blockingResult t) := by
  have hinv' := hinv.read hrun hout
  have hflow' := hflow.read hinv hrun hcount hout
  -- a read that has found data takes as much as it asked for
  have hdata : ∀ s : Sys, s.Inv False → s.Running → s.pipe.buffer = x.sys.pipe.buffer →
      s.pipe.writerCount = x.sys.pipe.writerCount → s.results = x.sys.results →
      0 < x.sys.pipe.buffer.count → s.drained count = t →
      Reads x count ({ x with pipe := ⟨t, f⟩ }, blockingResult t) := by
    intro s hs hsrun hbuffer hwriters hresults hpos heq
    obtain ⟨-, hrun', hcontents, hresults', hwriters'⟩ := hs.drained_result hsrun count
    rw [heq] at hrun' hcontents hresults' hwriters'
    rw [hbuffer] at hcontents hresults'
    rw [blockingResult_of_running hrun', readBytes_concat hresults']
    have hne : x.sys.pipe.buffer.contents.take count ≠ [] := by
      rw [Ne, List.take_eq_nil_iff, CircularBuffer.contents_eq_nil]
      omega
    refine .data ⟨hinv', hflow', ?_, ?_, hwriters'.trans hwriters, rfl, rfl, rfl⟩ hne
      (List.length_take_le _ _) hrun'
    · rw [hresults', List.flatMap_append, hresults]
      simp
    · rw [hcontents, List.take_append_drop]
  cases hout with
  | eof hempty hwriters =>
      have hrun' : (x.sys.returnRead count []).Running := hrun
      rw [blockingResult_of_running hrun', readBytes_concat (r := ⟨_, count, []⟩) rfl]
      refine .eof ⟨hinv', hflow', ?_, rfl, rfl, rfl, rfl, rfl⟩
        (CircularBuffer.contents_eq_nil.2 hempty) hwriters
      simp [Sys.returnRead]
  | taken _ hpos htoken =>
      exact hdata _ (hinv.take (by decide) htoken) hrun rfl rfl rfl hpos rfl
  | granted _ hpos => exact hdata _ hinv hrun rfl rfl rfl hpos rfl
  | block _ hmore =>
      rw [blockingResult_blockOn]
      refine .waits ⟨hinv', hflow', (List.append_nil _).symm, rfl, rfl, rfl, rfl, rfl⟩ ?_
      refine hmore.imp_left fun hpos ↦ ?_
      rw [Ne, CircularBuffer.contents_eq_nil]
      omega

/-- **What a nonblocking read returns.** -/
theorem Reads.of_nonblocking (hinv : x.sys.Inv False) (hflow : x.sys.Flow x.sys.results)
    (hrun : x.sys.Running) (hcount : 0 < count) (f : Int → Bool) :
    Reads x count ({ x with pipe := ⟨(Sys.Nonblocking.pipeRead x.sys count).1, f⟩ },
      nonblockingResult (Sys.Nonblocking.pipeRead x.sys count)) := by
  obtain ⟨hinv', hflow'⟩ := hflow.nonblockingRead hinv hrun hcount
  have hreturns := Sys.Nonblocking.pipeRead_returns hinv hrun count
  have hwriters : (Sys.Nonblocking.pipeRead x.sys count).1.pipe.writerCount =
      x.sys.pipe.writerCount := by
    rw [Sys.Nonblocking.pipeRead, if_neg hcount.ne',
      Sys.Nonblocking.pipeReadNonblocking_eq hinv.good.mutex]
    exact (hinv.drainBuffer hrun count).2.2.writerCount
  generalize Sys.Nonblocking.pipeRead x.sys count = r at hinv' hflow' hreturns hwriters
  have hbytes := readBytes_concat hreturns.results
  have hread : r.1.results.flatMap (·.bytes) =
      x.sys.results.flatMap (·.bytes) ++ x.sys.pipe.buffer.contents.take count := by
    rw [hreturns.results, List.flatMap_append]
    simp
  have hadvance : Advance x { x with pipe := ⟨r.1, f⟩ } (x.sys.pipe.buffer.contents.take count) :=
    ⟨hinv', hflow', hread, by rw [hreturns.buffer, List.take_append_drop], hwriters, rfl, rfl, rfl⟩
  rw [nonblockingResult, hreturns.result, if_neg hcount.ne', Option.map_some, hbytes]
  by_cases hnil : x.sys.pipe.buffer.contents = []
  · rw [hnil, List.take_nil] at hadvance
    rw [if_neg (not_not.2 hnil), hnil, List.take_nil]
    by_cases hopen : x.sys.pipe.writerCount > 0
    · rw [if_pos hopen]
      exact .wouldBlock hadvance hopen
    · rw [if_neg hopen]
      exact .eof hadvance hnil (not_lt.1 hopen)
  · rw [if_pos hnil]
    refine .data hadvance ?_ (List.length_take_le _ _) hreturns.running
    rw [Ne, List.take_eq_nil_iff]
    rintro (hzero | hnil')
    · exact hcount.ne' hzero
    · exact hnil hnil'

/-- A descriptor that is open is readable. -/
def Readable (x : FdReader) : Prop := ∀ f, x.fd = some f → isReadable (some f) = true

/-- **`fileRead` returns or waits.** -/
theorem fileRead_reads (hinv : x.sys.Inv False) (hflow : x.sys.Flow x.sys.results)
    (hrun : x.sys.Running) (hcount : 0 < count) (hfd : x.Readable) :
    ∃ r, x.fileRead count = some r ∧ Reads x count r := by
  unfold fileRead
  by_cases hopen : x.fd = none
  · have hclosed : (!isReadable x.fd) = true := by
      rw [hopen]
      rfl
    exact ⟨_, if_pos hclosed, .closed hopen⟩
  · obtain ⟨f, hf⟩ := Option.ne_none_iff_exists'.1 hopen
    have hreadable : ¬(!isReadable x.fd) = true := by
      rw [hf, hfd f hf]
      decide
    rw [if_neg hreadable]
    split
    · exact ⟨_, rfl, .of_nonblocking hinv hflow hrun hcount _⟩
    · rcases Sys.pipeRead_outcome hinv.good hrun count with ⟨hzero, -⟩ | ⟨-, t, ht, hout⟩
      · exact absurd hzero hcount.ne'
      · rw [ht]
        exact ⟨_, rfl, .of_outcome hinv hflow hrun hcount hout _⟩

/-- The reader goes on after its wait. -/
theorem Advance.suspend (hinv : x.sys.Inv False) (hflow : x.sys.Flow x.sys.results) {pr : Proc}
    (hpr : x.sys.running = some pr) : Advance x (x.setSys (x.sys.suspend .user)) [] where
  inv := (hinv.resume hpr).1
  flow := hflow.suspend hpr
  read := (List.append_nil _).symm
  contents := rfl
  writers := rfl
  fd := rfl
  eofRequest := rfl
  returned := rfl

/-- **After its wait, `fileRead` returns or waits again.** -/
theorem continueRead_reads (hinv : x.sys.Inv False) (hflow : x.sys.Flow x.sys.results) {pr : Proc}
    (hpr : x.sys.running = some pr) (hreads : pr.cont.reads = some count) :
    ∃ r, x.continueRead pr.cont = some r ∧ Reads (x.setSys (x.sys.suspend .user)) count r := by
  obtain ⟨hinv', hrun, -⟩ := hinv.resume hpr
  have hcur := (Sys.running_eq_some.1 hpr).1
  have hcount := hflow.asks _ pr hcur count hreads
  cases hcont : pr.cont with
  | user | writeMutex _ _ | writeSlot _ _ _ =>
      rw [hcont] at hreads
      cases hreads
  | readMutex _ => exact absurd (by rw [hcont]; rfl) (hinv.good.noMutex _ pr hcur)
  | readData n =>
      rw [hcont] at hreads
      have heq : n = count := Option.some.inj hreads
      rw [heq]
      obtain ⟨t, ht, hout⟩ := Sys.afterDataAvailable_outcome hinv'.good hrun count
      refine ⟨(x.setSys t, blockingResult t), ?_, ?_⟩
      · have hread : x.continueRead (.readData count) =
            (Sys.continueAt (x.sys.suspend .user) (.readData count)).map fun s ↦
              (x.setSys s, blockingResult s) := rfl
        rw [hread, Sys.continueAt, ht]
        rfl
      · exact .of_outcome (x := x.setSys (x.sys.suspend .user)) hinv' (hflow.suspend hpr) hrun
          hcount hout x.pipe.nonblocking

/-! ### `readFd` -/

/-- **One round of `readFd`**, if the others do what they should. -/
theorem afterFileRead_reads {loop : FdReader → Option FdReader}
    {r : FdReader × Option (Int × List UInt8)} (hself : Advance x x []) (h : Reads x count r)
    (hloop : ∀ bs, Advance x r.1 bs → bs ≠ [] → r.1.sys.Running →
      ∃ y, loop r.1 = some y ∧ ReadsFd r.1 count y) :
    ∃ y, afterFileRead loop count r = some y ∧ ReadsFd x count y := by
  cases h with
  | closed hfd => exact ⟨_, rfl, .closed hself rfl hfd rfl⟩
  | waits ha hmore => exact ⟨_, rfl, .waits ha rfl hmore⟩
  | @data u bs ha hne hlen hrun =>
      obtain ⟨hout, htake⟩ := compact_eq bs
      have hpos : ¬(bs.length : Int) ≤ 0 := by
        have := List.length_pos_iff.2 hne
        omega
      simp only [afterFileRead, if_neg hpos, Int.toNat_natCast]
      by_cases hstrip : strip bs = []
      · rw [hstrip] at hout
        simp only [hout, List.length_nil, gt_iff_lt, lt_irrefl, if_false]
        by_cases hreq : u.eofRequest = true
        · rw [if_pos hreq]
          exact ⟨_, rfl, .request ha hstrip hreq rfl⟩
        · rw [if_neg hreq]
          obtain ⟨y, hy, hreads⟩ := hloop bs ha hne hrun
          exact ⟨y, hy, hreads.round ha hstrip⟩
      · have hlt : (compact bs.length 0 0 bs).2 > 0 := by
          rw [hout]
          exact List.length_pos_iff.2 hstrip
        rw [if_pos hlt, htake, hout]
        exact ⟨_, rfl, .data ha hstrip ((List.length_filter_le _ _).trans hlen) rfl⟩
  | eof ha hnil hw => exact ⟨_, rfl, .eof ha rfl (ha.contents.symm.trans hnil) hw rfl⟩
  | wouldBlock ha hw => exact ⟨_, rfl, .wouldBlock ha rfl hw rfl⟩

/-- **The loop of `readFd` ends.** -/
theorem readLoop_reads (fuel : Nat) (hfuel : x.sys.pipe.buffer.count < fuel)
    (hinv : x.sys.Inv False) (hflow : x.sys.Flow x.sys.results) (hrun : x.sys.Running)
    (hcount : 0 < count) (hfd : x.Readable) :
    ∃ y, readLoop count fuel x = some y ∧ ReadsFd x count y := by
  induction fuel generalizing x with
  | zero => exact absurd hfuel (Nat.not_lt_zero _)
  | succ fuel ih =>
      obtain ⟨r, hr, hreads⟩ := fileRead_reads hinv hflow hrun hcount hfd
      rw [readLoop, hr, Option.bind_some]
      refine afterFileRead_reads (.refl hinv hflow) hreads fun bs ha hne hrun' ↦ ?_
      refine ih ?_ ha.inv ha.flow hrun' fun f hf ↦ hfd f (ha.fd ▸ hf)
      -- each round drains the buffer
      have hlen := congrArg List.length ha.contents
      have hpos := List.length_pos_iff.2 hne
      rw [List.length_append, CircularBuffer.length_contents, CircularBuffer.length_contents]
        at hlen
      omega

/-! ## Runs -/

/-- The result is no more than was asked for, and the bytes are as many, without a NUL. -/
structure Fits (r : FdRead) : Prop where
  result : r.result ≤ r.count
  length : r.bytes.length = r.result.toNat
  nul : 0 ∉ r.bytes

/-- What holds between two events; the flags are those of the read end. -/
structure Sound (flags : UInt8) (x : FdReader) : Prop where
  inv : x.sys.Inv False
  flow : x.sys.Flow x.sys.results
  /-- What has been read from the pipe was returned, the NULs aside. -/
  delivered : x.returned.flatMap (·.bytes) = strip (x.sys.results.flatMap (·.bytes))
  fits : ∀ r ∈ x.returned, Fits r
  fd : ∀ f, x.fd = some f → f = flags

/-- What an event does to the reader. -/
inductive Effect (x y : FdReader) : Prop
  /-- Something happens to the pipe, and nothing is read. -/
  | pipe {s : Sys} {f : Int → Bool} : s.Inv False → s.Flow x.sys.results →
      y = { x with pipe := ⟨s, f⟩ } → Effect x y
  /-- The descriptor is closed, maybe since the reader dies. -/
  | close {s : Sys} {f : Int → Bool} : s.Inv False → s.Flow x.sys.results →
      y = { x with pipe := ⟨s, f⟩, fd := none, eofRequest := false } → Effect x y
  /-- The end of file is requested. -/
  | request : y = { x with eofRequest := true } → Effect x y
  /-- The descriptor was not open. -/
  | notOpen {count : Nat} : x.fd = none → y = x.returns count (-1) [] → Effect x y
  /-- There was a request. -/
  | requested {count : Nat} : x.eofRequest = true →
      y = { x with eofRequest := false }.returns count 0 [] → Effect x y
  /-- The reader has read, or waits. -/
  | read {count : Nat} : 0 < count → ReadsFd x count y → Effect x y

/-- `closeFd` closes the descriptor, or finds that it is not open. -/
theorem Effect.of_closeFd {s : Sys} {f : Int → Bool} (hinv : s.Inv False)
    (hflow : s.Flow x.sys.results) : Effect x ({ x with pipe := ⟨s, f⟩ }.closeFd).1 := by
  unfold closeFd
  split
  · exact .pipe hinv hflow rfl
  · exact .close hinv hflow rfl

/-- **Every call of `readFd` returns or waits.** -/
theorem readFd_effect (hinv : x.sys.Inv False) (hflow : x.sys.Flow x.sys.results)
    (hrun : x.sys.Running) (hcount : 0 < count) (hfd : x.Readable) :
    ∃ y, x.readFd count = some y ∧ Effect x y ∧
      (x.fd ≠ none → x.eofRequest = true → y.returned = x.returned ++ [⟨count, 0, []⟩]) ∧
      (x.fd ≠ none → x.eofRequest = false → ReadsFd x count y) := by
  unfold readFd
  by_cases hopen : x.fd = none
  · rw [if_pos hopen]
    exact ⟨_, rfl, .notOpen hopen rfl, fun hnot ↦ absurd hopen hnot, fun hnot ↦ absurd hopen hnot⟩
  rw [if_neg hopen]
  by_cases hreq : x.eofRequest = true
  · rw [if_pos hreq]
    refine ⟨_, rfl, .requested hreq rfl, fun _ _ ↦ rfl, fun _ hno ↦ ?_⟩
    cases hreq.symm.trans hno
  · rw [if_neg hreq]
    obtain ⟨y, hy, hreads⟩ :=
      readLoop_reads x.fuel (Nat.lt_succ_self _) hinv hflow hrun hcount hfd
    exact ⟨y, hy, .read hcount hreads, fun _ hyes ↦ absurd hyes hreq, fun _ _ ↦ hreads⟩

/-- **A reader that goes on returns or waits again.** -/
theorem resume_reads (hinv : x.sys.Inv False) (hflow : x.sys.Flow x.sys.results)
    (hfd : x.Readable) {pr : Proc} (hpr : x.sys.running = some pr)
    (hreads : pr.cont.reads = some count) :
    ∃ y, x.resume = some y ∧ 0 < count ∧ ReadsFd x count y := by
  have hcount := hflow.asks _ pr (Sys.running_eq_some.1 hpr).1 count hreads
  have hsuspend := Advance.suspend hinv hflow hpr
  obtain ⟨r, hr, hread⟩ := continueRead_reads hinv hflow hpr hreads
  have hloop : ∀ bs, Advance (x.setSys (x.sys.suspend .user)) r.1 bs → bs ≠ [] →
      r.1.sys.Running → ∃ y, readLoop count r.1.fuel r.1 = some y ∧ ReadsFd r.1 count y := by
    intro bs ha _ hrun
    apply readLoop_reads r.1.fuel (Nat.lt_succ_self _) ha.inv ha.flow hrun hcount
    intro f hf
    exact hfd f (ha.fd ▸ hf)
  obtain ⟨y, hy, hreadsFd⟩ :=
    afterFileRead_reads (.refl hsuspend.inv hsuspend.flow) hread hloop
  refine ⟨y, ?_, hcount, hreadsFd.round hsuspend rfl⟩
  simp only [resume, hpr, hreads, hr, Option.bind_some]
  exact hy

/-- The running process goes on. -/
theorem resume_effect (hinv : x.sys.Inv False) (hflow : x.sys.Flow x.sys.results)
    (hfd : x.Readable) (hy : x.resume = some y) : Effect x y := by
  cases hpr : x.sys.running with
  | none =>
      simp only [resume, hpr] at hy
      cases hy
  | some pr =>
      cases hreads : pr.cont.reads with
      | none =>
          simp only [resume, hpr, hreads] at hy
          obtain ⟨m, hm, rfl⟩ := Option.map_eq_some_iff.1 hy
          have hstep : x.pipe.step (.sys .resume) = some m := hm
          have hnoRead : Mixed.Event.NoRead x.pipe (.sys .resume) := by
            intro pr' hpr'
            rw [← Option.some.inj (hpr.symm.trans hpr')]
            exact hreads
          obtain ⟨hinv', hflow'⟩ := Mixed.flow_step hflow hinv hnoRead hstep
          exact .pipe hinv' hflow' rfl
      | some count =>
          obtain ⟨z, hz, hcount, hread⟩ := resume_reads hinv hflow hfd hpr hreads
          rw [← Option.some.inj (hz.symm.trans hy)]
          exact .read hcount hread

/-- **Every event has one of these effects.** -/
theorem step_effect {reader : Int} {e : Event} (hinv : x.sys.Inv False)
    (hflow : x.sys.Flow x.sys.results) (hfd : x.Readable) (hasks : e.Asks)
    (hy : step reader x e = some y) : Effect x y := by
  have hpipe : ∀ (e : Mixed.Event) (m : Mixed), x.pipe.step e = some m → e.NoRead x.pipe →
      m.sys.Inv False ∧ m.sys.Flow x.sys.results := fun e m hm hread ↦
    Mixed.flow_step hflow hinv hread hm
  cases e with
  | pipe e =>
      cases e with
      | sys e =>
          cases e with
          | read count => cases hy
          | resume => exact resume_effect hinv hflow hfd hy
          | kill pid =>
              obtain ⟨m, hm, rfl⟩ := Option.map_eq_some_iff.1 hy
              obtain ⟨hinv', hflow'⟩ := hpipe _ m hm trivial
              split
              · exact .of_closeFd hinv' hflow'
              · exact .pipe hinv' hflow' rfl
          | _ =>
              obtain ⟨m, hm, rfl⟩ := Option.map_eq_some_iff.1 hy
              obtain ⟨hinv', hflow'⟩ := hpipe _ m hm trivial
              exact .pipe hinv' hflow' rfl
      | read count => cases hy
      | write buf =>
          obtain ⟨m, hm, rfl⟩ := Option.map_eq_some_iff.1 hy
          obtain ⟨hinv', hflow'⟩ := hpipe _ m hm trivial
          exact .pipe hinv' hflow' rfl
  | readFd count =>
      simp only [step] at hy
      split at hy
      next huser =>
        obtain ⟨z, hz, heffect, -⟩ :=
          readFd_effect hinv hflow (Sys.inUser_iff.1 huser.1) hasks hfd
        rw [← Option.some.inj (hz.symm.trans hy)]
        exact heffect
      · cases hy
  | requestEof =>
      obtain rfl := Option.some.inj hy
      unfold requestEofOf
      split
      · exact .pipe hinv hflow rfl
      · exact .request rfl
  | closeFd =>
      simp only [step] at hy
      split at hy
      · obtain rfl := Option.some.inj hy
        exact .of_closeFd hinv hflow
      · cases hy

/-! ### What is kept -/

section Sound

variable {flags : UInt8}

theorem Sound.readable (h : Sound flags x) (hflags : isReadable (some flags) = true) :
    x.Readable := by
  intro f hf
  rw [h.fd f hf]
  exact hflags

/-- The pipe moves on, and nothing is read. -/
theorem Sound.pipe (h : Sound flags x) {s : Sys} {f : Int → Bool} (hinv : s.Inv False)
    (hflow : s.Flow x.sys.results) : Sound flags { x with pipe := ⟨s, f⟩ } where
  inv := hinv
  flow := ⟨rfl, hflow.bytes, hflow.asks⟩
  delivered := by
    have hsame : s.results = x.sys.results := hflow.results
    change _ = strip (s.results.flatMap (·.bytes))
    rw [hsame]
    exact h.delivered
  fits := h.fits
  fd := h.fd

/-- The reader has read nothing but NULs so far. -/
theorem Sound.advance (h : Sound flags x) (ha : Advance x u zs) (hzs : strip zs = []) :
    Sound flags u where
  inv := ha.inv
  flow := ha.flow
  delivered := by rw [ha.returned, ha.read, strip_append, hzs, List.append_nil, h.delivered]
  fits := ha.returned ▸ h.fits
  fd := ha.fd ▸ h.fd

/-- A call returns what it has read. -/
theorem Sound.returns (h : Sound flags x) (ha : Advance x u bs) {r : FdRead}
    (hbytes : r.bytes = strip bs) (hfits : Fits r) (request : Bool) :
    Sound flags ({ u with eofRequest := request }.returns r.count r.result r.bytes) where
  inv := ha.inv
  flow := ha.flow
  delivered := by
    change (u.returned ++ [r]).flatMap (·.bytes) = strip (u.sys.results.flatMap (·.bytes))
    rw [ha.returned, ha.read, strip_append, List.flatMap_append, h.delivered, ← hbytes]
    simp
  fits r' hr' := by
    rcases List.mem_append.1 hr' with hr' | hr'
    · exact h.fits r' (ha.returned ▸ hr')
    · rw [List.mem_singleton.1 hr']
      exact hfits
  fd := ha.fd ▸ h.fd

/-- A call that returns no bytes returns no more than was asked for. -/
theorem Fits.of_nonpos {count : Nat} {result : Int} (h : result ≤ 0) :
    Fits ⟨count, result, []⟩ where
  result := h.trans (Int.natCast_nonneg count)
  length := (Int.toNat_of_nonpos h).symm
  nul := List.not_mem_nil

/-- **What a read returns has no NUL, and is all there was besides.** -/
theorem Sound.read (h : Sound flags x) (hread : ReadsFd x count y) : Sound flags y := by
  have hempty : ∀ {u zs} {result : Int} (request : Bool), Advance x u zs → strip zs = [] →
      result ≤ 0 → Sound flags ({ u with eofRequest := request }.returns count result []) :=
    fun _ ha hzs hle ↦ h.returns (r := ⟨count, _, []⟩) ha hzs.symm (.of_nonpos hle) _
  cases hread with
  | @closed u _ ha hzs _ heq => exact heq ▸ hempty u.eofRequest ha hzs (by decide)
  | waits ha hzs _ => exact h.advance ha hzs
  | @data u bs ha hne hlen heq =>
      rw [heq]
      refine h.returns (r := ⟨count, (strip bs).length, strip bs⟩) ha rfl ?_ u.eofRequest
      exact ⟨Int.ofNat_le.2 hlen, (Int.toNat_natCast _).symm, zero_notMem_strip bs⟩
  | request ha hzs _ heq => exact heq ▸ hempty _ ha hzs (Int.le_refl 0)
  | @eof u _ ha hzs _ _ heq => exact heq ▸ hempty u.eofRequest ha hzs (Int.le_refl 0)
  | @wouldBlock u _ ha hzs _ heq => exact heq ▸ hempty u.eofRequest ha hzs (by decide)

/-- **Every event keeps the invariant.** -/
theorem Sound.effect (h : Sound flags x) (he : Effect x y) : Sound flags y := by
  have hself : Advance x x [] := .refl h.inv h.flow
  cases he with
  | pipe hinv hflow heq => exact heq ▸ h.pipe hinv hflow
  | @close s f hinv hflow heq =>
      have hpipe := h.pipe (f := f) hinv hflow
      rw [heq]
      exact ⟨hpipe.inv, hpipe.flow, hpipe.delivered, hpipe.fits, fun f hf ↦ by cases hf⟩
  | request heq => exact heq ▸ ⟨h.inv, h.flow, h.delivered, h.fits, h.fd⟩
  | @notOpen count _ heq =>
      exact heq ▸ h.returns (r := ⟨count, -1, []⟩) hself rfl (.of_nonpos (by decide)) x.eofRequest
  | @requested count _ heq =>
      exact heq ▸ h.returns (r := ⟨count, 0, []⟩) hself rfl (.of_nonpos (Int.le_refl 0)) false
  | read _ hread => exact h.read hread

end Sound

/-! ### The end of the file -/

/-- A request is used up. -/
def Consumes (x y : FdReader) : Prop := x.eofRequest = true ∧ y.eofRequest = false

/-- There is nothing left but NULs, and there are no writers. -/
def Ended (x : FdReader) : Prop :=
  strip x.sys.pipe.buffer.contents = [] ∧ x.sys.pipe.writerCount ≤ 0

theorem not_consumes (h : y.eofRequest = x.eofRequest) : ¬x.Consumes y := by
  rintro ⟨hx, hy⟩
  cases hx.symm.trans (h.symm.trans hy)

/-- A call that has read returns its result, -/
theorem Advance.returns (h : Advance x u bs) {r : FdRead} (hu : y.returned = u.returned ++ [r]) :
    y.returned = x.returned ++ [r] := h.returned ▸ hu

/-- and no other. -/
theorem Advance.result (h : Advance x u bs) {r r' : FdRead} (hu : y.returned = u.returned ++ [r'])
    (hy : y.returned = x.returned ++ [r]) : r = r' :=
  List.singleton_injective (List.append_cancel_left (hy.symm.trans (h.returns hu)))

/-- What has been read was there. -/
theorem Advance.strip_contents (h : Advance x u bs) :
    strip x.sys.pipe.buffer.contents = strip bs ++ strip u.sys.pipe.buffer.contents := by
  rw [h.contents, strip_append]

/-- **When `readFd` reports the end of the file.** -/
theorem ReadsFd.zero_iff (h : ReadsFd x count y) (hfd : x.fd ≠ none) {r : FdRead}
    (hr : y.returned = x.returned ++ [r]) : r.result = 0 ↔ x.Consumes y ∨ x.Ended := by
  cases h with
  | closed ha _ hnone _ => exact absurd (ha.fd.symm.trans hnone) hfd
  | waits ha _ _ => exact absurd (hr.symm.trans ha.returned) (by simp)
  | @data u bs ha hne hlen heq =>
      obtain rfl := ha.result (congrArg FdReader.returned heq) hr
      have hpos := List.length_pos_iff.2 hne
      apply iff_of_false
      · change ¬((strip bs).length : Int) = 0
        omega
      · rintro (hconsumes | ⟨hended, -⟩)
        · exact not_consumes (heq ▸ ha.eofRequest) hconsumes
        · rw [ha.strip_contents] at hended
          exact hne (List.append_eq_nil_iff.1 hended).1
  | @request u _ ha _ hreq heq =>
      obtain rfl := ha.result (congrArg FdReader.returned heq) hr
      apply iff_of_true rfl
      refine .inl ⟨ha.eofRequest.symm.trans hreq, ?_⟩
      rw [heq]
      rfl
  | @eof u _ ha hzs hnil hw heq =>
      obtain rfl := ha.result (congrArg FdReader.returned heq) hr
      apply iff_of_true rfl
      refine .inr ⟨?_, hw⟩
      rw [ha.strip_contents, hzs, hnil]
      rfl
  | @wouldBlock u _ ha _ hw heq =>
      obtain rfl := ha.result (congrArg FdReader.returned heq) hr
      have hblock : ¬PIPE_WOULD_BLOCK = 0 := by decide
      apply iff_of_false hblock
      rintro (hconsumes | ⟨-, hclosed⟩)
      · exact not_consumes (heq ▸ ha.eofRequest) hconsumes
      · omega

/-- An event returns at most one call. -/
theorem Effect.returned (h : Effect x y) :
    y.returned = x.returned ∨ ∃ r, y.returned = x.returned ++ [r] := by
  cases h with
  | pipe _ _ heq | close _ _ heq | request heq => exact .inl (by rw [heq])
  | notOpen _ heq | requested _ heq => exact .inr ⟨_, congrArg FdReader.returned heq⟩
  | read _ hread =>
      cases hread with
      | waits ha _ _ => exact .inl ha.returned
      | closed ha _ _ heq | data ha _ _ heq | request ha _ _ heq | eof ha _ _ _ heq
      | wouldBlock ha _ _ heq =>
          exact .inr ⟨_, ha.returns (congrArg FdReader.returned heq)⟩

/-- **When a call reports the end of the file.** -/
theorem Effect.zero_iff (h : Effect x y) (hfd : x.fd ≠ none) {r : FdRead}
    (hr : y.returned = x.returned ++ [r]) : r.result = 0 ↔ x.Consumes y ∨ x.Ended := by
  cases h with
  | pipe _ _ heq | close _ _ heq | request heq =>
      rw [heq] at hr
      exact absurd hr (by simp)
  | notOpen hnone _ => exact absurd hnone hfd
  | requested hreq heq =>
      have hresult := List.append_cancel_left (hr.symm.trans (congrArg FdReader.returned heq))
      rw [List.singleton_injective hresult]
      exact iff_of_true rfl (.inl ⟨hreq, by rw [heq]; rfl⟩)
  | read _ hread => exact hread.zero_iff hfd hr

/-- **A request is only used up by a call that reports the end of the file**, as long as the
descriptor is open. -/
theorem Effect.consumes (h : Effect x y) (hfd : y.fd ≠ none) (hconsumes : x.Consumes y) :
    ∃ r, y.returned = x.returned ++ [r] ∧ r.result = 0 := by
  cases h with
  | pipe _ _ heq => exact absurd hconsumes (not_consumes (heq ▸ rfl))
  | close _ _ heq => exact absurd (heq ▸ rfl) hfd
  | request heq =>
      have hset : y.eofRequest = true := heq ▸ rfl
      cases hset.symm.trans hconsumes.2
  | notOpen _ heq => exact absurd hconsumes (not_consumes (heq ▸ rfl))
  | requested _ heq => exact ⟨_, congrArg FdReader.returned heq, rfl⟩
  | read _ hread =>
      cases hread with
      | waits ha _ _ => exact absurd hconsumes (not_consumes ha.eofRequest)
      | closed ha _ _ heq | data ha _ _ heq | eof ha _ _ _ heq | wouldBlock ha _ _ heq =>
          exact absurd hconsumes (not_consumes (heq ▸ ha.eofRequest))
      | request ha _ _ heq =>
          exact ⟨_, ha.returns (congrArg FdReader.returned heq), rfl⟩

/-- A call that finds the end of the pipe reports it. -/
theorem ReadsFd.of_ended (h : ReadsFd x count y) (hfd : x.fd ≠ none)
    (hnil : x.sys.pipe.buffer.contents = []) (hw : x.sys.pipe.writerCount ≤ 0) :
    y.returned = x.returned ++ [⟨count, 0, []⟩] := by
  cases h with
  | closed ha _ hnone _ => exact absurd (ha.fd.symm.trans hnone) hfd
  | waits _ _ hmore =>
      rcases hmore with hmore | hmore
      · exact absurd hnil hmore
      · omega
  | data ha hne _ _ =>
      have hbs := (List.append_eq_nil_iff.1 (ha.contents.symm.trans hnil)).1
      rw [hbs] at hne
      exact absurd strip_nil hne
  | request ha _ _ heq | eof ha _ _ _ heq =>
      exact ha.returns (congrArg FdReader.returned heq)
  | wouldBlock _ _ hopen _ => omega

/-! ### The result -/

/-- The flags of the read end of a pipe, whose reads block or do not. -/
def ReadEnd (flags : UInt8) : Prop := flags = FILE_READ ∨ flags = FILE_READ ||| FILE_NONBLOCK

theorem ReadEnd.isReadable {flags : UInt8} (h : ReadEnd flags) :
    isReadable (some flags) = true := by
  rcases h with rfl | rfl <;> decide

theorem sound_init (data : Nat → UInt8) {creator : Int} (hvalid : ¬invalidPID creator)
    (hidle : creator ≠ IDLE_PID) (flags : UInt8) : Sound flags (init data creator flags) where
  inv := Sys.inv_init data hvalid hidle
  flow := Sys.flow_init data creator
  delivered := rfl
  fits := fun _ hr ↦ absurd hr List.not_mem_nil
  fd := fun _ hf ↦ (Option.some.inj hf).symm

theorem sound_reach {data : Nat → UInt8} {creator reader : Int} {flags : UInt8}
    (hvalid : ¬invalidPID creator) (hidle : creator ≠ IDLE_PID) (hflags : ReadEnd flags)
    (hreach : Reach (step reader) (fun _ e ↦ e.Asks) (init data creator flags) x) :
    Sound flags x :=
  hreach.invariant (sound_init data hvalid hidle flags) fun _ _ _ h hasks hy ↦
    h.effect (step_effect h.inv h.flow (h.readable hflags.isReadable) hasks hy)

/-- **Reads through a descriptor.**  In every run in which one process reads from the pipe, whoever
writes to it, and whenever the end of the file is requested: no result is more than was asked for,
or has a NUL; what was returned, and what is in the buffer, is what was written, the NULs aside; a
call returns 0 if and only if it uses up a request, or there is nothing left but NULs and there are
no writers; requests are used up by such calls only; and a call that finds a request, or the end of
the pipe, returns 0 at once. -/
theorem readFd_correct (data : Nat → UInt8) {creator reader : Int} {flags : UInt8}
    (hvalid : ¬invalidPID creator) (hidle : creator ≠ IDLE_PID) (hflags : ReadEnd flags)
    (hreach : Reach (step reader) (fun _ e ↦ e.Asks) (init data creator flags) x) :
    (∀ r ∈ x.returned, Fits r) ∧
    x.returned.flatMap (·.bytes) ++ strip x.sys.pipe.buffer.contents =
      strip (x.sys.stream.map Prod.snd) ∧
    (∀ e y, e.Asks → step reader x e = some y →
      (y.returned = x.returned ∨ ∃ r, y.returned = x.returned ++ [r]) ∧
      (x.fd ≠ none → ∀ r, y.returned = x.returned ++ [r] →
        (r.result = 0 ↔ x.Consumes y ∨ x.Ended)) ∧
      (y.fd ≠ none → x.Consumes y → ∃ r, y.returned = x.returned ++ [r] ∧ r.result = 0)) ∧
    ∀ count, 0 < count → x.sys.inUser = true → x.sys.procs.currentPID = reader → x.fd ≠ none →
      ∃ y, step reader x (.readFd count) = some y ∧
        (x.eofRequest = true ∨ x.sys.pipe.buffer.contents = [] ∧ x.sys.pipe.writerCount ≤ 0 →
          y.returned = x.returned ++ [⟨count, 0, []⟩]) := by
  have hsound := sound_reach hvalid hidle hflags hreach
  have hreadable := hsound.readable hflags.isReadable
  refine ⟨hsound.fits, ?_, ?_, ?_⟩
  · rw [hsound.delivered, ← strip_append, hsound.flow.bytes]
  · intro e y hasks hy
    have heffect := step_effect hsound.inv hsound.flow hreadable hasks hy
    exact ⟨heffect.returned, fun hfd r ↦ heffect.zero_iff hfd, heffect.consumes⟩
  · intro count hcount huser hcurrent hfd
    obtain ⟨y, hy, -, hrequested, hread⟩ :=
      readFd_effect hsound.inv hsound.flow (Sys.inUser_iff.1 huser) hcount hreadable
    refine ⟨y, (if_pos ⟨huser, hcurrent⟩).trans hy, ?_⟩
    rintro (hreq | ⟨hnil, hw⟩)
    · exact hrequested hfd hreq
    · by_cases hreq : x.eofRequest = true
      · exact hrequested hfd hreq
      · exact (hread hfd (Bool.eq_false_iff.2 hreq)).of_ended hfd hnil hw

/-- A reader that is woken by a NUL and finds a request, and then reads a byte between NULs. -/
theorem readFd_correct_request : ∃ x : FdReader, x.returned = [⟨4, 0, []⟩, ⟨4, 1, [7]⟩] ∧
    (∀ r ∈ x.returned, Fits r) ∧
    x.returned.flatMap (·.bytes) ++ strip x.sys.pipe.buffer.contents =
      strip (x.sys.stream.map Prod.snd) ∧
    (∀ e y, e.Asks → step 3 x e = some y →
      (y.returned = x.returned ∨ ∃ r, y.returned = x.returned ++ [r]) ∧
      (x.fd ≠ none → ∀ r, y.returned = x.returned ++ [r] →
        (r.result = 0 ↔ x.Consumes y ∨ x.Ended)) ∧
      (y.fd ≠ none → x.Consumes y → ∃ r, y.returned = x.returned ++ [r] ∧ r.result = 0)) ∧
    ∀ count, 0 < count → x.sys.inUser = true → x.sys.procs.currentPID = 3 → x.fd ≠ none →
      ∃ y, step 3 x (.readFd count) = some y ∧
        (x.eofRequest = true ∨ x.sys.pipe.buffer.contents = [] ∧ x.sys.pipe.writerCount ≤ 0 →
          y.returned = x.returned ++ [⟨count, 0, []⟩]) := by
  let es : List Event := [.pipe (.sys (.create 3)), .pipe (.sys (.dispatch 3)), .readFd 4,
    .requestEof, .pipe (.sys (.dispatch 2)), .pipe (.sys (.write [0])),
    .pipe (.sys (.dispatch 3)), .pipe (.sys .resume), .pipe (.sys (.dispatch 2)),
    .pipe (.write [0, 7, 0]), .pipe (.sys (.dispatch 3)), .readFd 4]
  have hrun : (run (step 3) (init (fun _ ↦ 0) 2 FILE_READ) es).map FdReader.returned =
      some [⟨4, 0, []⟩, ⟨4, 1, [7]⟩] := by decide +kernel
  obtain ⟨x, hx, hreturned⟩ := Option.map_eq_some_iff.1 hrun
  exact ⟨x, hreturned, readFd_correct (fun _ ↦ 0) (by decide) (by decide) (.inl rfl)
    (.of_run hx (.of_forall (by decide) _))⟩

end FdReader

end BareBones.IPC
