import BareBones.IPC.PipeStream

/-!
# Nonblocking access to a pipe

The other half of `pipe.c`: `pipeRead` and `pipeWrite` with `nonblocking`, among processes whose
calls block.  A nonblocking call looks at the buffer before it waits for bytes or for slots, but
it takes `readMutex` and `writeMutex` with the same `semWait` as the others.

`readMutex` is only held between two blocking points, so nobody ever waits for it.  `writeMutex`
is held by a writer that waits for a slot, and by one that was woken and has not run since.
Hence a nonblocking read always returns, and **a nonblocking write returns exactly when
`writeMutex` has a token** (`nonblocking_returns_iff`); when it has the lock, it has a slot for
every byte that it writes.
-/

namespace BareBones.IPC

open BareBones.Lib BareBones.Process BareBones.Semaphores

/-- `PIPE_WOULD_BLOCK` -/
def PIPE_WOULD_BLOCK : Int := -2

namespace Sys

namespace Nonblocking

/-! ## Reading

A call comes to the pipe that it leaves, with what it has returned unless it waits. -/

/-- `pipeReadNonblocking` once `readMutex` is taken -/
def afterReadMutex (count : Nat) (s : Sys) : Sys × Option Int :=
  if !bufferHasData s.pipe.buffer then
    ((s.post .readMutex).returnRead count [],
      some (if s.pipe.writerCount > 0 then PIPE_WOULD_BLOCK else 0))
  else
    let (s, bytes) := drainBuffer count s
    ((s.post .readMutex).returnRead count bytes, some bytes.length)

/-- `pipeReadNonblocking` -/
def pipeReadNonblocking (s : Sys) (count : Nat) : Sys × Option Int :=
  if !bufferHasData s.pipe.buffer then
    (s.returnRead count [], some (if s.pipe.writerCount > 0 then PIPE_WOULD_BLOCK else 0))
  else
    let (s, mustBlock) := s.wait .readMutex
    if mustBlock then (s.suspend (.readMutex count), none) else afterReadMutex count s

/-- `pipeRead` in nonblocking mode -/
def pipeRead (s : Sys) (count : Nat) : Sys × Option Int :=
  if count = 0 then (s.returnRead 0 [], some 0) else pipeReadNonblocking s count

/-! ## Writing -/

/-- The loop body of `pipeWrite` once a slot is taken. -/
def afterFreeSpaces (loop : Nat → Sys → Option (Sys × Option Int)) (call : Nat)
    (buf : List UInt8) (n : Nat) (s : Sys) : Option (Sys × Option Int) :=
  let wasEmpty := !bufferHasData s.pipe.buffer
  let (cb, written) := bufferWrite s.pipe.buffer (buf.getD n 0)
  if written then
    let s := { s.setBuffer cb with stream := s.stream ++ [(call, buf.getD n 0)] }
    loop (n + 1) (if wasEmpty then s.post .dataAvailable else s)
  else loop n { s with fullWrites := s.fullWrites + 1 }

/-- The loop of `pipeWrite` and what follows it, in nonblocking mode. -/
def writeLoop (call : Nat) (buf : List UInt8) : Nat → Nat → Sys → Option (Sys × Option Int)
  | 0, _, _ => none
  | fuel + 1, n, s =>
      if n < buf.length then
        if bufferIsFull s.pipe.buffer then
          some (s.post .writeMutex, some (if n > 0 then (n : Int) else PIPE_WOULD_BLOCK))
        else
          let (s, mustBlock) := s.wait .freeSpaces
          if mustBlock then some (s.suspend (.writeSlot call buf n), none)
          else afterFreeSpaces (writeLoop call buf fuel) call buf n s
      else some (s.post .writeMutex, some n)

/-- `pipeWrite` in nonblocking mode -/
def pipeWrite (s : Sys) (buf : List UInt8) : Option (Sys × Option Int) :=
  let call := s.calls.length
  let (s, mustBlock) := { s with calls := s.calls ++ [buf] }.wait .writeMutex
  if mustBlock then some (s.suspend (.writeMutex call buf), none)
  else writeLoop call buf (s.fuel .freeSpaces) 0 s

/-- What a process does when it runs again after a `semWait` that it was blocked in during a
nonblocking call, which does not wait for data. -/
def continueAt (s : Sys) : Cont → Option (Sys × Option Int)
  | .user | .readData _ => none
  | .readMutex count => some (afterReadMutex count s)
  | .writeMutex call buf => writeLoop call buf (s.fuel .freeSpaces) 0 s
  | .writeSlot call buf n => afterFreeSpaces (writeLoop call buf (s.fuel .freeSpaces)) call buf n s

end Nonblocking

end Sys

/-! ## The system -/

/-- A pipe whose callers may choose not to block. -/
structure Mixed where
  sys : Sys
  /-- The last call of the process was nonblocking. -/
  nonblocking : Int → Bool

namespace Mixed

open Sys (Nonblocking.pipeRead Nonblocking.pipeWrite Nonblocking.continueAt)

/-- What can happen. -/
inductive Event
  /-- What can happen when all calls block. -/
  | sys (e : Sys.Event)
  /-- The running process calls `pipeRead` in nonblocking mode. -/
  | read (count : Nat)
  /-- The running process calls `pipeWrite` in nonblocking mode. -/
  | write (buf : List UInt8)
deriving DecidableEq, Repr

/-- The running process calls in this mode. -/
def setMode (m : Mixed) (nonblocking : Bool) : Mixed :=
  { m with nonblocking := Function.update m.nonblocking m.sys.procs.currentPID nonblocking }

/-- The process that goes on does so in the mode of its call. -/
def resume (m : Mixed) : Option Mixed :=
  if m.nonblocking m.sys.procs.currentPID then
    match m.sys.running with
    | none => none
    | some pr =>
        (Sys.Nonblocking.continueAt (m.sys.suspend .user) pr.cont).map fun r ↦
          { m with sys := r.1 }
  else (m.sys.step .resume).map fun s ↦ { m with sys := s }

/-- One event. -/
def step (m : Mixed) : Event → Option Mixed
  | .sys .resume => m.resume
  | .sys (.read count) =>
      (m.sys.step (.read count)).map fun s ↦ { m.setMode false with sys := s }
  | .sys (.write buf) =>
      (m.sys.step (.write buf)).map fun s ↦ { m.setMode false with sys := s }
  | .sys e => (m.sys.step e).map fun s ↦ { m with sys := s }
  | .read count =>
      if m.sys.inUser then
        some { m.setMode true with sys := (Sys.Nonblocking.pipeRead m.sys count).1 }
      else none
  | .write buf =>
      if m.sys.inUser ∧ m.sys.Holds m.sys.procs.currentPID then
        (Sys.Nonblocking.pipeWrite m.sys buf).map fun r ↦ { m.setMode true with sys := r.1 }
      else none

/-- One event, and what `mem_alloc` answers if the event blocks a process. -/
def stepOn (m : Mixed) (x : Event × Bool) : Option Mixed :=
  { m with sys := m.sys.withNodes x.2 }.step x.1

/-- The system when `creator` has just opened the pipe. -/
def init (data : Nat → UInt8) (creator : Int) : Mixed := ⟨Sys.init data creator, fun _ ↦ false⟩

/-- No process inside the pipe is killed. -/
def Event.KillsOutside (m : Mixed) : Event → Prop
  | .sys e => e.KillsOutside m.sys
  | _ => True

end Mixed

/-! ## What the calls return -/

namespace Sys

/-- A nonblocking read is over: its caller runs on, with the oldest bytes, as many as were asked
for, and the result is their number, or says that there are none yet, or none any more. -/
structure ReadReturns (s : Sys) (count : Nat) (x : Sys × Option Int) : Prop where
  running : x.1.Running
  current : x.1.procs.currentPID = s.procs.currentPID
  results : x.1.results =
    s.results ++ [⟨s.procs.currentPID, count, s.pipe.buffer.contents.take count⟩]
  buffer : x.1.pipe.buffer.contents = s.pipe.buffer.contents.drop count
  result : x.2 = some (if count = 0 then 0
    else if s.pipe.buffer.contents ≠ [] then ((s.pipe.buffer.contents.take count).length : Int)
    else if s.pipe.writerCount > 0 then PIPE_WOULD_BLOCK else 0)

/-- How much of a write there is room for. -/
def fits (s : Sys) (buf : List UInt8) : Nat := min buf.length (PIPE_BUF_SIZE - s.pipe.buffer.count)

/-- A nonblocking write is over: its caller runs on, with as many bytes written as there was room
for, and the result is their number, or says that there was none. -/
structure WriteReturns (s : Sys) (buf : List UInt8) (x : Sys × Option Int) : Prop where
  running : x.1.Running
  current : x.1.procs.currentPID = s.procs.currentPID
  stream : x.1.stream = s.stream ++ (buf.take (s.fits buf)).map (s.calls.length, ·)
  buffer : x.1.pipe.buffer.contents = s.pipe.buffer.contents ++ buf.take (s.fits buf)
  result : x.2 = some (if s.fits buf = 0 ∧ buf ≠ [] then PIPE_WOULD_BLOCK else s.fits buf)

/-- A process is between taking and posting `writeMutex`: it waits for a slot, or it was woken and
has not run since. -/
def Occupied (s : Sys) : Prop := ∃ q sh, s.shape q = some sh ∧ Owns sh

/-- `writeMutex` has a token unless a process has taken it. -/
theorem Phase.token_iff {s : Sys} (h : s.Phase false) :
    0 < (s.pipe.sem .writeMutex).value ↔ ¬s.Occupied := by
  have hnone : ∀ qs, s.pipe.sem .writeMutex = Sem.waiting qs →
      ¬0 < (s.pipe.sem .writeMutex).value := by
    intro qs hqs
    rw [hqs, Sem.waiting_value]
    omega
  cases h with
  | idle hm _ hno =>
      refine iff_of_true (by rw [hm]; decide) ?_
      rintro ⟨q, sh, hq, howns⟩
      exact hno q sh hq howns
  | entering qs p _ _ hm _ hsole =>
      exact iff_of_false (hnone qs hm) (not_not.2 ⟨p, _, hsole.shape, rfl⟩)
  | full qs p _ _ _ hm _ _ _ hsole | granted qs p _ _ _ hm _ _ hsole =>
      exact iff_of_false (hnone qs hm) (not_not.2 ⟨p, _, hsole.shape, trivial⟩)

/-- A writer that has the lock finds a slot if there is room. -/
theorem Phase.slot {s : Sys} (h : s.Phase true) (hroom : s.pipe.buffer.count < PIPE_BUF_SIZE) :
    0 < (s.pipe.sem .freeSpaces).value := by
  cases h with
  | writing qs hm hslots hno =>
      rw [hslots.sem]
      simp only
      omega

namespace Nonblocking

variable {strict : Prop} {s t : Sys} {pr : Proc} {count call n fuel : Nat} {buf : List UInt8}
  {cb : CircularBuffer}

/-! ### Reads -/

theorem drainBuffer_of_empty (h : bufferHasData s.pipe.buffer = false) (count : Nat) :
    drainBuffer count s = (s, []) := by
  cases count with
  | zero => rfl
  | succ count => simp [drainBuffer, h]

/-- **`readMutex` never blocks.** -/
theorem pipeReadNonblocking_eq (h : s.pipe.sem .readMutex = ⟨1, []⟩) :
    pipeReadNonblocking s count =
      ((drainBuffer count s).1.returnRead count (drainBuffer count s).2,
        some (if bufferHasData s.pipe.buffer then ((drainBuffer count s).2.length : Int)
          else if s.pipe.writerCount > 0 then PIPE_WOULD_BLOCK else 0)) := by
  unfold pipeReadNonblocking
  cases hdata : bufferHasData s.pipe.buffer with
  | false => simp [drainBuffer_of_empty hdata]
  | true =>
      have hlocked : s.wait .readMutex = (s.setSem .readMutex ⟨0, []⟩, false) := by
        simp [wait, semWait, h]
      have hdrain : (drainBuffer count s).1.pipe.sem .readMutex = ⟨1, []⟩ := by
        rw [drainBuffer_sem (by decide), h]
      have hunlock : ((drainBuffer count s).1.setSem .readMutex ⟨0, []⟩).post .readMutex =
          (drainBuffer count s).1 := by
        simp only [post, setSem_self, semPost, wakeFirst, setSem_procs]
        exact (setSem_setSem _ .readMutex _ _).trans (setSem_eq_self hdrain)
      simp [hlocked, afterReadMutex, hdata, drainBuffer_setSem_comm, hunlock]

/-- **A nonblocking read returns.** -/
theorem pipeRead_returns (h : Inv strict s) (hrun : s.Running) (count : Nat) :
    s.ReadReturns count (pipeRead s count) := by
  by_cases hzero : count = 0
  · subst hzero
    rw [pipeRead, if_pos rfl]
    exact ⟨hrun, rfl, rfl, rfl, rfl⟩
  obtain ⟨hinv, hrun', hframe⟩ := h.drainBuffer hrun count
  obtain ⟨htake, hdrop⟩ := h.drainBuffer_contents count
  rw [pipeRead, if_neg hzero, pipeReadNonblocking_eq h.good.mutex]
  refine ⟨hrun', hframe.current, ?_, hdrop, ?_⟩
  · simp only [returnRead, hframe.results, hframe.current, htake]
  · have hcontents : s.pipe.buffer.contents ≠ [] ↔ bufferHasData s.pipe.buffer = true := by
      rw [Ne, CircularBuffer.contents_eq_nil, CircularBuffer.hasData_iff, Nat.pos_iff_ne_zero]
    simp only [if_neg hzero, hcontents, htake]

/-- A nonblocking read keeps the bytes. -/
theorem bytes_pipeRead (h : BytesInv false s) (hinv : Inv True s) (hrun : s.Running) (count : Nat) :
    Inv True (pipeRead s count).1 ∧ BytesInv false (pipeRead s count).1 := by
  unfold pipeRead
  split
  next => exact ⟨hinv.returnRead 0 [], h.returnNothing 0⟩
  next =>
    obtain ⟨hinv', -, -⟩ := hinv.drainBuffer hrun count
    obtain ⟨hclean, hphase⟩ := h.drainBuffer hinv hrun count
    rw [pipeReadNonblocking_eq hinv.good.mutex]
    exact ⟨hinv'.returnRead _ _, ⟨hclean.queued, hclean.zombie⟩,
      hphase.congr rfl rfl rfl fun _ _ _ ↦ Iff.rfl, h.bytes.returnRead hinv hrun rfl rfl rfl⟩

/-! ### Writes -/

/-- `afterFreeSpaces` writes the next byte if there is room for it. -/
theorem afterFreeSpaces_of_write (loop : Nat → Sys → Option (Sys × Option Int))
    (hwrite : bufferWrite s.pipe.buffer (buf.getD n 0) = (cb, true)) :
    afterFreeSpaces loop call buf n s = loop (n + 1) (s.written cb call (buf.getD n 0)) := by
  simp only [afterFreeSpaces, hwrite, if_true, written]

theorem written_stream (s : Sys) (cb : CircularBuffer) (call : Nat) (c : UInt8) :
    (s.written cb call c).stream = s.stream ++ [(call, c)] := by
  unfold written
  split <;> rfl

theorem written_buffer (s : Sys) (cb : CircularBuffer) (call : Nat) (c : UInt8) :
    (s.written cb call c).pipe.buffer = cb := by
  unfold written
  split <;> rfl

theorem written_currentPID (hinv : Inv True s) (hcb : cb.Wf)
    (hsize : cb.maxSize = s.pipe.buffer.maxSize) {c : UInt8} :
    (s.written cb call c).procs.currentPID = s.procs.currentPID := by
  unfold written
  split
  · exact post_currentPID _ ((hinv.setBuffer hcb hsize).good.congr rfl rfl rfl) _
  · rfl

/-- What a write has come to when it has written `N` bytes of `buf`, the first `n` of them before
it was in the state `s`. -/
structure WriteDone (s : Sys) (call : Nat) (buf : List UInt8) (n N : Nat) (x : Sys × Option Int) :
    Prop where
  inv : Inv True x.1
  bytes : BytesInv false x.1
  running : x.1.Running
  current : x.1.procs.currentPID = s.procs.currentPID
  stream : x.1.stream = s.stream ++ ((buf.take N).drop n).map (call, ·)
  buffer : x.1.pipe.buffer.contents = s.pipe.buffer.contents ++ (buf.take N).drop n
  result : x.2 = some (if N = 0 ∧ buf ≠ [] then PIPE_WOULD_BLOCK else N)

/-- The writer gives the lock back. -/
theorem WriteDone.unlock (h : BytesInv true s) (hinv : Inv True s) (hrun : s.Running) {r : Int}
    (hr : r = if n = 0 ∧ buf ≠ [] then PIPE_WOULD_BLOCK else n) :
    WriteDone s call buf n n (s.post .writeMutex, some r) where
  inv := hinv.post (by decide)
  bytes := h.unlock hinv
  running := hrun.post hinv.good _
  current := post_currentPID s hinv.good _
  stream := by simp
  buffer := by simp
  result := by rw [hr]

/-- A byte more was written on the way. -/
theorem WriteDone.byte {N : Nat} {x : Sys × Option Int} {c : UInt8} (hN : n < N)
    (hget : buf[n]? = some c) (h : WriteDone t call buf (n + 1) N x)
    (hcurrent : t.procs.currentPID = s.procs.currentPID)
    (hstream : t.stream = s.stream ++ [(call, c)])
    (hbuffer : t.pipe.buffer.contents = s.pipe.buffer.contents ++ [c]) :
    WriteDone s call buf n N x := by
  have hdrop : (buf.take N).drop n = c :: (buf.take N).drop (n + 1) := by
    obtain ⟨hlt, hc⟩ :=
      List.getElem?_eq_some_iff.1 ((List.getElem?_take_of_lt hN).trans hget)
    rw [List.drop_eq_getElem_cons hlt, hc]
  refine ⟨h.inv, h.bytes, h.running, h.current.trans hcurrent, ?_, ?_, h.result⟩
  · rw [h.stream, hstream, hdrop, List.append_assoc]
    rfl
  · rw [h.buffer, hbuffer, hdrop, List.append_assoc]
    rfl

/-- **A writer that has the lock has a slot for every byte that there is room for.** -/
theorem writeLoop_done (fuel n : Nat) (hfuel : (s.pipe.sem .freeSpaces).tokens < fuel)
    (hinv : Inv True s) (hrun : s.Running) (hholds : s.Holds s.procs.currentPID)
    (h : BytesInv true s) (hn : n ≤ buf.length) {N : Nat}
    (hN : N = min buf.length (n + (PIPE_BUF_SIZE - s.pipe.buffer.count))) :
    ∃ x, writeLoop call buf fuel n s = some x ∧ WriteDone s call buf n N x := by
  induction fuel generalizing s n with
  | zero => exact absurd hfuel (Nat.not_lt_zero _)
  | succ fuel ih =>
      rw [writeLoop]
      by_cases hlt : n < buf.length
      · have hbuf : buf ≠ [] := List.ne_nil_of_length_pos (by omega)
        rw [if_pos hlt]
        by_cases hfull : bufferIsFull s.pipe.buffer = true
        · -- The buffer is full, and the call gives up.
          have hcount := (CircularBuffer.isFull_iff.1 hfull).trans hinv.good.size
          have hNn : N = n := by omega
          subst hNn
          rw [if_pos hfull]
          refine ⟨_, rfl, .unlock h hinv hrun ?_⟩
          by_cases hzero : N = 0
          · rw [if_neg (Nat.not_lt.2 hzero.le), if_pos ⟨hzero, hbuf⟩]
          · rw [if_pos (Nat.pos_of_ne_zero hzero), if_neg fun hboth ↦ hzero hboth.1]
        · -- There is room, so the lock's holder finds a slot.
          have hroom : s.pipe.buffer.count < s.pipe.buffer.maxSize :=
            lt_of_le_of_ne hinv.good.buffer.count_le fun heq ↦
              hfull (CircularBuffer.isFull_iff.2 heq)
          have hroom' : s.pipe.buffer.count < PIPE_BUF_SIZE := hinv.good.size ▸ hroom
          have hpos := h.phase.slot hroom'
          have hwait : s.wait .freeSpaces =
              (s.setSem .freeSpaces ⟨(s.pipe.sem .freeSpaces).value - 1, []⟩, false) := by
            rcases wait_spec (hinv.good.wf .freeSpaces) hrun hinv.good.nodes with
              ⟨-, hwait⟩ | ⟨hneg, -⟩
            · exact hwait
            · exact absurd hpos (not_lt.2 hneg)
          obtain ⟨cb, hwrite, hwf, hcontents, hsize, hcount⟩ :=
            hinv.good.buffer.write hroom (buf.getD n 0)
          have htake := hinv.take (x := .freeSpaces) (by decide) hpos
          obtain ⟨hinv', hrun', hholds'⟩ :=
            htake.written_running hrun hholds hwf hsize call (buf.getD n 0)
          have hget : buf[n]? = some (buf.getD n 0) := by
            rw [List.getD_eq_getElem?_getD, List.getElem?_eq_getElem hlt, Option.getD_some]
          rw [if_neg hfull, hwait]
          simp only [Bool.false_eq_true, if_false]
          rw [afterFreeSpaces_of_write _ (s := s.setSem _ _) hwrite]
          have hfuel' : (((s.setSem .freeSpaces ⟨(s.pipe.sem .freeSpaces).value - 1, []⟩).written cb
              call (buf.getD n 0)).pipe.sem .freeSpaces).tokens < fuel := by
            rw [written_freeSpaces, setSem_self]
            simp only [Sem.tokens] at hfuel ⊢
            omega
          have hN' : N = min buf.length (n + 1 + (PIPE_BUF_SIZE - ((s.setSem .freeSpaces
              ⟨(s.pipe.sem .freeSpaces).value - 1, []⟩).written cb call
                (buf.getD n 0)).pipe.buffer.count)) := by
            rw [written_buffer, hcount]
            omega
          obtain ⟨x, hx, hdone⟩ := ih (n + 1) hfuel' hinv' hrun' hholds'
            (h.byte hinv hpos hwf hsize hcontents) hlt hN'
          refine ⟨x, hx, hdone.byte (by omega) hget ?_ (written_stream _ _ _ _) ?_⟩
          · exact written_currentPID (s := s.setSem _ _) htake hwf hsize
          · rw [written_buffer, hcontents]
      · have hNn : N = n := by omega
        subst hNn
        rw [if_neg hlt]
        refine ⟨_, rfl, .unlock h hinv hrun (if_neg fun hboth ↦ hboth.2 ?_).symm⟩
        exact List.eq_nil_of_length_eq_zero (by omega)

/-- A write that has its lock is over when its loop is. -/
theorem WriteDone.returns {x : Sys × Option Int} {s₀ : Sys}
    (h : WriteDone s s₀.calls.length buf 0 (s₀.fits buf) x)
    (hcurrent : s.procs.currentPID = s₀.procs.currentPID) (hstream : s.stream = s₀.stream)
    (hbuffer : s.pipe.buffer = s₀.pipe.buffer) : s₀.WriteReturns buf x where
  running := h.running
  current := h.current.trans hcurrent
  stream := by rw [h.stream, hstream, List.drop_zero]
  buffer := by rw [h.buffer, hbuffer, List.drop_zero]
  result := h.result

/-- `pipeWrite`, up to the point where it has `writeMutex` or waits for it. -/
theorem pipeWrite_outcome (h : Inv strict s) (hrun : s.Running) (buf : List UInt8) :
    let r : Sys := { s with calls := s.calls ++ [buf] }
    (0 < (s.pipe.sem .writeMutex).value ∧ pipeWrite s buf =
      writeLoop s.calls.length buf (r.fuel .freeSpaces) 0
        (r.setSem .writeMutex ⟨(s.pipe.sem .writeMutex).value - 1, []⟩)) ∨
    ((s.pipe.sem .writeMutex).value ≤ 0 ∧ pipeWrite s buf =
      some (r.blockOn .writeMutex (.writeMutex s.calls.length buf), none)) := by
  intro r
  have hwf : (r.pipe.sem .writeMutex).Wf := h.good.wf _
  have hcur : r.procs.table r.procs.currentPID = some ⟨.RUNNING, .user⟩ := hrun
  rcases wait_spec hwf hcur h.good.nodes with ⟨hpos, hwait⟩ | ⟨hneg, s', hwait, hsusp⟩
  · refine .inl ⟨hpos, ?_⟩
    simp only [pipeWrite, r] at hwait ⊢
    rw [hwait]
    rfl
  · refine .inr ⟨hneg, ?_⟩
    simp only [pipeWrite, r] at hwait ⊢
    rw [hwait, if_pos rfl, hsusp]

/-- With the lock a nonblocking write is done, -/
theorem pipeWrite_done (h : BytesInv false s) (hinv : Inv True s) (hrun : s.Running)
    (hholds : s.Holds s.procs.currentPID) (buf : List UInt8)
    (hpos : 0 < (s.pipe.sem .writeMutex).value) :
    ∃ x, pipeWrite s buf = some x ∧ Inv True x.1 ∧ BytesInv false x.1 ∧ s.WriteReturns buf x := by
  have hcalls := hinv.setCalls (s.calls ++ [buf])
  rcases pipeWrite_outcome hinv hrun buf with ⟨-, hwrite⟩ | ⟨hneg, -⟩
  · have hfits : s.fits buf = min buf.length (0 + (PIPE_BUF_SIZE - s.pipe.buffer.count)) := by
      rw [fits, zero_add]
    obtain ⟨x, hx, hdone⟩ := writeLoop_done _ 0 (Nat.lt_succ_self _)
      (hcalls.take (x := .writeMutex) (by decide) hpos) hrun hholds ((h.setCalls _).lock hpos)
      (Nat.zero_le _) hfits
    exact ⟨x, hwrite.trans hx, hdone.inv, hdone.bytes, hdone.returns rfl rfl rfl⟩
  · exact absurd hpos (not_lt.2 hneg)

/-- and without it, it waits. -/
theorem pipeWrite_waits (hinv : Inv True s) (hrun : s.Running) (buf : List UInt8)
    (hneg : (s.pipe.sem .writeMutex).value ≤ 0) :
    pipeWrite s buf = some (({ s with calls := s.calls ++ [buf] } : Sys).blockOn .writeMutex
      (.writeMutex s.calls.length buf), none) := by
  rcases pipeWrite_outcome hinv hrun buf with ⟨hpos, -⟩ | ⟨-, hwrite⟩
  · exact absurd hpos (not_lt.2 hneg)
  · exact hwrite

/-- **A nonblocking write returns if and only if it gets the lock at once.** -/
theorem pipeWrite_returns_iff (h : BytesInv false s) (hinv : Inv True s) (hrun : s.Running)
    (hholds : s.Holds s.procs.currentPID) (buf : List UInt8) :
    (∃ x, pipeWrite s buf = some x ∧ s.WriteReturns buf x) ↔
      0 < (s.pipe.sem .writeMutex).value := by
  constructor
  · rintro ⟨x, hx, hreturns⟩
    by_contra hneg
    rw [pipeWrite_waits hinv hrun buf (not_lt.1 hneg)] at hx
    cases hx
    cases hreturns.result
  · intro hpos
    obtain ⟨x, hx, -, -, hreturns⟩ := pipeWrite_done h hinv hrun hholds buf hpos
    exact ⟨x, hx, hreturns⟩

/-- A nonblocking write keeps the bytes, whether it returns or waits. -/
theorem bytes_pipeWrite (h : BytesInv false s) (hinv : Inv True s) (hrun : s.Running)
    (hholds : s.Holds s.procs.currentPID) {x : Sys × Option Int}
    (hx : pipeWrite s buf = some x) : Inv True x.1 ∧ BytesInv false x.1 := by
  by_cases hpos : 0 < (s.pipe.sem .writeMutex).value
  · obtain ⟨y, hy, hinv', hbytes', -⟩ := pipeWrite_done h hinv hrun hholds buf hpos
    cases hy.symm.trans hx
    exact ⟨hinv', hbytes'⟩
  · rw [pipeWrite_waits hinv hrun buf (not_lt.1 hpos)] at hx
    cases hx
    have hcalls := hinv.setCalls (s.calls ++ [buf])
    exact ⟨hcalls.blockOn hrun (by decide) rfl fun _ ↦ hholds,
      (h.setCalls _).blockOn_writeMutex hcalls hrun (not_lt.1 hpos) _ _⟩

/-- A process that goes on in a nonblocking call keeps the bytes. -/
theorem bytes_continueAt (h : BytesInv false s) (hinv : Inv True s) (hpr : s.running = some pr)
    {x : Sys × Option Int} (hx : continueAt (s.suspend .user) pr.cont = some x) :
    Inv True x.1 ∧ BytesInv false x.1 := by
  obtain ⟨hinv', hrun, hholds⟩ := hinv.resume hpr
  cases hcont : pr.cont with
  | user | readData _ =>
      rw [hcont] at hx
      cases hx
  | readMutex count =>
      have hcur := (running_eq_some.mp hpr).1
      exact absurd (by rw [hcont]; rfl) (hinv.good.noMutex _ pr hcur)
  | writeMutex call buf =>
      rw [hcont] at hx hholds
      obtain ⟨y, hy, hdone⟩ := writeLoop_done _ 0 (Nat.lt_succ_self _) hinv' hrun
        (hholds trivial) (h.resume_writeMutex hinv hpr hcont) (Nat.zero_le _) rfl
      cases hy.symm.trans hx
      exact ⟨hdone.inv, hdone.bytes⟩
  | writeSlot call buf n =>
      rw [hcont] at hx hholds
      obtain ⟨hn, hfull, hbyte⟩ := h.resume_writeSlot hinv hpr hcont
      have hroom : (s.suspend .user).pipe.buffer.count < (s.suspend .user).pipe.buffer.maxSize :=
        lt_of_le_of_ne hinv.good.buffer.count_le hfull
      obtain ⟨cb, hwrite, hwf, hcontents, hsize, -⟩ :=
        hinv'.good.buffer.write hroom (buf.getD n 0)
      obtain ⟨hinv', hrun', hholds'⟩ :=
        hinv'.written_running hrun (hholds trivial) hwf hsize call (buf.getD n 0)
      rw [continueAt, afterFreeSpaces_of_write _ hwrite] at hx
      obtain ⟨y, hy, hdone⟩ := writeLoop_done _ (n + 1)
        (by rw [written_freeSpaces]; exact Nat.lt_succ_self _) hinv' hrun' hholds'
        (hbyte cb _ hwf hcontents hsize) hn rfl
      cases hy.symm.trans hx
      exact ⟨hdone.inv, hdone.bytes⟩

end Nonblocking

end Sys

/-! ## Runs -/

namespace Mixed

open Sys (Inv BytesInv)

variable {m m' : Mixed}

/-- What holds between two events. -/
structure Sound (m : Mixed) : Prop where
  inv : Inv True m.sys
  bytes : BytesInv false m.sys

/-- An event of a pipe whose calls block. -/
theorem Sound.sys {e : Sys.Event} {s : Sys} (h : m.Sound) (hok : e.KillsOutside m.sys)
    (hs : m.sys.step e = some s) (f : Int → Bool) : Sound ⟨s, f⟩ :=
  ⟨Sys.inv_step h.inv (fun _ ↦ h.bytes.fresh h.inv hs) hs, Sys.bytesInv_step h.bytes h.inv hok hs⟩

/-- **Every event keeps the invariant.** -/
theorem Sound.step {e : Event} (h : m.Sound) (hok : e.KillsOutside m)
    (hstep : m.step e = some m') : m'.Sound := by
  cases e with
  | sys e =>
      by_cases hresume : e = .resume ∧ m.nonblocking m.sys.procs.currentPID = true
      · obtain ⟨rfl, hmode⟩ := hresume
        simp only [Mixed.step, resume, if_pos hmode] at hstep
        split at hstep
        · cases hstep
        next pr hpr =>
          obtain ⟨x, hx, rfl⟩ := Option.map_eq_some_iff.1 hstep
          obtain ⟨hinv, hbytes⟩ := Sys.Nonblocking.bytes_continueAt h.bytes h.inv hpr hx
          exact ⟨hinv, hbytes⟩
      · have hsys : ∃ s f, m.sys.step e = some s ∧ m' = ⟨s, f⟩ := by
          cases e with
          | resume =>
              have hmode : ¬m.nonblocking m.sys.procs.currentPID = true := fun h ↦ hresume ⟨rfl, h⟩
              simp only [Mixed.step, resume, if_neg hmode] at hstep
              obtain ⟨s, hs, rfl⟩ := Option.map_eq_some_iff.1 hstep
              exact ⟨s, _, hs, rfl⟩
          | _ =>
              obtain ⟨s, hs, rfl⟩ := Option.map_eq_some_iff.1 hstep
              exact ⟨s, _, hs, rfl⟩
        obtain ⟨s, f, hs, rfl⟩ := hsys
        exact h.sys hok hs f
  | read count =>
      simp only [Mixed.step] at hstep
      split at hstep
      next huser =>
        cases hstep
        obtain ⟨hinv, hbytes⟩ :=
          Sys.Nonblocking.bytes_pipeRead h.bytes h.inv (Sys.inUser_iff.1 huser) count
        exact ⟨hinv, hbytes⟩
      · cases hstep
  | write buf =>
      simp only [Mixed.step] at hstep
      split at hstep
      next huser =>
        obtain ⟨x, hx, rfl⟩ := Option.map_eq_some_iff.1 hstep
        obtain ⟨hinv, hbytes⟩ :=
          Sys.Nonblocking.bytes_pipeWrite h.bytes h.inv (Sys.inUser_iff.1 huser.1) huser.2 hx
        exact ⟨hinv, hbytes⟩
      · cases hstep

theorem sound_reach {data : Nat → UInt8} {creator : Int} (hvalid : ¬invalidPID creator)
    (hidle : creator ≠ IDLE_PID)
    (hreach : Reach step (fun m e ↦ e.KillsOutside m) (init data creator) m) : m.Sound := by
  refine hreach.invariant ⟨Sys.inv_init data hvalid hidle, ?_⟩ fun m e m' h hok hstep ↦
    h.step hok hstep
  exact (Sys.streamInv_init data creator).toBytes

/-- A run in which everyone who blocks gets its node is a run on a heap that always has room. -/
theorem reach_of_nodes {data : Nat → UInt8} {creator : Int} (hvalid : ¬invalidPID creator)
    (hidle : creator ≠ IDLE_PID)
    (hreach : Reach stepOn (fun m x ↦ x.1.KillsOutside m ∧ x.2 = true) (init data creator) m) :
    Reach step (fun m e ↦ e.KillsOutside m) (init data creator) m := by
  induction hreach with
  | refl => exact .refl
  | @tail t u x _ hok hstep ih =>
      obtain ⟨hok, hnode⟩ := hok
      have hnodes := (sound_reach hvalid hidle ih).inv.good.nodes
      have hsame : t.sys.withNodes true = t.sys := by
        rw [Sys.withNodes, ← hnodes]
      rw [stepOn, hnode, hsame] at hstep
      exact .tail ih hok hstep

/-- **Nonblocking access.**  In every run in which no process inside the pipe is killed and
everyone who blocks gets its node, a nonblocking read returns, and a nonblocking write returns if
and only if no process is between taking and posting `writeMutex`. -/
theorem nonblocking_returns_iff (data : Nat → UInt8) {creator : Int}
    (hvalid : ¬invalidPID creator) (hidle : creator ≠ IDLE_PID)
    (hreach : Reach stepOn (fun m x ↦ x.1.KillsOutside m ∧ x.2 = true) (init data creator) m)
    (hrun : m.sys.inUser = true) :
    (∀ count, m.sys.ReadReturns count (Sys.Nonblocking.pipeRead m.sys count)) ∧
      ∀ buf, m.sys.Holds m.sys.procs.currentPID →
        ((∃ x, Sys.Nonblocking.pipeWrite m.sys buf = some x ∧ m.sys.WriteReturns buf x) ↔
          ¬m.sys.Occupied) := by
  obtain ⟨hinv, hbytes⟩ := sound_reach hvalid hidle (reach_of_nodes hvalid hidle hreach)
  have hrunning := Sys.inUser_iff.1 hrun
  refine ⟨Sys.Nonblocking.pipeRead_returns hinv hrunning, fun buf hholds ↦ ?_⟩
  rw [Sys.Nonblocking.pipeWrite_returns_iff hbytes hinv hrunning hholds buf,
    hbytes.phase.token_iff]

/-- A nonblocking write of three bytes, and another process that is to read them. -/
theorem nonblocking_returns_three :
    ∃ m : Mixed, m.sys.pipe.buffer.count = 3 ∧
      (∀ count, m.sys.ReadReturns count (Sys.Nonblocking.pipeRead m.sys count)) ∧
      ∀ buf, m.sys.Holds m.sys.procs.currentPID →
        ((∃ x, Sys.Nonblocking.pipeWrite m.sys buf = some x ∧ m.sys.WriteReturns buf x) ↔
          ¬m.sys.Occupied) := by
  let es : List (Event × Bool) :=
    [(.sys (.create 3), true), (.write [7, 8, 9], true), (.sys (.dispatch 3), true)]
  have hrun : (run stepOn (init (fun _ ↦ 0) 2) es).map (fun m : Mixed ↦
      decide (m.sys.pipe.buffer.count = 3 ∧ m.sys.inUser = true)) = some true := by decide +kernel
  obtain ⟨m, hm, hobs⟩ := Option.map_eq_some_iff.mp hrun
  obtain ⟨hcount, huser⟩ := of_decide_eq_true hobs
  have hguard : Guarded stepOn (fun m x ↦ x.1.KillsOutside m ∧ x.2 = true)
      (init (fun _ ↦ 0) 2) es :=
    ⟨⟨trivial, rfl⟩, fun _ _ ↦ ⟨⟨trivial, rfl⟩, fun _ _ ↦ ⟨⟨trivial, rfl⟩, fun _ _ ↦ trivial⟩⟩⟩
  exact ⟨m, hcount, nonblocking_returns_iff (fun _ ↦ 0) (by decide) (by decide)
    (.of_run hm hguard) huser⟩

/-- A blocking write of 1025 bytes waits for a slot with `writeMutex`, and a nonblocking write of
one byte waits for `writeMutex`. -/
theorem nonblocking_write_waits :
    ∃ m, Reach stepOn (fun m x ↦ x.1.KillsOutside m ∧ x.2 = true) (init (fun _ ↦ 0) 2) m ∧
      m.sys.inUser = true ∧
      m.sys.Holds m.sys.procs.currentPID ∧
      ¬∃ x, Sys.Nonblocking.pipeWrite m.sys [7] = some x ∧ m.sys.WriteReturns [7] x := by
  let es : List (Event × Bool) := [(.sys (.create 3), true),
    (.sys (.write (List.replicate 1025 7)), true), (.sys (.dispatch 3), true)]
  have hrun : (run stepOn (init (fun _ ↦ 0) 2) es).map (fun m : Mixed ↦
      decide (m.sys.inUser = true ∧ m.sys.Holds m.sys.procs.currentPID ∧
        (Sys.Nonblocking.pipeWrite m.sys [7]).map Prod.snd = some none)) = some true := by
    decide +kernel
  obtain ⟨m, hm, hobs⟩ := Option.map_eq_some_iff.mp hrun
  obtain ⟨huser, hholds, hwaits⟩ := of_decide_eq_true hobs
  have hguard : Guarded stepOn (fun m x ↦ x.1.KillsOutside m ∧ x.2 = true)
      (init (fun _ ↦ 0) 2) es :=
    ⟨⟨trivial, rfl⟩, fun _ _ ↦ ⟨⟨trivial, rfl⟩, fun _ _ ↦ ⟨⟨trivial, rfl⟩, fun _ _ ↦ trivial⟩⟩⟩
  refine ⟨m, .of_run hm hguard, huser, hholds, ?_⟩
  rintro ⟨x, hx, hreturns⟩
  rw [hx, Option.map_some, hreturns.result] at hwaits
  cases Option.some.inj hwaits

end Mixed

end BareBones.IPC
