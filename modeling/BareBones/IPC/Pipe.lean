import BareBones.IPC.CircularBuffer
import BareBones.Lib.Run
import BareBones.Semaphores.Semaphore

/-!
# Pipes

The model of the blocking half of `IPC/pipe.c`, run by the processes of a kernel.
A system call runs with interrupts off, so between two blocking points it is a
function; a process that blocks in a `semWait` leaves a continuation `Cont` behind
that says where it will go on.

The scheduler is reduced to what a pipe can see of it: any process that is `READY`
may be dispatched at any time, which allows at least the schedules of the real one.
A process holds the pipe open for writing through `FileAccess` objects, which
processes share by inheritance; `writeEnds` lists, for each such object, the pids
whose descriptors refer to it.  Of the heap a pipe sees one thing: whether there is room for
the node of a queue when a process blocks, which `stepOn` is told with each event.

`stream`, `calls`, `results` and `fullWrites` record the history of a run and are
never read by the code.
-/

namespace BareBones.IPC

open BareBones.Lib BareBones.Process BareBones.Semaphores

/-- `PIPE_BUF_SIZE` -/
def PIPE_BUF_SIZE : Nat := 1024

/-- The semaphores of a pipe. -/
inductive PipeSem
  | dataAvailable
  | freeSpaces
  | readMutex
  | writeMutex
deriving DecidableEq, Repr

/-- `pipeCDT`, without the reference count that decides when it is freed. -/
structure Pipe where
  buffer : CircularBuffer
  sem : PipeSem → Sem
  writerCount : Int

/-- `newPipe` -/
def newPipe (data : Nat → UInt8) : Pipe where
  buffer := newBuffer data PIPE_BUF_SIZE
  sem
    | .dataAvailable => newSemaphore 0
    | .freeSpaces => newSemaphore PIPE_BUF_SIZE
    | .readMutex => newSemaphore 1
    | .writeMutex => newSemaphore 1
  writerCount := 0

/-- Where a process is inside the pipe. -/
inductive Cont
  /-- Outside. -/
  | user
  /-- In `semWait(p->dataAvailable)` of a read of `count` bytes. -/
  | readData (count : Nat)
  /-- In `semWait(p->readMutex)` of a read of `count` bytes. -/
  | readMutex (count : Nat)
  /-- In `semWait(p->writeMutex)` of a write of `buf`. -/
  | writeMutex (call : Nat) (buf : List UInt8)
  /-- In `semWait(p->freeSpaces)` of a write of `buf`, after `n` bytes of it. -/
  | writeSlot (call : Nat) (buf : List UInt8) (n : Nat)
deriving DecidableEq, Repr

/-- The semaphore a process waits for. -/
def Cont.waitsOn : Cont → Option PipeSem
  | user => none
  | readData _ => some .dataAvailable
  | readMutex _ => some .readMutex
  | writeMutex _ _ => some .writeMutex
  | writeSlot _ _ _ => some .freeSpaces

/-- A process, as far as the pipe is concerned. -/
structure Proc where
  state : State
  cont : Cont
deriving DecidableEq, Repr

/-- The process table, and whether the heap has room for a node of a queue. -/
structure Procs where
  table : Int → Option Proc
  currentPID : Int
  nodes : Bool

namespace Procs

/-- Overwrite a slot of the table. -/
def set (ps : Procs) (pid : Int) (pr : Proc) : Procs :=
  { ps with table := fun q ↦ if q = pid then some pr else ps.table q }

/-- `setState` -/
def setState (ps : Procs) (pid : Int) (st : State) : Procs :=
  match ps.table pid with
  | some pr => ps.set pid { pr with state := st }
  | none => ps

/-- Record where a process is. -/
def setCont (ps : Procs) (pid : Int) (c : Cont) : Procs :=
  match ps.table pid with
  | some pr => ps.set pid { pr with cont := c }
  | none => ps

instance : Scheduler Procs where
  getCurrentPID ps := ps.currentPID
  setCurrentBlocked ps := ps.setState ps.currentPID .BLOCKED
  setReady pid ps :=
    if invalidPID pid then none
    else
      match ps.table pid with
      | none => none
      | some pr => if pr.state ≠ .BLOCKED then none
        else some (ps.set pid { pr with state := .READY })
  hasNode ps := ps.nodes

end Procs

/-- A completed read. -/
structure ReadResult where
  pid : Int
  /-- How many bytes were asked for. -/
  count : Nat
  /-- The bytes that were returned. -/
  bytes : List UInt8
deriving DecidableEq, Repr

/-- A pipe and its processes. -/
structure Sys where
  pipe : Pipe
  procs : Procs
  writeEnds : List (List Int)
  /-- The buffers passed to `pipeWrite`, in the order of the calls. -/
  calls : List (List UInt8)
  /-- The bytes written to the pipe, each with the number of its call. -/
  stream : List (Nat × UInt8)
  /-- The reads that have returned. -/
  results : List ReadResult
  /-- How often `bufferWrite` was tried on a full buffer. -/
  fullWrites : Nat

namespace Sys

/-- Overwrite a semaphore of the pipe. -/
def setSem (s : Sys) (x : PipeSem) (sem : Sem) : Sys :=
  { s with pipe := { s.pipe with sem := fun y ↦ if y = x then sem else s.pipe.sem y } }

/-- `semWait`; the flag says whether the caller is now blocked. -/
def wait (s : Sys) (x : PipeSem) : Sys × Bool :=
  let (sem, procs, mustBlock) := semWait (s.pipe.sem x) s.procs
  ({ s with procs := procs }.setSem x sem, mustBlock)

/-- `semPost` -/
def post (s : Sys) (x : PipeSem) : Sys :=
  let (sem, procs) := semPost (s.pipe.sem x) s.procs
  { s with procs := procs }.setSem x sem

/-- Overwrite the buffer of the pipe. -/
def setBuffer (s : Sys) (cb : CircularBuffer) : Sys :=
  { s with pipe := { s.pipe with buffer := cb } }

/-- The running process stops inside the pipe. -/
def suspend (s : Sys) (c : Cont) : Sys :=
  { s with procs := s.procs.setCont s.procs.currentPID c }

/-- A read of the running process returns. -/
def returnRead (s : Sys) (count : Nat) (bytes : List UInt8) : Sys :=
  { s with results := s.results ++ [⟨s.procs.currentPID, count, bytes⟩] }

/-! ## Reading -/

/-- `drainBuffer` -/
def drainBuffer : Nat → Sys → Sys × List UInt8
  | 0, s => (s, [])
  | count + 1, s =>
      if bufferHasData s.pipe.buffer then
        let (cb, c) := bufferRead s.pipe.buffer
        let (s, cs) := drainBuffer count ((s.setBuffer cb).post .freeSpaces)
        (s, c :: cs)
      else (s, [])

/-- The loop body of `pipeReadBlocking` once `readMutex` is taken. -/
def afterReadMutex (loop : Sys → Option Sys) (count : Nat) (s : Sys) : Option Sys :=
  if bufferHasData s.pipe.buffer then
    let (s, bytes) := drainBuffer count s
    let s := if bufferHasData s.pipe.buffer then s.post .dataAvailable else s
    some ((s.post .readMutex).returnRead count bytes)
  else if s.pipe.writerCount ≤ 0 then some ((s.post .readMutex).returnRead count [])
  else loop (s.post .readMutex)

/-- The loop body of `pipeReadBlocking` once `dataAvailable` is taken. -/
def afterDataAvailable (loop : Sys → Option Sys) (count : Nat) (s : Sys) : Option Sys :=
  let (s, mustBlock) := s.wait .readMutex
  if mustBlock then some (s.suspend (.readMutex count)) else afterReadMutex loop count s

/-- The loop of `pipeReadBlocking`.  Every round takes a token of `dataAvailable`, so
that with one unit of fuel more than there are tokens it never runs out. -/
def readLoop (count : Nat) : Nat → Sys → Option Sys
  | 0, _ => none
  | fuel + 1, s =>
      let (s, mustBlock) := s.wait .dataAvailable
      if mustBlock then some (s.suspend (.readData count))
      else afterDataAvailable (readLoop count fuel) count s

/-- The fuel for the loops: one round for each token and one more. -/
def fuel (s : Sys) (x : PipeSem) : Nat := (s.pipe.sem x).tokens + 1

/-- `pipeReadBlocking` -/
def pipeReadBlocking (s : Sys) (count : Nat) : Option Sys :=
  if !bufferHasData s.pipe.buffer ∧ s.pipe.writerCount ≤ 0 then some (s.returnRead count [])
  else readLoop count (s.fuel .dataAvailable) s

/-- `pipeRead` in blocking mode -/
def pipeRead (s : Sys) (count : Nat) : Option Sys :=
  if count = 0 then some (s.returnRead 0 []) else pipeReadBlocking s count

/-! ## Writing -/

/-- The loop body of `pipeWrite` once a slot is taken. -/
def afterFreeSpaces (loop : Nat → Sys → Option Sys) (call : Nat) (buf : List UInt8) (n : Nat)
    (s : Sys) : Option Sys :=
  let wasEmpty := !bufferHasData s.pipe.buffer
  let (cb, written) := bufferWrite s.pipe.buffer (buf.getD n 0)
  if written then
    let s := { s.setBuffer cb with stream := s.stream ++ [(call, buf.getD n 0)] }
    loop (n + 1) (if wasEmpty then s.post .dataAvailable else s)
  else loop n { s with fullWrites := s.fullWrites + 1 }

/-- The loop of `pipeWrite` and what follows it.  Every round takes a slot. -/
def writeLoop (call : Nat) (buf : List UInt8) : Nat → Nat → Sys → Option Sys
  | 0, _, _ => none
  | fuel + 1, n, s =>
      if n < buf.length then
        let (s, mustBlock) := s.wait .freeSpaces
        if mustBlock then some (s.suspend (.writeSlot call buf n))
        else afterFreeSpaces (writeLoop call buf fuel) call buf n s
      else some (s.post .writeMutex)

/-- `pipeWrite` in blocking mode -/
def pipeWrite (s : Sys) (buf : List UInt8) : Option Sys :=
  let call := s.calls.length
  let (s, mustBlock) := { s with calls := s.calls ++ [buf] }.wait .writeMutex
  if mustBlock then some (s.suspend (.writeMutex call buf))
  else writeLoop call buf (s.fuel .freeSpaces) 0 s

/-- What a process does when it runs again after a `semWait` it was blocked in. -/
def continueAt (s : Sys) : Cont → Option Sys
  | .user => none
  | .readData count => afterDataAvailable (readLoop count (s.fuel .dataAvailable)) count s
  | .readMutex count => afterReadMutex (readLoop count (s.fuel .dataAvailable)) count s
  | .writeMutex call buf => writeLoop call buf (s.fuel .freeSpaces) 0 s
  | .writeSlot call buf n =>
      afterFreeSpaces (writeLoop call buf (s.fuel .freeSpaces)) call buf n s

/-! ## Write ends -/

/-- `forceReadersWakeUp` -/
def forceReadersWakeUp : Nat → Sys → Sys
  | 0, s => s
  | count + 1, s => forceReadersWakeUp count (s.post .dataAvailable)

/-- `addPipeWriter` -/
def addPipeWriter (s : Sys) : Sys :=
  { s with pipe := { s.pipe with writerCount := s.pipe.writerCount + 1 } }

/-- `removePipeWriter` -/
def removePipeWriter (s : Sys) : Sys :=
  let s := { s with pipe := { s.pipe with writerCount := s.pipe.writerCount - 1 } }
  if s.pipe.writerCount ≤ 0 then forceReadersWakeUp MAX_PROCESSES.toNat s else s

/-- The process has a descriptor that writes to the pipe. -/
def Holds (s : Sys) (pid : Int) : Prop := ∃ e ∈ s.writeEnds, pid ∈ e

instance (s : Sys) (pid : Int) : Decidable (s.Holds pid) :=
  inferInstanceAs (Decidable (∃ e ∈ s.writeEnds, pid ∈ e))

/-- `closeFd` of one descriptor that refers to write end `i`: the `FileAccess` is
freed with its last reference. -/
def closeFd (s : Sys) (pid : Int) (i : Nat) : Option Sys :=
  match s.writeEnds[i]? with
  | none => none
  | some e =>
      if pid ∉ e then none
      else if e.erase pid = [] then
        some (removePipeWriter { s with writeEnds := s.writeEnds.eraseIdx i })
      else some { s with writeEnds := s.writeEnds.set i (e.erase pid) }

/-- `closeAllFDs`, on the write ends of the pipe: the process has left the ends in
`kept`, and the others are still to come. -/
def closeAllFDs (pid : Int) : List (List Int) → List (List Int) → Sys → Sys
  | _, [], s => s
  | kept, e :: es, s =>
      if e.filter (· ≠ pid) = [] then
        closeAllFDs pid kept es (removePipeWriter { s with writeEnds := kept ++ es })
      else
        closeAllFDs pid (kept ++ [e.filter (· ≠ pid)]) es
          { s with writeEnds := kept ++ e.filter (· ≠ pid) :: es }

/-! ## The system -/

/-- What can happen. -/
inductive Event
  /-- The scheduler switches to a process. -/
  | dispatch (pid : Int)
  /-- The running process calls `pipeRead`. -/
  | read (count : Nat)
  /-- The running process calls `pipeWrite`. -/
  | write (buf : List UInt8)
  /-- The running process goes on after a `semWait` it was blocked in. -/
  | resume
  /-- The running process creates a process, which inherits its descriptors. -/
  | create (pid : Int)
  /-- The running process clones a write end: `reopenFd`. -/
  | reopen
  /-- The running process closes a descriptor that refers to write end `i`. -/
  | close (i : Nat)
  /-- A process dies: `terminateProcess` or `killFromIsr`. -/
  | kill (pid : Int)
  /-- A dead process is reaped, which frees its pid. -/
  | reap (pid : Int)
deriving DecidableEq, Repr

/-- The running process, if it is in state `RUNNING`. -/
def running (s : Sys) : Option Proc :=
  (s.procs.table s.procs.currentPID).filter fun pr ↦ pr.state = .RUNNING

/-- The running process, if it is outside the pipe. -/
def inUser (s : Sys) : Bool := s.running.any fun pr ↦ pr.cont = .user

/-- The scheduler takes the processor from the running process. -/
def preempt (s : Sys) : Sys :=
  if s.running.isSome then
    { s with procs := s.procs.setState s.procs.currentPID .READY }
  else s

/-- One event. -/
def step (s : Sys) : Event → Option Sys
  | .dispatch pid =>
      match s.preempt.procs.table pid with
      | none => none
      | some pr =>
          if pr.state ≠ .READY then none
          else some { s.preempt with
            procs := { s.preempt.procs.set pid { pr with state := .RUNNING } with
              currentPID := pid } }
  | .read count => if s.inUser then pipeRead s count else none
  | .write buf => if s.inUser ∧ s.Holds s.procs.currentPID then pipeWrite s buf else none
  | .resume =>
      match s.running with
      | none => none
      | some pr => continueAt (s.suspend .user) pr.cont
  | .create pid =>
      if !s.inUser ∨ invalidPID pid ∨ pid = IDLE_PID ∨ (s.procs.table pid).isSome then none
      else some { s with
        procs := s.procs.set pid ⟨.READY, .user⟩
        writeEnds := s.writeEnds.map fun e ↦
          e ++ List.replicate (e.count s.procs.currentPID) pid }
  | .reopen =>
      if s.inUser ∧ s.Holds s.procs.currentPID then
        some (addPipeWriter { s with writeEnds := s.writeEnds ++ [[s.procs.currentPID]] })
      else none
  | .close i => if s.inUser then closeFd s s.procs.currentPID i else none
  | .kill pid =>
      match s.procs.table pid with
      | none => none
      | some pr =>
          if pr.state = .ZOMBIE then none
          else
            let s := closeAllFDs pid [] s.writeEnds s
            some { s with procs := s.procs.setState pid .ZOMBIE }
  | .reap pid =>
      match s.procs.table pid with
      | none => none
      | some pr =>
          if pr.state ≠ .ZOMBIE then none
          else some { s with procs := { s.procs with
            table := fun q ↦ if q = pid then none else s.procs.table q } }

/-- The heap has room for a node of a queue, or not. -/
def withNodes (s : Sys) (nodes : Bool) : Sys := { s with procs := { s.procs with nodes := nodes } }

/-- One event, and what `mem_alloc` answers if the event blocks a process, which needs a node in
the queue of the semaphore.  An event that blocks nobody asks for nothing. -/
def stepOn (s : Sys) (x : Event × Bool) : Option Sys := (s.withNodes x.2).step x.1

/-- The system when `creator` has just opened the pipe with `sysPipe`. -/
def init (data : Nat → UInt8) (creator : Int) : Sys where
  pipe := { newPipe data with writerCount := 1 }
  procs := ⟨fun pid ↦ if pid = creator then some ⟨.RUNNING, .user⟩ else none, creator, true⟩
  writeEnds := [[creator]]
  calls := []
  stream := []
  results := []
  fullWrites := 0

end Sys

end BareBones.IPC
