import BareBones.Lib.Run
import BareBones.Semaphores.Semaphore

/-!
# The kernel

The model of `process_contextswitch/scheduler.c` and of what it uses of `process.c`: the
process table, the ready queue, the hierarchy of the processes and the two semaphores
`terminated` and `childTerminated` that each process owns, together with the semaphores
that user processes share.

System calls and interrupt handlers run with interrupts off, so each one is a function of
the state, up to a `semWait` that blocks: there the caller leaves a continuation `Cont`
behind, and `Event.resume` goes on from it once the process is the running one again.
`wait_any` is different: `init` runs inside the kernel with interrupts on, and may be
preempted between its `semWait` and its `pollQueue`.

`wait_any` is two steps here, up to its `pollQueue` and from there on: no interrupt comes inside
them.  `BareBones.Process.Spinlocks` takes them apart.

A process control block is identified by a number `inst` that is never used again, as its
address would be if the heap reused no memory; a pid is only the index of a slot.  Where
the code would follow a pointer to a block that has been freed, or to none, a step is
`none`: so it is when a `wait_pid` goes on whose process had a parent that was freed meanwhile.

`nodes` says for what `mem_alloc` finds room: one more node of a queue, or what a new process
needs.  `newProcess` does not look whether it has got the queues and the semaphores; a process
that lacks one is outside of the model, and there is no step that creates it.  A counter of a
semaphore is an `int`, and a number of any size here: the tokens of a process are at most as many
as the processes that have died and are still in the table, and a semaphore that user processes
share has as many as they have posted and nobody has taken.

The field `log` and the last fields of `SemRec` record history; the code never reads them.
-/

namespace BareBones.Process

open BareBones.Lib BareBones.Semaphores

/-- The semaphores of the kernel: two in each process control block, and those that user
processes create. -/
inductive SemId
  | terminated (inst : Nat)
  | childTerminated (inst : Nat)
  | user (n : Nat)
deriving DecidableEq, Repr

/-- Where a process is inside the kernel. -/
inductive Cont
  /-- Outside: it may make any system call. -/
  | user
  /-- In a `semWait` of a semaphore that user processes share. -/
  | semWait (n : Nat)
  /-- In the `semWait` of `wait_pid(pid)`, with the two pointers it has read: the process
  and, if there was one, its parent. -/
  | waitPid (pid : Int) (inst : Nat) (parent : Option (Int × Nat))
  /-- In the `semWait` of `wait_any`. -/
  | waitAny
  /-- In `wait_any`, after `semWait`. -/
  | polling
  /-- In the loop at the end of `sys_exit`. -/
  | exited
deriving DecidableEq, Repr

/-- The parent that the process has read in `wait_pid`. -/
def Cont.parentRead : Cont → Option (Int × Nat)
  | .waitPid _ _ parent => parent
  | .user | .semWait _ | .waitAny | .polling | .exited => none

/-- `processCDT`, without the stack, the arguments, the name and the descriptors. -/
structure ProcessCDT where
  inst : Nat
  ppid : Int
  state : State
  priorityLevel : Nat
  remainingQuantums : Nat
  children : List Int
  terminatedChildren : List Int
  cont : Cont
deriving DecidableEq, Repr

/-- The semaphore a process waits for, if it is inside a `semWait`. -/
def ProcessCDT.waitsOn (p : ProcessCDT) : Option SemId :=
  match p.cont with
  | .semWait n => some (.user n)
  | .waitPid _ inst _ => some (.terminated inst)
  | .waitAny => some (.childTerminated p.inst)
  | .user | .polling | .exited => none

/-- The process has not been terminated. -/
def ProcessCDT.Live (p : ProcessCDT) : Prop := p.state ≠ .ZOMBIE

instance (p : ProcessCDT) : Decidable p.Live := inferInstanceAs (Decidable (_ ≠ _))

/-- A semaphore with its history. -/
structure SemRec where
  sem : Sem
  initial : Int
  /-- The number of `semPost` calls. -/
  posts : Nat
  /-- The number of tokens that waits and successful `semTryWait` calls have taken. -/
  grants : Nat
  /-- The number of `semWait` calls that have returned and of successful `semTryWait`s. -/
  returned : Nat
  /-- The pids that a post has woken and that have not returned from `semWait` since. -/
  pending : List Int
deriving DecidableEq, Repr

/-- A semaphore that was just created. -/
def SemRec.new (value : Int) : SemRec := ⟨newSemaphore value, value, 0, 0, 0, []⟩

/-- What `mem_alloc` is asked for: a node of one of the queues, or what a new process needs. -/
inductive Node
  | readyQueue
  | blockedQueue
  | children
  | terminatedChildren
  /-- The control block, the stack and the arguments of a new process. -/
  | process
  /-- Its two queues and its two semaphores. -/
  | objects
deriving DecidableEq, Repr

/-- A `semPost`, with the process it woke as the post found it. -/
structure PostRecord where
  id : SemId
  woken : Option (Int × ProcessCDT)
deriving DecidableEq, Repr

/-- A call of `reapProcess` that freed a process. -/
structure ReapRecord where
  pid : Int
  process : ProcessCDT
  /-- It was `currentProcess`. -/
  current : Bool
  /-- Its pid was in `readyQueue`. -/
  queued : Bool
  /-- The process that `wait_pid` was called on, if `wait_pid` made the call. -/
  expected : Option Nat
  /-- The processes that were blocked in `wait_pid` for the process. -/
  waiters : List Int
deriving DecidableEq, Repr

/-- A call of `notifyTermination` that has come to its end: the process and its parent, and how
often it has posted `terminated` of the one and `childTerminated` of the other, and put the pid into
the queue `terminatedChildren`. -/
structure NoticeRecord where
  process : Nat
  parent : Nat
  terminated : Nat
  childTerminated : Nat
  entries : Nat
deriving DecidableEq, Repr

/-- The process was announced, and the parent was told of it, once. -/
def NoticeRecord.Complete (n : NoticeRecord) : Prop :=
  n.terminated = 1 ∧ n.childTerminated = 1 ∧ n.entries = 1

/-- The history of a run. -/
structure Log where
  posts : List PostRecord
  reaps : List ReapRecord
  /-- The calls of `notifyTermination`: the process and its parent. -/
  notified : List (Nat × Nat)
  /-- What they have done. -/
  notices : List NoticeRecord
  /-- The number of times that `pollQueue` found `terminatedChildren` empty. -/
  emptyPolls : Nat
deriving DecidableEq, Repr

/-- The state of the kernel. -/
structure Kernel where
  processTable : Int → Option ProcessCDT
  foregroundSet : Int → Bool
  /-- The pid of the block that `currentProcess` points to, and the block. -/
  currentProcess : Option (Int × Nat)
  readyQueue : List Int
  schedulerEnabled : Bool
  sems : SemId → SemRec
  nodes : Node → Bool
  nextInst : Nat
  nextSem : Nat
  log : Log

namespace Kernel

/-- Change the process in a slot, if there is one. -/
def modify (k : Kernel) (pid : Int) (f : ProcessCDT → ProcessCDT) : Kernel :=
  { k with processTable := fun q ↦ if q = pid then (k.processTable q).map f
      else k.processTable q }

/-- Overwrite a semaphore. -/
def setSem (k : Kernel) (id : SemId) (r : SemRec) : Kernel :=
  { k with sems := fun j ↦ if j = id then r else k.sems j }

/-- The state of the process in a slot. -/
def stateOf (k : Kernel) (pid : Int) : Option State := (k.processTable pid).map ProcessCDT.state

/-- `setState` -/
def setState (k : Kernel) (pid : Int) (st : State) : Kernel :=
  k.modify pid fun p ↦ { p with state := st }

/-- Record where a process is. -/
def setCont (k : Kernel) (pid : Int) (c : Cont) : Kernel :=
  k.modify pid fun p ↦ { p with cont := c }

/-- `enqueue`, which does nothing without a node. -/
def enqueue (k : Kernel) (node : Node) (queue : List Int) (pid : Int) : List Int :=
  if k.nodes node then queue ++ [pid] else queue

/-- `enqueue(readyQueue, pid)` -/
def enqueueReady (k : Kernel) (pid : Int) : Kernel :=
  { k with readyQueue := k.enqueue .readyQueue k.readyQueue pid }

/-- `addChild` -/
def addChild (k : Kernel) (parent childPid : Int) : Kernel :=
  k.modify parent fun p ↦ { p with children := k.enqueue .children p.children childPid }

/-- `removeChild` -/
def removeChild (k : Kernel) (parent childPid : Int) : Kernel :=
  k.modify parent fun p ↦ { p with children := p.children.filter (· ≠ childPid) }

/-- `enqueue(getTerminatedChildren(parent), pid)` -/
def enqueueTerminated (k : Kernel) (parent pid : Int) : Kernel :=
  k.modify parent fun p ↦
    { p with terminatedChildren := k.enqueue .terminatedChildren p.terminatedChildren pid }

/-! ## States of processes -/

/-- `getCurrentPID` -/
def getCurrentPID (k : Kernel) : Int :=
  match k.currentProcess with
  | some (pid, _) => pid
  | none => -1

/-- `setCurrentBlocked` -/
def setCurrentBlocked (k : Kernel) : Kernel :=
  match k.currentProcess with
  | some (pid, _) => k.setState pid .BLOCKED
  | none => k

/-- `isUnkillable` -/
def isUnkillable (pid : Int) : Prop := pid = IDLE_PID ∨ pid = INIT_PID

instance (pid : Int) : Decidable (isUnkillable pid) := inferInstanceAs (Decidable (_ ∨ _))

/-- `setBlocked`; like the functions below, it is `none` where the code returns `-1`. -/
def setBlocked (pid : Int) (k : Kernel) : Option Kernel :=
  if invalidPID pid then none
  else
    match k.processTable pid with
    | none => none
    | some p =>
        if isUnkillable pid then none
        else if p.state ≠ .RUNNING ∧ p.state ≠ .READY then none
        else if p.state = .READY then
          some ({ k with readyQueue := k.readyQueue.filter (· ≠ pid) }.setState pid .BLOCKED)
        else some (k.setState pid .BLOCKED)

/-- `setReady` -/
def setReady (pid : Int) (k : Kernel) : Option Kernel :=
  if invalidPID pid then none
  else
    match k.processTable pid with
    | none => none
    | some p =>
        if p.state ≠ .BLOCKED then none else some ((k.enqueueReady pid).setState pid .READY)

/-- `setPriorityOnPID` -/
def setPriorityOnPID (pid : Int) (priority : UInt8) (k : Kernel) : Option Kernel :=
  if invalidPID pid then none
  else if k.processTable pid = none ∨ priority = 0 then none
  else some (k.modify pid fun p ↦
    { p with priorityLevel := priority.toNat, remainingQuantums := priority.toNat })

/-- `addToFG` -/
def addToFG (pid : Int) (k : Kernel) : Option Kernel :=
  if invalidPID pid then none
  else if k.processTable pid = none ∨ k.foregroundSet pid then none
  else some { k with foregroundSet := fun q ↦ if q = pid then true else k.foregroundSet q }

instance : Scheduler Kernel where
  getCurrentPID := getCurrentPID
  setCurrentBlocked := setCurrentBlocked
  setReady := setReady
  hasNode k := k.nodes .blockedQueue

/-! ## Semaphores -/

/-- `semPost`.  The process it woke is the one whose state has changed. -/
def post (k : Kernel) (id : SemId) : Kernel :=
  let r := k.sems id
  let (sem, k') := semPost r.sem k
  let woken := r.sem.blockedQueue.find? fun pid ↦ k'.stateOf pid ≠ k.stateOf pid
  { k'.setSem id { r with
      sem := sem
      posts := r.posts + 1
      grants := r.grants + woken.toList.length
      pending := r.pending ++ woken.toList } with
    log := { k'.log with posts := k'.log.posts ++
      [⟨id, woken.bind fun pid ↦ (k.processTable pid).map fun p ↦ (pid, p)⟩] } }

/-- `semWait`, up to the call of the scheduler; the flag is `mustBlock`. -/
def wait (k : Kernel) (id : SemId) : Kernel × Bool :=
  let r := k.sems id
  let (sem, k', mustBlock) := semWait r.sem k
  if mustBlock then (k'.setSem id { r with sem := sem }, true)
  else
    (k'.setSem id { r with sem := sem, grants := r.grants + 1, returned := r.returned + 1 }, false)

/-- `semTryWait`; the flag is `got == 0`. -/
def tryWait (k : Kernel) (id : SemId) : Kernel × Bool :=
  let r := k.sems id
  let (sem, got) := semTryWait r.sem
  if got then
    (k.setSem id { r with sem := sem, grants := r.grants + 1, returned := r.returned + 1 }, true)
  else (k, false)

/-- A process returns from the `semWait` it was blocked in. -/
def returnFrom (k : Kernel) (id : SemId) (pid : Int) : Kernel :=
  let r := k.sems id
  k.setSem id { r with returned := r.returned + 1, pending := r.pending.erase pid }

/-! ## The scheduler -/

/-- `getNextPID` -/
def getNextPID (k : Kernel) : Int × Kernel :=
  match k.readyQueue with
  | [] => (IDLE_PID, k)
  | pid :: queue => (pid, { k with readyQueue := queue })

/-- The end of `schedule`: the next process runs, on a fresh quantum of which the first
tick is used. -/
def dispatch (k : Kernel) : Option Kernel :=
  let (nextPid, k) := k.getNextPID
  match k.processTable nextPid with
  | none => none
  | some p =>
      some { k.modify nextPid fun p ↦
          { p with state := .RUNNING, remainingQuantums := p.priorityLevel - 1 } with
        currentProcess := some (nextPid, p.inst) }

/-- The block that `currentProcess` points to, if it has not been freed. -/
def current (k : Kernel) : Option (Int × ProcessCDT) :=
  match k.currentProcess with
  | none => none
  | some (pid, inst) =>
      match k.processTable pid with
      | none => none
      | some p => if p.inst = inst then some (pid, p) else none

/-- `schedule` -/
def schedule (k : Kernel) : Option Kernel :=
  if ¬k.schedulerEnabled then some k
  else if k.currentProcess = none then k.dispatch
  else
    match k.current with
    | none => none
    | some (pid, p) =>
        if p.state = .RUNNING then
          if p.remainingQuantums > 0 then
            some (k.modify pid fun p ↦ { p with remainingQuantums := p.remainingQuantums - 1 })
          else ((k.setState pid .READY).enqueueReady pid).dispatch
        else k.dispatch

/-! ## Creation -/

/-- `findFreePid` -/
def findFreePid (k : Kernel) : Option Int :=
  ((List.range MAX_PROCESSES.toNat).map Int.ofNat).find? fun i ↦ (k.processTable i).isNone

/-- `newProcess`: a fresh control block, with its queues and semaphores. -/
def newProcess (k : Kernel) (priorityLevel : Nat) : Option ProcessCDT :=
  if k.nodes .process then
    some ⟨k.nextInst, INIT_PID, .READY, priorityLevel, priorityLevel, [], [], .user⟩
  else none

/-- `startNewProcessWithPid` -/
def startNewProcessWithPid (priorityLevel : Nat) (pid : Int) (k : Kernel) : Option Kernel :=
  if invalidPID pid then none
  else if k.processTable pid ≠ none then none
  else
    match k.newProcess priorityLevel with
    | none => none
    | some process =>
        let (ppid, k) :=
          match k.currentProcess with
          | some (cur, _) => if cur ≠ IDLE_PID then (cur, k.addChild cur pid) else (INIT_PID, k)
          | none => (INIT_PID, k)
        some ({ k with
          nextInst := k.nextInst + 1
          processTable := fun q ↦
            if q = pid then some { process with ppid := ppid } else k.processTable q
          }.enqueueReady pid)

/-- `startNewProcess` -/
def startNewProcess (priorityLevel : Nat) (k : Kernel) : Option Kernel :=
  match k.findFreePid with
  | none => none
  | some pid => k.startNewProcessWithPid priorityLevel pid

/-- `sys_create_process`.  There is no step to a process that lacks a queue or a semaphore. -/
def sysCreateProcess (k : Kernel) : Option Kernel :=
  match k.startNewProcess 1 with
  | none => some k
  | some k' => if k.nodes .objects then some k' else none

/-! ## Termination -/

/-- One round of the loop of `transferOrphanChildren`. -/
def transferOrphan (initProc : Nat) (k : Kernel) (childPid : Int) : Kernel :=
  if invalidPID childPid then k
  else
    match k.processTable childPid with
    | none => k
    | some child =>
        let k := (k.addChild INIT_PID childPid).modify childPid fun p ↦
          { p with ppid := INIT_PID }
        if child.state = .ZOMBIE then
          (k.enqueueTerminated INIT_PID childPid).post (.childTerminated initProc)
        else k

/-- `transferOrphanChildren` -/
def transferOrphanChildren (k : Kernel) (pid : Int) : Kernel :=
  match k.processTable INIT_PID, k.processTable pid with
  | some initProc, some p =>
      (p.children.foldl (transferOrphan initProc.inst) k).modify pid fun p ↦
        { p with children := [] }
  | _, _ => k

/-- How often a pid is in the queue `terminatedChildren` of the process in a slot. -/
def entries (k : Kernel) (parent pid : Int) : Nat :=
  ((k.processTable parent).map fun p ↦ p.terminatedChildren.count pid).getD 0

/-- Record what `notifyTermination` has done, if `before` is the state that it was called in. -/
def recordNotice (k before : Kernel) (process parent : Nat) (ppid pid : Int) : Kernel :=
  let posts (id : SemId) : Nat := (k.sems id).posts - (before.sems id).posts
  { k with log := { k.log with notices := k.log.notices ++ [⟨process, parent,
      posts (.terminated process), posts (.childTerminated parent),
      k.entries ppid pid - before.entries ppid pid⟩] } }

/-- `notifyTermination` -/
def notifyTermination (k : Kernel) (process parent : ProcessCDT) (ppid pid : Int) : Kernel :=
  let before := k
  let k := k.setState pid .ZOMBIE
  let k := { k with
    readyQueue := k.readyQueue.filter (· ≠ pid)
    log := { k.log with notified := k.log.notified ++ [(process.inst, parent.inst)] } }
  let k :=
    ((k.post (.terminated process.inst)).post (.childTerminated parent.inst)).enqueueTerminated
    ppid pid
  k.recordNotice before process.inst parent.inst ppid pid

/-- `closeFdsOf`, of which only the posts matter here: `closed` lists the semaphores of the
pipes that lose their last writer. -/
def closeFdsOf (k : Kernel) (closed : List Nat) : Kernel :=
  closed.foldl (fun k n ↦ k.post (.user n)) k

/-- What `terminateProcess` and `killFromIsr` share: all but the call of the scheduler. -/
def terminate (pid : Int) (closed : List Nat) (k : Kernel) : Option Kernel :=
  if invalidPID pid then none
  else if isUnkillable pid then none
  else
    match k.processTable pid with
    | none => none
    | some process =>
        if invalidPID process.ppid then none
        else
          match k.processTable process.ppid with
          | none => none
          | some parent =>
              let k := k.closeFdsOf closed
              let k := { k with
                foregroundSet := fun q ↦ if q = pid then false else k.foregroundSet q }
              let k := k.notifyTermination process parent process.ppid pid
              some (k.transferOrphanChildren pid)

/-- `killFromIsr` -/
def killFromIsr (pid : Int) (closed : List Nat) (k : Kernel) : Kernel :=
  (k.terminate pid closed).getD k

/-- `terminateProcess` -/
def terminateProcess (pid : Int) (closed : List Nat) (k : Kernel) : Option Kernel :=
  match k.terminate pid closed with
  | none => some k
  | some k => if k.currentProcess.map Prod.fst = some pid then k.schedule else some k

/-! ## Waiting and reaping -/

/-- The processes that are blocked in a `semWait` on a semaphore and queued there. -/
def waiters (k : Kernel) (id : SemId) : List Int :=
  (k.sems id).sem.blockedQueue.filter fun q ↦
    (k.processTable q).any fun p ↦ p.state = .BLOCKED ∧ p.waitsOn = some id

/-- `reapProcess` -/
def reapProcess (k : Kernel) (pid : Int) (expected : Option Nat) : Kernel :=
  if invalidPID pid then k
  else
    match k.processTable pid with
    | none => k
    | some p =>
        { k with
          processTable := fun q ↦ if q = pid then none else k.processTable q
          foregroundSet := fun q ↦ if q = pid then false else k.foregroundSet q
          log := { k.log with reaps := k.log.reaps ++ [⟨pid, p,
            k.currentProcess = some (pid, p.inst), pid ∈ k.readyQueue, expected,
            k.waiters (.terminated p.inst)⟩] } }

/-- The rest of `wait_pid`, after its `semWait`. -/
def afterTerminated (k : Kernel) (pid : Int) (inst : Nat) (parent : Option (Int × Nat)) :
    Option Kernel :=
  match parent with
  | none => some (k.reapProcess pid (some inst))
  | some (ppid, pinst) =>
      match k.processTable ppid with
      | none => none
      | some p =>
          if p.inst ≠ pinst then none
          else
            let k := (k.tryWait (.childTerminated pinst)).1
            let k := k.modify ppid fun p ↦
              { p with terminatedChildren := p.terminatedChildren.filter (· ≠ pid) }
            some ((k.removeChild ppid pid).reapProcess pid (some inst))

/-- `wait_pid`, called by the process `cur`. -/
def wait_pid (cur pid : Int) (k : Kernel) : Option Kernel :=
  if invalidPID pid then some k
  else
    match k.processTable pid with
    | none => some k
    | some process =>
        let parent := if invalidPID process.ppid then none
          else (k.processTable process.ppid).map fun p ↦ (process.ppid, p.inst)
        match k.wait (.terminated process.inst) with
        | (k, true) => (k.setCont cur (.waitPid pid process.inst parent)).schedule
        | (k, false) => k.afterTerminated pid process.inst parent

/-- `pollQueue(getTerminatedChildren(...))`: without an entry it yields the pid 0. -/
def pollTerminatedChildren (k : Kernel) (cur : Int) (p : ProcessCDT) : Int × Kernel :=
  match p.terminatedChildren with
  | [] => (0, { k with log := { k.log with emptyPolls := k.log.emptyPolls + 1 } })
  | pid :: queue => (pid, k.modify cur fun p ↦ { p with terminatedChildren := queue })

/-- What `wait_any` and `reap_zombies` do with a token. -/
def pollAndReap (k : Kernel) (cur : Int) (p : ProcessCDT) : Kernel :=
  let (pid, k) := k.pollTerminatedChildren cur p
  if invalidPID pid then k else (k.removeChild cur pid).reapProcess pid none

/-- `wait_any`, called by the process `p` with the pid `cur`, up to its `pollQueue`. -/
def wait_any (cur : Int) (p : ProcessCDT) (k : Kernel) : Option Kernel :=
  match k.wait (.childTerminated p.inst) with
  | (k, true) => (k.setCont cur .waitAny).schedule
  | (k, false) => some (k.setCont cur .polling)

/-- The loop of `reap_zombies`, for at most `n` rounds. -/
def reapLoop : Nat → Kernel → Option Kernel
  | 0, k => some k
  | n + 1, k =>
      match k.current with
      | none => none
      | some (cur, p) =>
          match k.tryWait (.childTerminated p.inst) with
          | (k, true) => reapLoop n (k.pollAndReap cur p)
          | (k, false) => some k

/-- `reap_zombies`, called by the process `p`: each round takes a token. -/
def reap_zombies (p : ProcessCDT) (k : Kernel) : Option Kernel :=
  reapLoop ((k.sems (.childTerminated p.inst)).sem.tokens + 1) k

/-! ## Events -/

/-- What can happen. -/
inductive Event
  /-- A timer interrupt. -/
  | tick
  | enableScheduler
  /-- Other users of the heap leave room for nodes, or do not. -/
  | heap (nodes : Node → Bool)
  | create
  | exit (closed : List Nat)
  | kill (pid : Int) (closed : List Nat)
  /-- Ctrl+C, at the process `pid` of the foreground set. -/
  | ctrlC (pid : Int) (closed : List Nat)
  | block (pid : Int)
  | unblock (pid : Int)
  | yield
  | nice (pid : Int) (priority : UInt8)
  | foreground (pid : Int)
  | waitPid (pid : Int)
  | reapZombies
  /-- `init` calls `wait_any`. -/
  | waitAny
  /-- A semaphore is created. -/
  | semOpen (value : Int)
  | semWait (n : Nat)
  | semPost (n : Nat)
  | semTryWait (n : Nat)
  /-- The running process goes on after its `semWait`. -/
  | resume

/-- The running process, if it is a user process outside the kernel. -/
def caller (k : Kernel) : Option (Int × ProcessCDT) :=
  k.current.filter fun c ↦ c.2.cont = .user ∧ 2 ≤ c.2.inst

/-- The running process, if it is `init` outside its `wait_any`. -/
def initCaller (k : Kernel) : Option (Int × ProcessCDT) :=
  k.current.filter fun c ↦ c.2.cont = .user ∧ c.2.inst = 1

/-- `semWait` of a shared semaphore. -/
def sysSemWait (cur : Int) (n : Nat) (k : Kernel) : Option Kernel :=
  match k.wait (.user n) with
  | (k, true) => (k.setCont cur (.semWait n)).schedule
  | (k, false) => some k

/-- `sys_exit` -/
def sysExit (cur : Int) (closed : List Nat) (k : Kernel) : Option Kernel :=
  (k.setCont cur .exited).terminateProcess cur closed

/-- `sys_unblock` -/
def sysUnblock (pid : Int) (k : Kernel) : Option Kernel :=
  if pid = IDLE_PID ∨ pid = INIT_PID then none else k.setReady pid

/-- The running process goes on after its `semWait`. -/
def resume (cur : Int) (p : ProcessCDT) (k : Kernel) : Option Kernel :=
  match p.cont with
  | .semWait n => some ((k.returnFrom (.user n) cur).setCont cur .user)
  | .waitPid pid inst parent =>
      ((k.returnFrom (.terminated inst) cur).setCont cur .user).afterTerminated pid inst parent
  | .waitAny => some ((k.returnFrom (.childTerminated p.inst) cur).setCont cur .polling)
  | .polling => some ((k.setCont cur .user).pollAndReap cur p)
  | .user | .exited => none

/-- One event. -/
def step (k : Kernel) : Event → Option Kernel
  | .tick => k.schedule
  | .enableScheduler => some { k with schedulerEnabled := true }
  | .heap nodes => some { k with nodes := nodes }
  | .create => (k.caller <|> k.initCaller).bind fun _ ↦ k.sysCreateProcess
  | .exit closed => k.caller.bind fun c ↦ k.sysExit c.1 closed
  | .kill pid closed => k.caller.bind fun _ ↦ k.terminateProcess pid closed
  | .ctrlC pid closed =>
      if invalidPID pid ∨ ¬k.foregroundSet pid then none else some (k.killFromIsr pid closed)
  | .block pid => k.caller.map fun _ ↦ (k.setBlocked pid).getD k
  | .unblock pid => k.caller.map fun _ ↦ (k.sysUnblock pid).getD k
  | .yield => k.caller.bind fun _ ↦ k.schedule
  | .nice pid priority => k.caller.map fun _ ↦ (k.setPriorityOnPID pid priority).getD k
  | .foreground pid => k.caller.map fun _ ↦ (k.addToFG pid).getD k
  | .waitPid pid => k.caller.bind fun c ↦ k.wait_pid c.1 pid
  | .reapZombies => k.caller.bind fun c ↦ k.reap_zombies c.2
  | .waitAny => k.initCaller.bind fun c ↦ k.wait_any c.1 c.2
  | .semOpen value =>
      some { k.setSem (.user k.nextSem) (.new value) with nextSem := k.nextSem + 1 }
  | .semWait n => k.caller.bind fun c ↦ if n < k.nextSem then k.sysSemWait c.1 n else none
  | .semPost n => if n < k.nextSem then some (k.post (.user n)) else none
  | .semTryWait n => if n < k.nextSem then some (k.tryWait (.user n)).1 else none
  | .resume => k.current.bind fun c ↦ k.resume c.1 c.2

/-- A `wait_pid` that goes on after its `semWait` finds the parent that it has read: the parent has
not been freed meanwhile. -/
def Event.FindsParent (k : Kernel) : Event → Prop
  | .resume => ∀ c ∈ k.current, ∀ P ∈ c.2.cont.parentRead, ∃ p ∈ k.processTable P.1, p.inst = P.2
  | _ => True

instance (k : Kernel) : (e : Event) → Decidable (e.FindsParent k)
  | .resume => inferInstanceAs (Decidable (∀ c ∈ k.current, ∀ P ∈ c.2.cont.parentRead, _))
  | .tick | .enableScheduler | .heap _ | .create | .exit _ | .kill _ _ | .ctrlC _ _ | .block _
  | .unblock _ | .yield | .nice _ _ | .foreground _ | .waitPid _ | .reapZombies | .waitAny
  | .semOpen _ | .semWait _ | .semPost _ | .semTryWait _ => isTrue trivial

/-- The state of the kernel when `initializeScheduler` is called. -/
def boot : Kernel where
  processTable := fun _ ↦ none
  foregroundSet := fun _ ↦ false
  currentProcess := none
  readyQueue := []
  schedulerEnabled := false
  sems := fun _ ↦ .new 0
  nodes := fun _ ↦ true
  nextInst := 0
  nextSem := 0
  log := ⟨[], [], [], [], 0⟩

/-- `initializeScheduler`: the idle process and `init`. -/
def initializeScheduler : Kernel :=
  let k := (boot.startNewProcessWithPid 1 IDLE_PID).getD boot
  (k.startNewProcessWithPid 1 INIT_PID).getD k

/-- The events that bring the system up: `init` creates the shell, waits, and the shell,
with the pid 2, runs. -/
def bootEvents : List Event := [.enableScheduler, .tick, .tick, .create, .waitAny, .tick]

end Kernel

end BareBones.Process
