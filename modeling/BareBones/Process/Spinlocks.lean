import BareBones.Process.Kernel

/-!
# Spinlocks

The model of the locks that `semaphores/semaphore.c` takes.  System calls and interrupt
handlers run with interrupts off: `Kernel.acquires` lists the semaphores whose lock an event
of the kernel takes, and if one of them is held the processor spins, forever.

`init` is the exception.  It runs `wait_any` as any process runs its code, with interrupts on,
so its `semWait` and the `freeSemaphore`s of `reapProcess` are taken apart here: `InitPc` says
where it is, and between two of its steps there may be an interrupt.  The events
`Kernel.Event.waitAny` and what follows it are replaced by these steps.

A semaphore that is freed keeps its lock.  A `wait_pid` that goes on when the parent that it has
read was freed acquires it nevertheless, and spins.

What the code never reads, where `init` is for `Kernel` and the counts of its semaphore, is kept up
as `Kernel` does it.
-/

namespace BareBones.Process

open BareBones.Semaphores

namespace Kernel

/-! ## What is acquired -/

/-- The semaphores of a control block. -/
def owned (inst : Nat) : List SemId := [.terminated inst, .childTerminated inst]

/-- `reapProcess`, which frees both semaphores. -/
def reapAcquires (pid : Int) (k : Kernel) : List SemId :=
  if invalidPID pid then []
  else
    match k.processTable pid with
    | none => []
    | some p => owned p.inst

/-- `transferOrphanChildren`, of a process with the children `children`. -/
def orphanAcquires (children : List Int) (k : Kernel) : List SemId :=
  match k.processTable INIT_PID with
  | none => []
  | some initProc => (children.filter fun childPid ↦
      ¬invalidPID childPid ∧ k.stateOf childPid = some .ZOMBIE).map fun _ ↦
        .childTerminated initProc.inst

/-- `terminateProcess` and `killFromIsr` -/
def terminateAcquires (pid : Int) (closed : List Nat) (k : Kernel) : List SemId :=
  if invalidPID pid then []
  else if isUnkillable pid then []
  else
    match k.processTable pid with
    | none => []
    | some process =>
        if invalidPID process.ppid then []
        else
          match k.processTable process.ppid with
          | none => []
          | some parent =>
              closed.map .user ++ [.terminated process.inst, .childTerminated parent.inst] ++
                k.orphanAcquires process.children

/-- The rest of `wait_pid`, after its `semWait`, up to a semaphore that was freed. -/
def afterTerminatedAcquires (pid : Int) (parent : Option (Int × Nat)) (k : Kernel) : List SemId :=
  match parent with
  | none => k.reapAcquires pid
  | some (ppid, pinst) =>
      .childTerminated pinst ::
        match k.processTable ppid with
        | none => []
        | some p => if p.inst ≠ pinst then [] else k.reapAcquires pid

/-- `wait_pid` -/
def waitPidAcquires (pid : Int) (k : Kernel) : List SemId :=
  if invalidPID pid then []
  else
    match k.processTable pid with
    | none => []
    | some process =>
        let parent := if invalidPID process.ppid then none
          else (k.processTable process.ppid).map fun p ↦ (process.ppid, p.inst)
        .terminated process.inst ::
          if (k.sems (.terminated process.inst)).sem.value > 0 then
            k.afterTerminatedAcquires pid parent
          else []

/-- `reap_zombies`, for at most `n` rounds -/
def reapLoopAcquires : Nat → Kernel → List SemId
  | 0, _ => []
  | n + 1, k =>
      match k.current with
      | none => []
      | some (cur, p) =>
          .childTerminated p.inst ::
            match k.tryWait (.childTerminated p.inst) with
            | (k, true) =>
                let (pid, k') := k.pollTerminatedChildren cur p
                k'.reapAcquires pid ++ reapLoopAcquires n (k.pollAndReap cur p)
            | (_, false) => []

/-- The semaphores whose locks an event takes with interrupts off.  No lock is held across a
call of the scheduler. -/
def acquires (k : Kernel) : Event → List SemId
  | .exit closed => k.caller.toList.flatMap fun c ↦ k.terminateAcquires c.1 closed
  | .kill pid closed => k.caller.toList.flatMap fun _ ↦ k.terminateAcquires pid closed
  | .ctrlC pid closed =>
      if invalidPID pid ∨ ¬k.foregroundSet pid then [] else k.terminateAcquires pid closed
  | .waitPid pid => k.caller.toList.flatMap fun _ ↦ k.waitPidAcquires pid
  | .reapZombies => k.caller.toList.flatMap fun c ↦
      k.reapLoopAcquires ((k.sems (.childTerminated c.2.inst)).sem.tokens + 1)
  | .semWait n | .semPost n | .semTryWait n => [.user n]
  | .resume => k.current.toList.flatMap fun c ↦
      match c.2.cont with
      | .waitPid pid _ parent => k.afterTerminatedAcquires pid parent
      | .user | .semWait _ | .waitAny | .polling | .exited => []
  | .tick | .enableScheduler | .heap _ | .create | .block _ | .unblock _ | .yield | .nice _ _
  | .foreground _ | .waitAny | .semOpen _ => []

/-- The event is a step of `init`. -/
def Event.ofInit (k : Kernel) : Event → Bool
  | .waitAny => true
  | .create => k.caller.isNone
  | .resume => k.current.any fun c ↦ c.2.inst = 1
  | _ => false

end Kernel

/-! ## `init` -/

/-- Where `init` is.  The steps of `reapProcess` have the pid and the control block that is
being freed. -/
inductive InitPc
  /-- Before its loop: it creates the shell. -/
  | createShell
  /-- In the `semWait` of `wait_any`, at `ACQUIRE`. -/
  | acquire
  /-- At `sem->value--`. -/
  | decrement
  | setCurrentBlocked
  | enqueue
  | release (mustBlock : Bool)
  | forceSchedulerCall
  | pollQueue
  | removeChild (pid : Int)
  /-- In `reapProcess`, up to the `ACQUIRE` of `freeSemaphore(terminated)`. -/
  | reapProcess (pid : Int)
  /-- In `freeSemaphore(terminated)`, after its `ACQUIRE`. -/
  | freeTerminated (pid : Int) (inst : Nat)
  /-- At the `ACQUIRE` of `freeSemaphore(childTerminated)`. -/
  | acquireChildTerminated (pid : Int) (inst : Nat)
  | freeChildTerminated (pid : Int) (inst : Nat)
  /-- At `processTable[pid] = 0`. -/
  | clearSlot (pid : Int) (inst : Nat)
deriving DecidableEq

/-- The locks that `init` has taken and not released. -/
def InitPc.holds : InitPc → List SemId
  | .decrement | .setCurrentBlocked | .enqueue | .release _ => [.childTerminated 1]
  | .freeTerminated _ inst | .acquireChildTerminated _ inst => [.terminated inst]
  | .freeChildTerminated _ inst | .clearSlot _ inst => Kernel.owned inst
  | .createShell | .acquire | .forceSchedulerCall | .pollQueue | .removeChild _
  | .reapProcess _ => []

/-- The slot and the control block that `init` is freeing. -/
def InitPc.frees : InitPc → Option (Int × Nat)
  | .freeTerminated pid inst | .acquireChildTerminated pid inst | .freeChildTerminated pid inst
  | .clearSlot pid inst => some (pid, inst)
  | .createShell | .acquire | .decrement | .setCurrentBlocked | .enqueue | .release _
  | .forceSchedulerCall | .pollQueue | .removeChild _ | .reapProcess _ => none

/-- The kernel, the locks of its semaphores, and where `init` is. -/
structure Locks where
  kernel : Kernel
  lock : SemId → Bool
  pc : InitPc

namespace Locks

/-- Overwrite a lock. -/
def setLock (s : Locks) (id : SemId) (b : Bool) : Locks :=
  { s with lock := fun j ↦ if j = id then b else s.lock j }

/-- `ACQUIRE`: one round of its loop, with `pc` behind it. -/
def acquire (s : Locks) (id : SemId) (pc : InitPc) : Locks :=
  if s.lock id then s else { s.setLock id true with pc := pc }

/-- `freeSemaphore` after its `ACQUIRE`: it releases the lock if processes wait, and frees the
semaphore otherwise. -/
def freeSemaphore (s : Locks) (id : SemId) (pc : InitPc) : Locks :=
  if (s.kernel.sems id).sem.blockedQueue = [] then { s with pc := pc }
  else { s.setLock id false with pc := pc }

/-- Overwrite the semaphore that `init` waits on. -/
def setSem (s : Locks) (r : SemRec) (pc : InitPc) : Locks :=
  { s with kernel := s.kernel.setSem (.childTerminated 1) r, pc := pc }

/-- Record where `init` is for `Kernel`. -/
def setCont (s : Locks) (c : Cont) : Locks := { s with kernel := s.kernel.setCont INIT_PID c }

/-- A step of `init`, whose control block is `p`. -/
def initStep (s : Locks) (p : ProcessCDT) : Option Locks :=
  let k := s.kernel
  let r := k.sems (.childTerminated 1)
  match s.pc with
  | .createShell => k.sysCreateProcess.map fun k ↦ { s with kernel := k, pc := .acquire }
  | .acquire => some (s.acquire (.childTerminated 1) .decrement)
  | .decrement =>
      let sem : Sem := ⟨r.sem.value - 1, r.sem.blockedQueue⟩
      if sem.value < 0 then some (s.setSem { r with sem := sem } .setCurrentBlocked)
      else some ((s.setSem { r with sem := sem, grants := r.grants + 1, returned := r.returned + 1 }
        (.release false)).setCont .polling)
  | .setCurrentBlocked => some { s with kernel := k.setCurrentBlocked, pc := .enqueue }
  | .enqueue => some ((s.setSem { r with
      sem := ⟨r.sem.value, k.enqueue .blockedQueue r.sem.blockedQueue k.getCurrentPID⟩ }
        (.release true)).setCont .waitAny)
  | .release mustBlock => some { s.setLock (.childTerminated 1) false with
      pc := if mustBlock then .forceSchedulerCall else .pollQueue }
  | .forceSchedulerCall => k.schedule.map fun k ↦ { s with kernel := k, pc := .pollQueue }
  | .pollQueue =>
      let k := if p.cont = .waitAny then k.returnFrom (.childTerminated 1) INIT_PID else k
      let (pid, k) := (k.setCont INIT_PID .user).pollTerminatedChildren INIT_PID p
      some { s with kernel := k, pc := if invalidPID pid then .acquire else .removeChild pid }
  | .removeChild pid => some { s with kernel := k.removeChild INIT_PID pid, pc := .reapProcess pid }
  | .reapProcess pid =>
      match k.processTable pid with
      | none => some { s with pc := .acquire }
      | some q => some (s.acquire (.terminated q.inst) (.freeTerminated pid q.inst))
  | .freeTerminated pid inst =>
      some (s.freeSemaphore (.terminated inst) (.acquireChildTerminated pid inst))
  | .acquireChildTerminated pid inst =>
      some (s.acquire (.childTerminated inst) (.freeChildTerminated pid inst))
  | .freeChildTerminated pid inst =>
      some (s.freeSemaphore (.childTerminated inst) (.clearSlot pid inst))
  | .clearSlot pid _ => some { s with kernel := k.reapProcess pid none, pc := .acquire }

/-! ## Steps -/

/-- The control block was in the table of `k` and is not in that of `k'`. -/
def freed (k k' : Kernel) (inst : Nat) : Prop :=
  (∃ q ∈ pids, ∃ p ∈ k.processTable q, p.inst = inst) ∧
    ¬∃ q ∈ pids, ∃ p ∈ k'.processTable q, p.inst = inst

instance (k k' : Kernel) (inst : Nat) : Decidable (freed k k' inst) :=
  inferInstanceAs (Decidable (_ ∧ _))

/-- The locks after an event: every one that is taken is released, unless its semaphore is
freed. -/
def lockAfter (s : Locks) (k' : Kernel) (id : SemId) : Bool :=
  match id with
  | .user _ => s.lock id
  | .terminated inst | .childTerminated inst =>
      s.lock id || decide (freed s.kernel k' inst ∧ (k'.sems id).sem.blockedQueue = [])

/-- What can happen. -/
inductive Event
  /-- A system call, or an interrupt. -/
  | kernel (e : Kernel.Event)
  /-- A step of `init`. -/
  | init

/-- The locks that are taken with interrupts off. -/
def acquires (s : Locks) : Event → List SemId
  | .kernel e => if e.ofInit s.kernel then [] else s.kernel.acquires e
  | .init => []

/-- One event; `none` if it is impossible or spins forever. -/
def step (s : Locks) : Event → Option Locks
  | .kernel e =>
      if e.ofInit s.kernel ∨ ∃ id ∈ s.acquires (.kernel e), s.lock id = true then none
      else (s.kernel.step e).map fun k ↦ { s with kernel := k, lock := s.lockAfter k }
  | .init => (s.kernel.current.filter fun c ↦ c.1 = INIT_PID ∧ c.2.inst = 1).bind fun c ↦
      s.initStep c.2

/-- The state when `initializeScheduler` has returned. -/
def init : Locks where
  kernel := .initializeScheduler
  lock := fun _ ↦ false
  pc := .createShell

/-- The events that bring the system up: `init` creates the shell and waits, and the shell, with the
pid 2, runs. -/
def bootEvents : List Event :=
  [.kernel .enableScheduler, .kernel .tick, .kernel .tick] ++ List.replicate 7 .init ++
    [.kernel .tick]

/-- While `init` holds a lock, the timer lets it go on, and Ctrl+C terminates nobody; and a
`wait_pid` that goes on finds the parent that it has read. -/
def Guard (s : Locks) : Event → Prop
  | .kernel .tick => s.pc.holds ≠ [] →
      ∀ c ∈ s.kernel.current, c.2.state = .RUNNING ∧ c.2.remainingQuantums > 0
  | .kernel (.ctrlC _ _) => s.pc.holds = []
  | .kernel .resume => Kernel.Event.resume.FindsParent s.kernel
  | _ => True

instance (s : Locks) : (e : Event) → Decidable (Guard s e)
  | .kernel .tick => inferInstanceAs (Decidable (_ → _))
  | .kernel (.ctrlC _ _) => inferInstanceAs (Decidable (_ = _))
  | .kernel .resume => inferInstanceAs (Decidable (Kernel.Event.resume.FindsParent s.kernel))
  | .init | .kernel .enableScheduler | .kernel (.heap _) | .kernel .create | .kernel (.exit _)
  | .kernel (.kill _ _) | .kernel (.block _) | .kernel (.unblock _) | .kernel .yield
  | .kernel (.nice _ _) | .kernel (.foreground _) | .kernel (.waitPid _) | .kernel .reapZombies
  | .kernel .waitAny | .kernel (.semOpen _) | .kernel (.semWait _) | .kernel (.semPost _)
  | .kernel (.semTryWait _) => isTrue trivial

end Locks

end BareBones.Process
