import BareBones.IPC.FileAccess
import BareBones.Lib.Run
import BareBones.Process.Basic
import Mathlib.Data.Finset.Prod

/-!
# File descriptors

The model of the tables of descriptors in `process.c`, of the system calls on them in
`scheduler.c` and `syscallDispatcher.c`, and of how a process that is created gets its table.

A slot of a table refers to a `FileAccess`.  It is shared by whoever inherits the slot or
duplicates it, while `reopenFd` makes a new end of the same pipe.  Apart from the slots, the
keyboard driver refers to the end of its pipe that it writes to.  That the counters are
exact is proved in `BareBones.Process.FdCounts`.
-/

namespace BareBones.Process

open BareBones.Lib BareBones.IPC

/-- `MAX_FDS` -/
def MAX_FDS : Nat := 16

/-- The descriptors of a process. -/
structure FdTable where
  fdTable : Nat → Option Nat
  eofRequests : Nat → Bool

/-- The table that `newProcess` makes. -/
def FdTable.empty : FdTable where
  fdTable := fun _ ↦ none
  eofRequests := fun _ ↦ false

/-- The processes and what their descriptors refer to. -/
structure Fds where
  heap : Heap
  processTable : Int → Option FdTable

/-- `isValidFd` -/
def isValidFd (fd : Int) : Bool := fd ≥ 0 ∧ fd < MAX_FDS

/-- `fd_override_t` -/
structure FdOverride where
  affectedFd : Int
  targetFd : Int
deriving DecidableEq

namespace Fds

/-- What a slot refers to. -/
def slot (s : Fds) (pid : Int) (i : Nat) : Option Nat := (s.processTable pid).bind (·.fdTable i)

/-- Overwrite the table of a process. -/
def setTable (s : Fds) (pid : Int) (t : Option FdTable) : Fds :=
  { s with processTable := fun q ↦ if q = pid then t else s.processTable q }

/-- Overwrite a slot, and forget that its end of file was requested. -/
def setFd (s : Fds) (pid : Int) (i : Nat) (fa : Option Nat) : Fds :=
  s.setTable pid ((s.processTable pid).map fun t ↦
    { fdTable := fun j ↦ if j = i then fa else t.fdTable j
      eofRequests := fun j ↦ if j = i then false else t.eofRequests j })

/-- Do something to the heap. -/
def onHeap (s : Fds) (f : Heap → Option Heap) : Option Fds :=
  (f s.heap).map fun h ↦ { s with heap := h }

/-- `getFd` -/
def getFd (s : Fds) (p : Int) (fd : Int) : Option Nat :=
  if isValidFd fd then s.slot p fd.toNat else none

/-- `isOpenFd` -/
def isOpenFd (s : Fds) (p : Int) (fd : Int) : Bool := (s.getFd p fd).isSome

/-- `openFd` -/
def openFd (s : Fds) (p : Int) (fa : Option Nat) (fd : Int) : Option (Int × Fds) :=
  match fa with
  | none => some (-1, s)
  | some a =>
      if (s.processTable p).isNone ∨ !isValidFd fd ∨ s.isOpenFd p fd then some (-1, s)
      else ((s.setFd p fd.toNat (some a)).onHeap fun h ↦ h.addFileRef a).map fun s ↦ (fd, s)

/-- `addFd` -/
def addFd (s : Fds) (p : Int) (fa : Option Nat) : Option (Int × Fds) :=
  if (s.processTable p).isNone ∨ fa = none then some (-1, s)
  else
    match (List.range MAX_FDS).find? fun i ↦ s.slot p i = none with
    | some i => s.openFd p fa i
    | none => some (-1, s)

/-- `closeFd` -/
def closeFd (s : Fds) (p : Int) (fd : Int) : Option (Int × Fds) :=
  match s.getFd p fd with
  | none => some (-1, s)
  | some a => ((s.setFd p fd.toNat none).onHeap fun h ↦ h.removeFileRef a).map fun s ↦ (0, s)

/-- `dupFd` -/
def dupFd (s : Fds) (p : Int) (oldFd newFd : Int) : Option (Int × Fds) :=
  if (s.processTable p).isNone ∨ !isValidFd newFd then some (-1, s)
  else if oldFd = newFd then some (newFd, s)
  else
    match s.getFd p oldFd with
    | none => (s.closeFd p newFd).map fun r ↦ (newFd, r.2)
    | some a =>
        (if s.isOpenFd p newFd then (s.closeFd p newFd).map Prod.snd else some s).bind fun s ↦
          ((s.setFd p newFd.toNat (some a)).onHeap fun h ↦ h.addFileRef a).map fun s ↦ (newFd, s)

/-- `reopenFd` -/
def reopenFd (s : Fds) (p : Int) (fd : Int) (room : Bool) : Option (Int × Fds) :=
  match s.getFd p fd with
  | none => some (-1, s)
  | some a => (s.heap.cloneFile a room).bind fun
      | (none, h) => some (-1, { s with heap := h })
      | (some b, h) => (addFd { s with heap := h } p (some b)).bind fun (nfd, s) ↦
          if nfd < 0 then (s.onHeap fun h ↦ h.removeFileRef b).map fun s ↦ (nfd, s)
          else some (nfd, s)

/-- `closeAllFDs` -/
def closeAllFDs (s : Fds) (p : Int) : Option Fds :=
  (List.range MAX_FDS).foldlM (fun s (i : Nat) ↦ (s.closeFd p i).map Prod.snd) s

/-- `copyFdTable` -/
def copyFdTable (s : Fds) (target source : Int) : Option Fds :=
  if (s.processTable target).isNone ∨ (s.processTable source).isNone then some s
  else (List.range MAX_FDS).foldlM (fun s (i : Nat) ↦
    ((s.closeFd target i).map Prod.snd).bind fun s ↦
      (s.openFd target (s.slot source i) i).map Prod.snd) s

/-- `sysPipe`: the result, and the two descriptors.  `roomPipe`, `roomRead` and `roomWrite`
tell which of its objects the heap has room for. -/
def sysPipe (s : Fds) (p : Int) (userFds roomPipe roomRead roomWrite : Bool) :
    Option ((Int × Option (Int × Int)) × Fds) :=
  if !userFds then some ((-1, none), s)
  else
    match s.heap.newPipe roomPipe with
    | (none, h) => some ((-1, none), { s with heap := h })
    | (some pipe, h) =>
        (h.newFileAccess (some pipe) FILE_READ roomRead).bind fun (readEnd, h) ↦
        (h.newFileAccess (some pipe) FILE_WRITE roomWrite).bind fun (writeEnd, h) ↦
        let s : Fds := { s with heap := h }
        match readEnd, writeEnd with
        | none, none => (s.onHeap fun h ↦ h.freePipe pipe).map fun s ↦ ((-1, none), s)
        | some r, none => (s.onHeap fun h ↦ h.freeFileAccess r).map fun s ↦ ((-1, none), s)
        | none, some w => (s.onHeap fun h ↦ h.freeFileAccess w).map fun s ↦ ((-1, none), s)
        | some r, some w =>
            (s.addFd p (some r)).bind fun (readFD, s) ↦
            if readFD < 0 then
              (s.onHeap fun h ↦ (h.freeFileAccess r).bind fun h ↦ h.freeFileAccess w).map fun s ↦
                ((-1, none), s)
            else
              (s.addFd p (some w)).bind fun (writeFD, s) ↦
              if writeFD < 0 then
                (s.closeFd p readFD).bind fun (_, s) ↦
                  (s.onHeap fun h ↦ h.freeFileAccess w).map fun s ↦ ((-1, none), s)
              else some ((0, some (readFD, writeFD)), s)

/-- `findFreePid` -/
def findFreePid (s : Fds) : Option Int :=
  ((List.range MAX_PROCESSES.toNat).map Int.ofNat).find? fun i ↦ (s.processTable i).isNone

/-- One round of the loop of `startNewProcessWithFds`. -/
def override (s : Fds) (child : Int) (o : FdOverride) : Option Fds :=
  (if o.targetFd = -1 then s.closeFd child o.affectedFd
    else s.dupFd child o.targetFd o.affectedFd).map Prod.snd

/-- `startNewProcessWithPid`, called by `currentProcess`: the table of the child. -/
def startNewProcessWithPid (s : Fds) (currentProcess : Option Int) (pid : Int) : Option Fds :=
  let s := s.setTable pid (some .empty)
  match currentProcess with
  | none => some s
  | some cur => if cur = IDLE_PID then some s else s.copyFdTable pid cur

/-- `startNewProcessWithFds`, if the heap has room for a process. -/
def startNewProcessWithFds (s : Fds) (currentProcess : Option Int) (overrides : List FdOverride)
    (room : Bool) : Option (Int × Fds) :=
  match s.findFreePid with
  | none => some (-1, s)
  | some pid =>
      if room then
        (s.startNewProcessWithPid currentProcess pid).bind fun s ↦
          (overrides.foldlM (fun (s : Fds) o ↦ s.override pid o) s).map fun s ↦ (pid, s)
      else some (-1, s)

/-- `terminateProcess` closes the descriptors of a process, which is freed when it is
reaped.  Both are one step here: a process that Ctrl+C has killed goes on until the next tick, and
what it opens meanwhile nobody closes. -/
def removeProcess (s : Fds) (pid : Int) : Option Fds :=
  (s.closeAllFDs pid).map fun s ↦ s.setTable pid none

/-- What can happen.  The pids are those that the calls are made for. -/
inductive Event
  | openFd (p : Int) (fa : Option Nat) (fd : Int)
  | addFd (p : Int) (fa : Option Nat)
  | closeFd (p : Int) (fd : Int)
  | dupFd (p : Int) (oldFd newFd : Int)
  | reopenFd (p : Int) (fd : Int) (room : Bool)
  | copyFdTable (target source : Int)
  | closeAllFDs (p : Int)
  | sysPipe (p : Int) (userFds roomPipe roomRead roomWrite : Bool)
  | create (currentProcess : Option Int) (overrides : List FdOverride) (room : Bool)
  | remove (p : Int)

/-- One event; `none` if an object is used that has been freed. -/
def step (s : Fds) : Event → Option Fds
  | .openFd p fa fd => (s.openFd p fa fd).map Prod.snd
  | .addFd p fa => (s.addFd p fa).map Prod.snd
  | .closeFd p fd => (s.closeFd p fd).map Prod.snd
  | .dupFd p oldFd newFd => (s.dupFd p oldFd newFd).map Prod.snd
  | .reopenFd p fd room => (s.reopenFd p fd room).map Prod.snd
  | .copyFdTable target source => s.copyFdTable target source
  | .closeAllFDs p => s.closeAllFDs p
  | .sysPipe p userFds roomPipe roomRead roomWrite =>
      (s.sysPipe p userFds roomPipe roomRead roomWrite).map Prod.snd
  | .create currentProcess overrides room =>
      (s.startNewProcessWithFds currentProcess overrides room).map Prod.snd
  | .remove p => s.removeProcess p

/-- A `FileAccess` that is passed to a function is null or alive. -/
def Event.Passes (s : Fds) : Event → Prop
  | .openFd _ fa _ | .addFd _ fa => ∀ a ∈ fa, s.heap.files a ≠ none
  | _ => True

instance (s : Fds) : (e : Event) → Decidable (e.Passes s)
  | .openFd _ fa _ | .addFd _ fa => inferInstanceAs (Decidable (∀ a ∈ fa, _))
  | .closeFd _ _ | .dupFd _ _ _ | .reopenFd _ _ _ | .copyFdTable _ _ | .closeAllFDs _
  | .sysPipe _ _ _ _ _ | .create _ _ _ | .remove _ => isTrue trivial

/-- `initProcessEntry` has made the pipe of the keyboard: the process `INIT_PID` refers to
its reading end, and the keyboard driver to the other one. -/
def init : Fds where
  heap :=
    { files := fun a ↦ if a = 0 then some ⟨some 0, FILE_READ, 1⟩
        else if a = 1 then some ⟨some 0, FILE_WRITE, 1⟩ else none
      pipes := fun p ↦ if p = 0 then some ⟨2, 1⟩ else none
      nextFile := 2
      nextPipe := 1 }
  processTable := fun pid ↦
    if pid = IDLE_PID then some .empty
    else if pid = INIT_PID then some { FdTable.empty with
      fdTable := fun i ↦ if i = 0 then some 0 else none }
    else none

/-- `keyboardBuffer` of `keyboardDriver.c`, which never changes. -/
def keyboardBuffer : Nat := 1

/-- The slots of all processes. -/
@[irreducible] def descriptors : Finset (Int × Nat) := pids ×ˢ Finset.range MAX_FDS

theorem mem_descriptors {p : Int} {i : Nat} :
    (p, i) ∈ descriptors ↔ ¬invalidPID p ∧ i < MAX_FDS := by
  unfold descriptors
  rw [Finset.mem_product, mem_pids, Finset.mem_range]

/-- The number of references to a `FileAccess`: the slots of all processes, and the
keyboard driver. -/
def refs (s : Fds) (a : Nat) : Nat :=
  count descriptors (fun x ↦ s.slot x.1 x.2 = some a) + if a = keyboardBuffer then 1 else 0

/-- **The counters are exact.** -/
structure Exact (s : Fds) : Prop where
  file : ∀ a f, s.heap.files a = some f → f.refCount = s.refs a
  pipe : ∀ p c, s.heap.pipes p = some c →
    c.refCount = s.heap.ends p ∧ c.writerCount = s.heap.writers p
  /-- A slot refers to a live end of a live pipe. -/
  slot : ∀ pid i a, i < MAX_FDS → s.slot pid i = some a →
    ∃ f p c, s.heap.files a = some f ∧ f.pipe = some p ∧ s.heap.pipes p = some c
  /-- An end is freed exactly when nobody refers to it. -/
  freed : ∀ a, s.heap.files a = none ↔ s.refs a = 0
  /-- A pipe is freed exactly when it has no ends. -/
  freedPipe : ∀ p, s.heap.pipes p = none ↔ s.heap.ends p = 0

end Fds

end BareBones.Process
