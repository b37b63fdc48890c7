import BareBones.IPC.Pipe
import BareBones.Process.FdTable
import BareBones.Process.Objects

/-!
# The construction of a pipe

`sysPipe` of `syscallDispatcher.c` with all that it calls in `pipe.c`, `fileAccess.c`,
`circularBuffer.c` and `process.c`, and with every request for memory.  A pipe is a block with a
buffer (two blocks) and four semaphores (two blocks each); a `FileAccess` is one block, and
counts itself at its pipe.

The ways back differ.  A pipe whose parts are incomplete is freed by `freePipe`, which leaves out
those that are null; a pipe with one end or two is freed by the last end that is; and an end that
has a descriptor is freed when the descriptor is closed.  The last writer posts `dataAvailable`
once for each process, and nobody waits on the semaphores of a new pipe.

**Whatever is refused, `sysPipe` either opens the two lowest descriptors that are free, or has
freed all that it was granted and left the descriptors as they were** (`sysPipe_atomic`).
-/

namespace BareBones.IPC.SysPipe

open BareBones.Lib BareBones.Lib.Blocks BareBones.Process BareBones.Process.Objects

section Code

-- `semPost` calls `setReady` of the scheduler for a process that waits.
variable (setReady : Int → K Int)

/-! ## Posts -/

/-- The data of a node. -/
def dataOf (node : Nat) : K Int := do
  match ← load node with
  | .node data => pure data
  | _ => failure

/-- The loop of `semPost`, for the processes that wait. -/
def wakeLoop (sem queue : Nat) : List Nat → K Unit
  | [] => pure ()
  | node :: nodes => do
      let (value, _) ← semOf sem
      if value ≤ 0 then do
        let pid ← dataOf node
        free node
        store queue (.queue nodes)
        if (← setReady pid) = 0 then pure ()
        else do
          let (value, blockedQueue) ← semOf sem
          store sem (.sem (value + 1) blockedQueue)
          wakeLoop sem queue nodes
      else pure ()

/-- `semPost` -/
def semPost : Ptr → K Unit
  | none => pure ()
  | some sem => do
      let (value, blockedQueue) ← semOf sem
      store sem (.sem (value + 1) blockedQueue)
      match blockedQueue with
      | none => pure ()
      | some queue => wakeLoop setReady sem queue (← nodesOf queue)

/-! ## Pipes -/

/-- `newBuffer` -/
def newBuffer (maxSize : Nat) : K Ptr :=
  if maxSize = 0 then pure none
  else do
    match ← alloc (.buffer none maxSize) with
    | none => pure none
    | some cb => do
        match ← alloc .bytes with
        | none => do
            free cb
            pure none
        | some data => do
            store cb (.buffer (some data) maxSize)
            pure (some cb)

/-- `freeBuffer` -/
def freeBuffer : Ptr → K Unit
  | none => pure ()
  | some cb => do
      match ← load cb with
      | .buffer data _ => do
          mem_free data
          free cb
      | _ => failure

/-- The fields of a pipe. -/
def pipeOf (pipe : Nat) : K PipeCDT := do
  match ← load pipe with
  | .pipe p => pure p
  | _ => failure

/-- `freePipe` -/
def freePipe : Ptr → K Unit
  | none => pure ()
  | some pipe => do
      let p ← pipeOf pipe
      freeBuffer p.buffer
      freeSemaphore p.dataAvailable
      freeSemaphore p.freeSpaces
      freeSemaphore p.readMutex
      freeSemaphore p.writeMutex
      free pipe

/-- A pipe before its fields are written. -/
def blankPipe : PipeCDT := ⟨none, none, none, none, none, 0, 0⟩

/-- `newPipe` -/
def newPipe : K Ptr := do
  match ← alloc (.pipe blankPipe) with
  | none => pure none
  | some pipe => do
      let buffer ← newBuffer PIPE_BUF_SIZE
      let dataAvailable ← newSemaphore 0
      let freeSpaces ← newSemaphore PIPE_BUF_SIZE
      let readMutex ← newSemaphore 1
      let writeMutex ← newSemaphore 1
      store pipe (.pipe ⟨buffer, dataAvailable, freeSpaces, readMutex, writeMutex, 0, 0⟩)
      if buffer = none ∨ dataAvailable = none ∨ freeSpaces = none ∨ readMutex = none ∨
          writeMutex = none then do
        freePipe (some pipe)
        pure none
      else pure (some pipe)

/-- `addPipeRef` -/
def addPipeRef (pipe : Nat) : K Unit := do
  let p ← pipeOf pipe
  store pipe (.pipe { p with refCount := p.refCount + 1 })

/-- `addPipeWriter` -/
def addPipeWriter (pipe : Nat) : K Unit := do
  let p ← pipeOf pipe
  store pipe (.pipe { p with writerCount := p.writerCount + 1 })

/-- `removePipeRef` -/
def removePipeRef (pipe : Nat) : K Unit := do
  let p ← pipeOf pipe
  store pipe (.pipe { p with refCount := p.refCount - 1 })
  if p.refCount - 1 ≤ 0 then freePipe (some pipe) else pure ()

/-- `forceReadersWakeUp` -/
def forceReadersWakeUp (pipe : Nat) : (count : Nat) → K Unit
  | 0 => pure ()
  | count + 1 => do
      semPost setReady (← pipeOf pipe).dataAvailable
      forceReadersWakeUp pipe count

/-- `removePipeWriter` -/
def removePipeWriter (pipe : Nat) : K Unit := do
  let p ← pipeOf pipe
  store pipe (.pipe { p with writerCount := p.writerCount - 1 })
  if p.writerCount - 1 ≤ 0 then forceReadersWakeUp setReady pipe MAX_PROCESSES.toNat else pure ()

/-! ## Ends -/

/-- The fields of a `FileAccess`. -/
def fileOf (fa : Nat) : K FileAccessCDT := do
  match ← load fa with
  | .file f => pure f
  | _ => failure

/-- `newFileAccess` of a pipe that is not null -/
def newFileAccess (pipe : Nat) (flags : UInt8) : K Ptr := do
  match ← alloc (.file ⟨some pipe, flags, 0⟩) with
  | none => pure none
  | some fa => do
      addPipeRef pipe
      (if flags &&& FILE_WRITE ≠ 0 then addPipeWriter pipe else pure ())
      pure (some fa)

/-- `freeFileAccess` -/
def freeFileAccess : Ptr → K Unit
  | none => pure ()
  | some fa => do
      let f ← fileOf fa
      match f.pipe with
      | none => free fa
      | some pipe => do
          (if f.flags &&& FILE_WRITE ≠ 0 then removePipeWriter setReady pipe else pure ())
          removePipeRef pipe
          free fa

/-- `addFileRef` -/
def addFileRef (fa : Nat) : K Unit := do
  let f ← fileOf fa
  store fa (.file { f with refCount := f.refCount + 1 })

/-- `removeFileRef` -/
def removeFileRef (fa : Nat) : K Unit := do
  let f ← fileOf fa
  store fa (.file { f with refCount := f.refCount - 1 })
  if f.refCount - 1 ≤ 0 then freeFileAccess setReady (some fa) else pure ()

/-! ## Descriptors -/

/-- `isOpenFd` -/
def isOpenFd (p : ProcessCDT) (fd : Int) : Bool := isValidFd fd && p.fdTable fd.toNat ≠ none

/-- `openFd` of a process and an end that are not null -/
def openFd (process fa : Nat) (fd : Int) : K Int := do
  let p ← processOf process
  if !isValidFd fd || isOpenFd p fd then pure (-1)
  else do
    store process (.process { p with
      fdTable := Function.update p.fdTable fd.toNat (some fa)
      eofRequests := Function.update p.eofRequests fd.toNat false })
    addFileRef fa
    pure fd

/-- `addFd` of a process and an end that are not null -/
def addFd (process fa : Nat) : K Int := do
  let p ← processOf process
  match (List.range MAX_FDS).find? fun i ↦ p.fdTable i = none with
  | none => pure (-1)
  | some i => openFd process fa i

/-- `closeFd` of a process that is not null -/
def closeFd (process : Nat) (fd : Int) : K Int := do
  let p ← processOf process
  if !isOpenFd p fd then pure (-1)
  else do
    store process (.process { p with
      fdTable := Function.update p.fdTable fd.toNat none
      eofRequests := Function.update p.eofRequests fd.toNat false })
    match p.fdTable fd.toNat with
    | none => failure
    | some fa => do
        removeFileRef setReady fa
        pure 0

/-- `addCurrentFd` -/
def addCurrentFd (currentProcess : Ptr) (fa : Nat) : K Int :=
  match currentProcess with
  | none => pure (-1)
  | some process => addFd process fa

/-- `closeCurrentFd` -/
def closeCurrentFd (currentProcess : Ptr) (fd : Int) : K Int :=
  match currentProcess with
  | none => pure (-1)
  | some process => closeFd setReady process fd

/-- `sysPipe` with both ends -/
def connect (currentProcess : Ptr) (readEnd writeEnd : Nat) : K (Int × Option (Int × Int)) := do
  let readFD ← addCurrentFd currentProcess readEnd
  if readFD < 0 then do
    freeFileAccess setReady (some readEnd)
    freeFileAccess setReady (some writeEnd)
    pure (-1, none)
  else do
    let writeFD ← addCurrentFd currentProcess writeEnd
    if writeFD < 0 then do
      let _ ← closeCurrentFd setReady currentProcess readFD
      freeFileAccess setReady (some writeEnd)
      pure (-1, none)
    else pure (0, some (readFD, writeFD))

/-- `sysPipe`, with what it writes to `userFds`. -/
def sysPipe (currentProcess : Ptr) (userFds : Bool) : K (Int × Option (Int × Int)) :=
  if !userFds then pure (-1, none)
  else do
    match ← newPipe with
    | none => pure (-1, none)
    | some pipe => do
        let readEnd ← newFileAccess pipe FILE_READ
        let writeEnd ← newFileAccess pipe FILE_WRITE
        match readEnd, writeEnd with
        | some readEnd, some writeEnd => connect setReady currentProcess readEnd writeEnd
        | readEnd, writeEnd => do
            freeFileAccess setReady readEnd
            freeFileAccess setReady writeEnd
            (if readEnd = none ∧ writeEnd = none then freePipe (some pipe) else pure ())
            pure (-1, none)

end Code

/-! ## What a pipe has on the heap -/

/-- The blocks of a buffer. -/
def bufferCells : Ptr → Nat → Multiset (Nat × Obj)
  | none, _ => 0
  | some cb, data => (cb, .buffer (some data) PIPE_BUF_SIZE) ::ₘ {(data, .bytes)}

/-- The blocks of the parts of a pipe that nobody waits for, with the values and the queues of its
semaphores.  Parts that are null have no blocks. -/
def partCells (p : PipeCDT) (data : Nat) (value : PipeSem → Int) (queue : PipeSem → Nat) :
    Multiset (Nat × Obj) :=
  bufferCells p.buffer data +
    (semCells p.dataAvailable (value .dataAvailable) (some (queue .dataAvailable)) +
    (semCells p.freeSpaces (value .freeSpaces) (some (queue .freeSpaces)) +
    (semCells p.readMutex (value .readMutex) (some (queue .readMutex)) +
    semCells p.writeMutex (value .writeMutex) (some (queue .writeMutex)))))

/-- The blocks of a pipe. -/
def pipeCells (pipe : Nat) (p : PipeCDT) (data : Nat) (value : PipeSem → Int)
    (queue : PipeSem → Nat) : Multiset (Nat × Obj) :=
  (pipe, .pipe p) ::ₘ partCells p data value queue

/-- The values of the semaphores after a writer has gone. -/
def woken (p : PipeCDT) (value : PipeSem → Int) : PipeSem → Int :=
  if p.writerCount - 1 ≤ 0 then
    Function.update value .dataAvailable (value .dataAvailable + MAX_PROCESSES.toNat)
  else value

variable {setReady : Int → K Int} {f : Nat → Bool} {n m pipe data fa : Nat}
  {P : Multiset (Nat × Obj)} {p : PipeCDT} {value : PipeSem → Int} {queue : PipeSem → Nat}
  {flags : UInt8} {c : Int}

theorem pipeCells_add : pipeCells pipe p data value queue + P =
    (pipe, .pipe p) ::ₘ (partCells p data value queue + P) := Multiset.cons_add _ _ _

theorem mem_pipeCells : (pipe, Obj.pipe p) ∈ pipeCells pipe p data value queue + P := by
  rw [pipeCells_add]
  exact Multiset.mem_cons_self _ _

theorem runs_pipeOf (hmem : (pipe, .pipe p) ∈ P) : Runs f (pipeOf pipe) n P p n P :=
  (Runs.load hmem).bind (.pure p)

theorem runs_fileOf {g : FileAccessCDT} (hmem : (fa, .file g) ∈ P) :
    Runs f (fileOf fa) n P g n P := (Runs.load hmem).bind (.pure g)

/-- Other counts. -/
theorem runs_setCounts (refs writers : Int) :
    Runs f (store pipe (.pipe { p with refCount := refs, writerCount := writers })) n
      (pipeCells pipe p data value queue + P) () n
      (pipeCells pipe { p with refCount := refs, writerCount := writers } data value queue + P) :=
  (Runs.store rfl _).of_eq pipeCells_add pipeCells_add

/-! ## Runs of the constructors -/

theorem runs_newBuffer :
    Runs f (newBuffer PIPE_BUF_SIZE) n P (semAt f n) (n + semCalls f n)
      (bufferCells (semAt f n) (n + 1) + P) := by
  rw [newBuffer, if_neg (by decide), semAt, semCalls]
  cases hn : f n with
  | true => exact (Runs.refused hn).bind (.of_eq (.pure none) rfl (zero_add P))
  | false =>
      refine (Runs.alloc hn).bind ?_
      cases hdata : f (n + 1) with
      | true =>
          refine (Runs.refused hdata).bind ((Runs.free rfl).bind ?_)
          exact .of_eq (.pure none) rfl (zero_add P)
      | false =>
          refine (Runs.alloc hdata).bind ((Runs.store (Multiset.cons_swap _ _ _) _).bind ?_)
          refine .of_eq (.pure (some n)) rfl ?_
          simp only [Bool.or_self, Bool.false_eq_true, reduceIte]
          rw [bufferCells, Multiset.cons_add, Multiset.singleton_add]

theorem runs_freeBuffer {cb : Ptr} :
    Runs f (freeBuffer cb) n (bufferCells cb data + P) () n P := by
  cases cb with
  | none => exact (Runs.pure ()).of_eq (zero_add P) rfl
  | some cb =>
      have hcells : bufferCells (some cb) data + P =
          (cb, .buffer (some data) PIPE_BUF_SIZE) ::ₘ (data, .bytes) ::ₘ P := by
        rw [bufferCells, Multiset.cons_add, Multiset.singleton_add]
      have hswap := Multiset.cons_swap (cb, Obj.buffer (some data) PIPE_BUF_SIZE) (data, .bytes) P
      rw [hcells]
      refine (Runs.load (Multiset.mem_cons_self _ _)).bind (Runs.bind (Runs.free hswap) ?_)
      exact .free rfl

/-- A pipe is freed with all its parts. -/
theorem runs_freePipe :
    Runs f (freePipe (some pipe)) n (pipeCells pipe p data value queue + P) () n P := by
  -- The pipe itself goes last.
  have hcells : pipeCells pipe p data value queue + P =
      bufferCells p.buffer data +
        (semCells p.dataAvailable (value .dataAvailable) (some (queue .dataAvailable)) +
        (semCells p.freeSpaces (value .freeSpaces) (some (queue .freeSpaces)) +
        (semCells p.readMutex (value .readMutex) (some (queue .readMutex)) +
        (semCells p.writeMutex (value .writeMutex) (some (queue .writeMutex)) +
          (pipe, .pipe p) ::ₘ P)))) := by
    rw [pipeCells_add, partCells]
    simp only [Multiset.add_cons, add_assoc]
  refine (runs_pipeOf mem_pipeCells).bind (Runs.bind (Runs.of_eq runs_freeBuffer hcells rfl) ?_)
  exact runs_freeSemaphore.bind (runs_freeSemaphore.bind (runs_freeSemaphore.bind
    (runs_freeSemaphore.bind (.free rfl))))

/-- The parts of a pipe are all there. -/
def Complete (p : PipeCDT) : Prop :=
  ¬(p.buffer = none ∨ p.dataAvailable = none ∨ p.freeSpaces = none ∨ p.readMutex = none ∨
    p.writeMutex = none)

/-- The values of the semaphores of a new pipe. -/
def initial : PipeSem → Int
  | .dataAvailable => 0
  | .freeSpaces => PIPE_BUF_SIZE
  | .readMutex => 1
  | .writeMutex => 1

/-- The request that each part of a pipe begins with. -/
def partStart (f : Nat → Bool) (n : Nat) : (part : Nat) → Nat
  | 0 => n + 1
  | part + 1 => partStart f n part + semCalls f (partStart f n part)

/-- The pipe that is requested at `n`, if its block is granted. -/
def pipeAt (f : Nat → Bool) (n : Nat) : PipeCDT where
  buffer := semAt f (partStart f n 0)
  dataAvailable := semAt f (partStart f n 1)
  freeSpaces := semAt f (partStart f n 2)
  readMutex := semAt f (partStart f n 3)
  writeMutex := semAt f (partStart f n 4)
  refCount := 0
  writerCount := 0

/-- Its queues. -/
def queuesAt (f : Nat → Bool) (n : Nat) : PipeSem → Nat
  | .dataAvailable => partStart f n 1 + 1
  | .freeSpaces => partStart f n 2 + 1
  | .readMutex => partStart f n 3 + 1
  | .writeMutex => partStart f n 4 + 1

/-- **`newPipe` makes a complete pipe, or nothing.** -/
theorem runs_newPipe (f : Nat → Bool) (n : Nat) :
    ∃ n', (∀ P, Runs f newPipe n P none n' P) ∨
      ∃ p data queue, Complete p ∧ p.refCount = 0 ∧ p.writerCount = 0 ∧
        ∀ P, Runs f newPipe n P (some n) n' (pipeCells n p data initial queue + P) := by
  cases hn : f n with
  | true => exact ⟨n + 1, .inl fun P ↦ (Runs.refused hn).bind (.pure none)⟩
  | false =>
      -- The parts are requested, whichever of them are refused.
      have hparts : ∀ (P : Multiset (Nat × Obj)) r P',
          Runs f (do
            if (pipeAt f n).buffer = none ∨ (pipeAt f n).dataAvailable = none ∨
                (pipeAt f n).freeSpaces = none ∨ (pipeAt f n).readMutex = none ∨
                (pipeAt f n).writeMutex = none then do
              freePipe (some n)
              pure none
            else pure (some n))
            (partStart f n 5)
            (pipeCells n (pipeAt f n) (n + 2) initial (queuesAt f n) + P) r (partStart f n 5) P' →
          Runs f newPipe n P r (partStart f n 5) P' := by
        intro P r P' hrest
        have hadd : ∀ (A B C D E P : Multiset (Nat × Obj)) {x : Nat × Obj},
            E + (D + (C + (B + (A + x ::ₘ P)))) = x ::ₘ (A + (B + (C + (D + E))) + P) := by
          intro A B C D E P x
          simp only [← Multiset.singleton_add]
          abel
        rw [pipeCells_add] at hrest
        refine (Runs.alloc hn).bind (runs_newBuffer.bind (runs_newSemaphore.bind
          (runs_newSemaphore.bind (runs_newSemaphore.bind (runs_newSemaphore.bind
          (Runs.bind (Runs.store (v := .pipe blankPipe) ?_ _) hrest))))))
        exact hadd _ _ _ _ _ P
      refine ⟨partStart f n 5, ?_⟩
      by_cases hcomplete : Complete (pipeAt f n)
      · refine .inr ⟨pipeAt f n, n + 2, queuesAt f n, hcomplete, rfl, rfl, fun P ↦ hparts P _ _ ?_⟩
        rw [if_neg hcomplete]
        exact .pure (some n)
      · refine .inl fun P ↦ hparts P _ _ ?_
        rw [if_pos (not_not.1 hcomplete)]
        exact runs_freePipe.bind (.pure none)

/-! ## Runs of the counters -/

theorem runs_addPipeRef :
    Runs f (addPipeRef pipe) n (pipeCells pipe p data value queue + P) () n
      (pipeCells pipe { p with refCount := p.refCount + 1 } data value queue + P) :=
  (runs_pipeOf mem_pipeCells).bind (runs_setCounts _ p.writerCount)

theorem runs_addPipeWriter :
    Runs f (addPipeWriter pipe) n (pipeCells pipe p data value queue + P) () n
      (pipeCells pipe { p with writerCount := p.writerCount + 1 } data value queue + P) :=
  (runs_pipeOf mem_pipeCells).bind (runs_setCounts p.refCount _)

/-- Nobody waits on the semaphore. -/
theorem runs_semPost {s : Ptr} {v : Int} {q : Ptr} :
    Runs f (semPost setReady s) n (semCells s v q + P) () n (semCells s (v + 1) q + P) := by
  cases s with
  | none => exact .pure ()
  | some sem =>
      have hcells : ∀ v, semCells (some sem) v q + P = (sem, .sem v q) ::ₘ (queueCells q [] + P) :=
        fun v ↦ Multiset.cons_add _ _ _
      rw [hcells, hcells]
      refine (runs_semOf (Multiset.mem_cons_self _ _)).bind ((Runs.store rfl _).bind ?_)
      cases q with
      | none => exact .pure ()
      | some q =>
          have hmem : (q, Obj.queue []) ∈
              (sem, Obj.sem (v + 1) (some q)) ::ₘ (queueCells (some q) [] + P) := by
            rw [queueCells, Multiset.cons_add]
            exact Multiset.mem_cons_of_mem (Multiset.mem_cons_self _ _)
          exact (runs_nodesOf hmem).bind (.pure ())

/-- The semaphore `dataAvailable` among the blocks of a pipe. -/
theorem exists_dataAvailable_add (pipe : Nat) (p : PipeCDT) (data : Nat) (value : PipeSem → Int)
    (queue : PipeSem → Nat) (P : Multiset (Nat × Obj)) :
    ∃ Q, ∀ v, pipeCells pipe p data (Function.update value .dataAvailable v) queue + P =
      semCells p.dataAvailable v (some (queue .dataAvailable)) + Q := by
  refine ⟨(pipe, .pipe p) ::ₘ (bufferCells p.buffer data +
    (semCells p.freeSpaces (value .freeSpaces) (some (queue .freeSpaces)) +
    (semCells p.readMutex (value .readMutex) (some (queue .readMutex)) +
    (semCells p.writeMutex (value .writeMutex) (some (queue .writeMutex)) + P)))), fun v ↦ ?_⟩
  rw [pipeCells_add, partCells, Function.update_self, Function.update_of_ne (by decide),
    Function.update_of_ne (by decide), Function.update_of_ne (by decide)]
  simp only [← Multiset.singleton_add]
  abel

/-- Readers that wait would be woken, and nobody waits. -/
theorem runs_forceReadersWakeUp (count : Nat) :
    Runs f (forceReadersWakeUp setReady pipe count) n (pipeCells pipe p data value queue + P) () n
      (pipeCells pipe p data
        (Function.update value .dataAvailable (value .dataAvailable + count)) queue + P) := by
  induction count generalizing value with
  | zero =>
      rw [Nat.cast_zero, add_zero, Function.update_eq_self]
      exact .pure ()
  | succ count ih =>
      obtain ⟨Q, hQ⟩ := exists_dataAvailable_add pipe p data value queue P
      have hbefore := hQ (value .dataAvailable)
      rw [Function.update_eq_self] at hbefore
      have hrest := @ih (Function.update value .dataAvailable (value .dataAvailable + 1))
      rw [Function.update_self, Function.update_idem, add_assoc, add_comm 1, ← Nat.cast_succ]
        at hrest
      have hpost := (@runs_semPost setReady f n Q p.dataAvailable (value .dataAvailable)
        (some (queue .dataAvailable))).of_eq hbefore (hQ _)
      exact (runs_pipeOf mem_pipeCells).bind (hpost.bind hrest)

theorem runs_removePipeWriter :
    Runs f (removePipeWriter setReady pipe) n (pipeCells pipe p data value queue + P) () n
      (pipeCells pipe { p with writerCount := p.writerCount - 1 } data (woken p value) queue
        + P) := by
  refine (runs_pipeOf mem_pipeCells).bind ((runs_setCounts p.refCount _).bind ?_)
  rw [woken]
  split
  next => exact runs_forceReadersWakeUp _
  next => exact .pure ()

/-- Another end remains. -/
theorem runs_removePipeRef (hrefs : 1 < p.refCount) :
    Runs f (removePipeRef pipe) n (pipeCells pipe p data value queue + P) () n
      (pipeCells pipe { p with refCount := p.refCount - 1 } data value queue + P) := by
  refine (runs_pipeOf mem_pipeCells).bind ((runs_setCounts _ p.writerCount).bind ?_)
  rw [if_neg (by omega)]
  exact .pure ()

/-- The last end frees the pipe. -/
theorem runs_removePipeRef_last (hrefs : p.refCount ≤ 1) :
    Runs f (removePipeRef pipe) n (pipeCells pipe p data value queue + P) () n P := by
  refine (runs_pipeOf mem_pipeCells).bind ((runs_setCounts _ p.writerCount).bind ?_)
  rw [if_pos (by omega)]
  exact runs_freePipe

/-! ## Runs of the ends -/

/-- How many writers an end counts for. -/
def writers (flags : UInt8) : Int := if flags &&& FILE_WRITE ≠ 0 then 1 else 0

/-- A pipe with one end more, -/
def joined (p : PipeCDT) (flags : UInt8) : PipeCDT :=
  { p with refCount := p.refCount + 1, writerCount := p.writerCount + writers flags }

/-- and with one end less. -/
def left (p : PipeCDT) (flags : UInt8) : PipeCDT :=
  { p with refCount := p.refCount - 1, writerCount := p.writerCount - writers flags }

/-- The block of an end of the pipe. -/
def endCell (fa pipe : Nat) (flags : UInt8) (refs : Int) : Nat × Obj :=
  (fa, .file ⟨some pipe, flags, refs⟩)

/-- What an end counts for is added, -/
theorem runs_addWriters :
    Runs f (if flags &&& FILE_WRITE ≠ 0 then addPipeWriter pipe else pure ()) n
      (pipeCells pipe p data value queue + P) () n
      (pipeCells pipe { p with writerCount := p.writerCount + writers flags } data value queue
        + P) := by
  rw [writers]
  split
  next => exact runs_addPipeWriter
  next =>
    rw [add_zero]
    exact .pure ()

/-- and subtracted. -/
theorem runs_removeWriters (setReady : Int → K Int) (p : PipeCDT) (value : PipeSem → Int)
    (flags : UInt8) : ∃ value', ∀ f n pipe data queue P,
      Runs f (if flags &&& FILE_WRITE ≠ 0 then removePipeWriter setReady pipe else pure ()) n
        (pipeCells pipe p data value queue + P) () n
        (pipeCells pipe { p with writerCount := p.writerCount - writers flags } data value' queue
          + P) := by
  rw [writers]
  split
  next => exact ⟨woken p value, fun _ _ _ _ _ _ ↦ runs_removePipeWriter⟩
  next =>
    rw [sub_zero]
    exact ⟨value, fun _ _ _ _ _ _ ↦ .pure ()⟩

/-- An end is refused, -/
theorem runs_newFileAccess_refused (hn : f n = true) :
    Runs f (newFileAccess pipe flags) n P none (n + 1) P := (Runs.refused hn).bind (.pure none)

/-- or it is counted by the pipe. -/
theorem runs_newFileAccess (hn : f n = false) :
    Runs f (newFileAccess pipe flags) n (pipeCells pipe p data value queue + P) (some n) (n + 1)
      (pipeCells pipe (joined p flags) data value queue + endCell n pipe flags 0 ::ₘ P) := by
  refine (Runs.alloc hn).bind ?_
  rw [← Multiset.add_cons]
  exact runs_addPipeRef.bind (runs_addWriters.bind (.pure (some n)))

theorem mem_endCell (Q : Multiset (Nat × Obj)) :
    (fa, .file ⟨some pipe, flags, c⟩) ∈ Q + endCell fa pipe flags c ::ₘ P := by
  rw [Multiset.add_cons]
  exact Multiset.mem_cons_self _ _

/-- An end that is freed is counted no more, -/
theorem runs_freeFileAccess (setReady : Int → K Int) (value : PipeSem → Int) (flags : UInt8)
    (hrefs : 1 < p.refCount) :
    ∃ value', ∀ f n pipe fa c data queue P, Runs f (freeFileAccess setReady (some fa)) n
      (pipeCells pipe p data value queue + endCell fa pipe flags c ::ₘ P) () n
      (pipeCells pipe (left p flags) data value' queue + P) := by
  obtain ⟨value', hwriters⟩ := runs_removeWriters setReady p value flags
  refine ⟨value', fun f n pipe fa c data queue P ↦ ?_⟩
  have hleft : 1 < { p with writerCount := p.writerCount - writers flags }.refCount := hrefs
  exact (runs_fileOf (mem_endCell _)).bind ((hwriters f n pipe data queue _).bind
    ((runs_removePipeRef hleft).bind (.free (Multiset.add_cons _ _ _))))

/-- and the last one takes the pipe with it. -/
theorem runs_freeFileAccess_last (hrefs : p.refCount ≤ 1) :
    Runs f (freeFileAccess setReady (some fa)) n
      (pipeCells pipe p data value queue + endCell fa pipe flags c ::ₘ P) () n P := by
  obtain ⟨value', hwriters⟩ := runs_removeWriters setReady p value flags
  have hleft : { p with writerCount := p.writerCount - writers flags }.refCount ≤ 1 := hrefs
  exact (runs_fileOf (mem_endCell _)).bind ((hwriters f n pipe data queue _).bind
    ((runs_removePipeRef_last hleft).bind (.free rfl)))

theorem runs_addFileRef :
    Runs f (addFileRef fa) n (endCell fa pipe flags c ::ₘ P) () n
      (endCell fa pipe flags (c + 1) ::ₘ P) :=
  (runs_fileOf (Multiset.mem_cons_self _ _)).bind (.store rfl _)

/-- An end that nothing else refers to is freed. -/
theorem runs_removeFileRef (setReady : Int → K Int) (value : PipeSem → Int) (flags : UInt8)
    (hrefs : 1 < p.refCount) (hc : c ≤ 1) :
    ∃ value', ∀ f n pipe fa data queue P, Runs f (removeFileRef setReady fa) n
      (pipeCells pipe p data value queue + endCell fa pipe flags c ::ₘ P) () n
      (pipeCells pipe (left p flags) data value' queue + P) := by
  obtain ⟨value', hfree⟩ := runs_freeFileAccess setReady value flags hrefs
  refine ⟨value', fun f n pipe fa data queue P ↦ ?_⟩
  refine (runs_fileOf (mem_endCell _)).bind ((Runs.store (Multiset.add_cons _ _ _) _).bind ?_)
  have hlast : c - 1 ≤ 0 := by omega
  rw [if_pos hlast, ← Multiset.add_cons]
  exact hfree f n pipe fa (c - 1) data queue P

/-! ## Runs of the descriptors -/

/-- The slots of a table that are free, from the lowest one on. -/
def freeSlots (q : ProcessCDT) : List Nat := (List.range MAX_FDS).filter fun i ↦ q.fdTable i = none

/-- A process whose slot `i` refers to the end `fa`, or to none. -/
def setFd (q : ProcessCDT) (i : Nat) (fa : Ptr) : ProcessCDT :=
  { q with
    fdTable := Function.update q.fdTable i fa
    eofRequests := Function.update q.eofRequests i false }

variable {q : ProcessCDT} {i process : Nat} {slots : List Nat}

theorem isValidFd_of_lt (hi : i < MAX_FDS) : isValidFd i = true :=
  decide_eq_true ⟨Int.natCast_nonneg i, Int.ofNat_lt.2 hi⟩

theorem mem_freeSlots : i ∈ freeSlots q ↔ i < MAX_FDS ∧ q.fdTable i = none := by
  rw [freeSlots, List.mem_filter, List.mem_range, decide_eq_true_iff]

/-- The slots that remain when the first one is taken. -/
theorem freeSlots_setFd (hslots : freeSlots q = i :: slots) :
    freeSlots (setFd q i (some fa)) = slots := by
  have hnodup : (freeSlots q).Nodup := List.nodup_range.filter _
  rw [hslots, List.nodup_cons] at hnodup
  have hfilter : freeSlots (setFd q i (some fa)) = (freeSlots q).filter (· ≠ i) := by
    rw [freeSlots, freeSlots, List.filter_filter]
    refine List.filter_congr fun j _ ↦ ?_
    by_cases hj : j = i
    · simp [setFd, hj]
    · simp [setFd, hj]
  rw [hfilter, hslots, List.filter_cons_of_neg (by simp), List.filter_eq_self]
  intro j hj
  exact decide_eq_true fun heq ↦ hnodup.1 (heq ▸ hj)

/-- What the loop of `addFd` finds. -/
theorem find?_eq_head? (q : ProcessCDT) :
    ((List.range MAX_FDS).find? fun i ↦ q.fdTable i = none) = (freeSlots q).head? :=
  List.head?_filter.symm

/-- The table is full, -/
theorem runs_addFd_full (hslots : freeSlots q = []) :
    Runs f (addFd process fa) n ((process, .process q) ::ₘ P) (-1) n
      ((process, .process q) ::ₘ P) := by
  refine (runs_processOf (Multiset.mem_cons_self _ _)).bind ?_
  rw [find?_eq_head?, hslots]
  exact .pure (-1)

/-- or the first free slot is taken. -/
theorem runs_addFd (hslots : freeSlots q = i :: slots) :
    Runs f (addFd process fa) n ((process, .process q) ::ₘ endCell fa pipe flags c ::ₘ P) i n
      ((process, .process (setFd q i (some fa))) ::ₘ endCell fa pipe flags (c + 1) ::ₘ P) := by
  obtain ⟨hi, hfree⟩ := mem_freeSlots.1 (hslots ▸ List.mem_cons_self)
  refine (runs_processOf (Multiset.mem_cons_self _ _)).bind ?_
  rw [find?_eq_head?, hslots]
  refine (runs_processOf (Multiset.mem_cons_self _ _)).bind ?_
  have hopen : (!isValidFd i || isOpenFd q i) = false := by
    rw [isOpenFd, isValidFd_of_lt hi, Int.toNat_natCast, hfree]
    rfl
  rw [hopen, if_neg Bool.false_ne_true]
  have hswap : ∀ x y, x ::ₘ y ::ₘ P = y ::ₘ x ::ₘ P := fun x y ↦ Multiset.cons_swap x y P
  refine (Runs.store rfl _).bind ((runs_addFileRef.of_eq (hswap _ _) (hswap _ _)).bind ?_)
  exact .pure _

/-- A slot that is closed frees an end that nothing else refers to. -/
theorem runs_closeFd (setReady : Int → K Int) (value : PipeSem → Int) (flags : UInt8)
    (hrefs : 1 < p.refCount) (hc : c ≤ 1) (hi : i < MAX_FDS) (hfd : q.fdTable i = some fa) :
    ∃ value', ∀ f n pipe process data queue P, Runs f (closeFd setReady process i) n
      ((process, .process q) ::ₘ (pipeCells pipe p data value queue
        + endCell fa pipe flags c ::ₘ P)) 0 n
      ((process, .process (setFd q i none)) ::ₘ
        (pipeCells pipe (left p flags) data value' queue + P)) := by
  obtain ⟨value', hremove⟩ := runs_removeFileRef setReady value flags hrefs hc
  refine ⟨value', fun f n pipe process data queue P ↦ ?_⟩
  refine (runs_processOf (Multiset.mem_cons_self _ _)).bind ?_
  have hopen : (!isOpenFd q i) = false := by
    rw [isOpenFd, isValidFd_of_lt hi, Int.toNat_natCast, hfd]
    rfl
  rw [hopen, if_neg Bool.false_ne_true, Int.toNat_natCast, hfd]
  have hremove := hremove f n pipe fa data queue ((process, .process (setFd q i none)) ::ₘ P)
  refine (Runs.store rfl _).bind (Runs.bind (hremove.of_eq ?_ ?_) (.pure 0))
  · simp only [Multiset.add_cons]
    exact Multiset.cons_swap _ _ _
  · rw [Multiset.add_cons]

/-! ## Runs of the system call -/

variable {r w : Nat}

/-- Both ends are freed, the first one counted and the second one as the last. -/
theorem runs_freeEnds (setReady : Int → K Int) (hrefs : p.refCount = 2) :
    Runs f (do
        freeFileAccess setReady (some r)
        freeFileAccess setReady (some w)
        pure ((-1, none) : Int × Option (Int × Int))) n
      (pipeCells pipe p data value queue
        + endCell r pipe FILE_READ 0 ::ₘ endCell w pipe FILE_WRITE 0 ::ₘ P) (-1, none) n P := by
  have hmany : 1 < p.refCount := by omega
  have hlast : (left p FILE_READ).refCount ≤ 1 := by
    change p.refCount - 1 ≤ 1
    omega
  obtain ⟨value', hfirst⟩ := runs_freeFileAccess setReady value FILE_READ hmany
  exact (hfirst f n pipe r 0 data queue _).bind ((runs_freeFileAccess_last hlast).bind (.pure _))

/-- `sysPipe` frees what it has been granted, or goes on with both ends of a complete pipe. -/
theorem runs_sysPipe (setReady : Int → K Int) (f : Nat → Bool) (n : Nat) :
    ∃ n', (∀ P cur, Runs f (sysPipe setReady cur true) n P (-1, none) n' P) ∨
      ∃ r w p data queue, Complete p ∧ p.refCount = 2 ∧ p.writerCount = 1 ∧
        ∀ P cur x P', Runs f (connect setReady cur r w) n'
            (pipeCells n p data initial queue
              + endCell r n FILE_READ 0 ::ₘ endCell w n FILE_WRITE 0 ::ₘ P) x n' P' →
          Runs f (sysPipe setReady cur true) n P x n' P' := by
  obtain ⟨m, hnone | ⟨p, data, queue, hcomplete, hrefs, hwriters, hpipe⟩⟩ := runs_newPipe f n
  · exact ⟨m, .inl fun P cur ↦ (hnone P).bind (.pure _)⟩
  have hread : writers FILE_READ = 0 := by decide
  have hwrite : writers FILE_WRITE = 1 := by decide
  refine ⟨m + 2, ?_⟩
  cases hr : f m with
  | true =>
      cases hw : f (m + 1) with
      | true =>
          refine .inl fun P cur ↦ (hpipe P).bind ((runs_newFileAccess_refused hr).bind
            ((runs_newFileAccess_refused hw).bind ?_))
          exact (Runs.pure ()).bind ((Runs.pure ()).bind (runs_freePipe.bind (.pure _)))
      | false =>
          refine .inl fun P cur ↦ (hpipe P).bind ((runs_newFileAccess_refused hr).bind
            ((runs_newFileAccess hw).bind ?_))
          have hlast : (joined p FILE_WRITE).refCount ≤ 1 := by
            change p.refCount + 1 ≤ 1
            omega
          exact (Runs.pure ()).bind ((runs_freeFileAccess_last hlast).bind
            ((Runs.pure ()).bind (.pure _)))
  | false =>
      cases hw : f (m + 1) with
      | true =>
          refine .inl fun P cur ↦ (hpipe P).bind ((runs_newFileAccess hr).bind
            ((runs_newFileAccess_refused hw).bind ?_))
          have hlast : (joined p FILE_READ).refCount ≤ 1 := by
            change p.refCount + 1 ≤ 1
            omega
          exact (runs_freeFileAccess_last hlast).bind ((Runs.pure ()).bind
            ((Runs.pure ()).bind (.pure _)))
      | false =>
          refine .inr ⟨m, m + 1, joined (joined p FILE_READ) FILE_WRITE, data, queue, hcomplete,
            ?_, ?_, fun P cur x P' hrest ↦ (hpipe P).bind ((runs_newFileAccess hr).bind
              ((runs_newFileAccess hw).bind ?_))⟩
          · simp only [joined, hrefs]
            rfl
          · simp only [joined, hwriters, hread, hwrite]
            rfl
          · rw [Multiset.cons_swap]
            exact hrest

/-- Without a process both ends are freed. -/
theorem runs_connect_null (setReady : Int → K Int) (hrefs : p.refCount = 2) :
    Runs f (connect setReady none r w) n
      (pipeCells pipe p data value queue
        + endCell r pipe FILE_READ 0 ::ₘ endCell w pipe FILE_WRITE 0 ::ₘ P) (-1, none) n P :=
  (Runs.pure (-1)).bind (runs_freeEnds setReady hrefs)

/-- The process in front. -/
theorem add_cons_cons (Q : Multiset (Nat × Obj)) (x y z : Nat × Obj) :
    Q + x ::ₘ y ::ₘ z ::ₘ P = z ::ₘ x ::ₘ y ::ₘ (Q + P) := by
  simp only [← Multiset.singleton_add]
  abel

/-- No slot is free, and both ends are freed. -/
theorem runs_connect_full (setReady : Int → K Int) (hrefs : p.refCount = 2)
    (hslots : freeSlots q = []) :
    Runs f (connect setReady (some process) r w) n
      ((process, .process q) ::ₘ endCell r pipe FILE_READ 0 ::ₘ endCell w pipe FILE_WRITE 0 ::ₘ
        (pipeCells pipe p data value queue + P)) (-1, none) n ((process, .process q) ::ₘ P) :=
  (runs_addFd_full hslots).bind
    ((runs_freeEnds setReady hrefs).of_eq (add_cons_cons _ _ _ _).symm rfl)

/-- One slot is free.  It is closed again, which frees the first end. -/
theorem runs_connect_one (setReady : Int → K Int) (hrefs : p.refCount = 2)
    (hslots : freeSlots q = [i]) :
    Runs f (connect setReady (some process) r w) n
      ((process, .process q) ::ₘ endCell r pipe FILE_READ 0 ::ₘ endCell w pipe FILE_WRITE 0 ::ₘ
        (pipeCells pipe p data value queue + P)) (-1, none) n
      ((process, .process (setFd (setFd q i (some r)) i none)) ::ₘ P) := by
  obtain ⟨hi, -⟩ := mem_freeSlots.1 (hslots ▸ List.mem_cons_self)
  have hmany : 1 < p.refCount := by omega
  have hlast : p.refCount - 1 ≤ 1 := by omega
  have hfd : (setFd q i (some r)).fdTable i = some r := Function.update_self _ _ _
  obtain ⟨value', hclose⟩ := runs_closeFd setReady value FILE_READ hmany
    (le_refl 1) hi hfd
  have hnonneg : ¬(i : Int) < 0 := Int.not_lt.2 (Int.natCast_nonneg i)
  refine (runs_addFd hslots).bind ?_
  rw [if_neg hnonneg]
  refine (runs_addFd_full (freeSlots_setFd hslots)).bind (Runs.bind (Runs.of_eq
    (hclose f n pipe process data queue (endCell w pipe FILE_WRITE 0 ::ₘ P)) ?_ rfl) ?_)
  · simp only [Multiset.add_cons]
    rfl
  · have hfree := @runs_freeFileAccess_last setReady f n pipe data w
      ((process, .process (setFd (setFd q i (some r)) i none)) ::ₘ P) (left p FILE_READ) value'
      queue FILE_WRITE 0 hlast
    refine (hfree.of_eq ?_ rfl).bind (.pure _)
    rw [← Multiset.add_cons, Multiset.cons_swap]

/-- Two slots are free. -/
theorem runs_connect (setReady : Int → K Int) {j : Nat} (hslots : freeSlots q = i :: j :: slots) :
    Runs f (connect setReady (some process) r w) n
      ((process, .process q) ::ₘ endCell r pipe FILE_READ 0 ::ₘ endCell w pipe FILE_WRITE 0 ::ₘ P)
      (0, some (i, j)) n
      ((process, .process (setFd (setFd q i (some r)) j (some w))) ::ₘ
        endCell w pipe FILE_WRITE 1 ::ₘ endCell r pipe FILE_READ 1 ::ₘ P) := by
  have hnonneg : ∀ k : Nat, ¬(k : Int) < 0 := fun k ↦ Int.not_lt.2 (Int.natCast_nonneg k)
  refine (runs_addFd hslots).bind ?_
  rw [if_neg (hnonneg i), Multiset.cons_swap (endCell r _ _ _)]
  refine (runs_addFd (freeSlots_setFd hslots)).bind ?_
  rw [if_neg (hnonneg j)]
  exact .pure _

/-! ## What the system call leaves on the heap -/

/-- A buffer. -/
def IsBuffer (h : Blocks Obj) (cb : Ptr) : Prop :=
  ∃ b data, cb = some b ∧ h.cells b = some (.buffer (some data) PIPE_BUF_SIZE) ∧
    h.cells data = some .bytes

/-- A pipe that is empty, and that nobody waits for. -/
structure IsPipe (h : Blocks Obj) (p : PipeCDT) : Prop where
  buffer : IsBuffer h p.buffer
  dataAvailable : IsSem h 0 p.dataAvailable
  freeSpaces : IsSem h PIPE_BUF_SIZE p.freeSpaces
  readMutex : IsSem h 1 p.readMutex
  writeMutex : IsSem h 1 p.writeMutex

/-- From `h`, the process has got the ends `r` and `w` of the new pipe in its two lowest slots that
were free, and nothing else that was there has changed. -/
structure Opened (h h' : Blocks Obj) (process : Nat) (q : ProcessCDT) (i j r w pipe : Nat)
    (p : PipeCDT) : Prop where
  old : ∀ b ≠ process, h.cells b ≠ none → h'.cells b = h.cells b
  slots : ∃ slots, freeSlots q = i :: j :: slots
  process : h'.cells process = some (.process (setFd (setFd q i (some r)) j (some w)))
  new : New h h' r ∧ New h h' w ∧ New h h' pipe
  readEnd : h'.cells r = some (.file ⟨some pipe, FILE_READ, 1⟩)
  writeEnd : h'.cells w = some (.file ⟨some pipe, FILE_WRITE, 1⟩)
  pipe : h'.cells pipe = some (.pipe p)
  refCount : p.refCount = 2
  writerCount : p.writerCount = 1
  parts : IsPipe h' p

/-- Every block is as it was.  Only a request for the end of file of a descriptor that is not open
may have been forgotten. -/
structure Unchanged (h h' : Blocks Obj) (currentProcess : Ptr) : Prop where
  other : ∀ b, currentProcess ≠ some b → h'.cells b = h.cells b
  process : ∀ b q, currentProcess = some b → h.cells b = some (.process q) →
    ∃ e, h'.cells b = some (.process { q with eofRequests := e }) ∧
      ∀ i, e i = q.eofRequests i ∨ q.fdTable i = none ∧ e i = false

/-- The call either fails with every block as it was, or succeeds and has opened two slots. -/
def Atomic (h : Blocks Obj) (currentProcess : Ptr) (call : K (Int × Option (Int × Int))) : Prop :=
  ∃ x h', call h = some (x, h') ∧
    (x = (-1, none) ∧ Unchanged h h' currentProcess ∨
      ∃ (b : Nat) (q : ProcessCDT) (i j r w pipe : Nat) (p : PipeCDT),
        currentProcess = some b ∧ h.cells b = some (.process q) ∧
          x = (0, some ((i : Int), (j : Int))) ∧ Opened h h' b q i j r w pipe p)

theorem Unchanged.of_eq {h h' : Blocks Obj} {cur : Ptr} (hcells : h'.cells = h.cells) :
    Unchanged h h' cur where
  other b _ := by rw [hcells]
  process b q _ hq := ⟨q.eofRequests, by rw [hcells, hq], fun i ↦ .inl rfl⟩

/-- A slot that is filled and emptied again. -/
theorem exists_setFd_setFd (fa : Nat) (hfree : q.fdTable i = none) :
    ∃ e, setFd (setFd q i (some fa)) i none = { q with eofRequests := e } ∧
      ∀ j, e j = q.eofRequests j ∨ q.fdTable j = none ∧ e j = false := by
  refine ⟨Function.update q.eofRequests i false, ?_, fun j ↦ ?_⟩
  · simp only [setFd, Function.update_idem]
    rw [← hfree, Function.update_eq_self]
  · by_cases hj : j = i
    · subst hj
      exact .inr ⟨hfree, Function.update_self _ _ _⟩
    · exact .inl (Function.update_of_ne hj _ _)

theorem isPipe_of {h : Blocks Obj} (hcomplete : Complete p)
    (hcells : ∀ x ∈ partCells p data initial queue, h.cells x.1 = some x.2) : IsPipe h p := by
  obtain ⟨hbuffer, hdata, hspaces, hread, hwrite⟩ := not_or.1 hcomplete |>.imp_right fun h ↦
    not_or.1 h |>.imp_right fun h ↦ not_or.1 h |>.imp_right not_or.1
  simp only [partCells, Multiset.mem_add] at hcells
  constructor
  · cases hcb : p.buffer with
    | none => exact absurd hcb hbuffer
    | some cb =>
        rw [hcb] at hcells
        refine ⟨cb, data, rfl, ?_, ?_⟩
        · exact hcells (cb, _) (.inl (Multiset.mem_cons_self _ {(data, Obj.bytes)}))
        · have hbytes : (data, Obj.bytes) ∈ bufferCells (some cb) data :=
            Multiset.mem_cons_of_mem (Multiset.mem_singleton_self _)
          exact hcells _ (.inl hbytes)
  · exact isSem_of hdata fun x hx ↦ hcells x (.inr (.inl hx))
  · exact isSem_of hspaces fun x hx ↦ hcells x (.inr (.inr (.inl hx)))
  · exact isSem_of hread fun x hx ↦ hcells x (.inr (.inr (.inr (.inl hx))))
  · exact isSem_of hwrite fun x hx ↦ hcells x (.inr (.inr (.inr (.inr hx))))

/-- The blocks of others. -/
theorem old_of {h h' : Blocks Obj} {b k : Nat} {v : Obj}
    (ho : Blocks.Owns (Function.update h.cells b none) ((b, v) ::ₘ P) h') (hk : k ≠ b)
    (hcell : h.cells k ≠ none) : h'.cells k = h.cells k := by
  have hbase : Function.update h.cells b none k = h.cells k := Function.update_of_ne hk _ _
  rw [← hbase] at hcell ⊢
  exact ho.other k fun u hmem ↦ hcell (ho.apart k u hmem)

/-- Nothing but the process is owned when the call has failed. -/
theorem unchanged_of {h h' : Blocks Obj} {b : Nat} {e : Nat → Bool}
    (hq : h.cells b = some (.process q))
    (he : ∀ j, e j = q.eofRequests j ∨ q.fdTable j = none ∧ e j = false)
    (ho : Blocks.Owns (Function.update h.cells b none)
      ((b, .process { q with eofRequests := e }) ::ₘ 0) h') : Unchanged h h' (some b) where
  other k hk := by
    have hne : k ≠ b := fun heq ↦ hk (congrArg some heq.symm)
    refine (ho.other k fun v hmem ↦ ?_).trans (Function.update_of_ne hne _ _)
    exact hne (congrArg Prod.fst (Multiset.mem_singleton.1 hmem))
  process k q' hk hq' := by
    cases hk
    cases hq.symm.trans hq'
    exact ⟨e, ho.cell _ _ (Multiset.mem_cons_self _ _), he⟩

/-- What is owned when the call has succeeded. -/
theorem opened_of {h h' : Blocks Obj} {b j r w : Nat} (hslots : freeSlots q = i :: j :: slots)
    (hcomplete : Complete p) (hrefs : p.refCount = 2) (hwriters : p.writerCount = 1)
    (ho : Blocks.Owns (Function.update h.cells b none)
      ((b, .process (setFd (setFd q i (some r)) j (some w))) ::ₘ
        endCell w pipe FILE_WRITE 1 ::ₘ endCell r pipe FILE_READ 1 ::ₘ
          (pipeCells pipe p data initial queue + 0)) h') :
    Opened h h' b q i j r w pipe p := by
  have hnew : ∀ {k v}, (k, v) ∈ endCell w pipe FILE_WRITE 1 ::ₘ endCell r pipe FILE_READ 1 ::ₘ
      (pipeCells pipe p data initial queue + 0) → h'.cells k = some v ∧ New h h' k := by
    intro k v hmem
    have hcell := ho.cell k v (Multiset.mem_cons_of_mem hmem)
    have hne : k ≠ b := by
      rintro rfl
      exact ho.notMem_of_cons hmem
    have hbase := ho.apart k v (Multiset.mem_cons_of_mem hmem)
    rw [Function.update_of_ne hne] at hbase
    exact ⟨hcell, hbase, by rw [hcell]; exact Option.some_ne_none v⟩
  have hwrite := hnew (Multiset.mem_cons_self _ _)
  have hread := hnew (Multiset.mem_cons_of_mem (Multiset.mem_cons_self _ _))
  have hpipe := hnew (Multiset.mem_cons_of_mem (Multiset.mem_cons_of_mem mem_pipeCells))
  constructor
  · exact fun k hk hcell ↦ old_of ho hk hcell
  · exact ⟨slots, hslots⟩
  · exact ho.cell _ _ (Multiset.mem_cons_self _ _)
  · exact ⟨hread.2, hwrite.2, hpipe.2⟩
  · exact hread.1
  · exact hwrite.1
  · exact hpipe.1
  · exact hrefs
  · exact hwriters
  · have hparts : ∀ x ∈ partCells p data initial queue, h'.cells x.1 = some x.2 := by
      intro x hx
      refine (hnew (k := x.1) (v := x.2) ?_).1
      rw [add_zero, pipeCells]
      exact Multiset.mem_cons_of_mem (Multiset.mem_cons_of_mem (Multiset.mem_cons_of_mem hx))
    exact isPipe_of hcomplete hparts

/-- **`sysPipe` is atomic**, whatever requests are refused and whatever slots are free. -/
theorem sysPipe_atomic (setReady : Int → K Int) (h : Blocks Obj) (hfresh : h.Fresh)
    (currentProcess : Ptr)
    (hcurrent : ∀ b, currentProcess = some b → ∃ q, h.cells b = some (.process q))
    (userFds : Bool) : Atomic h currentProcess (sysPipe setReady currentProcess userFds) := by
  cases userFds with
  | false => exact ⟨_, h, rfl, .inl ⟨rfl, .of_eq rfl⟩⟩
  | true =>
  obtain ⟨n', hrun⟩ := runs_sysPipe setReady h.refuses h.calls
  cases currentProcess with
  | none =>
      have hfail : Runs h.refuses (sysPipe setReady none true) h.calls 0 (-1, none) n' 0 := by
        obtain hfail | ⟨r, w, p, data, queue, -, hrefs, -, hconnect⟩ := hrun
        · exact hfail 0 none
        · exact hconnect 0 none _ _ (runs_connect_null setReady hrefs)
      obtain ⟨h', heq, -, -, ho⟩ := hfail _ h rfl rfl (.start h hfresh)
      exact ⟨_, h', heq, .inl ⟨rfl, .of_eq ho.cells_eq⟩⟩
  | some b =>
      obtain ⟨q, hq⟩ := hcurrent b rfl
      have hown := Blocks.Owns.takeOne hq hfresh
      -- A run that ends with nothing but the process.
      have hfail : ∀ e, (∀ j, e j = q.eofRequests j ∨ q.fdTable j = none ∧ e j = false) →
          Runs h.refuses (sysPipe setReady (some b) true) h.calls ((b, .process q) ::ₘ 0) (-1, none)
            n' ((b, .process { q with eofRequests := e }) ::ₘ 0) →
          Atomic h (some b) (sysPipe setReady (some b) true) := by
        intro e he hrun
        obtain ⟨h', heq, -, -, ho⟩ := hrun _ h rfl rfl hown
        exact ⟨_, h', heq, .inl ⟨rfl, unchanged_of hq he ho⟩⟩
      obtain hrefused | ⟨r, w, p, data, queue, hcomplete, hrefs, hwriters, hconnect⟩ := hrun
      · exact hfail q.eofRequests (fun _ ↦ .inl rfl) (hrefused _ _)
      have hconnect := hconnect ((b, .process q) ::ₘ 0) (some b)
      rw [add_cons_cons] at hconnect
      cases hslots : freeSlots q with
      | nil =>
          refine hfail q.eofRequests (fun _ ↦ .inl rfl) ?_
          exact hconnect _ _ (runs_connect_full setReady hrefs hslots)
      | cons i slots =>
          cases slots with
          | nil =>
              obtain ⟨-, hfree⟩ := mem_freeSlots.1 (hslots ▸ List.mem_cons_self)
              obtain ⟨e, heq, he⟩ := exists_setFd_setFd r hfree
              refine hfail e he ?_
              rw [← heq]
              exact hconnect _ _ (runs_connect_one setReady hrefs hslots)
          | cons j slots =>
              obtain ⟨h', heq, -, -, ho⟩ :=
                hconnect _ _ (runs_connect setReady hslots) _ h rfl rfl hown
              refine ⟨_, h', heq, .inr ⟨b, q, i, j, r, w, h.calls, p, rfl, hq, rfl, ?_⟩⟩
              exact opened_of hslots hcomplete hrefs hwriters ho

/-- A process with one free slot, and nothing is refused. -/
theorem sysPipe_atomic_one_slot :
    let q : ProcessCDT :=
      ⟨2, 1, none, 0, 0, .RUNNING, [], 1, 1, none, none, none, none, 0, none,
        fun i ↦ if i < 15 then some 1 else none, fun _ ↦ false⟩
    Atomic ⟨fun b ↦ if b = 0 then some (.process q) else none, 2, fun _ ↦ false⟩ (some 0)
      (sysPipe (fun _ ↦ pure 0) (some 0) true) := by
  intro q
  refine sysPipe_atomic _ _ (fun b hb ↦ ?_) (some 0) (fun b hb ↦ ?_) true
  · have hne : b ≠ 0 := by
      rintro rfl
      cases hb
    exact if_neg hne
  · cases hb
    exact ⟨q, rfl⟩

end BareBones.IPC.SysPipe
