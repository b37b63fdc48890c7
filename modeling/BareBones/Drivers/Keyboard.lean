import BareBones.IPC.Pipe
import BareBones.Process.Undisturbed

/-!
# The keyboard

The model of `Drivers/keyboardDriver.c`, of the pipe it writes to, and of `readFd`, with which
a process reads what was typed.

The interrupt handler runs in the place of whatever process it has interrupted, and writes a
byte with the ordinary `pipeWrite`.  It may therefore be stopped in a `semWait`, and the
process with it.  The pipe is written by nobody else: the driver holds its only write end.
Its four semaphores are semaphores of the kernel, of which the pipe knows the numbers, and
which no other part of the system uses.

Of the descriptors of a process, only those matter here that read the pipe; `eofRequests` is
the flag that Ctrl+D leaves for `readFd`.  A process that is stopped inside the pipe leaves
an `Inside` behind, which says where it goes on once it is the running one again.
-/

namespace BareBones.Drivers

open BareBones.Process BareBones.Semaphores
open BareBones.IPC (PipeSem CircularBuffer newBuffer bufferHasData bufferIsFull bufferRead
  bufferWrite PIPE_BUF_SIZE)

/-! ## Keys -/

/-- `MULTI_BYTE_SCANCODE` -/
def MULTI_BYTE_SCANCODE : UInt8 := 0xE0

/-- `KEYCODE_SHIFT` -/
def KEYCODE_SHIFT : UInt8 := 0x7F

/-- `LSHIFT` -/
def LSHIFT : UInt8 := 0x2A

/-- `RSHIFT` -/
def RSHIFT : UInt8 := 0x36

/-- `CAPSLOCK` -/
def CAPSLOCK : UInt8 := 0x3A

/-- `LCONTROL` -/
def LCONTROL : UInt8 := 0x1D

/-- `PRESS_C` -/
def PRESS_C : UInt8 := 0x2E

/-- `PRESS_D` -/
def PRESS_D : UInt8 := 0x20

/-- `END_OF_TEXT`: Ctrl+C. -/
def END_OF_TEXT : UInt8 := 0x03

/-- `END_OF_TRANSMISSION`: Ctrl+D. -/
def END_OF_TRANSMISSION : UInt8 := 0x04

/-- The characters of a table, as bytes. -/
def ascii (table : List Char) : List UInt8 := table.map fun c ↦ UInt8.ofNat c.toNat

/-- `scancodeToAscii` -/
def scancodeToAscii : List UInt8 := ascii [
  '\x00', '\x00', '1', '2', '3', '4', '5', '6', '7', '8', '9', '0', '-', '=', '\x08',
  '\t', 'q', 'w', 'e', 'r', 't', 'y', 'u', 'i', 'o', 'p', '[', ']', '\n',
  '\x00', 'a', 's', 'd', 'f', 'g', 'h', 'j', 'k', 'l', ';', '\x27', '\x60',
  '\x00', '\\', 'z', 'x', 'c', 'v', 'b', 'n', 'm', ',', '.', '/', '\x00',
  '*', '\x00', ' ', '\x00']

/-- `shiftedScancodeToAscii` -/
def shiftedScancodeToAscii : List UInt8 := ascii [
  '\x00', '\x00', '!', '\x22', '#', '$', '%', '^', '&', '*', '(', ')', '_', '+', '\x08',
  '\t', 'Q', 'W', 'E', 'R', 'T', 'Y', 'U', 'I', 'O', 'P', '\x7b', '\x7d', '\n',
  '\x00', 'A', 'S', 'D', 'F', 'G', 'H', 'J', 'K', 'L', ':', '@', '~',
  '\x00', '|', 'Z', 'X', 'C', 'V', 'B', 'N', 'M', '<', '>', '?', '\x00',
  '*', '\x00', ' ', '\x00']

/-- The static variables of the driver that follow the keys. -/
structure Keyboard where
  keyboardStatus : UInt8 → Bool
  multiByteFlag : Bool
  capsLockActive : Bool

namespace Keyboard

/-- `isPressed` -/
def isPressed (kb : Keyboard) (keycode : UInt8) : Bool := kb.keyboardStatus keycode

/-- `isAlpha` -/
def isAlpha (scancode : UInt8) : Bool :=
  if scancode.toNat ≥ scancodeToAscii.length then false
  else
    let c := scancodeToAscii.getD scancode.toNat 0
    UInt8.ofNat 'a'.toNat ≤ c ∧ c ≤ UInt8.ofNat 'z'.toNat

/-- `shouldShift` -/
def shouldShift (kb : Keyboard) (scancode : UInt8) : Bool :=
  let pressingShift := kb.keyboardStatus LSHIFT || kb.keyboardStatus RSHIFT
  pressingShift != (kb.capsLockActive && isAlpha scancode)

/-- `getKeyPress` -/
def getKeyPress (scancode : UInt8) (kb : Keyboard) : UInt8 × Keyboard :=
  let releaseFlag := scancode &&& 0x80 ≠ 0
  let normalizedCode := scancode &&& 0x7F
  let (normalizedCode, kb) :=
    if kb.multiByteFlag then (normalizedCode + KEYCODE_SHIFT, { kb with multiByteFlag := false })
    else (normalizedCode, kb)
  let kb := { kb with keyboardStatus := fun code ↦
    if code = normalizedCode then !releaseFlag else kb.keyboardStatus code }
  if releaseFlag then (0, kb)
  else if normalizedCode = CAPSLOCK then (0, { kb with capsLockActive := !kb.capsLockActive })
  else if normalizedCode.toNat < scancodeToAscii.length then
    let map := if kb.shouldShift normalizedCode then shiftedScancodeToAscii else scancodeToAscii
    (map.getD normalizedCode.toNat 0, kb)
  else if normalizedCode ≥ KEYCODE_SHIFT then (normalizedCode, kb)
  else (0, kb)

/-- `processControl` -/
def processControl (scancode : UInt8) (kb : Keyboard) : UInt8 :=
  if !kb.isPressed LCONTROL then 0
  else if scancode = PRESS_C then END_OF_TEXT
  else if scancode = PRESS_D then END_OF_TRANSMISSION
  else 0

/-- The head of `keyboardInterrupt`: the key that a scancode stands for, or zero. -/
def key (scancode : UInt8) (kb : Keyboard) : UInt8 × Keyboard :=
  if scancode = MULTI_BYTE_SCANCODE then (0, { kb with multiByteFlag := true })
  else
    let ctrl := kb.processControl scancode
    if ctrl ≠ 0 then (ctrl, kb) else kb.getKeyPress scancode

end Keyboard

/-! ## The pipe -/

/-- The pipe of the keyboard, with the numbers of its four semaphores. -/
structure KbdPipe where
  buffer : CircularBuffer
  sem : PipeSem → Nat
  writerCount : Int
  distinct : Function.Injective sem

namespace KbdPipe

/-- The semaphore in the kernel. -/
def semId (p : KbdPipe) (x : PipeSem) : SemId := .user (p.sem x)

/-- `semWait`, up to the call of the scheduler; the flag is `mustBlock`. -/
def wait (p : KbdPipe) (x : PipeSem) (k : Kernel) : Kernel × Bool := k.wait (p.semId x)

/-- `semPost` -/
def post (p : KbdPipe) (x : PipeSem) (k : Kernel) : Kernel := k.post (p.semId x)

/-- The tokens of a semaphore. -/
def tokens (p : KbdPipe) (x : PipeSem) (k : Kernel) : Nat := (k.sems (p.semId x)).sem.tokens

/-- The pipe and the kernel after a call, and the semaphore in whose `semWait` the caller is
stopped, or what the call returns. -/
abbrev Result (α : Type) := KbdPipe × Kernel × (PipeSem ⊕ α)

/-! ### Writing -/

/-- The loop body of `pipeWrite` of one byte, once a slot is taken, and what follows the
loop. -/
def afterFreeSpaces (loop : KbdPipe → Kernel → Option (Result Unit)) (c : UInt8) (p : KbdPipe)
    (k : Kernel) : Option (Result Unit) :=
  let wasEmpty := !bufferHasData p.buffer
  let (cb, written) := bufferWrite p.buffer c
  if written then
    let k := if wasEmpty then p.post .dataAvailable k else k
    some ({ p with buffer := cb }, p.post .writeMutex k, .inr ())
  else loop p k

/-- The loop of `pipeWrite` of one byte.  Every round takes a slot, so that with one unit of
fuel more than there are slots it never runs out. -/
def writeLoop (c : UInt8) : Nat → KbdPipe → Kernel → Option (Result Unit)
  | 0, _, _ => none
  | fuel + 1, p, k =>
      let (k, mustBlock) := p.wait .freeSpaces k
      if mustBlock then some (p, k, .inl .freeSpaces) else afterFreeSpaces (writeLoop c fuel) c p k

/-- The rest of `pipeWrite`, once `writeMutex` is taken. -/
def afterWriteMutex (c : UInt8) (p : KbdPipe) (k : Kernel) : Option (Result Unit) :=
  writeLoop c (p.tokens .freeSpaces k + 1) p k

/-- `pipeWrite` of one byte -/
def pipeWrite (c : UInt8) (p : KbdPipe) (k : Kernel) : Option (Result Unit) :=
  let (k, mustBlock) := p.wait .writeMutex k
  if mustBlock then some (p, k, .inl .writeMutex) else afterWriteMutex c p k

/-- The rest of `pipeWrite` for a caller that was stopped at a semaphore. -/
def continueWrite (c : UInt8) (p : KbdPipe) (k : Kernel) : PipeSem → Option (Result Unit)
  | .writeMutex => afterWriteMutex c p k
  | .freeSpaces => afterFreeSpaces (writeLoop c (p.tokens .freeSpaces k + 1)) c p k
  | .dataAvailable | .readMutex => none

/-! ### Reading -/

/-- `drainBuffer` -/
def drainBuffer : Nat → KbdPipe → Kernel → KbdPipe × Kernel × List UInt8
  | 0, p, k => (p, k, [])
  | count + 1, p, k =>
      if bufferHasData p.buffer then
        let (cb, c) := bufferRead p.buffer
        let (p, k, cs) := drainBuffer count { p with buffer := cb } (p.post .freeSpaces k)
        (p, k, c :: cs)
      else (p, k, [])

/-- The loop body of `pipeReadBlocking` once `readMutex` is taken. -/
def afterReadMutex (loop : KbdPipe → Kernel → Option (Result (List UInt8))) (count : Nat)
    (p : KbdPipe) (k : Kernel) : Option (Result (List UInt8)) :=
  if bufferHasData p.buffer then
    let (p, k, bytes) := drainBuffer count p k
    let k := if bufferHasData p.buffer then p.post .dataAvailable k else k
    some (p, p.post .readMutex k, .inr bytes)
  else if p.writerCount ≤ 0 then some (p, p.post .readMutex k, .inr [])
  else loop p (p.post .readMutex k)

/-- The loop body of `pipeReadBlocking` once `dataAvailable` is taken. -/
def afterDataAvailable (loop : KbdPipe → Kernel → Option (Result (List UInt8))) (count : Nat)
    (p : KbdPipe) (k : Kernel) : Option (Result (List UInt8)) :=
  let (k, mustBlock) := p.wait .readMutex k
  if mustBlock then some (p, k, .inl .readMutex) else afterReadMutex loop count p k

/-- The loop of `pipeReadBlocking`.  Every round takes a token of `dataAvailable`. -/
def readLoop (count : Nat) : Nat → KbdPipe → Kernel → Option (Result (List UInt8))
  | 0, _, _ => none
  | fuel + 1, p, k =>
      let (k, mustBlock) := p.wait .dataAvailable k
      if mustBlock then some (p, k, .inl .dataAvailable)
      else afterDataAvailable (readLoop count fuel) count p k

/-- The loop of `pipeReadBlocking`, with fuel for every token. -/
def readAll (count : Nat) (p : KbdPipe) (k : Kernel) : Option (Result (List UInt8)) :=
  readLoop count (p.tokens .dataAvailable k + 1) p k

/-- `pipeRead` -/
def pipeRead (count : Nat) (p : KbdPipe) (k : Kernel) : Option (Result (List UInt8)) :=
  if count = 0 then some (p, k, .inr [])
  else if !bufferHasData p.buffer ∧ p.writerCount ≤ 0 then some (p, k, .inr [])
  else readAll count p k

/-- The rest of `pipeRead` for a caller that was stopped at a semaphore. -/
def continueRead (count : Nat) (p : KbdPipe) (k : Kernel) :
    PipeSem → Option (Result (List UInt8))
  | .dataAvailable => afterDataAvailable (readAll count) count p k
  | .readMutex => afterReadMutex (readAll count) count p k
  | .freeSpaces | .writeMutex => none

/-- What `readFd` does with what `fileRead` has returned; `eof` is the flag of the
descriptor.  The bytes that it returns come with the flag afterwards. -/
def afterRead (loop : KbdPipe → Kernel → Option (Result (List UInt8 × Bool))) (eof : Bool)
    (r : Result (List UInt8)) : Option (Result (List UInt8 × Bool)) :=
  match r with
  | (p, k, .inl x) => some (p, k, .inl x)
  | (p, k, .inr bytes) =>
      if bytes = [] then some (p, k, .inr ([], eof))
      else
        let out := bytes.filter (· ≠ 0)
        if out ≠ [] then some (p, k, .inr (out, eof))
        else if eof then some (p, k, .inr ([], false))
        else loop p k

/-- The loop of `readFd`.  Every round but the last one takes a byte out of the buffer. -/
def readFdLoop (count : Nat) (eof : Bool) :
    Nat → KbdPipe → Kernel → Option (Result (List UInt8 × Bool))
  | 0, _, _ => none
  | fuel + 1, p, k => (pipeRead count p k).bind (afterRead (readFdLoop count eof fuel) eof)

/-- The loop of `readFd`, with fuel for every byte. -/
def readFdAll (count : Nat) (eof : Bool) (p : KbdPipe) (k : Kernel) :
    Option (Result (List UInt8 × Bool)) :=
  readFdLoop count eof (p.buffer.count + 1) p k

/-- `readFd` -/
def readFd (count : Nat) (eof : Bool) (p : KbdPipe) (k : Kernel) :
    Option (Result (List UInt8 × Bool)) :=
  if eof then some (p, k, .inr ([], false)) else readFdAll count eof p k

/-- The rest of `readFd` for a caller that was stopped at a semaphore. -/
def continueReadFd (count : Nat) (eof : Bool) (p : KbdPipe) (k : Kernel) (x : PipeSem) :
    Option (Result (List UInt8 × Bool)) :=
  (p.continueRead count k x).bind (afterRead (readFdAll count eof) eof)

end KbdPipe

/-! ## The system -/

/-- Where a process is inside the pipe. -/
inductive Inside
  /-- Outside. -/
  | outside
  /-- In a `semWait` of `readFd` of the descriptor `fd`. -/
  | reading (fd count : Nat) (at_ : PipeSem)
  /-- In a `semWait` of the interrupt handler, which writes `c`; the process was at `back`. -/
  | interrupted (c : UInt8) (at_ : PipeSem) (back : Cont)
deriving DecidableEq

/-- The kernel, the statics of the driver, the pipe and the descriptors that read it. -/
structure Console where
  kernel : Kernel
  keyboard : Keyboard
  /-- `keyboardBuffer`, once the driver is connected. -/
  keyboardBuffer : Option KbdPipe
  fds : Int → Nat → Bool
  eofRequests : Int → Nat → Bool
  inside : Int → Inside

/-- `STDIN` -/
def STDIN : Nat := 0

namespace Console

/-- The kernel changes: the descriptors of a process that dies are closed. -/
def setKernel (s : Console) (k : Kernel) : Console :=
  { s with
    kernel := k
    fds := fun pid fd ↦ s.fds pid fd && k.stateOf pid != some .ZOMBIE
    eofRequests := fun pid fd ↦ s.eofRequests pid fd && k.stateOf pid != some .ZOMBIE }

/-- The pipe changes, and the kernel with it. -/
def setPipe (s : Console) (p : KbdPipe) (k : Kernel) : Console :=
  { s with kernel := k, keyboardBuffer := some p }

/-- Record where a process is. -/
def setInside (s : Console) (pid : Int) (i : Inside) : Console :=
  { s with inside := fun q ↦ if q = pid then i else s.inside q }

/-- A descriptor is opened, duplicated or closed. -/
def setFd (s : Console) (pid : Int) (fd : Nat) (reads : Bool) : Console :=
  { s with
    fds := fun q f ↦ if q = pid ∧ f = fd then reads else s.fds q f
    eofRequests := fun q f ↦ if q = pid ∧ f = fd then false else s.eofRequests q f }

/-- `requestEofOf`, and what it leaves when `readFd` takes the flag back. -/
def setEof (s : Console) (pid : Int) (fd : Nat) (eof : Bool) : Console :=
  { s with eofRequests := fun q f ↦ if q = pid ∧ f = fd then eof else s.eofRequests q f }

/-- `forEachInFG` -/
def forEachInFG (action : Int → Console → Console) (s : Console) : Console :=
  ((List.range MAX_PROCESSES.toNat).map Int.ofNat).foldl
    (fun s pid ↦ if s.kernel.foregroundSet pid then action pid s else s) s

/-- `killFromIsr`; `closed` lists the semaphores that closing the descriptors posts. -/
def killFromIsr (closed : Int → List Nat) (pid : Int) (s : Console) : Console :=
  s.setKernel (s.kernel.killFromIsr pid (closed pid))

/-- `requestEofOnKbdFg` -/
def requestEofOnKbdFg (pid : Int) (s : Console) : Console :=
  if (s.kernel.processTable pid).isSome ∧ s.fds pid STDIN then s.setEof pid STDIN true else s

/-- `fileWrite(keyboardBuffer, &c, 1)` -/
def fileWrite (c : UInt8) (s : Console) : Option (Console × Option PipeSem) :=
  match s.keyboardBuffer with
  | none => some (s, none)
  | some p => (p.pipeWrite c s.kernel).map fun r ↦ (s.setPipe r.1 r.2.1, r.2.2.getLeft?)

/-- `keyboardInterrupt`, with the semaphore in whose `semWait` it is stopped, if it is, and
the byte that it writes there. -/
def keyboardInterrupt (scancode : UInt8) (closed : Int → List Nat) (s : Console) :
    Option (Console × Option PipeSem × UInt8) :=
  let (key, keyboard) := s.keyboard.key scancode
  let s := { s with keyboard := keyboard }
  if key = 0 then some (s, none, 0)
  else if key = END_OF_TEXT then some (s.forEachInFG (killFromIsr closed), none, 0)
  else if key = END_OF_TRANSMISSION then
    ((s.forEachInFG requestEofOnKbdFg).fileWrite 0).map fun r ↦ (r.1, r.2, 0)
  else (s.fileWrite key).map fun r ↦ (r.1, r.2, key)

/-- The running process is stopped in a `semWait` of the pipe, and gives up the processor. -/
def stop (s : Console) (p : KbdPipe) (x : PipeSem) (i : Inside) : Option Console :=
  let cur := s.kernel.getCurrentPID
  ((s.kernel.setCont cur (.semWait (p.sem x))).schedule).map fun k ↦
    (s.setKernel k).setInside cur i

/-- `_irq01Handler`, in the place of a process that was at `back`. -/
def irq01Handler (scancode : UInt8) (closed : Int → List Nat) (back : Cont) (s : Console) :
    Option Console :=
  (s.keyboardInterrupt scancode closed).bind fun r ↦
    match r.1.keyboardBuffer, r.2.1 with
    | some p, some x => r.1.stop p x (.interrupted r.2.2 x back)
    | _, _ => some r.1

/-- What becomes of a `readFd` of the running process. -/
def finishRead (s : Console) (fd count : Nat) (r : KbdPipe.Result (List UInt8 × Bool)) :
    Option Console :=
  let cur := s.kernel.getCurrentPID
  let s := (s.setPipe r.1 r.2.1).setInside cur .outside
  match r.2.2 with
  | .inl x => s.stop r.1 x (.reading fd count x)
  | .inr (_, eof) => some (s.setEof cur fd eof)

/-- The running process goes on inside the pipe. -/
def resume (cur : Int) (s : Console) : Option Console :=
  match s.keyboardBuffer with
  | none => none
  | some p =>
      let returned (x : PipeSem) (back : Cont) :=
        (s.kernel.returnFrom (p.semId x) cur).setCont cur back
      match s.inside cur with
      | .outside => none
      | .reading fd count x =>
          (p.continueReadFd count (s.eofRequests cur fd) (returned x .user) x).bind
            (s.finishRead fd count)
      | .interrupted c x back =>
          (p.continueWrite c (returned x back) x).bind fun r ↦
            let s := (s.setPipe r.1 r.2.1).setInside cur .outside
            match r.2.2 with
            | .inl y => s.stop r.1 y (.interrupted c y back)
            | .inr _ => some s

/-- `newPipe`, whose semaphores get the numbers from `n` on, with one write end. -/
def newPipe (data : Nat → UInt8) (n : Nat) : KbdPipe where
  buffer := newBuffer data PIPE_BUF_SIZE
  sem
    | .dataAvailable => n
    | .freeSpaces => n + 1
    | .readMutex => n + 2
    | .writeMutex => n + 3
  writerCount := 1
  distinct := by
    intro x y h
    cases x <;> cases y <;> first | rfl | (simp at h)

/-- `initProcessEntry`: `init` creates the pipe and connects the driver to it. -/
def connect (cur : Int) (data : Nat → UInt8) (s : Console) : Console :=
  let n := s.kernel.nextSem
  let k := s.kernel
  let k := (k.setSem (.user n) (.new 0)).setSem (.user (n + 1)) (.new PIPE_BUF_SIZE)
  let k := (k.setSem (.user (n + 2)) (.new 1)).setSem (.user (n + 3)) (.new 1)
  (s.setPipe (newPipe data n) { k with nextSem := n + 4 }).setFd cur STDIN true

/-- An entry of the list of overrides: `closeFd` or `dupFd` of a new process. -/
def override (pid : Int) (s : Console) (o : Option Nat × Nat) : Console :=
  match o with
  | (none, fd) => s.setFd pid fd false
  | (some target, fd) => if target = fd then s else s.setFd pid fd (s.fds pid target)

/-- `startNewProcessWithFds`, called by the process `cur`. -/
def startNewProcessWithFds (cur : Int) (overrides : List (Option Nat × Nat)) (s : Console) :
    Console :=
  match s.kernel.findFreePid, s.kernel.startNewProcess 1 with
  | some pid, some k =>
      overrides.foldl (override pid) { s with
        kernel := k
        fds := fun q fd ↦ if q = pid then s.fds cur fd else s.fds q fd
        eofRequests := fun q fd ↦ if q = pid then false else s.eofRequests q fd
        inside := fun q ↦ if q = pid then .outside else s.inside q }
  | _, _ => s

/-- What can happen. -/
inductive Event
  /-- What the kernel does for a process that is outside the pipe. -/
  | kernel (e : Kernel.Event)
  /-- `init` connects the keyboard; the buffer is allocated with the bytes `data`. -/
  | connect (data : Nat → UInt8)
  /-- The running process creates a process. -/
  | create (overrides : List (Option Nat × Nat))
  /-- The running process calls `dupFd`. -/
  | dup (oldFd newFd : Nat)
  /-- The running process calls `closeFd`. -/
  | close (fd : Nat)
  /-- The running process calls `reopenFd`, which finds `newFd` free. -/
  | reopen (fd newFd : Nat)
  /-- The running process calls `readFd` of the keyboard. -/
  | read (fd count : Nat)
  /-- The running process goes on inside the pipe. -/
  | resume
  /-- An interrupt of the keyboard. -/
  | keyboard (scancode : UInt8) (closed : Int → List Nat)

/-- The number is that of a semaphore of the pipe. -/
def isPrivate (s : Console) (n : Nat) : Bool :=
  s.keyboardBuffer.any fun p ↦
    [PipeSem.dataAvailable, .freeSpaces, .readMutex, .writeMutex].any fun x ↦ p.sem x == n

/-- The event is not one of those below, and is about nobody inside the pipe. -/
def outside (s : Console) : Kernel.Event → Bool
  | .create => false
  | .resume => s.inside s.kernel.getCurrentPID == .outside
  | e => !e.named.any s.isPrivate

/-- The process may be interrupted: it is outside the kernel, or is `init` in `wait_any`. -/
def interruptible : Cont → Bool
  | .user | .waitAny | .polling => true
  | .semWait _ | .waitPid .. | .exited => false

/-- What happens on an event. -/
def step (s : Console) : Event → Option Console
  | .kernel e => if s.outside e then (s.kernel.step e).map s.setKernel else none
  | .connect data =>
      if s.keyboardBuffer.isSome then none else s.kernel.initCaller.map fun c ↦ s.connect c.1 data
  | .create overrides => (s.kernel.caller <|> s.kernel.initCaller).bind fun c ↦
      s.kernel.sysCreateProcess.map fun _ ↦ s.startNewProcessWithFds c.1 overrides
  | .dup oldFd newFd => s.kernel.caller.map fun c ↦ s.override c.1 (some oldFd, newFd)
  | .close fd => s.kernel.caller.map fun c ↦ s.setFd c.1 fd false
  | .reopen fd newFd => s.kernel.caller.map fun c ↦ s.setFd c.1 newFd (s.fds c.1 fd)
  | .read fd count => s.kernel.caller.bind fun c ↦
      if s.fds c.1 fd then
        match s.keyboardBuffer with
        | none => none
        | some p => (p.readFd count (s.eofRequests c.1 fd) s.kernel).bind (s.finishRead fd count)
      else none
  | .resume => s.kernel.current.bind fun c ↦ s.resume c.1
  | .keyboard scancode closed =>
      let closed := fun pid ↦ (closed pid).filter fun n ↦ !s.isPrivate n
      match s.kernel.current with
      | none =>
          if s.kernel.currentProcess = none then s.irq01Handler scancode closed .user else none
      | some (_, p) => if interruptible p.cont then s.irq01Handler scancode closed p.cont else none

/-- The system before its first interrupt. -/
def boot : Console where
  kernel := .initializeScheduler
  keyboard := ⟨fun _ ↦ false, false, false⟩
  keyboardBuffer := none
  fds := fun _ _ ↦ false
  eofRequests := fun _ _ ↦ false
  inside := fun _ ↦ .outside

end Console

end BareBones.Drivers
