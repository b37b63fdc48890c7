import BareBones.Drivers.KeyboardRun
import BareBones.Process.Clock

/-!
# Whether the keyboard can block a process

`keyboardInterrupt` writes its byte with the blocking `pipeWrite`, in the place of the process
that happens to run.  It waits for `writeMutex`, and then for a free slot of the buffer, and
either `semWait` may stop it.  **The handler finishes exactly when it has nothing to write, or
finds the mutex free and a slot that really is free** (`keyboardInterrupt_finishes_iff`); this
holds in every state of the kernel and of the driver.

Nothing else the handler does can block the process: Ctrl+C and Ctrl+D only post semaphores
and set flags (`Kernel.Undisturbed`).
-/

namespace BareBones.Process.Kernel

open BareBones.Semaphores

variable {k : Kernel} {id : SemId}

/-- A token is taken without blocking. -/
theorem wait_take (hpos : 0 < (k.sems id).sem.value) : k.wait id = (k.take id, false) := by
  have hlt : ¬(k.sems id).sem.value - 1 < 0 := by omega
  simp only [wait, semWait, if_neg hlt, Bool.false_eq_true, if_false]
  rfl

/-- A post of a semaphore at which nobody is queued adds a token. -/
theorem post_nil (hq : (k.sems id).sem.blockedQueue = []) :
    k.post id = k.posted id ((k.sems id).sem.value + 1) [] none := by
  rcases post_cases k id with ⟨dead, rest, hqueue, -, -, hpost⟩ |
    ⟨dead, pid, rest, p, hqueue, -, -, -, -, -, hpost⟩
  · obtain ⟨rfl, rfl⟩ := List.append_eq_nil_iff.mp (hqueue.symm.trans hq)
    simpa using hpost
  · cases (List.append_eq_nil_iff.mp (hqueue.symm.trans hq)).2

end BareBones.Process.Kernel

namespace BareBones.Drivers

open BareBones.Process BareBones.Process.Kernel BareBones.Semaphores
open BareBones.IPC (PipeSem bufferHasData bufferIsFull bufferWrite)

/-! ## Writing one byte -/

namespace KbdPipe

variable {p : KbdPipe} {k : Kernel} {c : UInt8}

/-- The write goes through at once: nobody writes, and there is a slot. -/
structure Ready (p : KbdPipe) (k : Kernel) : Prop where
  writeMutex : 0 < (k.sems (p.semId .writeMutex)).sem.value
  freeSpaces : 0 < (k.sems (p.semId .freeSpaces)).sem.value
  room : bufferIsFull p.buffer = false

theorem wait_of_pos {x : PipeSem} (hpos : 0 < (k.sems (p.semId x)).sem.value) :
    p.wait x k = (k.take (p.semId x), false) := wait_take hpos

/-- Without a token the caller is stopped. -/
theorem wait_of_nonpos {x : PipeSem} (hpos : ¬0 < (k.sems (p.semId x)).sem.value) :
    ∃ k', p.wait x k = (k', true) := by
  have hblocks := (wait_blocks_iff k (p.semId x)).mpr (Int.not_lt.mp hpos)
  exact ⟨(p.wait x k).1, Prod.ext rfl hblocks⟩

/-- A full buffer takes no byte: the loop uses up the slots it finds, and stops. -/
theorem writeLoop_full (hfull : bufferIsFull p.buffer = true) (fuel : Nat) :
    ∀ k, p.tokens .freeSpaces k < fuel →
      ∃ k', writeLoop c fuel p k = some (p, k', .inl .freeSpaces) := by
  induction fuel with
  | zero => exact fun k hfuel ↦ absurd hfuel (Nat.not_lt_zero _)
  | succ fuel ih =>
      intro k hfuel
      by_cases hpos : 0 < (k.sems (p.semId .freeSpaces)).sem.value
      · have htokens : p.tokens .freeSpaces (k.take (p.semId .freeSpaces)) < fuel := by
          simp only [tokens, Sem.tokens, Kernel.take, setSem_self] at hfuel ⊢
          omega
        obtain ⟨k', hk'⟩ := ih _ htokens
        refine ⟨k', ?_⟩
        rw [writeLoop, wait_of_pos hpos]
        simp only [Bool.false_eq_true, if_false, afterFreeSpaces, bufferWrite, if_pos hfull]
        exact hk'
      · obtain ⟨k', hk'⟩ := wait_of_nonpos hpos
        refine ⟨k', ?_⟩
        rw [writeLoop, hk']
        rfl

/-- The kernel after a byte has been written. -/
def written (p : KbdPipe) (k : Kernel) : Kernel :=
  let k := (k.take (p.semId .writeMutex)).take (p.semId .freeSpaces)
  p.post .writeMutex (if bufferHasData p.buffer then k else p.post .dataAvailable k)

/-- A write that goes through. -/
theorem pipeWrite_ready (h : p.Ready k) (c : UInt8) : p.pipeWrite c k =
    some ({ p with buffer := (bufferWrite p.buffer c).1 }, p.written k, .inr ()) := by
  have hslot : 0 < ((k.take (p.semId .writeMutex)).sems (p.semId .freeSpaces)).sem.value := by
    rw [Kernel.take, setSem_other _ _ _ (semId_ne (by decide))]
    exact h.freeSpaces
  have hwrites : (bufferWrite p.buffer c).2 = true := by rw [bufferWrite, h.room]; rfl
  simp only [pipeWrite, wait_of_pos h.writeMutex, afterWriteMutex, writeLoop, wait_of_pos hslot,
    afterFreeSpaces, hwrites, if_true, Bool.false_eq_true, if_false, written]
  cases bufferHasData p.buffer <;> rfl

/-- A write that does not go through is stopped. -/
theorem pipeWrite_not_ready (h : ¬p.Ready k) (c : UInt8) :
    ∃ k' x, p.pipeWrite c k = some (p, k', .inl x) := by
  by_cases hmutex : 0 < (k.sems (p.semId .writeMutex)).sem.value
  · rw [pipeWrite, wait_of_pos hmutex]
    by_cases hfull : bufferIsFull p.buffer = true
    · obtain ⟨k', hk'⟩ := writeLoop_full (c := c) hfull _ (k.take (p.semId .writeMutex))
        (Nat.lt_succ_self _)
      exact ⟨k', .freeSpaces, hk'⟩
    · have hslot : ¬0 < ((k.take (p.semId .writeMutex)).sems (p.semId .freeSpaces)).sem.value := by
        rw [Kernel.take, setSem_other _ _ _ (semId_ne (by decide))]
        exact fun hpos ↦ h ⟨hmutex, hpos, Bool.eq_false_iff.mpr hfull⟩
      obtain ⟨k', hk'⟩ := wait_of_nonpos hslot
      refine ⟨k', .freeSpaces, ?_⟩
      simp only [Bool.false_eq_true, if_false, afterWriteMutex, writeLoop, hk', if_true]
  · obtain ⟨k', hk'⟩ := wait_of_nonpos hmutex
    exact ⟨k', .writeMutex, by rw [pipeWrite, hk']; rfl⟩

/-- A write that goes through blocks nobody. -/
theorem undisturbed_written (p : KbdPipe) (k : Kernel) :
    Undisturbed (fun _ ↦ True) k (p.written k) := by
  have htaken : Undisturbed (fun _ ↦ True) k
      ((k.take (p.semId .writeMutex)).take (p.semId .freeSpaces)) := by
    refine .trans ?_ (.setSem (.inl trivial))
    exact .setSem (.inl trivial)
  unfold written
  refine .trans ?_ (.post trivial)
  split
  · exact htaken
  · exact htaken.trans (.post trivial)

end KbdPipe

/-! ## The interrupt handler -/

namespace Console

variable {s t : Console}

theorem requestEofOnKbdFg_kernel (s : Console) :
    (s.forEachInFG requestEofOnKbdFg).kernel = s.kernel ∧
      (s.forEachInFG requestEofOnKbdFg).keyboardBuffer = s.keyboardBuffer := by
  refine forEachInFG_rule (I := fun t ↦ t.kernel = s.kernel ∧ t.keyboardBuffer = s.keyboardBuffer)
    (fun pid t h ↦ ?_) ⟨rfl, rfl⟩
  unfold requestEofOnKbdFg
  split
  · exact h
  · exact h

/-- The scancode makes the handler write a byte. -/
def Deposits (s : Console) (scancode : UInt8) : Prop :=
  (s.keyboard.key scancode).1 ≠ 0 ∧ (s.keyboard.key scancode).1 ≠ END_OF_TEXT

/-- The handler comes to its end: it is not stopped in a `semWait`, so that it does not call
the scheduler, the same process is running, and it is not blocked. -/
def Finishes (s : Console) (scancode : UInt8) (closed : Int → List Nat) : Prop :=
  ∃ t c, s.keyboardInterrupt scancode closed = some (t, none, c) ∧
    t.kernel.currentProcess = s.kernel.currentProcess ∧
    (t.kernel.stateOf s.kernel.getCurrentPID = some .BLOCKED →
      s.kernel.stateOf s.kernel.getCurrentPID = some .BLOCKED)

variable {scancode : UInt8} {closed : Int → List Nat}

/-- The write of the handler goes through if the pipe is ready, or there is none. -/
theorem fileWrite_of_ready (h : ∀ p ∈ s.keyboardBuffer, p.Ready s.kernel) (c : UInt8) :
    ∃ t, s.fileWrite c = some (t, none) ∧ Undisturbed (fun _ ↦ True) s.kernel t.kernel := by
  unfold fileWrite
  cases hp : s.keyboardBuffer with
  | none => exact ⟨s, rfl, .refl _⟩
  | some p =>
      simp only [KbdPipe.pipeWrite_ready (h p hp), Option.map_some]
      exact ⟨_, rfl, KbdPipe.undisturbed_written p s.kernel⟩

/-- A write that goes through has found the pipe ready. -/
theorem ready_of_fileWrite {c : UInt8} (h : s.fileWrite c = some (t, none)) :
    ∀ p ∈ s.keyboardBuffer, p.Ready s.kernel := by
  intro p hp
  by_contra hready
  obtain ⟨k', x, hwrite⟩ := KbdPipe.pipeWrite_not_ready hready c
  unfold fileWrite at h
  rw [show s.keyboardBuffer = some p from hp] at h
  simp only [hwrite, Option.map_some] at h
  cases h

/-- Ctrl+C blocks nobody. -/
theorem undisturbed_ctrlC (s : Console) (closed : Int → List Nat) :
    Undisturbed (fun _ ↦ True) s.kernel (s.forEachInFG (killFromIsr closed)).kernel :=
  forEachInFG_rule (I := fun t ↦ Undisturbed (fun _ ↦ True) s.kernel t.kernel)
    (fun _ _ h ↦ h.trans (.killFromIsr (fun _ ↦ trivial) (fun _ ↦ trivial) fun _ _ ↦ trivial))
    (.refl _)

theorem Finishes.of_undisturbed {t : Console} {c : UInt8}
    (h : s.keyboardInterrupt scancode closed = some (t, none, c))
    (hk : Undisturbed (fun _ ↦ True) s.kernel t.kernel) : s.Finishes scancode closed :=
  ⟨t, c, h, hk.currentProcess, hk.blocked _⟩

/-- A handler that ends with a write finishes if the write goes through. -/
theorem finishes_write {u : Console} {c : UInt8} (hkernel : u.kernel = s.kernel)
    (hbuffer : u.keyboardBuffer = s.keyboardBuffer)
    (h : s.keyboardInterrupt scancode closed = (u.fileWrite c).map fun r ↦ (r.1, r.2, c)) :
    s.Finishes scancode closed ↔ ∀ p ∈ s.keyboardBuffer, p.Ready s.kernel := by
  rw [← hbuffer, ← hkernel]
  constructor
  · rintro ⟨t, c', ht, -⟩
    rw [h] at ht
    obtain ⟨r, hr, heq⟩ := Option.map_eq_some_iff.mp ht
    obtain ⟨-, hdone, -⟩ : r.1 = t ∧ r.2 = none ∧ c = c' := by simpa using heq
    exact ready_of_fileWrite (t := r.1) (by rw [hr, ← hdone])
  · intro hready
    obtain ⟨t, ht, hk⟩ := fileWrite_of_ready hready c
    rw [hkernel] at hk
    exact .of_undisturbed (by rw [h, ht, Option.map_some]) hk

/-- A handler that writes nothing finishes. -/
theorem finishes_of_not_deposits (h : ¬s.Deposits scancode) : s.Finishes scancode closed := by
  rcases hkey : s.keyboard.key scancode with ⟨key, keyboard⟩
  rw [Deposits, hkey] at h
  by_cases hzero : key = 0
  · refine .of_undisturbed (t := { s with keyboard := keyboard }) (c := 0) ?_ (.refl _)
    simp only [keyboardInterrupt, hkey, if_pos hzero]
  · have htext : key = END_OF_TEXT := by
      by_contra htext
      exact h ⟨hzero, htext⟩
    refine .of_undisturbed (c := 0) ?_ (undisturbed_ctrlC { s with keyboard := keyboard } closed)
    simp only [keyboardInterrupt, hkey, if_neg hzero, if_pos htext]

/-- A handler that writes finishes if the pipe is ready. -/
theorem finishes_iff_of_deposits (h : s.Deposits scancode) :
    s.Finishes scancode closed ↔ ∀ p ∈ s.keyboardBuffer, p.Ready s.kernel := by
  rcases hkey : s.keyboard.key scancode with ⟨key, keyboard⟩
  rw [Deposits, hkey] at h
  obtain ⟨hzero, htext⟩ := h
  by_cases heot : key = END_OF_TRANSMISSION
  · obtain ⟨hkernel, hbuffer⟩ := requestEofOnKbdFg_kernel { s with keyboard := keyboard }
    refine finishes_write (c := 0) hkernel hbuffer ?_
    simp only [keyboardInterrupt, hkey, if_neg hzero, if_neg htext, if_pos heot]
  · refine finishes_write (u := { s with keyboard := keyboard }) (c := key) rfl rfl ?_
    simp only [keyboardInterrupt, hkey, if_neg hzero, if_neg htext, if_neg heot]

/-- **The handler finishes exactly when it has nothing to write, or the driver is not
connected, or the pipe is ready**: nobody holds `writeMutex`, `freeSpaces` has a token, and
the buffer is not full. -/
theorem keyboardInterrupt_finishes_iff (s : Console) (scancode : UInt8)
    (closed : Int → List Nat) :
    s.Finishes scancode closed ↔
      (s.Deposits scancode → ∀ p ∈ s.keyboardBuffer, p.Ready s.kernel) := by
  by_cases hdeposits : s.Deposits scancode
  · rw [finishes_iff_of_deposits hdeposits]
    exact ⟨fun hready _ ↦ hready, fun himp ↦ himp hdeposits⟩
  · exact ⟨fun _ hd ↦ absurd hd hdeposits, fun _ ↦ finishes_of_not_deposits hdeposits⟩

/-! ## A keyboard that nobody reads -/

/-- The scancode of the key `a`. -/
def PRESS_A : UInt8 := 0x1E

/-- No key but `a` has been pressed. -/
structure Plain (kb : Keyboard) : Prop where
  status : ∀ code, kb.keyboardStatus code = true → code = PRESS_A
  single : kb.multiByteFlag = false
  caps : kb.capsLockActive = false

/-- The key `a` types an `a`. -/
theorem Plain.key {kb : Keyboard} (h : Plain kb) :
    (kb.key PRESS_A).1 = 97 ∧ Plain (kb.key PRESS_A).2 := by
  have hup : ∀ code, code ≠ PRESS_A → kb.keyboardStatus code = false := fun code hne ↦
    Bool.eq_false_iff.mpr fun hdown ↦ hne (h.status code hdown)
  have hctrl : kb.processControl PRESS_A = 0 := by
    rw [Keyboard.processControl, Keyboard.isPressed, hup LCONTROL (by decide)]
    rfl
  have hkey : kb.key PRESS_A = kb.getKeyPress PRESS_A := by
    simp only [Keyboard.key, hctrl]
    rfl
  have hpress : kb.getKeyPress PRESS_A = (97, { kb with keyboardStatus := fun code ↦
      if code = PRESS_A then true else kb.keyboardStatus code }) := by
    have hshift : Keyboard.shouldShift { kb with keyboardStatus := fun code ↦
        if code = PRESS_A then true else kb.keyboardStatus code } PRESS_A = false := by
      simp only [Keyboard.shouldShift, h.caps, hup LSHIFT (by decide), hup RSHIFT (by decide)]
      decide
    have hcode : PRESS_A &&& 0x7F = PRESS_A := by decide
    have hdown : ¬(PRESS_A &&& 0x80 ≠ 0) := by decide
    have hcaps : PRESS_A ≠ CAPSLOCK := by decide
    have hlen : PRESS_A.toNat < scancodeToAscii.length := by decide
    simp only [Keyboard.getKeyPress, h.single, hcode, hdown, if_neg hcaps, if_pos hlen,
      decide_false, Bool.not_false, Bool.false_eq_true, if_false]
    rw [h.single] at hshift
    rw [hshift]
    rfl
  rw [hkey, hpress]
  refine ⟨rfl, fun code hdown ↦ ?_, h.single, h.caps⟩
  by_contra hne
  simp only [if_neg hne, hup code hne] at hdown
  cases hdown

/-- The idle process runs, and `n` bytes have been typed that nobody has read. -/
structure Typed (n : Nat) (p : KbdPipe) (s : Console) : Prop where
  connected : s.keyboardBuffer = some p
  count : p.buffer.count = n
  size : p.buffer.maxSize = IPC.PIPE_BUF_SIZE
  freeSpaces : (s.kernel.sems (p.semId .freeSpaces)).sem.value = IPC.PIPE_BUF_SIZE - n
  writeMutex : (s.kernel.sems (p.semId .writeMutex)).sem = ⟨1, []⟩
  dataAvailable : (s.kernel.sems (p.semId .dataAvailable)).sem.blockedQueue = []
  idle : ∃ c, s.kernel.current = some (IDLE_PID, c) ∧ c.cont = .user
  plain : Plain s.keyboard

theorem Typed.ready {n : Nat} {p : KbdPipe} (h : Typed n p s) (hn : n < IPC.PIPE_BUF_SIZE) :
    p.Ready s.kernel where
  writeMutex := by
    rw [h.writeMutex]
    decide
  freeSpaces := by
    rw [h.freeSpaces]
    omega
  room := by
    simp only [bufferIsFull, h.count, h.size, decide_eq_false_iff_not]
    omega

theorem Typed.written {n : Nat} {p : KbdPipe} (h : Typed n p s) :
    (p.written s.kernel).processTable = s.kernel.processTable ∧
      (p.written s.kernel).currentProcess = s.kernel.currentProcess ∧
      ((p.written s.kernel).sems (p.semId .freeSpaces)).sem.value = IPC.PIPE_BUF_SIZE - n - 1 ∧
      ((p.written s.kernel).sems (p.semId .writeMutex)).sem = ⟨1, []⟩ ∧
      ((p.written s.kernel).sems (p.semId .dataAvailable)).sem.blockedQueue = [] := by
  have hfw : p.semId .freeSpaces ≠ p.semId .writeMutex := KbdPipe.semId_ne (by decide)
  have hdw : p.semId .dataAvailable ≠ p.semId .writeMutex := KbdPipe.semId_ne (by decide)
  have hdf : p.semId .dataAvailable ≠ p.semId .freeSpaces := KbdPipe.semId_ne (by decide)
  -- the two tokens that the write takes
  obtain ⟨k, hk⟩ : ∃ k, k = (s.kernel.take (p.semId .writeMutex)).take (p.semId .freeSpaces) :=
    ⟨_, rfl⟩
  have hfree : (k.sems (p.semId .freeSpaces)).sem.value = IPC.PIPE_BUF_SIZE - n - 1 := by
    rw [hk, Kernel.take, setSem_self, Kernel.take, setSem_other _ _ _ hfw, h.freeSpaces]
  have hmutex : (k.sems (p.semId .writeMutex)).sem = ⟨0, []⟩ := by
    rw [hk, Kernel.take, setSem_other _ _ _ hfw.symm, Kernel.take, setSem_self, h.writeMutex]
    rfl
  have hdata : (k.sems (p.semId .dataAvailable)).sem.blockedQueue = [] := by
    rw [hk, Kernel.take, setSem_other _ _ _ hdf, Kernel.take, setSem_other _ _ _ hdw]
    exact h.dataAvailable
  have htable : k.processTable = s.kernel.processTable := by rw [hk]; rfl
  have hcur : k.currentProcess = s.kernel.currentProcess := by rw [hk]; rfl
  -- the token for the readers, if the buffer was empty
  obtain ⟨u, hu, hu₁, hu₂, hu₃, hu₄, hu₅⟩ : ∃ u : Kernel,
      p.written s.kernel = u.post (p.semId .writeMutex) ∧
      u.processTable = k.processTable ∧ u.currentProcess = k.currentProcess ∧
      u.sems (p.semId .freeSpaces) = k.sems (p.semId .freeSpaces) ∧
      u.sems (p.semId .writeMutex) = k.sems (p.semId .writeMutex) ∧
      (u.sems (p.semId .dataAvailable)).sem.blockedQueue = [] := by
    unfold KbdPipe.written KbdPipe.post
    rw [← hk]
    split
    · exact ⟨k, rfl, rfl, rfl, rfl, rfl, hdata⟩
    · refine ⟨_, rfl, ?_⟩
      rw [post_nil hdata]
      refine ⟨rfl, rfl, posted_other _ _ _ _ _ hdf.symm, posted_other _ _ _ _ _ hdw.symm, ?_⟩
      rw [posted_self]
  have hnil : (u.sems (p.semId .writeMutex)).sem.blockedQueue = [] := by rw [hu₄, hmutex]
  rw [hu, post_nil hnil]
  refine ⟨hu₁.trans htable, hu₂.trans hcur, ?_, ?_, ?_⟩
  · rw [posted_other _ _ _ _ _ hfw, hu₃, hfree]
  · rw [posted_self, hu₄, hmutex]
    rfl
  · rw [posted_other _ _ _ _ _ hdw]
    exact hu₅

/-- One more key fills one more byte. -/
theorem Typed.step {n : Nat} {p : KbdPipe} (h : Typed n p s) (hn : n < IPC.PIPE_BUF_SIZE) :
    ∃ t q, Console.step s (.keyboard PRESS_A fun _ ↦ []) = some t ∧ Typed (n + 1) q t := by
  obtain ⟨c, hcurrent, hcont⟩ := h.idle
  obtain ⟨hchar, hplain⟩ := h.plain.key
  obtain ⟨htable, hcur, hfree, hmutex, hdata⟩ := h.written
  have hroom : bufferIsFull p.buffer = false := (h.ready hn).room
  refine ⟨{ s with keyboard := (s.keyboard.key PRESS_A).2 }.setPipe
    { p with buffer := (bufferWrite p.buffer 97).1 } (p.written s.kernel),
    { p with buffer := (bufferWrite p.buffer 97).1 }, ?_, ?_⟩
  · have hwrite : ({ s with keyboard := (s.keyboard.key PRESS_A).2 } : Console).fileWrite 97 = some
        ({ s with keyboard := (s.keyboard.key PRESS_A).2 }.setPipe
          { p with buffer := (bufferWrite p.buffer 97).1 } (p.written s.kernel), none) := by
      simp only [fileWrite, h.connected, KbdPipe.pipeWrite_ready (h.ready hn), Option.map_some]
      rfl
    simp only [Console.step, hcurrent, hcont, interruptible, if_true, irq01Handler,
      keyboardInterrupt, hchar, hwrite]
    rfl
  · constructor
    · rfl
    · rw [bufferWrite, hroom]
      exact congrArg (· + 1) h.count
    · rw [bufferWrite, hroom]
      exact h.size
    · refine hfree.trans ?_
      push_cast
      omega
    · exact hmutex
    · exact hdata
    · refine ⟨c, ?_, hcont⟩
      rw [current_eq_some] at hcurrent ⊢
      exact ⟨hcur.trans hcurrent.1, htable ▸ hcurrent.2⟩
    · exact hplain

theorem Typed.run {m n : Nat} {p : KbdPipe} (h : Typed m p s) (hn : m + n ≤ IPC.PIPE_BUF_SIZE) :
    ∃ t q, Lib.run Console.step s (List.replicate n (.keyboard PRESS_A fun _ ↦ [])) = some t ∧
      Typed (m + n) q t := by
  induction n generalizing m p s with
  | zero => exact ⟨s, p, rfl, h⟩
  | succ n ih =>
      obtain ⟨t, q, ht, htyped⟩ := h.step (by omega)
      obtain ⟨u, r, hu, hdone⟩ := ih htyped (by omega)
      refine ⟨u, r, ?_, ?_⟩
      · rw [List.replicate_succ, Lib.run, ht, Option.bind_some, hu]
      · rwa [Nat.add_right_comm, Nat.add_assoc] at hdone

/-- `init` connects the keyboard and waits, and the idle process runs. -/
def idleEvents : List Event :=
  [.kernel .enableScheduler, .kernel .tick, .kernel .tick, .connect fun _ ↦ 0, .kernel .waitAny]

theorem typed_idle : ∃ s p, Lib.run Console.step boot idleEvents = some s ∧ Typed 0 p s := by
  refine ⟨_, newPipe (fun _ ↦ 0) 0, rfl, ?_⟩
  constructor
  · rfl
  · rfl
  · rfl
  · rfl
  · rfl
  · rfl
  · exact ⟨_, rfl, rfl⟩
  · exact ⟨fun _ hdown ↦ absurd hdown Bool.false_ne_true, rfl, rfl⟩

/-- The keystroke after the last free slot blocks the idle process. -/
theorem keyboard_blocks_idle : ∃ s, Lib.Reach Console.step (fun _ _ ↦ True) boot s ∧
    s.kernel.getCurrentPID = IDLE_PID ∧ ¬s.Finishes PRESS_A fun _ ↦ [] := by
  obtain ⟨s, p, hs, htyped⟩ := typed_idle
  obtain ⟨t, q, ht, hfull⟩ := htyped.run (n := IPC.PIPE_BUF_SIZE) (by omega)
  have hreach : Lib.Reach Console.step (fun _ _ ↦ True) boot s := .of_run hs (.of_true _ _)
  refine ⟨t, hreach.trans (.of_run ht (.of_true _ _)), ?_, ?_⟩
  · obtain ⟨c, hcur, -⟩ := hfull.idle
    rw [getCurrentPID, (current_eq_some.mp hcur).1]
  · have hdeposits : t.Deposits PRESS_A := by
      rw [Deposits, hfull.plain.key.1]
      decide
    rw [finishes_iff_of_deposits hdeposits]
    intro hready
    have hpos := (hready q hfull.connected).freeSpaces
    rw [hfull.freeSpaces] at hpos
    omega

end Console

end BareBones.Drivers
