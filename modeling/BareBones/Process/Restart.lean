import BareBones.Process.KernelOps
import BareBones.Semaphores.SharedMap

/-!
# The restart after an exception

When a process divides by zero or runs an invalid instruction, `exceptionHandler` prints the
registers and calls `main` once more: `mem_init` makes one free block of the whole heap, and
`initializeScheduler` builds its tables anew.  Nothing clears the other static variables.

A `Machine` is the kernel with the statics that `main` leaves alone: the table of the named
semaphores and the write end that the keyboard driver keeps.  Objects of the heap have
numbers, counted for each kind, and a number is never used again, so that the counters at
the last `mem_init` tell what has been allocated since.  (Between two restarts the model of
the kernel numbers its processes from zero; `firstProcess` is what to add.)  After `mem_init`
no object of before is left; a step that follows a pointer to one is `none`.

`main` leaves no old pointer behind exactly when it found neither an open named semaphore
nor a connected keyboard (`restart_clean_iff`).  Once there is an open semaphore, its name
stands for memory that was given up, and `sharedSemWait` and `sharedSemPost` follow it.
-/

namespace BareBones.Process

open BareBones.Lib BareBones.Semaphores

/-- The counters of the objects at some moment. -/
structure HeapMark where
  process : Nat
  queue : Nat
  semaphore : Nat
  fileAccess : Nat
deriving DecidableEq, Repr

/-- The statics of the kernel and the heap they point into. -/
structure Machine where
  /-- The table of `sharedSemaphores.c` with its semaphores, and the scheduler. -/
  shared : Shared Kernel
  /-- The processes that were created before the last restart. -/
  firstProcess : Nat
  /-- The object that `readyQueue` points to. -/
  readyQueue : Option Nat
  /-- `keyboardBuffer` -/
  keyboardBuffer : Option Nat
  nextQueue : Nat
  nextFile : Nat
  /-- The counters at the last `mem_init`. -/
  heapStart : HeapMark

namespace Kernel

/-- `initializeScheduler`, on the statics as an earlier run has left them.  The heap is empty,
and there is room for every node. -/
def reinitializeScheduler (k : Kernel) : Kernel :=
  let k := { k with
    processTable := fun _ ↦ none
    foregroundSet := fun _ ↦ false
    readyQueue := []
    currentProcess := none
    schedulerEnabled := false
    sems := fun _ ↦ .new 0
    nodes := fun _ ↦ true
    nextSem := 0
    log := ⟨[], [], [], [], 0⟩ }
  let k := (k.startNewProcessWithPid 1 IDLE_PID).getD k
  (k.startNewProcessWithPid 1 INIT_PID).getD k

/-- The processes are counted from `n` on. -/
def renumber (n : Nat) (k : Kernel) : Kernel :=
  { k with
    processTable := fun q ↦ (k.processTable q).map fun p ↦ { p with inst := p.inst - n }
    currentProcess := k.currentProcess.map fun c ↦ (c.1, c.2 - n)
    nextInst := k.nextInst - n }

/-- The processes after a restart are the new idle process and the new `init`. -/
theorem reinitializeScheduler_table (k : Kernel) (q : Int) :
    k.reinitializeScheduler.processTable q =
      if q = INIT_PID then some ⟨k.nextInst + 1, INIT_PID, .READY, 1, 1, [], [], .user⟩
      else if q = IDLE_PID then some ⟨k.nextInst, INIT_PID, .READY, 1, 1, [], [], .user⟩
      else none := rfl

/-- The scheduler starts again as it started first, whatever it finds. -/
theorem renumber_reinitializeScheduler (k : Kernel) :
    k.reinitializeScheduler.renumber k.nextInst = initializeScheduler := by
  have htable : (k.reinitializeScheduler.renumber k.nextInst).processTable =
      initializeScheduler.processTable := by
    funext q
    rw [init_table]
    show (k.reinitializeScheduler.processTable q).map _ = _
    rw [reinitializeScheduler_table]
    split
    · simp
    · split <;> simp
  have hnext : (k.reinitializeScheduler.renumber k.nextInst).nextInst = 2 :=
    Nat.add_sub_cancel_left k.nextInst 2
  calc k.reinitializeScheduler.renumber k.nextInst
      = { initializeScheduler with
          processTable := (k.reinitializeScheduler.renumber k.nextInst).processTable
          nextInst := (k.reinitializeScheduler.renumber k.nextInst).nextInst } := rfl
    _ = initializeScheduler := by rw [htable, hnext]; rfl

end Kernel

namespace Machine

/-- The counters now. -/
def mark (m : Machine) : HeapMark :=
  ⟨m.firstProcess + m.shared.sched.nextInst, m.nextQueue, m.shared.nextSem, m.nextFile⟩

/-- `mem_init` -/
def mem_init (m : Machine) : Machine :=
  { m with shared := { m.shared with sems := fun _ ↦ none }, heapStart := m.mark }

/-- `initializeScheduler` -/
def initializeScheduler (m : Machine) : Machine :=
  { m with
    shared := { m.shared with sched := m.shared.sched.reinitializeScheduler }
    readyQueue := some m.nextQueue
    nextQueue := m.nextQueue + 1 }

/-- `main`, before it enables the scheduler. -/
def main (m : Machine) : Machine := m.mem_init.initializeScheduler

/-- The processes are counted anew. -/
def renumber (m : Machine) : Machine :=
  { m with
    shared := { m.shared with
      sched := m.shared.sched.renumber (m.heapStart.process - m.firstProcess) }
    firstProcess := m.heapStart.process }

/-- `exceptionHandler`, from its call of `main` on.  Before that it shows the registers for some
three seconds, with interrupts on: what happens meanwhile are events that come before this one. -/
def exceptionHandler (m : Machine) : Machine := m.main.renumber

/-- `initializeKeyboardDriver`, which `init` calls with a new write end, if there is room for
one in the heap. -/
def initializeKeyboardDriver (room : Bool) (m : Machine) : Machine :=
  if room then { m with keyboardBuffer := some m.nextFile, nextFile := m.nextFile + 1 } else m

/-- What can happen. -/
inductive Event
  /-- Whatever the kernel does about processes. -/
  | kernel (e : Kernel.Event)
  /-- The running process uses a named semaphore. -/
  | call (c : Shared.Call)
  /-- `init` connects the keyboard. -/
  | connectKeyboard (room : Bool)
  /-- The running process causes an exception. -/
  | exception

/-- One event. -/
def step (m : Machine) : Event → Option Machine
  | .kernel e => (m.shared.sched.step e).map fun k ↦
      { m with shared := { m.shared with sched := k } }
  | .call c => m.shared.sched.caller.bind fun _ ↦ (m.shared.exec c).map fun r ↦
      { m with shared := r.2 }
  | .connectKeyboard room => m.shared.sched.initCaller.map fun _ ↦ m.initializeKeyboardDriver room
  | .exception => m.shared.sched.current.map fun _ ↦ m.exceptionHandler

/-- The statics before the first call of `main`. -/
def cleared : Machine where
  shared := Shared.init .boot
  firstProcess := 0
  readyQueue := none
  keyboardBuffer := none
  nextQueue := 0
  nextFile := 0
  heapStart := ⟨0, 0, 0, 0⟩

/-- The system before its first interrupt. -/
def boot : Machine := cleared.main

/-! ## What a restart owes -/

/-- No table of the kernel holds a pointer to an object from before the last `mem_init`. -/
structure Clean (m : Machine) : Prop where
  processTable : ∀ pid p, m.shared.sched.processTable pid = some p →
    m.heapStart.process ≤ m.firstProcess + p.inst
  currentProcess : ∀ pid inst, m.shared.sched.currentProcess = some (pid, inst) →
    m.heapStart.process ≤ m.firstProcess + inst
  readyQueue : ∀ q, m.readyQueue = some q → m.heapStart.queue ≤ q
  foregroundSet : ∀ pid, m.shared.sched.foregroundSet pid = true →
    ∃ p, m.shared.sched.processTable pid = some p
  table : ∀ i < MAX_SHARED_SEMS, ∀ p, (m.shared.table i).sem = some p →
    m.heapStart.semaphore ≤ p
  keyboardBuffer : ∀ f, m.keyboardBuffer = some f → m.heapStart.fileAccess ≤ f

/-- The name a call is about. -/
def nameOf : Shared.Call → SemName
  | .sharedSemOpen n _ _ | .sharedSemClose n | .sharedSemWait n | .sharedSemPost n => n

/-- The semaphore of the heap that a call finds under its name. -/
def found (m : Machine) (c : Shared.Call) : Option Nat := m.shared.semOf (nameOf c).buffer

/-- The restart leaves the kernel clean, and whatever happens afterwards, a call on a named
semaphore finds none from before. -/
def RestartsClean (m : Machine) : Prop :=
  m.main.Clean ∧ ∀ t, Reach step (fun _ _ ↦ True) m.exceptionHandler t →
    ∀ c p, t.found c = some p → m.mark.semaphore ≤ p

end Machine

/-! ## One call -/

namespace Machine

variable {s t : Shared Kernel} {m m' : Machine} {i : Nat}

/-- What happens to the slots of the table: each one stays, is closed, or gets a new
semaphore. -/
structure Moves (s t : Shared Kernel) : Prop where
  next : s.nextSem ≤ t.nextSem
  slot : ∀ i, ((t.table i).used = (s.table i).used ∧ (t.table i).sem = (s.table i).sem) ∨
    ((t.table i).used = false ∧ (t.table i).sem = none) ∨
    ((t.table i).used = true ∧ (t.table i).sem = some s.nextSem ∧ s.nextSem < t.nextSem)

namespace Moves

/-- The table stays. -/
theorem of_eq (htable : t.table = s.table) (hnext : t.nextSem = s.nextSem) : Moves s t where
  next := hnext ▸ Nat.le_refl _
  slot _ := .inl (htable ▸ ⟨rfl, rfl⟩)

/-- One slot changes. -/
theorem setEntry {e : SharedSem} (hnext : s.nextSem ≤ t.nextSem)
    (htable : ∀ j, t.table j = if j = i then e else s.table j)
    (he : (e.used = (s.table i).used ∧ e.sem = (s.table i).sem) ∨ (e.used = false ∧ e.sem = none) ∨
      (e.used = true ∧ e.sem = some s.nextSem ∧ s.nextSem < t.nextSem)) : Moves s t where
  next := hnext
  slot j := by
    rw [htable]
    by_cases hj : j = i
    · rw [if_pos hj, hj]
      exact he
    · rw [if_neg hj]
      exact .inl ⟨rfl, rfl⟩

/-- A semaphore changes. -/
theorem setSem (h : Moves s t) (p : Nat) (sem : Option Sem) : Moves s (t.setSem p sem) :=
  ⟨h.next, h.slot⟩

end Moves

theorem moves_open (n : SemName) (v : Int) (room : Bool) :
    Moves s (s.sharedSemOpen n.buffer v room).2 := by
  unfold Shared.sharedSemOpen
  split
  · exact .of_eq rfl rfl
  split
  · exact .setEntry (Nat.le_refl _) (fun _ ↦ rfl) (.inl ⟨rfl, rfl⟩)
  split
  · exact .of_eq rfl rfl
  next idx _ =>
  cases room with
  | false => exact .of_eq rfl rfl
  | true =>
      exact .setEntry (Nat.le_succ _) (fun _ ↦ rfl) (.inr (.inr ⟨rfl, rfl, Nat.lt_succ_self _⟩))

theorem moves_close (n : SemName) {r : Int} (h : s.sharedSemClose n.buffer = some (r, t)) :
    Moves s t := by
  unfold Shared.sharedSemClose at h
  split at h
  · cases h
    exact .of_eq rfl rfl
  split at h
  · cases h
    exact .of_eq rfl rfl
  next idx _ =>
  dsimp only at h
  split at h
  · obtain ⟨u, hu, heq⟩ := Option.map_eq_some_iff.mp h
    cases heq
    have hclosed : Moves s (s.setEntry idx { s.table idx with
        refCount := (s.table idx).refCount - 1, used := false, sem := none }) :=
      .setEntry (Nat.le_refl _) (fun _ ↦ rfl) (.inr (.inl ⟨rfl, rfl⟩))
    unfold Shared.freeSemaphore at hu
    split at hu
    · exact Option.some.inj hu ▸ hclosed
    split at hu
    · cases hu
    split at hu
    · exact Option.some.inj hu ▸ hclosed
    · exact Option.some.inj hu ▸ hclosed.setSem _ _
  · cases h
    exact .setEntry (Nat.le_refl _) (fun _ ↦ rfl) (.inl ⟨rfl, rfl⟩)

theorem moves_wait (n : SemName) {r : Int} (h : s.sharedSemWait n.buffer = some (r, t)) :
    Moves s t := by
  unfold Shared.sharedSemWait at h
  split at h
  · cases h
    exact .of_eq rfl rfl
  split at h
  · cases h
    exact .of_eq rfl rfl
  split at h
  · cases h
  · cases h
    exact .of_eq rfl rfl

theorem moves_post (n : SemName) {r : Int} (h : s.sharedSemPost n.buffer = some (r, t)) :
    Moves s t := by
  unfold Shared.sharedSemPost at h
  split at h
  · cases h
    exact .of_eq rfl rfl
  split at h
  · cases h
    exact .of_eq rfl rfl
  split at h
  · cases h
  · cases h
    exact .of_eq rfl rfl

theorem moves_exec (c : Shared.Call) {r : Int} (h : s.exec c = some (r, t)) : Moves s t := by
  cases c with
  | sharedSemOpen n v room =>
      have ht : t = (s.sharedSemOpen n.buffer v room).2 :=
        congrArg Prod.snd (Option.some.inj h).symm
      exact ht ▸ moves_open n v room
  | sharedSemClose n => exact moves_close n h
  | sharedSemWait n => exact moves_wait n h
  | sharedSemPost n => exact moves_post n h

/-! ## Runs -/

/-- What holds of the statics in every run: a slot is in use while it has a semaphore, and
pointers are to objects that have been allocated. -/
structure Inv (m : Machine) : Prop where
  used : ∀ i, (m.shared.table i).used = (m.shared.table i).sem.isSome
  lt_nextSem : ∀ i p, (m.shared.table i).sem = some p → p < m.shared.nextSem
  lt_nextFile : ∀ f, m.keyboardBuffer = some f → f < m.nextFile

/-- The slots have no semaphore from before `n`. -/
def Since (n : Nat) (m : Machine) : Prop :=
  n ≤ m.shared.nextSem ∧ ∀ i < MAX_SHARED_SEMS, ∀ p, (m.shared.table i).sem = some p → n ≤ p

/-- An event of the machine moves the slots, or leaves them alone. -/
theorem step_moves {e : Event} (h : m.step e = some m') : Moves m.shared m'.shared := by
  cases e with
  | kernel e =>
      obtain ⟨k, -, rfl⟩ := Option.map_eq_some_iff.mp h
      exact .of_eq rfl rfl
  | call c =>
      obtain ⟨p, -, hcall⟩ := Option.bind_eq_some_iff.mp h
      obtain ⟨r, hr, rfl⟩ := Option.map_eq_some_iff.mp hcall
      exact moves_exec c hr
  | connectKeyboard room =>
      obtain ⟨p, -, rfl⟩ := Option.map_eq_some_iff.mp h
      cases room <;> exact .of_eq rfl rfl
  | exception =>
      obtain ⟨p, -, rfl⟩ := Option.map_eq_some_iff.mp h
      exact .of_eq rfl rfl

theorem step_keyboardBuffer {e : Event} (h : m.step e = some m')
    (hm : ∀ f, m.keyboardBuffer = some f → f < m.nextFile) {f : Nat}
    (hf : m'.keyboardBuffer = some f) : f < m'.nextFile := by
  cases e with
  | kernel e =>
      obtain ⟨k, -, rfl⟩ := Option.map_eq_some_iff.mp h
      exact hm f hf
  | call c =>
      obtain ⟨p, -, hcall⟩ := Option.bind_eq_some_iff.mp h
      obtain ⟨r, hr, rfl⟩ := Option.map_eq_some_iff.mp hcall
      exact hm f hf
  | connectKeyboard room =>
      obtain ⟨p, -, rfl⟩ := Option.map_eq_some_iff.mp h
      cases room with
      | false => exact hm f hf
      | true =>
          obtain rfl := Option.some.inj hf
          exact Nat.lt_succ_self _
  | exception =>
      obtain ⟨p, -, rfl⟩ := Option.map_eq_some_iff.mp h
      exact hm f hf

theorem Inv.step {e : Event} (hinv : Inv m) (h : m.step e = some m') : Inv m' := by
  have hmoves := step_moves h
  refine ⟨fun i ↦ ?_, fun i p hp ↦ ?_, fun f hf ↦ step_keyboardBuffer h hinv.lt_nextFile hf⟩
  · rcases hmoves.slot i with ⟨hu, hs⟩ | ⟨hu, hs⟩ | ⟨hu, hs, -⟩
    · rw [hu, hs, hinv.used]
    · rw [hu, hs]
      rfl
    · rw [hu, hs]
      rfl
  · rcases hmoves.slot i with ⟨-, hs⟩ | ⟨-, hs⟩ | ⟨-, hs, hlt⟩
    · rw [hs] at hp
      exact Nat.lt_of_lt_of_le (hinv.lt_nextSem i p hp) hmoves.next
    · rw [hs] at hp
      cases hp
    · rw [hs] at hp
      exact Option.some.inj hp ▸ hlt

theorem Since.step {n : Nat} {e : Event} (hsince : Since n m) (h : m.step e = some m') :
    Since n m' := by
  have hmoves := step_moves h
  refine ⟨Nat.le_trans hsince.1 hmoves.next, fun i hi p hp ↦ ?_⟩
  rcases hmoves.slot i with ⟨-, hs⟩ | ⟨-, hs⟩ | ⟨-, hs, -⟩
  · exact hsince.2 i hi p (hs ▸ hp)
  · rw [hs] at hp
    cases hp
  · rw [hs] at hp
    exact Option.some.inj hp ▸ hsince.1

/-- What a call finds is what a slot points to. -/
theorem Since.found {n : Nat} (h : Since n m) (c : Shared.Call) {p : Nat}
    (hp : m.found c = some p) : n ≤ p := by
  unfold Machine.found Shared.semOf at hp
  split at hp
  · next idx hidx =>
      have hmem := List.mem_of_find?_eq_some hidx
      exact h.2 idx (List.mem_range.mp hmem) p hp
  · cases hp

theorem inv_boot : Inv boot where
  used _ := rfl
  lt_nextSem _ _ hp := by cases hp
  lt_nextFile _ hf := by cases hf

theorem inv_reach (h : Reach step (fun _ _ ↦ True) boot m) : Inv m :=
  h.invariant inv_boot fun _ _ _ hinv _ hstep ↦ hinv.step hstep

/-! ## The restart -/

/-- Whatever `main` builds anew is clean; what it leaves alone is clean if it is empty. -/
theorem clean_main_iff (hinv : Inv m) : m.main.Clean ↔
    (∀ i < MAX_SHARED_SEMS, (m.shared.table i).used = false) ∧ m.keyboardBuffer = none := by
  constructor
  · intro hclean
    constructor
    · intro i hi
      cases hsem : (m.shared.table i).sem with
      | none => rw [hinv.used, hsem, Option.isSome_none]
      | some p =>
          have hold : p < m.shared.nextSem := hinv.lt_nextSem i p hsem
          have hnew : m.shared.nextSem ≤ p := hclean.table i hi p hsem
          omega
    · cases hkbd : m.keyboardBuffer with
      | none => rfl
      | some f =>
          have hold : f < m.nextFile := hinv.lt_nextFile f hkbd
          have hnew : m.nextFile ≤ f := hclean.keyboardBuffer f hkbd
          omega
  · rintro ⟨htable, hkbd⟩
    constructor
    · intro pid p hp
      replace hp := (Kernel.reinitializeScheduler_table _ pid).symm.trans hp
      show m.firstProcess + m.shared.sched.nextInst ≤ m.firstProcess + p.inst
      split at hp
      · obtain rfl := Option.some.inj hp
        exact Nat.add_le_add_left (Nat.le_succ _) _
      · split at hp
        · obtain rfl := Option.some.inj hp
          exact Nat.le_refl _
        · cases hp
    · intro pid inst hcur
      cases hcur
    · intro q hq
      exact Option.some.inj hq ▸ Nat.le_refl _
    · intro pid hfg
      cases hfg
    · intro i hi p hp
      have hused := hinv.used i
      rw [htable i hi, show (m.shared.table i).sem = some p from hp] at hused
      cases hused
    · intro f hf
      cases hkbd.symm.trans hf

/-- **The restart after an exception leaves the kernel clean exactly when it finds no open
named semaphore and no connected keyboard.**  Then every later call on a named semaphore
finds one that has been allocated since. -/
theorem restart_clean_iff (h : Reach step (fun _ _ ↦ True) boot m) : m.RestartsClean ↔
    (∀ i < MAX_SHARED_SEMS, (m.shared.table i).used = false) ∧ m.keyboardBuffer = none := by
  have hinv := inv_reach h
  rw [← clean_main_iff hinv]
  refine ⟨fun hclean ↦ hclean.1, fun hclean ↦ ⟨hclean, fun t ht c p hp ↦ ?_⟩⟩
  -- the slots are empty at the restart, and only new semaphores come in
  have hsince : Since m.mark.semaphore m.exceptionHandler := ⟨Nat.le_refl _, hclean.table⟩
  exact (ht.invariant hsince fun _ _ _ hs _ hstep ↦ hs.step hstep).found c hp

/-- A restart before `init` has connected the keyboard, while no semaphore is open. -/
theorem restart_clean_iff_early : ∃ m, Reach step (fun _ _ ↦ True) boot m ∧ m.RestartsClean := by
  have hrun : ((run step boot [.kernel .enableScheduler, .kernel .tick]).map fun m ↦
      (((List.range MAX_SHARED_SEMS).all fun i ↦ !(m.shared.table i).used), m.keyboardBuffer)) =
      some (true, none) := by decide +kernel
  obtain ⟨m, hm, hobs⟩ := Option.map_eq_some_iff.mp hrun
  obtain ⟨hused, hkbd⟩ := Prod.mk.injEq .. ▸ hobs
  have hreach : Reach step (fun _ _ ↦ True) boot m := .of_run hm (.of_true _ _)
  refine ⟨m, hreach, (restart_clean_iff hreach).mpr ⟨fun i hi ↦ ?_, hkbd⟩⟩
  simpa using List.all_eq_true.mp hused i (List.mem_range.mpr hi)

/-- The system comes up, and the shell opens a semaphore. -/
def openEvents (n : SemName) : List Event :=
  [.kernel .enableScheduler, .kernel .tick, .kernel .tick, .connectKeyboard true, .kernel .create,
    .kernel .waitAny, .kernel .tick, .call (.sharedSemOpen n 1 true)]

/-- An exception of the shell while a semaphore is open: the keyboard driver keeps its old
write end, and the name still stands for the old semaphore. -/
theorem restart_dangling :
    ¬∀ m, Reach step (fun _ _ ↦ True) boot m → m.RestartsClean := by
  intro hclaim
  have hrun : ((run step boot (openEvents ⟨[120], by decide, by decide, by decide⟩)).map fun m ↦
      ((m.shared.table 0).used, m.keyboardBuffer)) = some (true, some 0) := by decide +kernel
  obtain ⟨m, hm, hobs⟩ := Option.map_eq_some_iff.mp hrun
  obtain ⟨hused, -⟩ := Prod.mk.injEq .. ▸ hobs
  have hreach : Reach step (fun _ _ ↦ True) boot m := .of_run hm (.of_true _ _)
  have hempty := ((clean_main_iff (inv_reach hreach)).mp (hclaim m hreach).1).1 0 (by decide)
  exact Bool.false_ne_true (hempty.symm.trans hused)

/-- After the restart, the new shell waits for the semaphore by its name, and the kernel
follows a pointer into memory that was given up. -/
example : ((run step boot (openEvents ⟨[120], by decide, by decide, by decide⟩ ++
    [.exception, .kernel .enableScheduler, .kernel .tick, .kernel .tick, .connectKeyboard true,
      .kernel .create, .kernel .waitAny, .kernel .tick])).map fun m ↦
    (m.found (.sharedSemWait ⟨[120], by decide, by decide, by decide⟩), m.heapStart.semaphore,
      (m.step (.call (.sharedSemWait ⟨[120], by decide, by decide, by decide⟩))).isSome)) =
    some (some 0, 1, false) := by decide +kernel

end Machine

end BareBones.Process
