import BareBones.Process.Undisturbed

/-!
# The clock of the kernel

`timer.c` counts the interrupts of the timer in `ticks`, and the kernel's time, `sleep`
and the length of a sound are computed from this counter.  It is advanced by
`timer_handler`, which the interrupt handler does not call itself: it calls `schedule`,
and `schedule` calls `timer_handler` first.  But a system call that gives up the processor
reaches `schedule` too, through `forceSchedulerCall`, which raises the same interrupt.

`Clocked` is the kernel together with the counter.  Each function of the kernel on a path
to `schedule` is written out again with the counter, and **forgetting the counter gives the
kernel back** (`step_eq`).  A process that reads or writes a pipe, or uses a shared
semaphore, reaches the scheduler only in a `semWait` of one of its semaphores, which are
semaphores that user processes share; such a call is the sequence of the events `semWait`
and `semPost` it is made of.

The counter of a run is exactly the number of timer interrupts and of forced calls
(`run_ticks`).
-/

namespace BareBones.Process

open BareBones.Lib BareBones.Semaphores

/-- The kernel and the counter of the timer, which has 64 bits in the source and any size here: it
would take `2 ^ 64` calls of `timer_handler` to overflow. -/
structure Clocked where
  kernel : Kernel
  ticks : Nat

namespace Clocked

/-! ## The functions that reach the scheduler -/

/-- `timer_handler` -/
def timer_handler (c : Clocked) : Clocked := { c with ticks := c.ticks + 1 }

/-- What the kernel does without the scheduler. -/
def within (c : Clocked) (k : Option Kernel) : Option Clocked :=
  k.map fun k ↦ { c with kernel := k }

/-- `schedule` -/
def schedule (c : Clocked) : Option Clocked := c.timer_handler.within c.kernel.schedule

/-- `_irq00Handler` -/
def irq00Handler (c : Clocked) : Option Clocked := c.schedule

/-- `forceSchedulerCall`, which raises the interrupt of the timer. -/
def forceSchedulerCall (c : Clocked) : Option Clocked := c.irq00Handler

/-- `terminateProcess` -/
def terminateProcess (pid : Int) (closed : List Nat) (c : Clocked) : Option Clocked :=
  match c.kernel.terminate pid closed with
  | none => some c
  | some k =>
      let c := { c with kernel := k }
      if k.currentProcess.map Prod.fst = some pid then c.forceSchedulerCall else some c

/-- `sys_exit` -/
def sysExit (cur : Int) (closed : List Nat) (c : Clocked) : Option Clocked :=
  { c with kernel := c.kernel.setCont cur .exited }.terminateProcess cur closed

/-- `wait_pid`, called by the process `cur`. -/
def wait_pid (cur pid : Int) (c : Clocked) : Option Clocked :=
  if invalidPID pid then some c
  else
    match c.kernel.processTable pid with
    | none => some c
    | some process =>
        let parent := if invalidPID process.ppid then none
          else (c.kernel.processTable process.ppid).map fun p ↦ (process.ppid, p.inst)
        match c.kernel.wait (.terminated process.inst) with
        | (k, true) =>
            { c with kernel := k.setCont cur (.waitPid pid process.inst parent) }.forceSchedulerCall
        | (k, false) => c.within (k.afterTerminated pid process.inst parent)

/-- `wait_any`, called by the process `p` with the pid `cur`, up to its `pollQueue`. -/
def wait_any (cur : Int) (p : ProcessCDT) (c : Clocked) : Option Clocked :=
  match c.kernel.wait (.childTerminated p.inst) with
  | (k, true) => { c with kernel := k.setCont cur .waitAny }.forceSchedulerCall
  | (k, false) => some { c with kernel := k.setCont cur .polling }

/-- `semWait` of a shared semaphore. -/
def sysSemWait (cur : Int) (n : Nat) (c : Clocked) : Option Clocked :=
  match c.kernel.wait (.user n) with
  | (k, true) => { c with kernel := k.setCont cur (.semWait n) }.forceSchedulerCall
  | (k, false) => some { c with kernel := k }

/-- One event. -/
def step (c : Clocked) : Kernel.Event → Option Clocked
  | .tick => c.irq00Handler
  | .yield => c.kernel.caller.bind fun _ ↦ c.forceSchedulerCall
  | .exit closed => c.kernel.caller.bind fun p ↦ c.sysExit p.1 closed
  | .kill pid closed => c.kernel.caller.bind fun _ ↦ c.terminateProcess pid closed
  | .waitPid pid => c.kernel.caller.bind fun p ↦ c.wait_pid p.1 pid
  | .waitAny => c.kernel.initCaller.bind fun p ↦ c.wait_any p.1 p.2
  | .semWait n => c.kernel.caller.bind fun p ↦
      if n < c.kernel.nextSem then c.sysSemWait p.1 n else none
  | e => c.within (c.kernel.step e)

/-- The system before its first interrupt. -/
def boot : Clocked := ⟨.initializeScheduler, 0⟩

end Clocked

/-! ## Which events reach the scheduler -/

namespace Kernel

variable {k : Kernel} {pid : Int}

/-- `terminateProcess` does not give up on `pid`. -/
def CanTerminate (k : Kernel) (pid : Int) : Prop :=
  ¬invalidPID pid ∧ ¬isUnkillable pid ∧
    ∃ p ∈ k.processTable pid, ¬invalidPID p.ppid ∧ (k.processTable p.ppid).isSome

instance (k : Kernel) (pid : Int) : Decidable (k.CanTerminate pid) :=
  inferInstanceAs (Decidable (_ ∧ _ ∧ _))

/-- A timer interrupt. -/
def Event.isTick : Event → Bool
  | .tick => true
  | _ => false

/-- The event forces a call of the scheduler: the caller gives up the processor, ends, or
waits for a semaphore without a token. -/
def Event.Forces (k : Kernel) : Event → Prop
  | .yield => True
  | .exit _ => k.CanTerminate k.getCurrentPID
  | .kill pid _ => k.currentProcess.map Prod.fst = some pid ∧ k.CanTerminate pid
  | .waitPid pid => ¬invalidPID pid ∧
      ∃ p ∈ k.processTable pid, (k.sems (.terminated p.inst)).sem.value ≤ 0
  | .waitAny => ∃ c ∈ k.current, (k.sems (.childTerminated c.2.inst)).sem.value ≤ 0
  | .semWait n => (k.sems (.user n)).sem.value ≤ 0
  | _ => False

instance (k : Kernel) : (e : Event) → Decidable (e.Forces k)
  | .yield => isTrue trivial
  | .exit _ => inferInstanceAs (Decidable (k.CanTerminate _))
  | .kill _ _ => inferInstanceAs (Decidable (_ ∧ _))
  | .waitPid _ => inferInstanceAs (Decidable (_ ∧ _))
  | .waitAny => inferInstanceAs (Decidable (∃ c ∈ k.current, _))
  | .semWait _ => inferInstanceAs (Decidable (_ ≤ _))
  | .tick | .enableScheduler | .heap _ | .create | .ctrlC _ _ | .block _ | .unblock _ | .nice _ _
  | .foreground _ | .reapZombies | .semOpen _ | .semPost _ | .semTryWait _ | .resume =>
      isFalse fun h ↦ h

/-! ## Whether a call reaches the scheduler can be seen before it -/

/-- `semWait` blocks exactly when there is no token. -/
theorem wait_blocks_iff (k : Kernel) (id : SemId) :
    (k.wait id).2 = true ↔ (k.sems id).sem.value ≤ 0 := by
  have hval : (k.sems id).sem.value - 1 < 0 ↔ (k.sems id).sem.value ≤ 0 := by omega
  rw [← hval]
  by_cases hlt : (k.sems id).sem.value - 1 < 0 <;> simp [wait, semWait, hlt]

/-- `terminateProcess` gives up on a process exactly when it finds the process or its parent
missing, or the process protected. -/
theorem terminate_isSome_iff (k : Kernel) (pid : Int) (closed : List Nat) :
    (k.terminate pid closed).isSome ↔ k.CanTerminate pid := by
  unfold terminate CanTerminate
  by_cases hinvalid : invalidPID pid
  · simp [hinvalid]
  by_cases hkill : isUnkillable pid
  · simp [hinvalid, hkill]
  cases hp : k.processTable pid with
  | none => simp [hinvalid, hkill]
  | some p =>
      by_cases hppid : invalidPID p.ppid
      · simp [hinvalid, hkill, hppid]
      · cases hparent : k.processTable p.ppid with
        | none => simp [hinvalid, hkill, hppid, hparent]
        | some parent => simp [hinvalid, hkill, hppid, hparent]

/-- Where a process is does not matter to `terminateProcess`. -/
theorem canTerminate_setCont (cur : Int) (c : Cont) :
    (k.setCont cur c).CanTerminate pid ↔ k.CanTerminate pid := by
  have hppid : ∀ q, ((k.setCont cur c).processTable q).map ProcessCDT.ppid =
      (k.processTable q).map ProcessCDT.ppid := by
    intro q
    by_cases hq : q = cur
    · subst hq
      simp only [setCont, modify_self, Option.map_map]
      rfl
    · rw [setCont, modify_other _ _ hq]
  have hsome : ∀ q, ((k.setCont cur c).processTable q).isSome = (k.processTable q).isSome := by
    intro q
    rw [← Option.isSome_map, hppid, Option.isSome_map]
  have hmem : ∀ P : Int → Prop, (∃ p ∈ (k.setCont cur c).processTable pid, P p.ppid) ↔
      ∃ p ∈ k.processTable pid, P p.ppid := by
    intro P
    have hmap := hppid pid
    cases h : k.processTable pid <;> cases h' : (k.setCont cur c).processTable pid <;>
      simp_all
  simp only [CanTerminate, hsome]
  rw [hmem fun ppid ↦ ¬invalidPID ppid ∧ (k.processTable ppid).isSome]

end Kernel

/-! ## One event -/

namespace Clocked

open Kernel

variable {c d : Clocked} {e : Event}

/-- The ticks of one event: one for the timer, one for a forced call. -/
def advance (e : Event) (k : Kernel) : Nat :=
  (if e.isTick then 1 else 0) + if e.Forces k then 1 else 0

theorem forceSchedulerCall_eq (c : Clocked) :
    c.forceSchedulerCall = c.kernel.schedule.map fun k ↦ ⟨k, c.ticks + 1⟩ := rfl

theorem within_eq (c : Clocked) (o : Option Kernel) :
    c.within o = o.map fun k ↦ ⟨k, c.ticks⟩ := rfl

/-- `terminateProcess` forces a call exactly when it terminates the running process. -/
theorem terminateProcess_eq (pid : Int) (closed : List Nat) (c : Clocked) :
    c.terminateProcess pid closed = (c.kernel.terminateProcess pid closed).map fun k ↦
      ⟨k, c.ticks + if c.kernel.currentProcess.map Prod.fst = some pid ∧
        c.kernel.CanTerminate pid then 1 else 0⟩ := by
  have hiff := terminate_isSome_iff c.kernel pid closed
  unfold Clocked.terminateProcess Kernel.terminateProcess
  cases ht : c.kernel.terminate pid closed with
  | none =>
      have hno : ¬c.kernel.CanTerminate pid := by simpa [ht] using hiff
      simp [hno]
  | some t =>
      have hyes : c.kernel.CanTerminate pid := by simpa [ht] using hiff
      dsimp only
      rw [← terminate_currentProcess ht]
      split
      · next hcur => simp [hcur, hyes, forceSchedulerCall_eq]
      · next hcur => simp [hcur]

theorem sysSemWait_eq (cur : Int) (n : Nat) (c : Clocked) :
    c.sysSemWait cur n = (c.kernel.sysSemWait cur n).map fun k ↦
      ⟨k, c.ticks + if (c.kernel.sems (.user n)).sem.value ≤ 0 then 1 else 0⟩ := by
  have hiff := wait_blocks_iff c.kernel (.user n)
  unfold Clocked.sysSemWait Kernel.sysSemWait
  rcases hwait : c.kernel.wait (.user n) with ⟨k, blocked⟩
  cases blocked with
  | true => simp [← hiff, hwait, forceSchedulerCall_eq]
  | false => simp [← hiff, hwait]

theorem wait_any_eq (cur : Int) (p : ProcessCDT) (c : Clocked) :
    c.wait_any cur p = (c.kernel.wait_any cur p).map fun k ↦
      ⟨k, c.ticks + if (c.kernel.sems (.childTerminated p.inst)).sem.value ≤ 0 then 1 else 0⟩ := by
  have hiff := wait_blocks_iff c.kernel (.childTerminated p.inst)
  unfold Clocked.wait_any Kernel.wait_any
  rcases hwait : c.kernel.wait (.childTerminated p.inst) with ⟨k, blocked⟩
  cases blocked with
  | true => simp [← hiff, hwait, forceSchedulerCall_eq]
  | false => simp [← hiff, hwait]

/-- `wait_pid` forces a call exactly when the process it finds has not been terminated yet,
or its token is gone. -/
theorem forces_waitPid {k : Kernel} {pid : Int} {p : ProcessCDT} (hvalid : ¬invalidPID pid)
    (hp : k.processTable pid = some p) :
    (Event.waitPid pid).Forces k ↔ (k.sems (.terminated p.inst)).sem.value ≤ 0 := by
  simp [Event.Forces, hvalid, hp]

theorem wait_pid_eq (cur pid : Int) (c : Clocked) :
    c.wait_pid cur pid = (c.kernel.wait_pid cur pid).map fun k ↦
      ⟨k, c.ticks + if (Event.waitPid pid).Forces c.kernel then 1 else 0⟩ := by
  unfold Clocked.wait_pid Kernel.wait_pid
  split
  · next hinvalid => simp [Event.Forces, hinvalid]
  next hvalid =>
  cases hp : c.kernel.processTable pid with
  | none => simp [Event.Forces, hp]
  | some process =>
      have hiff := wait_blocks_iff c.kernel (.terminated process.inst)
      rw [← forces_waitPid hvalid hp] at hiff
      rcases hwait : c.kernel.wait (.terminated process.inst) with ⟨k, blocked⟩
      rw [hwait] at hiff
      cases blocked with
      | true =>
          rw [if_pos (hiff.mp rfl)]
          simp only [hwait, forceSchedulerCall_eq]
      | false =>
          rw [if_neg fun h ↦ Bool.false_ne_true (hiff.mpr h)]
          simp only [hwait, within_eq, Nat.add_zero]

/-- **One event** does what it does to the kernel without a clock, and advances the counter
by one for the timer and by one for a forced call of the scheduler. -/
theorem step_eq (c : Clocked) (e : Event) :
    c.step e = (c.kernel.step e).map fun k ↦ ⟨k, c.ticks + advance e c.kernel⟩ := by
  cases e with
  | yield =>
      refine (Option.bind_congr fun p _ ↦ ?_).trans Option.map_bind.symm
      exact forceSchedulerCall_eq c
  | exit closed =>
      refine (Option.bind_congr fun p hcaller ↦ ?_).trans Option.map_bind.symm
      have hcur := (current_eq_some.mp (caller_eq_some hcaller).1).1
      have hpid : c.kernel.getCurrentPID = p.1 := by rw [getCurrentPID, hcur]
      have hcur' : (c.kernel.setCont p.1 .exited).currentProcess.map Prod.fst = some p.1 := by
        rw [setCont, modify_currentProcess, hcur, Option.map_some]
      simp only [Clocked.sysExit, terminateProcess_eq, canTerminate_setCont, hcur', true_and]
      simp only [Function.comp, Kernel.sysExit, advance, Event.isTick, Event.Forces, hpid,
        Bool.false_eq_true, if_false, Nat.zero_add]
  | kill pid closed =>
      refine (Option.bind_congr fun p _ ↦ ?_).trans Option.map_bind.symm
      simp only [terminateProcess_eq, Function.comp, advance, Event.isTick, Bool.false_eq_true,
        if_false, Nat.zero_add]
      rfl
  | waitPid pid =>
      refine (Option.bind_congr fun p _ ↦ ?_).trans Option.map_bind.symm
      simp only [wait_pid_eq, Function.comp, advance, Event.isTick, Bool.false_eq_true, if_false,
        Nat.zero_add]
  | waitAny =>
      refine (Option.bind_congr fun p hcaller ↦ ?_).trans Option.map_bind.symm
      have hcur := (initCaller_eq_some hcaller).1
      simp only [wait_any_eq, Function.comp, advance, Event.isTick, Event.Forces, hcur,
        Option.mem_def, Option.some.injEq, exists_eq_left', Bool.false_eq_true, if_false,
        Nat.zero_add]
  | semWait n =>
      refine (Option.bind_congr fun p _ ↦ ?_).trans Option.map_bind.symm
      show _ = Option.map _ (if n < c.kernel.nextSem then c.kernel.sysSemWait p.1 n else none)
      split
      · simp only [sysSemWait_eq, advance, Event.isTick, Bool.false_eq_true, if_false, Nat.zero_add]
        rfl
      · rfl
  | _ => rfl

/-! ## Runs -/

/-- The forced calls of the scheduler in a run. -/
def forcedCalls : Clocked → List Event → Nat
  | _, [] => 0
  | c, e :: es => (if e.Forces c.kernel then 1 else 0) + (c.step e).elim 0 fun d ↦ forcedCalls d es

/-- **The clock of a run** has counted the timer interrupts and the forced calls. -/
theorem run_ticks : ∀ {es : List Event} {c : Clocked}, run step c es = some d →
    d.ticks = c.ticks + es.countP Event.isTick + forcedCalls c es
  | [], c, hrun => by
      obtain rfl := Option.some.inj hrun
      rfl
  | e :: es, c, hrun => by
      obtain ⟨c', hstep, hrest⟩ := Option.bind_eq_some_iff.mp hrun
      have hticks : c'.ticks = c.ticks + advance e c.kernel := by
        rw [step_eq] at hstep
        obtain ⟨k, -, rfl⟩ := Option.map_eq_some_iff.mp hstep
        rfl
      rw [run_ticks hrest, hticks, forcedCalls, hstep, List.countP_cons, advance, Option.elim_some]
      omega

/-- A run without forced calls is one in which no event forces a call. -/
theorem forcedCalls_eq_zero_iff : ∀ {es : List Event} {c : Clocked}, run step c es = some d →
    (forcedCalls c es = 0 ↔ Guarded step (fun c e ↦ ¬e.Forces c.kernel) c es)
  | [], c, _ => by simp [forcedCalls, Guarded]
  | e :: es, c, hrun => by
      obtain ⟨c', hstep, hrest⟩ := Option.bind_eq_some_iff.mp hrun
      have ih := forcedCalls_eq_zero_iff hrest
      rw [forcedCalls, hstep, Option.elim_some, Nat.add_eq_zero_iff, ih, Guarded, hstep]
      by_cases hforces : e.Forces c.kernel <;> simp [hforces]

/-- **Kernel time counts only hardware ticks exactly as long as nothing forces a call of the
scheduler**: between any two moments of a run, the counter has gone up by the number of
timer interrupts if and only if no event in between was a yield, the end of the running
process, or a wait for a semaphore without a token. -/
theorem ticks_eq_interrupts_iff {es : List Event} (hrun : run step c es = some d) :
    d.ticks = c.ticks + es.countP Event.isTick ↔
      Guarded step (fun c e ↦ ¬e.Forces c.kernel) c es := by
  rw [← forcedCalls_eq_zero_iff hrun, run_ticks hrun]
  omega

/-- While the system comes up, `init` waits for the first child that ends: four ticks are
counted for three interrupts. -/
theorem ticks_eq_interrupts_iff_boot : ∃ d, run step boot bootEvents = some d ∧
    d.ticks = 4 ∧ bootEvents.countP Event.isTick = 3 ∧
    (d.ticks = boot.ticks + bootEvents.countP Event.isTick ↔
      Guarded step (fun c e ↦ ¬e.Forces c.kernel) boot bootEvents) := by
  have hticks : (run step boot bootEvents).map Clocked.ticks = some 4 := by decide +kernel
  obtain ⟨d, hrun, hd⟩ := Option.map_eq_some_iff.mp hticks
  exact ⟨d, hrun, hd, by decide, ticks_eq_interrupts_iff hrun⟩

/-- A process that yields advances the clock. -/
theorem yield_counts : ¬∀ (es₀ es : List Event) (c d : Clocked), run step boot es₀ = some c →
    run step c es = some d → d.ticks = c.ticks + es.countP Event.isTick := by
  intro hclaim
  have hboot : (run step boot bootEvents).map Clocked.ticks = some 4 := by decide +kernel
  have hyield : ((run step boot bootEvents).bind fun c ↦ run step c [.yield]).map Clocked.ticks =
      some 5 := by decide +kernel
  obtain ⟨c, hc, hticks⟩ := Option.map_eq_some_iff.mp hboot
  rw [hc] at hyield
  obtain ⟨d, hd, hticks'⟩ := Option.map_eq_some_iff.mp hyield
  have heq : d.ticks = c.ticks + [Event.yield].countP Event.isTick := hclaim _ _ _ _ hc hd
  rw [hticks, hticks'] at heq
  exact absurd heq (by decide)

end Clocked

end BareBones.Process
