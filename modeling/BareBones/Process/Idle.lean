import BareBones.Process.Exhaustion
import BareBones.Process.ReadyQueue
import BareBones.Process.Undisturbed

/-!
# When the idle process runs

The idle process is what `getNextPID` falls back on when the ready queue is empty.  But it
is created as any other process is, and so it is queued: it stands at the head of the queue
when the system comes up, and whenever its quantum ends it goes to the back, as everybody
does.  It gets its share of the CPU like a process of priority 1, whoever else is `READY`.

What a dispatch chooses depends on the queue that it finds.  `Event.polls` is the state in
which an event reads the queue; it lies inside the event, after the running process has been
preempted, has been blocked or has been terminated, and **an event that does not read the
queue leaves `currentProcess` as it is** (`polls_eq_none`).
-/

namespace BareBones.Process.Kernel

open BareBones.Lib BareBones.Semaphores

variable {k s t u : Kernel} {e : Event} {pid q cur : Int} {p : ProcessCDT} {id : SemId}

/-! ## Where the scheduler is called -/

/-- The state in which `terminateProcess` calls the scheduler, if it does. -/
def endsCurrent (k : Kernel) (pid : Int) (closed : List Nat) : Option Kernel :=
  (k.terminate pid closed).filter fun u ↦ u.currentProcess.map Prod.fst = some pid

/-- The state in which a `semWait` of the process `cur` calls the scheduler, if it does. -/
def sleeps (k : Kernel) (id : SemId) (cur : Int) (c : Cont) : Option Kernel :=
  match k.wait id with
  | (k, true) => some (k.setCont cur c)
  | (_, false) => none

/-- The state in which an event calls the scheduler, if it does. -/
def Event.calls (k : Kernel) : Event → Option Kernel
  | .tick => some k
  | .yield => k.caller.map fun _ ↦ k
  | .exit closed => k.caller.bind fun c ↦ (k.setCont c.1 .exited).endsCurrent c.1 closed
  | .kill pid closed => k.caller.bind fun _ ↦ k.endsCurrent pid closed
  | .waitPid pid => k.caller.bind fun c ↦
      if invalidPID pid then none
      else (k.processTable pid).bind fun p ↦
        k.sleeps (.terminated p.inst) c.1 (.waitPid pid p.inst (k.parentOf p))
  | .waitAny => k.initCaller.bind fun c ↦ k.sleeps (.childTerminated c.2.inst) c.1 .waitAny
  | .semWait n => k.caller.bind fun c ↦
      if n < k.nextSem then k.sleeps (.user n) c.1 (.semWait n) else none
  | _ => none

/-- The state in which `schedule` takes the next process from the ready queue, if it does. -/
def polled (k : Kernel) : Option Kernel :=
  if ¬k.schedulerEnabled then none
  else if k.currentProcess = none then some k
  else k.current.bind fun c ↦
    if c.2.state = .RUNNING then
      if c.2.remainingQuantums > 0 then none else some (k.wake c.1)
    else some k

/-- The state in which an event takes the next process from the ready queue, if it does. -/
def Event.polls (k : Kernel) (e : Event) : Option Kernel := (e.calls k).bind polled

/-- Nobody but the idle process is `READY`. -/
def IdleAlone (k : Kernel) : Prop := ∀ q, q ≠ IDLE_PID → k.stateOf q ≠ some .READY

theorem schedule_of_polled (h : s.polled = some u) : s.schedule = u.dispatch := by
  unfold polled at h
  unfold schedule
  split at h
  · cases h
  next hon =>
  rw [if_neg hon]
  split at h
  next hnone => rw [if_pos hnone, Option.some.inj h]
  next hsome =>
  rw [if_neg hsome]
  obtain ⟨⟨cur, p⟩, hcur, h⟩ := Option.bind_eq_some_iff.mp h
  simp only [hcur]
  dsimp only at h
  split at h
  next hrun =>
      rw [if_pos hrun]
      split at h
      · cases h
      next hquantums =>
          rw [if_neg hquantums, ← Option.some.inj h]
          rfl
  next hrun => rw [if_neg hrun, Option.some.inj h]

theorem schedule_of_not_polled (h : s.polled = none) (ht : s.schedule = some t) :
    t.currentProcess = s.currentProcess ∧ t.readyQueue = s.readyQueue := by
  rcases schedule_cases ht with ⟨-, rfl⟩ | ⟨hon, ⟨_, _, -, -, -, rfl⟩ |
    ⟨cur, p, hcur, hrun, hzero, -⟩ | ⟨hidle, -⟩⟩
  · exact ⟨rfl, rfl⟩
  · exact ⟨rfl, rfl⟩
  · have hpointer := (current_eq_some.mp hcur).1
    simp [polled, hon, hpointer, hcur, hrun, hzero] at h
  · rcases hidle with hnone | ⟨cur, p, hcur, hrun⟩
    · simp [polled, hon, hnone] at h
    · have hpointer := (current_eq_some.mp hcur).1
      simp [polled, hon, hpointer, hcur, hrun] at h

theorem terminateProcess_of_endsCurrent {closed : List Nat}
    (h : k.endsCurrent pid closed = some s) : k.terminateProcess pid closed = s.schedule := by
  obtain ⟨hs, hcur⟩ := Option.filter_eq_some_iff.mp h
  rw [terminateProcess, hs]
  dsimp only
  rw [if_pos (of_decide_eq_true hcur)]

theorem sleeps_eq_some {c : Cont} (h : k.sleeps id cur c = some s) :
    ∃ v, k.wait id = (v, true) ∧ s = v.setCont cur c := by
  unfold sleeps at h
  split at h
  next v hwait => exact ⟨v, hwait, (Option.some.inj h).symm⟩
  · cases h

/-- An event that calls the scheduler does nothing after that. -/
theorem step_of_calls (h : e.calls k = some s) : k.step e = s.schedule := by
  cases e with
  | tick => rw [step, Option.some.inj h]
  | yield =>
      obtain ⟨c, hcaller, rfl⟩ := Option.map_eq_some_iff.mp h
      rw [step, hcaller]
      rfl
  | exit closed =>
      obtain ⟨c, hcaller, hends⟩ := Option.bind_eq_some_iff.mp h
      rw [step, hcaller]
      exact terminateProcess_of_endsCurrent hends
  | kill pid closed =>
      obtain ⟨c, hcaller, hends⟩ := Option.bind_eq_some_iff.mp h
      rw [step, hcaller]
      exact terminateProcess_of_endsCurrent hends
  | waitPid pid =>
      obtain ⟨c, hcaller, h⟩ := Option.bind_eq_some_iff.mp h
      split at h
      · cases h
      next hvalid =>
          obtain ⟨p, hp, hsleeps⟩ := Option.bind_eq_some_iff.mp h
          obtain ⟨v, hwait, rfl⟩ := sleeps_eq_some hsleeps
          rw [step, hcaller]
          change k.wait_pid c.1 pid = _
          simp only [wait_pid, if_neg hvalid, hp, hwait]
          rfl
  | waitAny =>
      obtain ⟨c, hcaller, hsleeps⟩ := Option.bind_eq_some_iff.mp h
      obtain ⟨v, hwait, rfl⟩ := sleeps_eq_some hsleeps
      rw [step, hcaller]
      change k.wait_any c.1 c.2 = _
      simp only [wait_any, hwait]
  | semWait n =>
      obtain ⟨c, hcaller, h⟩ := Option.bind_eq_some_iff.mp h
      split at h
      next hn =>
          obtain ⟨v, hwait, rfl⟩ := sleeps_eq_some h
          rw [step, hcaller]
          change (if n < k.nextSem then k.sysSemWait c.1 n else none) = _
          rw [if_pos hn]
          simp only [sysSemWait, hwait]
      · cases h
  | _ => cases h

theorem step_of_polls (h : e.polls k = some u) : k.step e = u.dispatch := by
  obtain ⟨s, hcalls, hpolled⟩ := Option.bind_eq_some_iff.mp h
  rw [step_of_calls hcalls, schedule_of_polled hpolled]

/-! ## An event that does not -/

theorem endsCurrent_currentProcess {closed : List Nat}
    (h : k.endsCurrent pid closed = some s) : s.currentProcess = k.currentProcess := by
  have hundisturbed : Undisturbed (fun _ ↦ True) k s :=
    .terminate (fun _ ↦ trivial) (fun _ ↦ trivial) (fun _ _ ↦ trivial)
      (Option.filter_eq_some_iff.mp h).1
  exact hundisturbed.currentProcess

theorem wait_currentProcess (k : Kernel) (id : SemId) :
    (k.wait id).1.currentProcess = k.currentProcess := by
  have hgentle : Gentle (fun _ ↦ True) k (k.wait id).1 := .wait trivial
  exact hgentle.currentProcess

theorem sleeps_currentProcess {c : Cont} (h : k.sleeps id cur c = some s) :
    s.currentProcess = k.currentProcess := by
  obtain ⟨v, hwait, rfl⟩ := sleeps_eq_some h
  have hcur := wait_currentProcess k id
  rwa [hwait] at hcur

/-- Before the scheduler is called, nobody else runs. -/
theorem calls_currentProcess (h : e.calls k = some s) : s.currentProcess = k.currentProcess := by
  cases e with
  | tick => rw [Option.some.inj h]
  | yield =>
      obtain ⟨c, -, rfl⟩ := Option.map_eq_some_iff.mp h
      rfl
  | exit closed =>
      obtain ⟨c, -, hends⟩ := Option.bind_eq_some_iff.mp h
      exact endsCurrent_currentProcess (k := k.setCont c.1 .exited) hends
  | kill pid closed =>
      obtain ⟨c, -, hends⟩ := Option.bind_eq_some_iff.mp h
      exact endsCurrent_currentProcess hends
  | waitPid pid =>
      obtain ⟨c, -, h⟩ := Option.bind_eq_some_iff.mp h
      split at h
      · cases h
      · obtain ⟨p, -, hsleeps⟩ := Option.bind_eq_some_iff.mp h
        exact sleeps_currentProcess hsleeps
  | waitAny =>
      obtain ⟨c, -, hsleeps⟩ := Option.bind_eq_some_iff.mp h
      exact sleeps_currentProcess hsleeps
  | semWait n =>
      obtain ⟨c, -, h⟩ := Option.bind_eq_some_iff.mp h
      split at h
      · exact sleeps_currentProcess h
      · cases h
  | _ => cases h

theorem terminateProcess_currentProcess {closed : List Nat} (h : k.endsCurrent pid closed = none)
    (ht : k.terminateProcess pid closed = some t) : t.currentProcess = k.currentProcess := by
  unfold terminateProcess at ht
  split at ht
  · rw [Option.some.inj ht]
  next u hu =>
      have hundisturbed : Undisturbed (fun _ ↦ True) k u :=
        .terminate (fun _ ↦ trivial) (fun _ ↦ trivial) (fun _ _ ↦ trivial) hu
      rw [endsCurrent, hu] at h
      split at ht
      next hcur => exact absurd (decide_eq_true hcur) (Option.filter_eq_none_iff.mp h u rfl)
      · rw [← Option.some.inj ht, hundisturbed.currentProcess]

/-- A `semWait` that does not call the scheduler has taken a token. -/
theorem sleeps_eq_none {c : Cont} (h : k.sleeps id cur c = none) :
    ∃ v, k.wait id = (v, false) := by
  unfold sleeps at h
  split at h
  · cases h
  next v hwait => exact ⟨v, hwait⟩

/-- What is not done leaves the CPU to the running process. -/
theorem getD_currentProcess {o : Option Kernel}
    (h : ∀ t, o = some t → t.currentProcess = k.currentProcess) :
    (o.getD k).currentProcess = k.currentProcess := by
  cases o with
  | none => rfl
  | some t => exact h t rfl

/-- An event that does not call the scheduler leaves the CPU to the running process. -/
theorem calls_eq_none (h : e.calls k = none) (ht : k.step e = some t) :
    t.currentProcess = k.currentProcess := by
  cases e with
  | tick => cases h
  | enableScheduler | heap _ | semOpen _ =>
      obtain rfl := Option.some.inj ht
      rfl
  | create =>
      obtain ⟨c, -, hcreate⟩ := Option.bind_eq_some_iff.mp ht
      rw [sysCreateProcess_eq_some hcreate]
      refine getD_currentProcess fun t ht ↦ ?_
      rcases startNewProcess_cases 1 k with hnone | ⟨pid, -, heq⟩
      · cases hnone.symm.trans ht
      · obtain rfl := Option.some.inj (heq.symm.trans ht)
        exact (SameCore.registered k pid).currentProcess
  | exit closed =>
      obtain ⟨c, hcaller, hexit⟩ := Option.bind_eq_some_iff.mp ht
      rw [Event.calls, hcaller] at h
      exact terminateProcess_currentProcess (k := k.setCont c.1 .exited) h hexit
  | kill pid closed =>
      obtain ⟨c, hcaller, hkill⟩ := Option.bind_eq_some_iff.mp ht
      rw [Event.calls, hcaller] at h
      exact terminateProcess_currentProcess h hkill
  | ctrlC pid closed =>
      simp only [step] at ht
      split at ht
      · cases ht
      rw [← Option.some.inj ht]
      have hundisturbed : Undisturbed (fun _ ↦ True) k (k.killFromIsr pid closed) :=
        .killFromIsr (fun _ ↦ trivial) (fun _ ↦ trivial) fun _ _ ↦ trivial
      exact hundisturbed.currentProcess
  | block pid =>
      obtain ⟨c, -, rfl⟩ := Option.map_eq_some_iff.mp ht
      refine getD_currentProcess fun t ht ↦ ?_
      obtain ⟨-, p, -, ⟨-, rfl⟩ | ⟨-, rfl⟩⟩ := setBlocked_eq_some ht
      · rfl
      · rfl
  | unblock pid =>
      obtain ⟨c, -, rfl⟩ := Option.map_eq_some_iff.mp ht
      refine getD_currentProcess fun t ht ↦ ?_
      obtain ⟨-, p, -, -, rfl⟩ := sysUnblock_eq_some ht
      rfl
  | yield =>
      obtain ⟨c, hcaller, -⟩ := Option.bind_eq_some_iff.mp ht
      rw [Event.calls, hcaller] at h
      cases h
  | nice pid priority =>
      obtain ⟨c, -, rfl⟩ := Option.map_eq_some_iff.mp ht
      refine getD_currentProcess fun t ht ↦ ?_
      obtain ⟨-, rfl⟩ := setPriorityOnPID_eq_some ht
      rfl
  | foreground pid =>
      obtain ⟨c, -, rfl⟩ := Option.map_eq_some_iff.mp ht
      refine getD_currentProcess fun t ht ↦ ?_
      obtain ⟨-, rfl⟩ := addToFG_eq_some ht
      rfl
  | waitPid pid =>
      obtain ⟨c, hcaller, hwait⟩ := Option.bind_eq_some_iff.mp ht
      rw [Event.calls, hcaller] at h
      replace h : (if invalidPID pid then none else (k.processTable pid).bind fun p ↦
        k.sleeps (.terminated p.inst) c.1 (.waitPid pid p.inst (k.parentOf p))) = none := h
      unfold wait_pid at hwait
      split at hwait
      · rw [Option.some.inj hwait]
      next hvalid =>
      split at hwait
      · rw [Option.some.inj hwait]
      next p hp =>
      rw [if_neg hvalid, hp] at h
      obtain ⟨v, hv⟩ := sleeps_eq_none h
      have hcur := wait_currentProcess k (.terminated p.inst)
      simp only [hv] at hwait hcur
      have hundisturbed : Undisturbed (fun _ ↦ True) v t :=
        .afterTerminated (fun _ ↦ trivial) hwait
      rw [hundisturbed.currentProcess, hcur]
  | reapZombies =>
      obtain ⟨c, -, hreap⟩ := Option.bind_eq_some_iff.mp ht
      have hundisturbed : Undisturbed (fun _ ↦ True) k t := .reapLoop (fun _ ↦ trivial) _ hreap
      exact hundisturbed.currentProcess
  | waitAny =>
      obtain ⟨c, hcaller, hwait⟩ := Option.bind_eq_some_iff.mp ht
      rw [Event.calls, hcaller] at h
      obtain ⟨v, hv⟩ := sleeps_eq_none h
      have hcur := wait_currentProcess k (.childTerminated c.2.inst)
      simp only [wait_any, hv] at hwait hcur
      rw [← Option.some.inj hwait]
      exact hcur
  | semWait n =>
      obtain ⟨c, hcaller, hwait⟩ := Option.bind_eq_some_iff.mp ht
      rw [Event.calls, hcaller] at h
      replace h : (if n < k.nextSem then k.sleeps (.user n) c.1 (.semWait n) else none) = none := h
      split at hwait
      next hn =>
          rw [if_pos hn] at h
          obtain ⟨v, hv⟩ := sleeps_eq_none h
          have hcur := wait_currentProcess k (.user n)
          simp only [sysSemWait, hv] at hwait hcur
          rw [← Option.some.inj hwait]
          exact hcur
      · cases hwait
  | semPost n =>
      simp only [step] at ht
      split at ht
      · rw [← Option.some.inj ht, post_currentProcess]
      · cases ht
  | semTryWait n =>
      simp only [step] at ht
      split at ht
      · rw [← Option.some.inj ht]
        rcases tryWait_cases k (.user n) with ⟨-, heq⟩ | ⟨-, heq⟩ <;> rw [heq]
        rfl
      · cases ht
  | resume =>
      obtain ⟨c, -, hresume⟩ := Option.bind_eq_some_iff.mp ht
      have hundisturbed : Undisturbed (fun _ ↦ True) k t := .resume (fun _ ↦ trivial) hresume
      exact hundisturbed.currentProcess

/-- **Only a poll changes `currentProcess`.** -/
theorem polls_eq_none (h : e.polls k = none) (ht : k.step e = some t) :
    t.currentProcess = k.currentProcess := by
  cases hcalls : e.calls k with
  | none => exact calls_eq_none hcalls ht
  | some s =>
      rw [Event.polls, hcalls] at h
      rw [step_of_calls hcalls] at ht
      exact (schedule_of_not_polled h ht).1.trans (calls_currentProcess hcalls)

/-! ## What a dispatch leaves -/

/-- The dispatched process leaves the queue. -/
theorem dispatch_tail (h : u.dispatch = some t) : t.readyQueue = u.readyQueue.tail ∧
    t.stateOf u.getNextPID.1 = some .RUNNING ∧
    ∀ q, q ≠ u.getNextPID.1 → t.stateOf q = u.stateOf q := by
  obtain ⟨next, p, rest, hnext, hp, rfl⟩ := dispatch_cases h
  have hfirst : u.getNextPID.1 = next ∧ u.readyQueue.tail = rest := by
    unfold getNextPID
    rcases hnext with hqueue | ⟨hqueue, rfl, rfl⟩
    · rw [hqueue]
      exact ⟨rfl, rfl⟩
    · rw [hqueue]
      exact ⟨rfl, rfl⟩
  rw [hfirst.1, hfirst.2]
  refine ⟨rfl, ?_, fun q hq ↦ ?_⟩
  · change ((u.modify next _).processTable next).map ProcessCDT.state = _
    rw [modify_self, hp]
    rfl
  · exact congrArg (Option.map ProcessCDT.state) (modify_other _ _ hq)

/-- If nobody waits behind the idle process, nobody else is `READY`. -/
theorem QueuedInv.idleAlone (h : QueuedInv t) (ht : u.dispatch = some t)
    (hidle : u.getNextPID.1 = IDLE_PID) (htail : u.readyQueue.tail = []) : u.IdleAlone := by
  intro q hq hready
  obtain ⟨hqueue, -, hother⟩ := dispatch_tail ht
  rw [← hother q (by rwa [hidle])] at hready
  obtain ⟨p, hp, hstate⟩ := Option.map_eq_some_iff.mp hready
  have hmem := h.queued q p hp hstate
  rw [hqueue, htail] at hmem
  cases hmem

/-- In a queue that is exact, whoever waits is `READY`. -/
theorem ReadyInv.tail_eq_nil (h : ReadyInv t) (ht : u.dispatch = some t)
    (hidle : u.getNextPID.1 = IDLE_PID) (halone : u.IdleAlone) : u.readyQueue.tail = [] := by
  obtain ⟨hqueue, hrunning, hother⟩ := dispatch_tail ht
  rw [hidle] at hrunning hother
  rw [List.eq_nil_iff_forall_not_mem, ← hqueue]
  intro q hmem
  have hready : t.stateOf q = some .READY := by
    by_contra hnot
    have hcount := h.count q
    rw [if_neg hnot] at hcount
    exact List.count_eq_zero.mp hcount hmem
  by_cases hq : q = IDLE_PID
  · rw [hq, hrunning] at hready
    cases hready
  · exact halone q hq (hother q hq ▸ hready)

/-- **The idle process runs when nothing else can**, if and only if nobody waits behind it in
the ready queue.  That this is enough holds in every run in which the heap has room for the
nodes of the queues; that it is needed, as long as the queue is exact. -/
theorem idleAlone_iff (h : Reach step (fun _ e ↦ e.KeepsNodes) initializeScheduler k)
    (hok : e.KeepsNodes) (hu : e.polls k = some u) (ht : k.step e = some t)
    (hidle : u.getNextPID.1 = IDLE_PID) :
    (u.readyQueue.tail = [] → u.IdleAlone) ∧
      (Reach step (fun k e ↦ e.Schedules k ∧ e.BlocksRunning k) initializeScheduler k →
        e.Schedules k → e.BlocksRunning k → u.IdleAlone → u.readyQueue.tail = []) := by
  have hdispatch : u.dispatch = some t := (step_of_polls hu).symm.trans ht
  constructor
  · intro htail
    have hqueued : QueuedInv k :=
      h.invariant queuedInv_init fun _ _ _ hv hok hw ↦ queuedRule.step hv hok hw
    exact (queuedRule.step hqueued hok ht).idleAlone hdispatch hidle htail
  · intro hexact hschedules hblocks halone
    have hready : ReadyInv k :=
      hexact.invariant readyInv_init fun _ _ _ hv hok hw ↦ readyRule.step hv hok hw
    exact (readyRule.step hready ⟨hschedules, hblocks⟩ ht).tail_eq_nil hdispatch hidle halone

/-- The shell waits for a semaphore, and only the idle process is left. -/
theorem idleAlone_iff_wait : ∃ u : Kernel, u.readyQueue = [IDLE_PID] ∧ u.IdleAlone := by
  let es : List Event := bootEvents ++ [.semOpen 0]
  have hobs : (run step initializeScheduler es).map (fun k ↦
      ((Event.semWait 0).polls k).map fun u ↦ (u.readyQueue, u.getNextPID.1)) =
        some (some ([IDLE_PID], IDLE_PID)) := by decide +kernel
  have hstep : (run step initializeScheduler es).map (fun k ↦ (k.step (.semWait 0)).isSome) =
      some true := by decide +kernel
  have hguard : Guarded step (fun _ e ↦ e.KeepsNodes) initializeScheduler es := by decide +kernel
  obtain ⟨k, hrun, hobs⟩ := Option.map_eq_some_iff.mp hobs
  obtain ⟨u, hu, hobs⟩ := Option.map_eq_some_iff.mp hobs
  obtain ⟨hqueue, hidle⟩ := Prod.mk.inj hobs
  rw [hrun] at hstep
  obtain ⟨t, ht⟩ := Option.isSome_iff_exists.mp (Option.some.inj hstep)
  refine ⟨u, hqueue, (idleAlone_iff (.of_run hrun hguard) ?_ hu ht hidle).1 ?_⟩
  · exact trivial
  · rw [hqueue]
    rfl

/-- The quantum of the shell ends: the idle process is next, and the shell and the process
that it has created wait behind it. -/
theorem idle_not_alone : ¬∀ k : Kernel, Reach step (fun _ _ ↦ True) initializeScheduler k →
    ∀ e t u, Event.polls k e = some u → k.step e = some t → u.getNextPID.1 = IDLE_PID →
      u.IdleAlone := by
  intro hclaim
  let es : List Event := bootEvents ++ [.create]
  have hobs : (run step initializeScheduler es).map (fun k ↦
      (Event.tick.polls k).map fun u ↦ (u.getNextPID.1, u.stateOf 3)) =
        some (some (IDLE_PID, some .READY)) := by decide +kernel
  have hstep : (run step initializeScheduler es).map (fun k ↦ (k.step .tick).isSome) =
      some true := by decide +kernel
  obtain ⟨k, hrun, hobs⟩ := Option.map_eq_some_iff.mp hobs
  obtain ⟨u, hu, hobs⟩ := Option.map_eq_some_iff.mp hobs
  obtain ⟨hidle, hready⟩ := Prod.mk.inj hobs
  rw [hrun] at hstep
  obtain ⟨t, ht⟩ := Option.isSome_iff_exists.mp (Option.some.inj hstep)
  exact hclaim k (.of_run hrun (.of_true _ _)) .tick t u hu ht hidle 3 (by decide) hready

/-! ## The first dispatch -/

/-- Nothing has been dispatched yet: the idle process is in front of `init`. -/
structure Fresh (k : Kernel) : Prop where
  queue : k.readyQueue = [IDLE_PID, INIT_PID]
  ready : k.stateOf INIT_PID = some .READY
  foreground : ∀ q, k.foregroundSet q = false
  unblocked : ∀ id, (k.sems id).sem.blockedQueue = []

theorem caller_eq_none (h : k.currentProcess = none) :
    k.current = none ∧ k.caller = none ∧ k.initCaller = none := by
  have hcur : k.current = none := by rw [current, h]
  exact ⟨hcur, by rw [caller, hcur]; rfl, by rw [initCaller, hcur]; rfl⟩

theorem dispatch_currentProcess (h : u.dispatch = some t) : t.currentProcess ≠ none := by
  obtain ⟨_, _, _, -, -, rfl⟩ := dispatch_cases h
  exact Option.some_ne_none _

namespace Fresh

theorem congr (h : Fresh k) (hqueue : t.readyQueue = k.readyQueue)
    (htable : t.processTable = k.processTable) (hfg : t.foregroundSet = k.foregroundSet)
    (hsems : ∀ id, (t.sems id).sem.blockedQueue = []) : Fresh t :=
  ⟨hqueue ▸ h.queue, by rw [stateOf, htable]; exact h.ready, hfg ▸ h.foreground, hsems⟩

/-- A semaphore changes, and nobody waits for it. -/
theorem setSem (h : Fresh k) {r : SemRec} (hr : r.sem.blockedQueue = []) :
    Fresh (k.setSem id r) := by
  refine h.congr rfl rfl rfl fun j ↦ ?_
  by_cases hj : j = id
  · rw [hj, setSem_self]
    exact hr
  · rw [setSem_other _ _ _ hj]
    exact h.unblocked j

/-- Nobody is there to be woken. -/
theorem post (h : Fresh k) (id : SemId) : Fresh (k.post id) := by
  rcases post_cases k id with ⟨dead, rest, hqueue, -, -, heq⟩ | ⟨dead, pid, rest, _, hqueue, -⟩
  · rw [h.unblocked id] at hqueue
    obtain ⟨-, hrest⟩ := List.append_eq_nil_iff.mp hqueue.symm
    rw [heq]
    refine h.congr rfl rfl rfl fun j ↦ ?_
    by_cases hj : j = id
    · rw [hj, posted_self]
      exact hrest
    · rw [posted_other _ _ _ _ _ hj]
      exact h.unblocked j
  · rw [h.unblocked id] at hqueue
    simp at hqueue

/-- As long as nothing runs, only the heap and the semaphores change. -/
theorem step (h : Fresh k) (hnone : k.currentProcess = none) (ht : k.step e = some t)
    (hnone' : t.currentProcess = none) : Fresh t := by
  obtain ⟨hcur, hcaller, hinit⟩ := caller_eq_none hnone
  cases e with
  | tick =>
      change k.schedule = some t at ht
      cases hpolled : k.polled with
      | none =>
          rcases schedule_cases ht with ⟨-, rfl⟩ | ⟨-, ⟨_, _, hcur', -⟩ | ⟨_, _, hcur', -⟩ |
            ⟨-, hdispatch⟩⟩
          · exact h
          · cases hcur.symm.trans hcur'
          · cases hcur.symm.trans hcur'
          · exact absurd hnone' (dispatch_currentProcess hdispatch)
      | some u =>
          rw [schedule_of_polled hpolled] at ht
          exact absurd hnone' (dispatch_currentProcess ht)
  | enableScheduler | heap _ =>
      obtain rfl := Option.some.inj ht
      exact h.congr rfl rfl rfl h.unblocked
  | ctrlC pid closed =>
      rw [Kernel.step, if_pos (.inr (by simp [h.foreground pid]))] at ht
      cases ht
  | semOpen value =>
      obtain rfl := Option.some.inj ht
      have hnew : Fresh (k.setSem (.user k.nextSem) (.new value)) := h.setSem rfl
      exact hnew.congr rfl rfl rfl hnew.unblocked
  | semPost n =>
      simp only [Kernel.step] at ht
      split at ht
      · exact Option.some.inj ht ▸ h.post _
      · cases ht
  | semTryWait n =>
      simp only [Kernel.step] at ht
      split at ht
      · rw [← Option.some.inj ht]
        rcases tryWait_cases k (.user n) with ⟨-, heq⟩ | ⟨-, heq⟩
        · rw [heq]
          exact h.setSem (h.unblocked _)
        · rw [heq]
          exact h
      · cases ht
  | waitAny =>
      rw [Kernel.step, hinit] at ht
      cases ht
  | resume =>
      rw [Kernel.step, hcur] at ht
      cases ht
  | create =>
      rw [Kernel.step, hcaller, hinit] at ht
      cases ht
  | _ =>
      rw [Kernel.step, hcaller] at ht
      cases ht

end Fresh

/-- **The first dispatch of every run** takes the idle process, while `init` is `READY`. -/
theorem first_dispatch (h : Reach step (fun _ _ ↦ True) initializeScheduler k)
    (hnone : k.currentProcess = none) (hu : e.polls k = some u) :
    u.getNextPID.1 = IDLE_PID ∧ ¬u.IdleAlone := by
  have hfresh : k.currentProcess = none → k.Fresh := by
    refine h.invariant (I := fun k ↦ k.currentProcess = none → k.Fresh) (fun _ ↦ ?_)
      fun s e t hs _ ht hnone ↦ ?_
    · exact ⟨rfl, rfl, fun _ ↦ rfl, fun _ ↦ rfl⟩
    · cases hpolls : Event.polls s e with
      | none =>
          have hbefore : s.currentProcess = none := by rw [← polls_eq_none hpolls ht, hnone]
          exact (hs hbefore).step hbefore ht hnone
      | some v =>
          rw [step_of_polls hpolls] at ht
          exact absurd hnone (dispatch_currentProcess ht)
  obtain ⟨hcur, hcaller, hinit⟩ := caller_eq_none hnone
  have htick : k.polled = some u := by
    obtain ⟨s, hcalls, hpolled⟩ := Option.bind_eq_some_iff.mp hu
    cases e with
    | tick =>
        obtain rfl := Option.some.inj hcalls
        exact hpolled
    | waitAny =>
        rw [Event.calls, hinit] at hcalls
        cases hcalls
    | _ =>
        simp only [Event.calls, hcaller] at hcalls
        cases hcalls
  have hsame : k = u := by
    unfold polled at htick
    split at htick
    · cases htick
    · exact Option.some.inj htick
  obtain rfl := hsame
  refine ⟨by rw [getNextPID, (hfresh hnone).queue], fun halone ↦ ?_⟩
  exact halone INIT_PID (by decide) (hfresh hnone).ready

end BareBones.Process.Kernel
