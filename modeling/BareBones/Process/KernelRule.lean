import BareBones.Process.StepRule

/-!
# An induction rule for properties of the core

The family of a process, its quantum and the foreground set do not matter for properties of
states, queues and semaphores.  `CoreRule ok I` lists what there is to show of an invariant
`I` of such properties: its updates are smaller than those of `StepRule`, since nothing has
to be restored in between, and `CoreRule.stepRule` composes the one from the other.
**An invariant of the core that every update keeps is kept by every event that meets the
guard `ok`.**
-/

namespace BareBones.Process

open BareBones.Lib BareBones.Semaphores

namespace Kernel

variable {k s t : Kernel} {e : Event} {pid cur : Int} {p : ProcessCDT} {id : SemId}

/-- What there is to show of an invariant that terminating and reaping keep. -/
structure MoveRule (ok : Kernel → Event → Prop) (I : Kernel → Prop) : Prop where
  frame : ∀ {s t}, I s → SameCore s t → I t
  /-- A post of anything but the `terminated` of a process. -/
  post : ∀ {s} id, I s → (∀ inst, id ≠ .terminated inst) → I (s.post id)
  take : ∀ {s} id, I s → 0 < (s.sems id).sem.value → I (s.take id)
  /-- The first half of `notifyTermination`. -/
  zombify : ∀ {k s e pid p p' parent}, I s → ok k e → e.terminates k = some pid →
    ¬isUnkillable pid → k.processTable pid = some p → s.processTable pid = some p' →
    p'.inst = p.inst → (p'.Live ↔ p.Live) →
    I ((s.zombify pid p.inst parent).post (.terminated p.inst))
  free : ∀ {k s e pid p expected}, I s → ok k e → e.Reaps k → s.processTable pid = some p →
    I (s.freed pid p expected)

namespace MoveRule

variable {ok : Kernel → Event → Prop} {I : Kernel → Prop}

/-! ### Termination -/

theorem transferOrphan (rule : MoveRule ok I) (h : I s) (initProc : Nat) (childPid : Int) :
    I (s.transferOrphan initProc childPid) := by
  unfold Kernel.transferOrphan
  split
  · exact h
  split
  · exact h
  next child hchild =>
      have hadopted : I ((s.addChild INIT_PID childPid).modify childPid fun p ↦
          { p with ppid := INIT_PID }) := by
        refine rule.frame (rule.frame h (.modify ?_ _ _)) (.modify ?_ _ _)
        · exact fun _ ↦ rfl
        · exact fun _ ↦ rfl
      dsimp only
      split
      · refine rule.post _ (rule.frame hadopted (.modify ?_ _ _)) (by simp)
        exact fun _ ↦ rfl
      · exact hadopted

theorem transferOrphanChildren (rule : MoveRule ok I) (h : I s) (pid : Int) :
    I (s.transferOrphanChildren pid) := by
  have hloop : ∀ (queue : List Int) (s : Kernel) (initProc : Nat), I s →
      I (queue.foldl (Kernel.transferOrphan initProc) s) := by
    intro queue
    induction queue with
    | nil => exact fun _ _ h ↦ h
    | cons childPid queue ih =>
        exact fun s initProc h ↦ ih _ _ (rule.transferOrphan h initProc childPid)
  unfold Kernel.transferOrphanChildren
  split
  · refine rule.frame (hloop _ _ _ h) (.modify ?_ _ _)
    exact fun _ ↦ rfl
  · exact h

theorem terminate (rule : MoveRule ok I) {process parent : ProcessCDT} (h : I s) (hok : ok k e)
    (hpid : e.terminates k = some pid) (hkillable : ¬isUnkillable pid)
    (hp : k.processTable pid = some p) (hprocess : s.processTable pid = some process)
    (hinst : process.inst = p.inst) (hlive : process.Live ↔ p.Live) (ppid : Int) :
    I ((s.notifyTermination process parent ppid pid).transferOrphanChildren pid) := by
  refine rule.transferOrphanChildren ?_ pid
  refine rule.frame (rule.post _ ?_ (by simp)) (.notify process parent ppid pid)
  rw [hinst]
  exact rule.zombify h hok hpid hkillable hp hprocess hinst hlive

/-! ### Waiting and reaping -/

theorem reapProcess (rule : MoveRule ok I) (h : I s) (hok : ok k e) (hreaps : e.Reaps k)
    (pid : Int) (expected : Option Nat) : I (s.reapProcess pid expected) := by
  rcases reapProcess_cases s pid expected with ⟨-, heq⟩ | ⟨p, -, hp, heq⟩
  · rwa [heq]
  · rw [heq]
    exact rule.free h hok hreaps hp

theorem tryWait (rule : MoveRule ok I) (h : I s) (id : SemId) : I (s.tryWait id).1 := by
  rcases tryWait_cases s id with ⟨hpos, heq⟩ | ⟨-, heq⟩
  · rw [heq]
    exact rule.take id h hpos
  · rwa [heq]

theorem afterTerminated (rule : MoveRule ok I) (h : I s) (hok : ok k e) (hreaps : e.Reaps k)
    {inst : Nat} {parent : Option (Int × Nat)}
    (ht : s.afterTerminated pid inst parent = some t) : I t := by
  unfold Kernel.afterTerminated at ht
  split at ht
  · rw [← Option.some.inj ht]
    exact rule.reapProcess h hok hreaps _ _
  next ppid pinst =>
      split at ht
      · cases ht
      split at ht
      · cases ht
      rw [← Option.some.inj ht]
      refine rule.reapProcess (rule.frame (rule.frame (rule.tryWait h _) (.modify ?_ _ _))
        (.modify ?_ _ _)) hok hreaps _ _
      · exact fun _ ↦ rfl
      · exact fun _ ↦ rfl

theorem pollAndReap (rule : MoveRule ok I) (h : I s) (hok : ok k e) (hreaps : e.Reaps k)
    (cur : Int) (p : ProcessCDT) : I (s.pollAndReap cur p) := by
  have hpoll : I (s.pollTerminatedChildren cur p).2 :=
    rule.frame h (.pollTerminatedChildren s cur p)
  unfold Kernel.pollAndReap
  dsimp only
  split
  · exact hpoll
  · refine rule.reapProcess (rule.frame hpoll (.modify ?_ _ _)) hok hreaps _ _
    exact fun _ ↦ rfl

end MoveRule

/-- What there is to show of an invariant of the core. -/
structure CoreRule (ok : Kernel → Event → Prop) (I : Kernel → Prop)
    (J : Kernel → Prop := I) : Prop where
  /-- What holds in the course of an event is enough for its end. -/
  weaken : ∀ {s}, I s → J s := by exact fun h ↦ h
  frame : ∀ {s t}, I s → SameCore s t → I t
  /-- A post of anything but the `terminated` of a process. -/
  post : ∀ {s} id, I s → (∀ inst, id ≠ .terminated inst) → I (s.post id)
  take : ∀ {s} id, I s → 0 < (s.sems id).sem.value → I (s.take id)
  semOpen : ∀ {s} value, I s →
    I { s.setSem (.user s.nextSem) (.new value) with nextSem := s.nextSem + 1 }
  heap : ∀ {s} nodes, I s → ok s (.heap nodes) → I { s with nodes := nodes }
  /-- `sys_block`. -/
  setBlocked : ∀ {s t pid p}, I s → ok s (.block pid) → ¬isUnkillable pid →
    s.processTable pid = some p →
    (p.state = .RUNNING ∧ t = s.setState pid .BLOCKED ∨ p.state = .READY ∧
      t = { s with readyQueue := s.readyQueue.filter (· ≠ pid) }.setState pid .BLOCKED) → J t
  /-- `sys_unblock`. -/
  unblock : ∀ {s pid p}, I s → ok s (.unblock pid) → ¬isUnkillable pid →
    s.processTable pid = some p → p.state = .BLOCKED → I (s.wake pid)
  /-- The running process calls `sys_exit`. -/
  exit : ∀ {s cur p}, I s → s.current = some (cur, p) → p.cont = .user → 2 ≤ p.inst →
    I (s.setCont cur .exited)
  /-- `init` goes on after a `semWait` that did not block. -/
  waited : ∀ {k s cur p}, I s → ok k .waitAny → s.current = some (cur, p) → p.cont = .user →
    p.inst = 1 → I (s.setCont cur .polling)
  /-- `init` leaves `wait_any`. -/
  polled : ∀ {s cur p}, I s → ok s .resume → s.current = some (cur, p) → p.cont = .polling →
    I (s.setCont cur .user)
  /-- The running process returns from the `semWait` it was blocked in. -/
  returned : ∀ {s cur p id c}, I s → ok s .resume → s.current = some (cur, p) →
    p.waitsOn = some id → c = .user ∨ p.cont = .waitAny ∧ c = .polling →
    I ((s.returnFrom id cur).setCont cur c)
  /-- The running process blocks, and the scheduler is called. -/
  block : ∀ {s t e cur p id c}, I s → ok s e → e.Waits s id c → s.current = some (cur, p) →
    p.cont = .user → (2 ≤ p.inst ∨ p.inst = 1 ∧ c = .waitAny) → (s.sems id).sem.value ≤ 0 →
    (s.blockOn id cur c).schedule = some t → J t
  /-- The running process is preempted. -/
  preempt : ∀ {s cur p}, I s → s.current = some (cur, p) → p.state = .RUNNING → I (s.wake cur)
  dispatch : ∀ {s t}, I s → s.schedulerEnabled = true →
    (∀ cur p, s.current = some (cur, p) → p.state ≠ .RUNNING) → s.dispatch = some t → J t
  /-- The first half of `notifyTermination`. -/
  zombify : ∀ {k s e pid p p' parent}, I s → ok k e → e.terminates k = some pid →
    ¬isUnkillable pid → k.processTable pid = some p → s.processTable pid = some p' →
    p'.inst = p.inst → (p'.Live ↔ p.Live) →
    I ((s.zombify pid p.inst parent).post (.terminated p.inst))
  free : ∀ {k s e pid p expected}, I s → ok k e → e.Reaps k → s.processTable pid = some p →
    I (s.freed pid p expected)
  start : ∀ {k s pid ppid}, I s → ok k .create → SameCore k s → k.findFreePid = some pid →
    I (s.started 1 pid ppid)

namespace CoreRule

variable {ok : Kernel → Event → Prop} {I J : Kernel → Prop}

theorem wake_current (h : s.current = some (cur, p)) :
    (s.wake cur).current = some (cur, { p with state := .READY }) := by
  rw [current_eq_some] at h ⊢
  exact ⟨h.1, by rw [wake_self, h.2, Option.map_some]⟩

/-- What preemption and dispatch keep, the scheduler keeps. -/
theorem schedule_induction (weaken : ∀ {s}, I s → J s)
    (frame : ∀ {s t}, I s → SameCore s t → I t)
    (preempt : ∀ {s cur p}, I s → s.current = some (cur, p) → p.state = .RUNNING → I (s.wake cur))
    (dispatch : ∀ {s t}, I s → s.schedulerEnabled = true →
      (∀ cur p, s.current = some (cur, p) → p.state ≠ .RUNNING) → s.dispatch = some t → J t)
    (h : I s) (ht : s.schedule = some t) : J t := by
  rcases schedule_cases ht with ⟨-, rfl⟩ | ⟨hon, ⟨cur, p, hcur, -, -, rfl⟩ |
    ⟨cur, p, hcur, hrun, -, hdispatch⟩ | ⟨hcur, hdispatch⟩⟩
  · exact weaken h
  · refine weaken (frame h (.modify ?_ _ _))
    exact fun _ ↦ rfl
  · refine dispatch (preempt h hcur hrun) hon (fun cur' p' hcur' ↦ ?_) hdispatch
    rw [wake_current hcur] at hcur'
    cases hcur'
    simp
  · refine dispatch h hon (fun cur' p' hcur' ↦ ?_) hdispatch
    rcases hcur with hnone | ⟨cur, p, hcur, hrun⟩
    · rw [(current_eq_some.mp hcur').1] at hnone
      cases hnone
    · cases hcur.symm.trans hcur'
      exact hrun

theorem schedule (rule : CoreRule ok I J) (h : I s) (ht : s.schedule = some t) : J t :=
  schedule_induction rule.weaken rule.frame rule.preempt rule.dispatch h ht

/-! ### The rule -/

/-- An invariant of the core is kept by terminating and reaping. -/
theorem moveRule (rule : CoreRule ok I J) : MoveRule ok I where
  frame := rule.frame
  post := rule.post
  take := rule.take
  zombify := rule.zombify
  free := rule.free

theorem completes_reaps {inst : Nat} {parent : Option (Int × Nat)}
    (h : e.Completes k s pid inst parent) : e.Reaps k := by
  cases h with
  | immediate hvalid hp hpos => exact ⟨_, hp, hpos⟩
  | resumed hcur hcont => exact ⟨_, hcur, by rw [hcont]; rfl⟩

/-- The updates of the kernel are composed of updates of the core. -/
theorem stepRule (rule : CoreRule ok I J) : StepRule ok I J where
  weaken := rule.weaken
  frame h hsame _ := rule.frame h hsame
  schedule h ht := rule.schedule h ht
  post n h := rule.post _ h (by simp)
  take id h _ hpos := rule.take id h hpos
  semOpen value h := rule.semOpen value h
  heap nodes h hok := rule.heap nodes h hok
  setBlocked h hok hkillable hp ht := rule.setBlocked h hok hkillable hp ht
  unblock h hok hkillable hp hblocked := rule.unblock h hok hkillable hp hblocked
  exit h hcur hcont hinst := rule.exit h hcur hcont hinst
  waited h hok hcur hcont hinst hpos := rule.waited (rule.take _ h hpos) hok hcur hcont hinst
  returned h hok hcur hid hc := by
    refine rule.returned h hok hcur hid ?_
    rcases hc with ⟨hc, -⟩ | ⟨hc, hcont⟩
    · exact .inl hc
    · exact .inr ⟨hcont, hc⟩
  block h hok hwaits hcur hcont hinst hle ht := rule.block h hok hwaits hcur hcont hinst hle ht
  terminate h hok hpid hkillable hp hprocess hinst hlive _ _ _ :=
    rule.moveRule.terminate h hok hpid hkillable hp hprocess hinst hlive _
  afterTerminated h hok hcompletes ht :=
    rule.moveRule.afterTerminated h hok (completes_reaps hcompletes) ht
  polled h hok hcur hcont :=
    rule.moveRule.pollAndReap (rule.polled h hok hcur hcont) hok ⟨_, hcur, by rw [hcont]; rfl⟩ _ _
  reapRound h hok _ _ _ _ _ hpos := rule.moveRule.pollAndReap (rule.take _ h hpos) hok trivial _ _
  start {s} {_} {_} {pid} h hok _ _ hfree := by
    have hsame := SameCore.registered s pid
    exact rule.start (rule.frame h hsame) hok hsame hfree

/-- **The induction rule.**  An invariant of the core that every update keeps is kept by
every event that meets the guard. -/
theorem step (rule : CoreRule ok I J) (h : I k) (hok : ok k e) (ht : k.step e = some t) : J t :=
  rule.stepRule.step h hok ht

end CoreRule

end Kernel

end BareBones.Process
