import BareBones.Process.KernelOps

/-!
# What the events of the kernel are composed of

Most events are composed of the same few updates: a post of a semaphore that user processes
share, a token that is taken, a call of the scheduler, a process that blocks, is woken,
terminated, reaped or created.  `StepRule ok I` lists what there is to show of an invariant
`I`, one obligation for each of these updates, and `StepRule.step` decomposes every event
once: **an invariant that every update keeps is kept by every event that meets the guard
`ok`.**

An update is as large as the code that restores what it breaks: the termination of a
process includes the transfer of its children, and a process is freed together with its
entries in the queues of its parent.

An obligation about an update names the event `e` and the state `k` in which the event
found the kernel where a guard may speak of them; `s` is the state that the update finds.

A call of the scheduler is the last thing that an event does, and so is `sys_block`.  What is
to hold afterwards may be a weaker property `J`, for properties that speak of one event.
-/

namespace BareBones.Process

open BareBones.Lib BareBones.Semaphores

/-- What the core of the state has of a process. -/
def ProcessCDT.core (p : ProcessCDT) : Nat × State × Cont := (p.inst, p.state, p.cont)

/-- What a process has of its family. -/
def ProcessCDT.kin (p : ProcessCDT) : Int × List Int × List Int :=
  (p.ppid, p.children, p.terminatedChildren)

/-- A process that goes on from here may free a process. -/
def Cont.reaps : Cont → Bool
  | .waitPid .. | .polling => true
  | .user | .semWait _ | .waitAny | .exited => false

namespace Kernel

variable {k s t : Kernel} {e : Event} {pid cur : Int} {p : ProcessCDT} {id : SemId}

/-! ## The core of the state -/

/-- The states differ only outside the core. -/
structure SameCore (s t : Kernel) : Prop where
  table : ∀ q, (t.processTable q).map ProcessCDT.core = (s.processTable q).map ProcessCDT.core
  readyQueue : t.readyQueue = s.readyQueue
  currentProcess : t.currentProcess = s.currentProcess
  sems : t.sems = s.sems
  nodes : t.nodes = s.nodes
  nextInst : t.nextInst = s.nextInst
  nextSem : t.nextSem = s.nextSem
  posts : t.log.posts = s.log.posts
  notified : t.log.notified = s.log.notified
  enabled : s.schedulerEnabled = true → t.schedulerEnabled = true

namespace SameCore

theorem refl (s : Kernel) : SameCore s s :=
  ⟨fun _ ↦ rfl, rfl, rfl, rfl, rfl, rfl, rfl, rfl, rfl, id⟩

theorem trans {u : Kernel} (h : SameCore s t) (h' : SameCore t u) : SameCore s u where
  table q := (h'.table q).trans (h.table q)
  readyQueue := h'.readyQueue.trans h.readyQueue
  currentProcess := h'.currentProcess.trans h.currentProcess
  sems := h'.sems.trans h.sems
  nodes := h'.nodes.trans h.nodes
  nextInst := h'.nextInst.trans h.nextInst
  nextSem := h'.nextSem.trans h.nextSem
  posts := h'.posts.trans h.posts
  notified := h'.notified.trans h.notified
  enabled hon := h'.enabled (h.enabled hon)

/-- A process changes outside the core. -/
theorem modify {f : ProcessCDT → ProcessCDT} (hf : ∀ p, (f p).core = p.core) (s : Kernel)
    (pid : Int) : SameCore s (s.modify pid f) where
  table q := by
    by_cases hq : q = pid
    · subst hq
      rw [modify_self, Option.map_map]
      exact congrFun (congrArg Option.map (funext hf)) _
    · rw [modify_other _ _ hq]
  readyQueue := rfl
  currentProcess := rfl
  sems := rfl
  nodes := rfl
  nextInst := rfl
  nextSem := rfl
  posts := rfl
  notified := rfl
  enabled := id

theorem eq_some (h : SameCore s t) {q : Int} {p' : ProcessCDT} (hp' : t.processTable q = some p') :
    ∃ p, s.processTable q = some p ∧ p.inst = p'.inst ∧ p.state = p'.state ∧ p.cont = p'.cont := by
  have htable := h.table q
  rw [hp', Option.map_some] at htable
  obtain ⟨p, hp, heq⟩ := Option.map_eq_some_iff.mp htable.symm
  obtain ⟨hinst, hstate, hcont⟩ : p.inst = p'.inst ∧ p.state = p'.state ∧ p.cont = p'.cont := by
    simpa [ProcessCDT.core] using heq
  exact ⟨p, hp, hinst, hstate, hcont⟩

theorem eq_none (h : SameCore s t) {q : Int} :
    t.processTable q = none ↔ s.processTable q = none := by
  rw [← Option.map_eq_none_iff (f := ProcessCDT.core), h.table, Option.map_eq_none_iff]

theorem symm_table (h : SameCore s t) {q : Int} (hp : s.processTable q = some p) :
    ∃ p', t.processTable q = some p' ∧ p'.inst = p.inst ∧ p'.state = p.state ∧
      p'.cont = p.cont := by
  cases hq : t.processTable q with
  | none => rw [h.eq_none.mp hq] at hp; cases hp
  | some p' =>
      obtain ⟨p'', hp'', hinst, hstate, hcont⟩ := h.eq_some hq
      obtain rfl := Option.some.inj (hp.symm.trans hp'')
      exact ⟨p', rfl, hinst.symm, hstate.symm, hcont.symm⟩

theorem recordNotice (s before : Kernel) (process parent : Nat) (ppid pid : Int) :
    SameCore s (s.recordNotice before process parent ppid pid) :=
  ⟨fun _ ↦ rfl, rfl, rfl, rfl, rfl, rfl, rfl, rfl, rfl, id⟩

theorem pollTerminatedChildren (s : Kernel) (cur : Int) (p : ProcessCDT) :
    SameCore s (s.pollTerminatedChildren cur p).2 := by
  unfold Kernel.pollTerminatedChildren
  split
  · exact ⟨fun _ ↦ rfl, rfl, rfl, rfl, rfl, rfl, rfl, rfl, rfl, id⟩
  · refine .modify ?_ _ _
    exact fun _ ↦ rfl

/-- A parent gets a child. -/
theorem registered (s : Kernel) (pid : Int) : SameCore s (s.registered pid).2 := by
  unfold Kernel.registered
  split
  · split
    · refine .modify ?_ _ _
      exact fun _ ↦ rfl
    · exact .refl s
  · exact .refl s

end SameCore

/-! ## The rule -/

/-- The process that an event terminates. -/
def Event.terminates (k : Kernel) : Event → Option Int
  | .exit _ => k.currentProcess.map Prod.fst
  | .kill pid _ | .ctrlC pid _ => some pid
  | _ => none

/-- The process that an event is to block. -/
def Event.blocks : Event → Option Int
  | .block pid => some pid
  | _ => none

/-- The process that an event is to unblock. -/
def Event.unblocks : Event → Option Int
  | .unblock pid => some pid
  | _ => none

/-- The event may free a process. -/
def Event.Reaps (k : Kernel) : Event → Prop
  | .waitPid pid => ∃ p ∈ k.processTable pid, 0 < (k.sems (.terminated p.inst)).sem.value
  | .reapZombies => True
  | .resume => ∃ c ∈ k.current, c.2.cont.reaps = true
  | _ => False

instance (k : Kernel) : (e : Event) → Decidable (e.Reaps k)
  | .waitPid pid => inferInstanceAs
      (Decidable (∃ p ∈ k.processTable pid, 0 < (k.sems (.terminated p.inst)).sem.value))
  | .resume => inferInstanceAs (Decidable (∃ c ∈ k.current, c.2.cont.reaps = true))
  | .reapZombies => isTrue trivial
  | .tick | .enableScheduler | .heap _ | .create | .exit _ | .kill _ _ | .ctrlC _ _ | .block _
  | .unblock _ | .yield | .nice _ _ | .foreground _ | .waitAny | .semOpen _ | .semWait _
  | .semPost _ | .semTryWait _ => isFalse fun h ↦ h

/-- The semaphore on which an event calls `semWait`. -/
def Event.waitsFor (k : Kernel) : Event → Option SemId
  | .semWait n => some (.user n)
  | .waitPid pid => (k.processTable pid).map fun p ↦ .terminated p.inst
  | .waitAny => k.current.map fun c ↦ .childTerminated c.2.inst
  | _ => none

/-- The event calls `semWait` on `id`; a process that blocks there leaves `c` behind. -/
inductive Event.Waits (k : Kernel) : Event → SemId → Cont → Prop
  | semWait (n : Nat) (hn : n < k.nextSem) : Waits k (.semWait n) (.user n) (.semWait n)
  | waitPid {p : ProcessCDT} {pid : Int} (hp : k.processTable pid = some p)
      (hvalid : ¬invalidPID pid) (parent : Option (Int × Nat)) :
      Waits k (.waitPid pid) (.terminated p.inst) (.waitPid pid p.inst parent)
  | waitAny {cur : Int} {p : ProcessCDT} (hcur : k.current = some (cur, p)) :
      Waits k .waitAny (.childTerminated p.inst) .waitAny

theorem Event.Waits.waitsFor {c : Cont} (h : e.Waits k id c) : id ∈ e.waitsFor k := by
  cases h with
  | semWait n hn => rfl
  | waitPid hp _ _ => simp [Event.waitsFor, hp]
  | waitAny hcur => simp [Event.waitsFor, hcur]

/-- The process in the slot is marked as dead and leaves the ready queue. -/
def zombify (k : Kernel) (pid : Int) (inst parent : Nat) : Kernel :=
  { k.setState pid .ZOMBIE with
    readyQueue := k.readyQueue.filter (· ≠ pid)
    log := { k.log with notified := k.log.notified ++ [(inst, parent)] } }

/-- The parent that `wait_pid` finds for a process: its pid, and its block. -/
def parentOf (k : Kernel) (p : ProcessCDT) : Option (Int × Nat) :=
  if invalidPID p.ppid then none else (k.processTable p.ppid).map fun q ↦ (p.ppid, q.inst)

/-- In the event, a `wait_pid` goes on after its `semWait`, with what it has read before and
in the state that it finds. -/
inductive Event.Completes (k : Kernel) :
    Event → Kernel → Int → Nat → Option (Int × Nat) → Prop
  | immediate {pid : Int} {p : ProcessCDT} (hvalid : ¬invalidPID pid)
      (hp : k.processTable pid = some p) (hpos : 0 < (k.sems (.terminated p.inst)).sem.value) :
      Completes k (.waitPid pid) (k.take (.terminated p.inst)) pid p.inst (k.parentOf p)
  | resumed {cur pid : Int} {p : ProcessCDT} {inst : Nat} {parent : Option (Int × Nat)}
      (hcur : k.current = some (cur, p)) (hcont : p.cont = .waitPid pid inst parent) :
      Completes k .resume ((k.returnFrom (.terminated inst) cur).setCont cur .user) pid inst parent

/-- The states do not differ in the families of processes, nor in who was reaped and of whom notice
was given. -/
structure SameKin (s t : Kernel) : Prop where
  kin : ∀ q, (t.processTable q).map ProcessCDT.kin = (s.processTable q).map ProcessCDT.kin
  reaps : t.log.reaps = s.log.reaps
  notices : t.log.notices = s.log.notices
  emptyPolls : t.log.emptyPolls = s.log.emptyPolls

namespace SameKin

theorem refl (s : Kernel) : SameKin s s := ⟨fun _ ↦ rfl, rfl, rfl, rfl⟩

/-- A process changes outside its family. -/
theorem modify {f : ProcessCDT → ProcessCDT} (hf : ∀ p, (f p).kin = p.kin) (s : Kernel)
    (pid : Int) : SameKin s (s.modify pid f) where
  kin q := by
    by_cases hq : q = pid
    · subst hq
      rw [modify_self, Option.map_map]
      exact congrFun (congrArg Option.map (funext hf)) _
    · rw [modify_other _ _ hq]
  reaps := rfl
  notices := rfl
  emptyPolls := rfl

end SameKin

/-! ## The rule -/

/-- What there is to show of an invariant of the kernel. -/
structure StepRule (ok : Kernel → Event → Prop) (I : Kernel → Prop)
    (J : Kernel → Prop := I) : Prop where
  /-- What holds in the course of an event is enough for its end. -/
  weaken : ∀ {s}, I s → J s := by exact fun h ↦ h
  frame : ∀ {s t}, I s → SameCore s t → SameKin s t → I t
  schedule : ∀ {s t}, I s → s.schedule = some t → J t
  /-- A post of a shared semaphore. -/
  post : ∀ {s} n, I s → I (s.post (.user n))
  /-- A token that `wait_any` and `reap_zombies` have no part in. -/
  take : ∀ {s} id, I s → (∀ inst, id ≠ .childTerminated inst) → 0 < (s.sems id).sem.value →
    I (s.take id)
  semOpen : ∀ {s} value, I s →
    I { s.setSem (.user s.nextSem) (.new value) with nextSem := s.nextSem + 1 }
  heap : ∀ {s} nodes, I s → ok s (.heap nodes) → I { s with nodes := nodes }
  /-- `sys_block`. -/
  setBlocked : ∀ {s t pid p}, I s → ok s (.block pid) → ¬isUnkillable pid →
    s.processTable pid = some p →
    (p.state = .RUNNING ∧ t = s.setState pid .BLOCKED ∨ p.state = .READY ∧
      t = { s with readyQueue := s.readyQueue.filter (· ≠ pid) }.setState pid .BLOCKED) → J t
  /-- `sys_unblock`. -/
  unblock : ∀ {s pid p}, I s → ok s (.unblock pid) → ¬isUnkillable pid →
    s.processTable pid = some p → p.state = .BLOCKED → I (s.wake pid)
  /-- The running process calls `sys_exit`. -/
  exit : ∀ {s cur p}, I s → s.current = some (cur, p) → p.cont = .user → 2 ≤ p.inst →
    I (s.setCont cur .exited)
  /-- `init` takes a token in `wait_any`. -/
  waited : ∀ {s cur p}, I s → ok s .waitAny → s.current = some (cur, p) → p.cont = .user →
    p.inst = 1 → 0 < (s.sems (.childTerminated p.inst)).sem.value →
    I ((s.take (.childTerminated p.inst)).setCont cur .polling)
  /-- The running process returns from the `semWait` it was blocked in. -/
  returned : ∀ {s cur p id c}, I s → ok s .resume → s.current = some (cur, p) →
    p.waitsOn = some id → c = .user ∧ p.cont ≠ .waitAny ∨ c = .polling ∧ p.cont = .waitAny →
    I ((s.returnFrom id cur).setCont cur c)
  /-- The running process blocks, and the scheduler is called. -/
  block : ∀ {s t e cur p id c}, I s → ok s e → e.Waits s id c → s.current = some (cur, p) →
    p.cont = .user → (2 ≤ p.inst ∨ p.inst = 1 ∧ c = .waitAny) → (s.sems id).sem.value ≤ 0 →
    (s.blockOn id cur c).schedule = some t → J t
  /-- A process terminates, and its children pass to `init`. -/
  terminate : ∀ {k s e pid p process parent}, I s → ok k e → e.terminates k = some pid →
    ¬isUnkillable pid → k.processTable pid = some p → s.processTable pid = some process →
    process.inst = p.inst → (process.Live ↔ p.Live) → ¬invalidPID process.ppid →
    s.processTable process.ppid = some parent → s.nodes = k.nodes →
    I ((s.notifyTermination process parent process.ppid pid).transferOrphanChildren pid)
  /-- The rest of `wait_pid`. -/
  afterTerminated : ∀ {k s t e pid inst parent}, I s → ok k e → e.Completes k s pid inst parent →
    s.afterTerminated pid inst parent = some t → I t
  /-- The rest of `wait_any`. -/
  polled : ∀ {s cur p}, I s → ok s .resume → s.current = some (cur, p) → p.cont = .polling →
    I ((s.setCont cur .user).pollAndReap cur p)
  /-- A round of `reap_zombies`. -/
  reapRound : ∀ {k s cur p p₀}, I s → ok k .reapZombies → k.caller = some (cur, p₀) →
    0 < (k.sems (.childTerminated p₀.inst)).sem.value → s.current = some (cur, p) →
    p.inst = p₀.inst → p.state = p₀.state → 0 < (s.sems (.childTerminated p.inst)).sem.value →
    I ((s.take (.childTerminated p.inst)).pollAndReap cur p)
  start : ∀ {s cur p pid}, I s → ok s .create → s.current = some (cur, p) → 1 ≤ p.inst →
    s.findFreePid = some pid → I ((s.registered pid).2.started 1 pid (s.registered pid).1)

/-! ## Callers -/

theorem caller_eq_some (h : k.caller = some (cur, p)) :
    k.current = some (cur, p) ∧ p.cont = .user ∧ 2 ≤ p.inst := by
  obtain ⟨hcur, hcond⟩ := Option.filter_eq_some_iff.mp h
  exact ⟨hcur, by simpa using hcond⟩

theorem initCaller_eq_some (h : k.initCaller = some (cur, p)) :
    k.current = some (cur, p) ∧ p.cont = .user ∧ p.inst = 1 := by
  obtain ⟨hcur, hcond⟩ := Option.filter_eq_some_iff.mp h
  exact ⟨hcur, by simpa using hcond⟩

/-! ## Termination -/

/-- Since the state `k`, the process `pid` has at most been woken, and its parent is the
same. -/
def Follows (k s : Kernel) (pid : Int) : Prop :=
  ∀ p', s.processTable pid = some p' →
    ∃ p, k.processTable pid = some p ∧ p'.inst = p.inst ∧ p'.ppid = p.ppid ∧ (p'.Live ↔ p.Live)

namespace Follows

theorem refl (k : Kernel) (pid : Int) : Follows k k pid :=
  fun p hp ↦ ⟨p, hp, rfl, rfl, Iff.rfl⟩

theorem post (h : Follows k s pid) (id : SemId) : Follows k (s.post id) pid := by
  intro p'' hp''
  obtain ⟨p', hp', rfl | ⟨hblocked, rfl⟩⟩ := post_table hp''
  · exact h p'' hp'
  · obtain ⟨p, hp, hinst, hppid, hlive⟩ := h p' hp'
    refine ⟨p, hp, hinst, hppid, ?_⟩
    rw [← hlive]
    simp [ProcessCDT.Live, hblocked]

theorem closeFdsOf (closed : List Nat) (h : Follows k s pid) :
    Follows k (s.closeFdsOf closed) pid := by
  induction closed generalizing s with
  | nil => exact h
  | cons n closed ih => exact ih (h.post _)

end Follows

theorem closeFdsOf_eq_none (closed : List Nat) :
    (s.closeFdsOf closed).processTable pid = none ↔ s.processTable pid = none := by
  induction closed generalizing s with
  | nil => exact Iff.rfl
  | cons n closed ih => exact ih.trans post_eq_none

theorem closeFdsOf_nodes (closed : List Nat) : (s.closeFdsOf closed).nodes = s.nodes := by
  induction closed generalizing s with
  | nil => rfl
  | cons n closed ih => exact ih.trans (post_nodes _ _)

/-- A process is still in its slot after its descriptors are closed. -/
theorem closeFdsOf_eq_some (closed : List Nat) (hp : s.processTable pid = some p) :
    ∃ p', (s.closeFdsOf closed).processTable pid = some p' ∧ p'.inst = p.inst ∧
      p'.ppid = p.ppid ∧ (p'.Live ↔ p.Live) := by
  cases hq : (s.closeFdsOf closed).processTable pid with
  | none => rw [(closeFdsOf_eq_none closed).mp hq] at hp; cases hp
  | some p' =>
      obtain ⟨p₀, hp₀, hrest⟩ := (Follows.refl s pid).closeFdsOf closed p' hq
      obtain rfl := Option.some.inj (hp.symm.trans hp₀)
      exact ⟨p', rfl, hrest⟩

/-- What `notifyTermination` is composed of. -/
theorem notifyTermination_eq (process parent : ProcessCDT) (ppid pid : Int) :
    s.notifyTermination process parent ppid pid =
      ((((s.zombify pid process.inst parent.inst).post (.terminated process.inst)).post
        (.childTerminated parent.inst)).enqueueTerminated ppid pid).recordNotice s process.inst
          parent.inst ppid pid := rfl

/-- The entry in the queue of the parent does not matter for the core. -/
theorem SameCore.notify (process parent : ProcessCDT) (ppid pid : Int) :
    SameCore (((s.zombify pid process.inst parent.inst).post (.terminated process.inst)).post
      (.childTerminated parent.inst)) (s.notifyTermination process parent ppid pid) := by
  rw [notifyTermination_eq]
  refine SameCore.trans (.modify ?_ _ _) (.recordNotice _ _ _ _ _ _)
  exact fun _ ↦ rfl

/-- `notifyTermination` reads no more of the two processes than who they are. -/
theorem notifyTermination_congr {process process' parent parent' : ProcessCDT}
    (hinst : process.inst = process'.inst) (hparent : parent.inst = parent'.inst) (ppid pid : Int) :
    s.notifyTermination process parent ppid pid =
      s.notifyTermination process' parent' ppid pid := by
  simp only [notifyTermination, recordNotice, hinst, hparent]

/-! ## Reaping -/

/-- What a poll leaves in the table was there before. -/
theorem pollAndReap_table {q : Int} {p' : ProcessCDT}
    (hp' : (s.pollAndReap cur p).processTable q = some p') :
    ∃ p₀, s.processTable q = some p₀ ∧ p'.core = p₀.core := by
  have hpoll := SameCore.pollTerminatedChildren s cur p
  have hcore : ∀ {t : Kernel}, SameCore s t → t.processTable q = some p' →
      ∃ p₀, s.processTable q = some p₀ ∧ p'.core = p₀.core := by
    intro t hsame ht
    obtain ⟨p₀, hp₀, hinst, hstate, hcont⟩ := hsame.eq_some ht
    exact ⟨p₀, hp₀, by simp [ProcessCDT.core, hinst, hstate, hcont]⟩
  unfold pollAndReap at hp'
  dsimp only at hp'
  split at hp'
  · exact hcore hpoll hp'
  · have hremove : SameCore s ((s.pollTerminatedChildren cur p).2.removeChild cur
        (s.pollTerminatedChildren cur p).1) := by
      refine hpoll.trans (.modify ?_ _ _)
      exact fun _ ↦ rfl
    generalize (s.pollTerminatedChildren cur p).2.removeChild cur
        (s.pollTerminatedChildren cur p).1 = u at hp' hremove
    rcases reapProcess_cases u (s.pollTerminatedChildren cur p).1 none with ⟨-, heq⟩ |
      ⟨_, -, -, heq⟩
    · rw [heq] at hp'
      exact hcore hremove hp'
    · rw [heq] at hp'
      simp only [freed] at hp'
      split at hp'
      · cases hp'
      · exact hcore hremove hp'

theorem pollAndReap_currentProcess :
    (s.pollAndReap cur p).currentProcess = s.currentProcess := by
  have hpoll : (s.pollTerminatedChildren cur p).2.currentProcess = s.currentProcess := by
    unfold pollTerminatedChildren
    split
    · rfl
    · rfl
  unfold pollAndReap
  dsimp only
  split
  · exact hpoll
  · rcases reapProcess_cases ((s.pollTerminatedChildren cur p).2.removeChild cur
        (s.pollTerminatedChildren cur p).1) (s.pollTerminatedChildren cur p).1 none with
      ⟨-, heq⟩ | ⟨_, -, -, heq⟩
    · rw [heq]
      exact hpoll
    · rw [heq]
      exact hpoll

/-- The running process is the same after a poll, if it is there. -/
theorem pollAndReap_current {cur' : Int} {p' : ProcessCDT} (hcur : s.current = some (cur, p))
    (h : (s.pollAndReap cur p).current = some (cur', p')) :
    cur' = cur ∧ p'.core = p.core := by
  obtain ⟨hcurrent, hp⟩ := current_eq_some.mp hcur
  obtain ⟨hcurrent', hp'⟩ := current_eq_some.mp h
  rw [pollAndReap_currentProcess, hcurrent] at hcurrent'
  obtain ⟨rfl, -⟩ := Prod.mk.inj (Option.some.inj hcurrent')
  obtain ⟨p₀, hp₀, hcore⟩ := pollAndReap_table hp'
  obtain rfl := Option.some.inj (hp.symm.trans hp₀)
  exact ⟨rfl, hcore⟩

namespace StepRule

variable {ok : Kernel → Event → Prop} {I J : Kernel → Prop}

/-! ## Events -/

theorem closeFdsOf (rule : StepRule ok I J) (h : I s) (closed : List Nat) :
    I (s.closeFdsOf closed) := by
  induction closed generalizing s with
  | nil => exact h
  | cons n closed ih => exact ih (rule.post n h)

theorem terminated (rule : StepRule ok I J) (h : I s) (hok : ok k e)
    (hpid : e.terminates k = some pid) (hfollows : Follows k s pid) (hnodes : s.nodes = k.nodes)
    {closed : List Nat} (ht : s.terminate pid closed = some t) : I t := by
  unfold Kernel.terminate at ht
  split at ht
  · cases ht
  split at ht
  · cases ht
  next hkillable =>
  split at ht
  · cases ht
  next process hprocess =>
  split at ht
  · cases ht
  next hppid =>
  split at ht
  · cases ht
  next parent hparent =>
  obtain rfl := Option.some.inj ht
  have hclosed : I (s.closeFdsOf closed) := rule.closeFdsOf h closed
  -- both processes are still there when the process is marked
  obtain ⟨process', hprocess', hinst, hppid', hlive⟩ := closeFdsOf_eq_some closed hprocess
  obtain ⟨parent', hparent', hinst', -, -⟩ := closeFdsOf_eq_some closed hparent
  obtain ⟨p, hp, hinst₀, -, hlive₀⟩ := hfollows process hprocess
  rw [notifyTermination_congr hinst.symm hinst'.symm, ← hppid']
  rw [← hppid'] at hppid hparent'
  refine rule.terminate ?_ hok hpid hkillable hp hprocess' (hinst.trans hinst₀)
    (hlive.trans hlive₀) hppid hparent' ((closeFdsOf_nodes closed).trans hnodes)
  exact rule.frame hclosed ⟨fun _ ↦ rfl, rfl, rfl, rfl, rfl, rfl, rfl, rfl, rfl, id⟩
    ⟨fun _ ↦ rfl, rfl, rfl, rfl⟩

theorem terminateProcess (rule : StepRule ok I J) (h : I s) (hok : ok k e)
    (hpid : e.terminates k = some pid) (hfollows : Follows k s pid) (hnodes : s.nodes = k.nodes)
    {closed : List Nat} (ht : s.terminateProcess pid closed = some t) : J t := by
  unfold Kernel.terminateProcess at ht
  split at ht
  · rw [← Option.some.inj ht]
    exact rule.weaken h
  next u hu =>
      have hI : I u := rule.terminated h hok hpid hfollows hnodes hu
      split at ht
      · exact rule.schedule hI ht
      · rw [← Option.some.inj ht]
        exact rule.weaken hI

/-- The rounds of `reap_zombies`: the first one finds the state `k`. -/
theorem reapLoop (rule : StepRule ok I J) (hok : ok k .reapZombies) {p₀ : ProcessCDT}
    (hcaller : k.caller = some (cur, p₀)) (n : Nat) (h : I s)
    (hcur : ∀ cur' p, s.current = some (cur', p) → cur' = cur ∧ p.core = p₀.core)
    (htoken : 0 < (s.sems (.childTerminated p₀.inst)).sem.value →
      0 < (k.sems (.childTerminated p₀.inst)).sem.value)
    (ht : Kernel.reapLoop n s = some t) : I t := by
  induction n generalizing s with
  | zero => rwa [← Option.some.inj ht]
  | succ n ih =>
      unfold Kernel.reapLoop at ht
      split at ht
      · cases ht
      next cur' p hcurrent =>
          obtain ⟨rfl, hcore⟩ := hcur cur' p hcurrent
          obtain ⟨hinst, hstate, -⟩ : p.inst = p₀.inst ∧ p.state = p₀.state ∧ p.cont = p₀.cont := by
            simpa [ProcessCDT.core] using hcore
          rcases tryWait_cases s (.childTerminated p.inst) with ⟨hpos, htry⟩ | ⟨-, htry⟩
          · rw [htry] at ht
            have hk : 0 < (k.sems (.childTerminated p₀.inst)).sem.value := htoken (hinst ▸ hpos)
            refine ih (rule.reapRound h hok hcaller hk hcurrent hinst hstate hpos)
              (fun cur'' p' hcur'' ↦ ?_) (fun _ ↦ hk) ht
            obtain ⟨hcur, hcore'⟩ := pollAndReap_current (s := s.take (.childTerminated p.inst))
              hcurrent hcur''
            exact ⟨hcur, hcore'.trans hcore⟩
          · rw [htry] at ht
            rwa [← Option.some.inj ht]

theorem create (rule : StepRule ok I J) (h : I k) (hok : ok k .create)
    (hcur : k.current = some (cur, p)) (hinst : 1 ≤ p.inst) (ht : k.sysCreateProcess = some t) :
    I t := by
  rw [sysCreateProcess_eq_some ht]
  rcases startNewProcess_cases 1 k with hnone | ⟨pid, hfree, heq⟩
  · rwa [hnone, Option.getD_none]
  · rw [heq, Option.getD_some]
    exact rule.start h hok hcur hinst hfree

theorem resume (rule : StepRule ok I J) (h : I k) (hok : ok k .resume)
    (hcur : k.current = some (cur, p)) (ht : k.resume cur p = some t) : I t := by
  unfold Kernel.resume at ht
  split at ht
  next n hcont =>
      rw [← Option.some.inj ht]
      exact rule.returned h hok hcur (by simp [ProcessCDT.waitsOn, hcont])
        (.inl ⟨rfl, by simp [hcont]⟩)
  next pid inst parent hcont =>
      refine rule.afterTerminated ?_ hok (.resumed hcur hcont) ht
      exact rule.returned h hok hcur (by simp [ProcessCDT.waitsOn, hcont])
        (.inl ⟨rfl, by simp [hcont]⟩)
  next hcont =>
      rw [← Option.some.inj ht]
      exact rule.returned h hok hcur (by simp [ProcessCDT.waitsOn, hcont]) (.inr ⟨rfl, hcont⟩)
  next hcont =>
      rw [← Option.some.inj ht]
      exact rule.polled h hok hcur hcont
  all_goals cases ht

theorem sysSemWait (rule : StepRule ok I J) (h : I k) {n : Nat} (hok : ok k (.semWait n))
    (hcaller : k.caller = some (cur, p)) (hn : n < k.nextSem)
    (ht : k.sysSemWait cur n = some t) : J t := by
  obtain ⟨hcur, hcont, hinst⟩ := caller_eq_some hcaller
  unfold Kernel.sysSemWait at ht
  rcases wait_cases (current_eq_some.mp hcur).1 (.user n) with ⟨hpos, hwait⟩ | ⟨hle, hflag, hblock⟩
  · rw [hwait] at ht
    rw [← Option.some.inj ht]
    exact rule.weaken (rule.take _ h (by simp) hpos)
  · generalize k.wait (.user n) = w at ht hflag hblock
    obtain ⟨u, flag⟩ := w
    obtain rfl : flag = true := hflag
    dsimp only at ht
    rw [hblock] at ht
    exact rule.block h hok (.semWait n hn) hcur hcont (.inl hinst) hle ht

theorem wait_pid (rule : StepRule ok I J) (h : I k) (hok : ok k (.waitPid pid))
    (hcaller : k.caller = some (cur, p)) (ht : k.wait_pid cur pid = some t) : J t := by
  obtain ⟨hcur, hcont, hinst⟩ := caller_eq_some hcaller
  unfold Kernel.wait_pid at ht
  split at ht
  · rw [← Option.some.inj ht]
    exact rule.weaken h
  next hvalid =>
  split at ht
  · rw [← Option.some.inj ht]
    exact rule.weaken h
  next process hprocess =>
  dsimp only at ht
  rcases wait_cases (current_eq_some.mp hcur).1 (.terminated process.inst) with
    ⟨hpos, hwait⟩ | ⟨hle, hflag, hblock⟩
  · rw [hwait] at ht
    exact rule.weaken (rule.afterTerminated (rule.take _ h (by simp) hpos) hok
      (.immediate hvalid hprocess hpos) ht)
  · generalize k.wait (.terminated process.inst) = w at ht hflag hblock
    obtain ⟨u, flag⟩ := w
    obtain rfl : flag = true := hflag
    dsimp only at ht
    rw [hblock] at ht
    exact rule.block h hok (.waitPid hprocess hvalid _) hcur hcont (.inl hinst) hle ht

theorem wait_any (rule : StepRule ok I J) (h : I k) (hok : ok k .waitAny)
    (hcaller : k.initCaller = some (cur, p)) (ht : k.wait_any cur p = some t) : J t := by
  obtain ⟨hcur, hcont, hinst⟩ := initCaller_eq_some hcaller
  unfold Kernel.wait_any at ht
  rcases wait_cases (current_eq_some.mp hcur).1 (.childTerminated p.inst) with
    ⟨hpos, hwait⟩ | ⟨hle, hflag, hblock⟩
  · rw [hwait] at ht
    rw [← Option.some.inj ht]
    exact rule.weaken (rule.waited h hok hcur hcont hinst hpos)
  · generalize k.wait (.childTerminated p.inst) = w at ht hflag hblock
    obtain ⟨u, flag⟩ := w
    obtain rfl : flag = true := hflag
    dsimp only at ht
    rw [hblock] at ht
    exact rule.block h hok (.waitAny hcur) hcur hcont (.inr ⟨hinst, rfl⟩) hle ht

theorem setBlocked_getD (rule : StepRule ok I J) (h : I k) (hok : ok k (.block pid)) :
    J ((k.setBlocked pid).getD k) := by
  cases hblock : k.setBlocked pid with
  | none => exact rule.weaken h
  | some t =>
      obtain ⟨hkillable, p, hp, ht⟩ := setBlocked_eq_some hblock
      exact rule.setBlocked h hok hkillable hp ht

theorem sysUnblock_getD (rule : StepRule ok I J) (h : I k) (hok : ok k (.unblock pid)) :
    I ((k.sysUnblock pid).getD k) := by
  cases hready : k.sysUnblock pid with
  | none => exact h
  | some t =>
      obtain ⟨hkillable, p, hp, hblocked, rfl⟩ := sysUnblock_eq_some hready
      exact rule.unblock h hok hkillable hp hblocked

/-- The kernel differs in nothing that matters after `sys_nice` or `sys_foreground`. -/
theorem getD_frame (rule : StepRule ok I J) (h : I k) {o : Option Kernel}
    (ho : ∀ t, o = some t → SameCore k t ∧ SameKin k t) : I (o.getD k) := by
  cases o with
  | none => exact h
  | some t => exact rule.frame h (ho t rfl).1 (ho t rfl).2

/-- **The induction rule.**  An invariant that every update keeps is kept by every event
that meets the guard. -/
theorem step (rule : StepRule ok I J) (h : I k) (hok : ok k e) (ht : k.step e = some t) : J t := by
  cases e with
  | tick => exact rule.schedule h ht
  | enableScheduler =>
      rw [← Option.some.inj ht]
      exact rule.weaken (rule.frame h
        ⟨fun _ ↦ rfl, rfl, rfl, rfl, rfl, rfl, rfl, rfl, rfl, fun _ ↦ rfl⟩
        ⟨fun _ ↦ rfl, rfl, rfl, rfl⟩)
  | heap nodes =>
      rw [← Option.some.inj ht]
      exact rule.weaken (rule.heap nodes h hok)
  | create =>
      obtain ⟨⟨cur, p⟩, hcaller, hcreate⟩ := Option.bind_eq_some_iff.mp ht
      cases hc : k.caller with
      | some c =>
          obtain ⟨hcur, -, hinst⟩ := caller_eq_some hc
          exact rule.weaken (rule.create h hok hcur (Nat.le_of_succ_le hinst) hcreate)
      | none =>
          rw [hc] at hcaller
          obtain ⟨hcur, -, hinst⟩ := initCaller_eq_some hcaller
          exact rule.weaken (rule.create h hok hcur (Nat.le_of_eq hinst.symm) hcreate)
  | exit closed =>
      obtain ⟨⟨cur, p⟩, hcaller, hexit⟩ := Option.bind_eq_some_iff.mp ht
      obtain ⟨hcur, hcont, hinst⟩ := caller_eq_some hcaller
      refine rule.terminateProcess (rule.exit h hcur hcont hinst) hok ?_ (fun p' hp' ↦ ?_) rfl hexit
      · simp [Event.terminates, (current_eq_some.mp hcur).1]
      · obtain ⟨p₀, hp₀, rfl⟩ := modify_eq_some.mp hp'
        refine ⟨p₀, hp₀, ?_⟩
        split
        · exact ⟨rfl, rfl, Iff.rfl⟩
        · exact ⟨rfl, rfl, Iff.rfl⟩
  | kill pid closed =>
      obtain ⟨-, -, hkill⟩ := Option.bind_eq_some_iff.mp ht
      exact rule.terminateProcess h hok rfl (.refl k pid) rfl hkill
  | ctrlC pid closed =>
      simp only [Kernel.step] at ht
      split at ht
      · cases ht
      rw [← Option.some.inj ht, killFromIsr]
      cases hterm : k.terminate pid closed with
      | none => exact rule.weaken h
      | some u => exact rule.weaken (rule.terminated h hok rfl (.refl k pid) rfl hterm)
  | block pid =>
      obtain ⟨-, -, rfl⟩ := Option.map_eq_some_iff.mp ht
      exact rule.setBlocked_getD h hok
  | unblock pid =>
      obtain ⟨-, -, rfl⟩ := Option.map_eq_some_iff.mp ht
      exact rule.weaken (rule.sysUnblock_getD h hok)
  | yield =>
      obtain ⟨-, -, hschedule⟩ := Option.bind_eq_some_iff.mp ht
      exact rule.schedule h hschedule
  | nice pid priority =>
      obtain ⟨-, -, rfl⟩ := Option.map_eq_some_iff.mp ht
      refine rule.weaken (rule.getD_frame h fun u hu ↦ ?_)
      obtain ⟨-, rfl⟩ := setPriorityOnPID_eq_some hu
      refine ⟨.modify ?_ _ _, .modify ?_ _ _⟩
      · exact fun _ ↦ rfl
      · exact fun _ ↦ rfl
  | foreground pid =>
      obtain ⟨-, -, rfl⟩ := Option.map_eq_some_iff.mp ht
      refine rule.weaken (rule.getD_frame h fun u hu ↦ ?_)
      obtain ⟨-, rfl⟩ := addToFG_eq_some hu
      exact ⟨⟨fun _ ↦ rfl, rfl, rfl, rfl, rfl, rfl, rfl, rfl, rfl, id⟩, fun _ ↦ rfl, rfl, rfl, rfl⟩
  | waitPid pid =>
      obtain ⟨⟨cur, p⟩, hcaller, hwait⟩ := Option.bind_eq_some_iff.mp ht
      exact rule.wait_pid h hok hcaller hwait
  | reapZombies =>
      obtain ⟨⟨cur, p⟩, hcaller, hreap⟩ := Option.bind_eq_some_iff.mp ht
      refine rule.weaken (rule.reapLoop hok hcaller _ h (fun cur' p' hcur' ↦ ?_) (fun hpos ↦ hpos)
        hreap)
      cases (caller_eq_some hcaller).1.symm.trans hcur'
      exact ⟨rfl, rfl⟩
  | waitAny =>
      obtain ⟨⟨cur, p⟩, hcaller, hwait⟩ := Option.bind_eq_some_iff.mp ht
      exact rule.wait_any h hok hcaller hwait
  | semOpen value =>
      rw [← Option.some.inj ht]
      exact rule.weaken (rule.semOpen value h)
  | semWait n =>
      obtain ⟨⟨cur, p⟩, hcaller, hwait⟩ := Option.bind_eq_some_iff.mp ht
      dsimp only at hwait
      split at hwait
      next hn => exact rule.sysSemWait h hok hcaller hn hwait
      · cases hwait
  | semPost n =>
      simp only [Kernel.step] at ht
      split at ht
      · rw [← Option.some.inj ht]
        exact rule.weaken (rule.post _ h)
      · cases ht
  | semTryWait n =>
      simp only [Kernel.step] at ht
      split at ht
      · rw [← Option.some.inj ht]
        rcases tryWait_cases k (.user n) with ⟨hpos, heq⟩ | ⟨-, heq⟩
        · rw [heq]
          exact rule.weaken (rule.take _ h (by simp) hpos)
        · rw [heq]
          exact rule.weaken h
      · cases ht
  | resume =>
      obtain ⟨⟨cur, p⟩, hcur, hresume⟩ := Option.bind_eq_some_iff.mp ht
      exact rule.weaken (rule.resume h hok hcur hresume)

end StepRule

end Kernel

end BareBones.Process
