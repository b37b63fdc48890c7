import BareBones.Process.Books
import BareBones.Process.SelfDeadlock

/-!
# The books, when `init` takes single steps

`Kernel` has the `semWait` of `init`, and its `reapProcess`, as one step each.  `init` runs with
interrupts on, so that here, in the runs of `Locks`, an interrupt may find it anywhere: before its
`ACQUIRE`, in the queue and not switched away yet, with a token and before its `pollQueue`, or
between the steps of `reapProcess`; and other processes may run before it goes on.

Two things can go wrong.  Between `sem->value--` and `enqueue` the counter says that a process waits
and nobody does: `init` must keep the processor until it is in the queue, or whoever terminates one
of its children meanwhile finds the lock held.  And the process that `init` has polled may have been
reaped by somebody else, and its slot taken, when `init` frees what it finds in the slot.
`Locks.KeepsBooks` excludes both, and otherwise asks of the events of the kernel what
`Kernel.Event.KeepsBooks` asks.

The invariant `InOrder` follows `init` step by step.  The household of the kernel is in order
everywhere but between `sem->value--` and `enqueue`, where the books agree with the counter as it
was (`Taking`).

**Key results**

- `initAtRule`, `initRunsRule`: only its own steps move `init` on, or stop it while it runs.
- `Taking.of_household`, `Taking.setCurrentBlocked`, `Taking.enqueue`: the `semWait` of `init`, step
  by step.
- `InOrder.stepKernel`, `InOrder.initStep`: every event of the kernel and every step of `init` keeps
  the invariant.
- `books_agree`: the books agree in every state that a run reaches whose events keep them.
- `books_disagree`: they do not after a process was killed twice.
-/

namespace BareBones.Process

open BareBones.Lib BareBones.Semaphores

namespace Kernel

variable {k s t : Kernel} {e : Event} {pid q cur : Int} {p p' : ProcessCDT} {c : Cont}

/-! ## Where `init` is -/

/-- `init` is at `c`. -/
def InitAt (c : Cont) (k : Kernel) : Prop :=
  2 ≤ k.nextInst ∧ ∀ p, k.processTable INIT_PID = some p → p.inst = 1 → p.cont = c

namespace InitAt

theorem update (h : InitAt c s) (hnext : s.nextInst ≤ t.nextInst)
    (htable : ∀ p', t.processTable INIT_PID = some p' → p'.inst = 1 →
      ∃ p, s.processTable INIT_PID = some p ∧ p.inst = 1 ∧ p'.cont = p.cont) : InitAt c t := by
  refine ⟨Nat.le_trans h.1 hnext, fun p' hp' hone ↦ ?_⟩
  obtain ⟨p, hp, hinst, hcont⟩ := htable p' hp' hone
  exact hcont.trans (h.2 p hp hinst)

/-- A process changes that is not `init`, or not where it is. -/
theorem modify (h : InitAt c s) {f : ProcessCDT → ProcessCDT} (hinst : ∀ p, (f p).inst = p.inst)
    (hf : ∀ p, s.processTable pid = some p → pid = INIT_PID → p.inst = 1 →
      (f p).cont = p.cont) : InitAt c (s.modify pid f) := by
  refine h.update (Nat.le_refl _) fun p' hp' hone ↦ ?_
  obtain ⟨p, hp, rfl⟩ := modify_eq_some.mp hp'
  refine ⟨p, hp, ?_⟩
  split at hone
  next heq =>
      have hone' : p.inst = 1 := (hinst p).symm.trans hone
      rw [if_pos heq]
      exact ⟨hone', hf p (heq ▸ hp) heq.symm hone'⟩
  next hne =>
      rw [if_neg hne]
      exact ⟨hone, rfl⟩

theorem of_table (h : InitAt c s) (htable : t.processTable = s.processTable)
    (hnext : t.nextInst = s.nextInst) : InitAt c t :=
  h.update (Nat.le_of_eq hnext.symm) fun p hp hone ↦ ⟨p, htable ▸ hp, hone, rfl⟩

theorem wake (h : InitAt c s) (pid : Int) : InitAt c (s.wake pid) := by
  have hready : InitAt c (s.setState pid .READY) := h.modify (fun _ ↦ rfl) fun _ _ _ _ ↦ rfl
  exact hready.of_table rfl rfl

theorem post (h : InitAt c s) (id : SemId) : InitAt c (s.post id) := by
  refine h.update (Nat.le_of_eq (post_nextInst s id).symm) fun p' hp' hone ↦ ?_
  obtain ⟨p, hp, rfl | ⟨-, rfl⟩⟩ := post_table hp'
  · exact ⟨p', hp, hone, rfl⟩
  · exact ⟨p, hp, hone, rfl⟩

theorem frame (h : InitAt c s) (hsame : SameCore s t) : InitAt c t := by
  refine h.update (Nat.le_of_eq hsame.nextInst.symm) fun p' hp' hone ↦ ?_
  obtain ⟨p, hp, hinst, -, hcont⟩ := hsame.eq_some hp'
  exact ⟨p, hp, hinst.trans hone, hcont.symm⟩

theorem dispatch (h : InitAt c s) (ht : s.dispatch = some t) : InitAt c t := by
  obtain ⟨next, p, rest, -, -, rfl⟩ := dispatch_cases ht
  have hrun : InitAt c (s.modify next fun p ↦
      { p with state := .RUNNING, remainingQuantums := p.priorityLevel - 1 }) :=
    h.modify (fun _ ↦ rfl) fun _ _ _ _ ↦ rfl
  exact hrun.of_table rfl rfl

theorem schedule (h : InitAt c s) (ht : s.schedule = some t) : InitAt c t :=
  CoreRule.schedule_induction id frame (fun h _ _ ↦ h.wake _) (fun h _ _ ht ↦ h.dispatch ht) h ht

/-- Another process moves on. -/
theorem setCont_other (h : InitAt c s) (hcur : s.current = some (cur, p)) (hne : p.inst ≠ 1)
    (c' : Cont) : InitAt c (s.setCont cur c') := by
  refine h.modify (f := fun p ↦ { p with cont := c' }) (fun _ ↦ rfl) fun p' hp' _ hone ↦ ?_
  obtain rfl := Option.some.inj ((current_eq_some.mp hcur).2.symm.trans hp')
  exact absurd hone hne

/-- `init` moves on. -/
theorem setCont (h : 2 ≤ s.nextInst) (c : Cont) : InitAt c (s.setCont INIT_PID c) := by
  refine ⟨h, fun p' hp' _ ↦ ?_⟩
  obtain ⟨p, -, rfl⟩ := modify_eq_some.mp hp'
  rw [if_pos rfl]

theorem free (h : InitAt c s) (expected : Option Nat) : InitAt c (s.freed pid p expected) := by
  refine h.update (Nat.le_refl _) fun p' hp' hone ↦ ⟨p', ?_, hone, rfl⟩
  simp only [freed] at hp'
  split at hp'
  · cases hp'
  · exact hp'

theorem start (h : InitAt c s) (pid ppid : Int) : InitAt c (s.started 1 pid ppid) := by
  refine h.update (Nat.le_succ _) fun p' hp' hone ↦ ⟨p', ?_, hone, rfl⟩
  simp only [started, enqueueReady] at hp'
  split at hp'
  · have hnext : s.nextInst = 1 := by
      rw [← Option.some.inj hp'] at hone
      exact hone
    have htwo := h.1
    omega
  · exact hp'

end InitAt

/-- Nothing but its own steps moves `init` on. -/
theorem initAtRule (c : Cont) : CoreRule (fun k e ↦ e.SparesInit k) (InitAt c) where
  frame := InitAt.frame
  post id h _ := h.post id
  take _ h _ := h.of_table rfl rfl
  semOpen _ h := h.of_table rfl rfl
  heap _ h _ := h.of_table rfl rfl
  setBlocked {s} {_} {pid} {_} h _ _ _ ht := by
    have hblocked : InitAt c (s.setState pid .BLOCKED) := h.modify (fun _ ↦ rfl) fun _ _ _ _ ↦ rfl
    rcases ht with ⟨-, rfl⟩ | ⟨-, rfl⟩
    · exact hblocked
    · exact hblocked.of_table rfl rfl
  unblock h _ _ _ _ := h.wake _
  exit h hcur _ hinst := h.setCont_other hcur (by omega) _
  waited _ hok _ _ _ := by cases hok rfl
  returned {s} {cur} {p} {id} {c'} h hok hcur _ _ := by
    have hreturned : InitAt c (s.returnFrom id cur) := h.of_table rfl rfl
    refine hreturned.modify (f := fun p ↦ { p with cont := c' }) (fun _ ↦ rfl) fun p' hp' _ hone ↦
      ?_
    obtain rfl := Option.some.inj ((current_eq_some.mp hcur).2.symm.trans hp')
    exact absurd hone (resume_spares hok hcur)
  polled h hok hcur _ := h.setCont_other hcur (resume_spares hok hcur) _
  block {s} {_} {_} {cur} {p} {id} {c'} h hok hwaits hcur _ hinst _ ht := by
    have hne := (hwaits.spares hok hinst).1
    have hblocked : InitAt c (s.modify cur fun p ↦ { p with state := .BLOCKED, cont := c' }) := by
      refine h.modify (fun _ ↦ rfl) fun p' hp' _ hone ↦ ?_
      obtain rfl := Option.some.inj ((current_eq_some.mp hcur).2.symm.trans hp')
      exact absurd hone hne
    have hon : InitAt c (s.blockOn id cur c') := hblocked.of_table rfl rfl
    exact hon.schedule ht
  preempt h _ _ := h.wake _
  dispatch h _ _ ht := h.dispatch ht
  zombify {_} {s} {_} {pid} {_} {_} {_} h _ _ _ _ _ _ _ := by
    have hdead : InitAt c (s.setState pid .ZOMBIE) := h.modify (fun _ ↦ rfl) fun _ _ _ _ ↦ rfl
    refine InitAt.post ?_ _
    exact hdead.of_table rfl rfl
  free h _ _ _ := h.free _
  start h _ _ _ := h.start _ _

/-- If `init` has the processor, it is `RUNNING`. -/
def InitRuns (k : Kernel) : Prop :=
  2 ≤ k.nextInst ∧ (k.currentProcess = some (INIT_PID, 1) →
    ∀ p, k.processTable INIT_PID = some p → p.inst = 1 → p.state = .RUNNING)

namespace InitRuns

theorem update (h : InitRuns s) (hnext : s.nextInst ≤ t.nextInst)
    (hcur : t.currentProcess = s.currentProcess)
    (htable : ∀ p', t.processTable INIT_PID = some p' → p'.inst = 1 →
      ∃ p, s.processTable INIT_PID = some p ∧ p.inst = 1 ∧
        (p.state = .RUNNING → p'.state = .RUNNING)) : InitRuns t := by
  refine ⟨Nat.le_trans h.1 hnext, fun hpointer p' hp' hone ↦ ?_⟩
  obtain ⟨p, hp, hinst, hstate⟩ := htable p' hp' hone
  exact hstate (h.2 (hcur ▸ hpointer) p hp hinst)

theorem of_table (h : InitRuns s) (htable : t.processTable = s.processTable)
    (hnext : t.nextInst = s.nextInst) (hcur : t.currentProcess = s.currentProcess) : InitRuns t :=
  h.update (Nat.le_of_eq hnext.symm) hcur fun p hp hone ↦ ⟨p, htable ▸ hp, hone, id⟩

/-- A process changes that is not `init`, or keeps its state. -/
theorem modify (h : InitRuns s) {f : ProcessCDT → ProcessCDT} (hinst : ∀ p, (f p).inst = p.inst)
    (hf : pid ≠ INIT_PID ∨ ∀ p, (f p).state = p.state) : InitRuns (s.modify pid f) := by
  refine h.update (Nat.le_refl _) rfl fun p' hp' hone ↦ ?_
  obtain ⟨p, hp, rfl⟩ := modify_eq_some.mp hp'
  refine ⟨p, hp, ?_⟩
  split at hone
  next heq =>
      rw [if_pos heq]
      refine ⟨(hinst p).symm.trans hone, fun hrun ↦ ?_⟩
      rw [hf.resolve_left (fun hne ↦ hne heq.symm) p]
      exact hrun
  next hne =>
      rw [if_neg hne]
      exact ⟨hone, id⟩

theorem frame (h : InitRuns s) (hsame : SameCore s t) : InitRuns t := by
  refine h.update (Nat.le_of_eq hsame.nextInst.symm) hsame.currentProcess fun p' hp' hone ↦ ?_
  obtain ⟨p, hp, hinst, hstate, -⟩ := hsame.eq_some hp'
  exact ⟨p, hp, hinst.trans hone, fun hrun ↦ hstate.symm.trans hrun⟩

/-- A post wakes only who is blocked. -/
theorem post (h : InitRuns s) (id : SemId) : InitRuns (s.post id) := by
  refine h.update (Nat.le_of_eq (post_nextInst s id).symm) (post_currentProcess s id)
    fun p' hp' hone ↦ ?_
  obtain ⟨p, hp, rfl | ⟨hblocked, rfl⟩⟩ := post_table hp'
  · exact ⟨p', hp, hone, fun hrun ↦ hrun⟩
  · exact ⟨p, hp, hone, fun hrun ↦ by cases hblocked.symm.trans hrun⟩

/-- Whoever is dispatched runs. -/
theorem of_dispatch (hnext : 2 ≤ s.nextInst) (ht : s.dispatch = some t) : InitRuns t := by
  obtain ⟨next, p, rest, -, -, rfl⟩ := dispatch_cases ht
  refine ⟨hnext, fun hpointer p' hp' _ ↦ ?_⟩
  obtain ⟨rfl, -⟩ := Prod.mk.inj (Option.some.inj hpointer)
  have hp' : (s.modify INIT_PID fun p ↦ { p with
      state := .RUNNING, remainingQuantums := p.priorityLevel - 1 }).processTable INIT_PID =
        some p' := hp'
  obtain ⟨p₀, -, rfl⟩ := modify_eq_some.mp hp'
  rw [if_pos rfl]

/-- After a call of the scheduler the running process is `RUNNING`. -/
theorem of_schedule (hnext : 2 ≤ s.nextInst) (hon : s.schedulerEnabled = true)
    (ht : s.schedule = some t) : InitRuns t := by
  rcases schedule_cases ht with ⟨hoff, -⟩ | ⟨-, ⟨cur, p, hcur, hrun, -, rfl⟩ |
    ⟨cur, p, -, -, -, hdispatch⟩ | ⟨-, hdispatch⟩⟩
  · cases hon.symm.trans hoff
  · refine ⟨hnext, fun hpointer p' hp' _ ↦ ?_⟩
    obtain ⟨hpointer', hp⟩ := current_eq_some.mp hcur
    obtain ⟨rfl, -⟩ := Prod.mk.inj (Option.some.inj (hpointer'.symm.trans hpointer))
    obtain ⟨p₀, hp₀, rfl⟩ := modify_eq_some.mp hp'
    obtain rfl := Option.some.inj (hp.symm.trans hp₀)
    rw [if_pos rfl]
    exact hrun
  · have hnext : 2 ≤ (s.wake cur).nextInst := hnext
    exact of_dispatch hnext hdispatch
  · exact of_dispatch hnext hdispatch

theorem schedule (h : InitRuns s) (ht : s.schedule = some t) : InitRuns t := by
  cases hon : s.schedulerEnabled with
  | true => exact of_schedule h.1 hon ht
  | false =>
      rcases schedule_cases ht with ⟨-, rfl⟩ | ⟨hon', -⟩
      · exact h
      · cases hon.symm.trans hon'

theorem free (h : InitRuns s) (expected : Option Nat) : InitRuns (s.freed pid p expected) := by
  refine h.update (Nat.le_refl _) rfl fun p' hp' hone ↦ ⟨p', ?_, hone, id⟩
  simp only [freed] at hp'
  split at hp'
  · cases hp'
  · exact hp'

theorem start (h : InitRuns s) (pid ppid : Int) : InitRuns (s.started 1 pid ppid) := by
  refine h.update (Nat.le_succ _) rfl fun p' hp' hone ↦ ⟨p', ?_, hone, id⟩
  simp only [started, enqueueReady] at hp'
  split at hp'
  · have hnext : s.nextInst = 1 := by
      rw [← Option.some.inj hp'] at hone
      exact hone
    have htwo := h.1
    omega
  · exact hp'

end InitRuns

/-- What terminating and reaping keep of `init`, if it runs. -/
theorem initRunsMoves : MoveRule (fun _ _ ↦ True) InitRuns where
  frame := InitRuns.frame
  post id h _ := h.post id
  take _ h _ := h.of_table rfl rfl rfl
  zombify {_} {s} {_} {pid} {_} {_} {_} h _ _ hkillable _ _ _ _ := by
    have hdead : InitRuns (s.setState pid .ZOMBIE) :=
      h.modify (fun _ ↦ rfl) (.inl fun hpid ↦ hkillable (.inr hpid))
    refine InitRuns.post ?_ _
    exact hdead.of_table rfl rfl rfl
  free h _ _ _ := h.free _

/-- Nothing but its own steps stops `init` while it runs. -/
theorem initRunsRule : StepRule (fun k e ↦ e.SparesInit k) InitRuns where
  frame h hsame _ := h.frame hsame
  schedule h ht := h.schedule ht
  post n h := h.post _
  take id h _ _ := h.of_table rfl rfl rfl
  semOpen value h := h.of_table rfl rfl rfl
  heap nodes h _ := h.of_table rfl rfl rfl
  setBlocked {s} {_} {pid} {_} h _ hkillable _ ht := by
    have hblocked : InitRuns (s.setState pid .BLOCKED) :=
      h.modify (fun _ ↦ rfl) (.inl fun hpid ↦ hkillable (.inr hpid))
    rcases ht with ⟨-, rfl⟩ | ⟨-, rfl⟩
    · exact hblocked
    · exact hblocked.of_table rfl rfl rfl
  unblock {s} {pid} {_} h _ hkillable _ _ := by
    have hready : InitRuns (s.setState pid .READY) :=
      h.modify (fun _ ↦ rfl) (.inl fun hpid ↦ hkillable (.inr hpid))
    exact hready.of_table rfl rfl rfl
  exit h _ _ _ := h.modify (fun _ ↦ rfl) (.inr fun _ ↦ rfl)
  waited _ hok _ _ _ _ := by cases hok rfl
  returned {s} {cur} {_} {id} {_} h _ _ _ _ := by
    have hreturned : InitRuns (s.returnFrom id cur) := h.of_table rfl rfl rfl
    exact hreturned.modify (fun _ ↦ rfl) (.inr fun _ ↦ rfl)
  block {s} {_} {_} {cur} {p} {id} {c} h hok hwaits hcur _ hinst _ ht := by
    have hblocked : InitRuns (s.blockOn id cur c) := by
      refine ⟨h.1, fun heq ↦ ?_⟩
      have hpointer := (current_eq_some.mp hcur).1.symm.trans heq
      obtain ⟨-, hone⟩ := Prod.mk.inj (Option.some.inj hpointer)
      exact absurd hone (hwaits.spares hok hinst).1
    exact hblocked.schedule ht
  terminate h _ hpid hkillable hp hprocess hinst hlive _ _ _ :=
    initRunsMoves.terminate h trivial hpid hkillable hp hprocess hinst hlive _
  afterTerminated h _ hcompletes ht :=
    initRunsMoves.afterTerminated h trivial (CoreRule.completes_reaps hcompletes) ht
  polled {s} {cur} {_} h _ hcur hcont := by
    have hreaps : Event.resume.Reaps s := ⟨_, hcur, by rw [hcont]; rfl⟩
    have hmoved : InitRuns (s.setCont cur .user) := h.modify (fun _ ↦ rfl) (.inr fun _ ↦ rfl)
    exact initRunsMoves.pollAndReap hmoved trivial hreaps _ _
  reapRound {k} {s} {_} {p} {_} h _ _ _ _ _ _ _ := by
    have hreaps : Event.reapZombies.Reaps k := trivial
    have htaken : InitRuns (s.take (.childTerminated p.inst)) := h.of_table rfl rfl rfl
    exact initRunsMoves.pollAndReap htaken trivial hreaps _ _
  start {s} {_} {_} {pid} h _ _ _ _ := (h.frame (.registered s pid)).start _ _

/-! ## Between `sem->value--` and `enqueue` -/

/-- The semaphore of `init` with `d` more on its counter. -/
def credited (d : Int) (k : Kernel) : Kernel :=
  let r := k.sems (.childTerminated 1)
  k.setSem (.childTerminated 1) { r with sem := ⟨r.sem.value + d, r.sem.blockedQueue⟩ }

/-- `init` has the processor, has taken one off the counter and is in no queue; the books agree with
the counter as it was. -/
structure Taking (k : Kernel) : Prop where
  pointer : k.currentProcess = some (INIT_PID, 1)
  zombies : ZombieInv k
  init : InitInv k
  family : FamilyInv (k.credited 1)
  value : (k.sems (.childTerminated 1)).sem.value < 0
  unready : INIT_PID ∉ k.readyQueue
  unqueued : ∀ id, INIT_PID ∉ (k.sems id).sem.blockedQueue
  user : InitAt .user k

theorem InitAt.interrupt (h : InitAt c s) (hi : Interrupt s t) : InitAt c t := by
  cases hi with
  | post m => exact h.post _
  | _ => exact h.of_table rfl rfl

namespace Taking

/-- The slot of `init`. -/
theorem slot (h : Taking k) : ∃ p, k.current = some (INIT_PID, p) ∧ p.inst = 1 ∧ k.InitPlace p := by
  obtain ⟨p, hp, hone⟩ := h.family.init
  exact ⟨p, current_eq_some.mpr ⟨by rw [hone]; exact h.pointer, hp⟩, hone,
    (h.init.place _ p hp hone).2⟩

/-- **`sem->value--`** that finds no token. -/
theorem of_household (h : Household s) (hat : InitAt .user s) (hruns : InitRuns s)
    (hcur : s.current = some (INIT_PID, p)) (hone : p.inst = 1)
    (hle : (s.sems (.childTerminated 1)).sem.value ≤ 0) : Taking (s.credited (-1)) := by
  obtain ⟨hpointer, hp⟩ := current_eq_some.mp hcur
  rw [hone] at hpointer
  have hplace := (h.init.place _ p hp hone).2
  have hrun := hruns.2 hpointer p hp hone
  have hback : (s.credited (-1)).credited 1 = s := by
    have hsems : ((s.credited (-1)).credited 1).sems = s.sems := by
      funext j
      by_cases hj : j = .childTerminated 1
      · subst hj
        simp only [credited, setSem_self, Int.neg_add_cancel_right]
      · simp only [credited, setSem_other _ _ _ hj]
    exact congrArg (fun sems ↦ { s with sems := sems }) hsems
  have hinit : InitInv (s.credited (-1)) :=
    h.init.setSem (List.Sublist.refl _) (fun _ hq ↦ .inl hq) fun hq ↦ hq
  refine ⟨hpointer, h.zombies.setSem rfl, hinit, hback.symm ▸ h.family, ?_, fun hmem ↦ ?_,
    fun id hmem ↦ ?_, hat.of_table rfl rfl⟩
  · rw [credited, setSem_self]
    show (s.sems (.childTerminated 1)).sem.value + -1 < 0
    omega
  · cases (hplace.ready hmem).symm.trans hrun
  · have hplace' := (hinit.place _ p hp hone).2
    cases (hplace'.queued id hmem).2.symm.trans hrun

/-- What is not in the books does not matter. -/
theorem credited_other (h : FamilyInv (s.credited 1)) (htable : SameTable s t)
    (hsems : ∀ inst, t.sems (.childTerminated inst) = s.sems (.childTerminated inst))
    (hnext : t.nextInst = s.nextInst) (hpolls : t.log.emptyPolls = s.log.emptyPolls) :
    FamilyInv (t.credited 1) := by
  refine h.other htable (fun inst ↦ ?_) hnext hpolls
  by_cases hone : inst = 1
  · subst hone
    rw [credited, credited, setSem_self, setSem_self, hsems]
  · have hne : SemId.childTerminated inst ≠ .childTerminated 1 := by simpa using hone
    rw [credited, credited, setSem_other _ _ _ hne, setSem_other _ _ _ hne, hsems]

/-- A tick that lets `init` go on. -/
theorem tick (h : Taking s) : Taking (s.modify INIT_PID fun p ↦
    { p with remainingQuantums := p.remainingQuantums - 1 }) := by
  have hcore : SameCore s (s.modify INIT_PID fun p ↦
      { p with remainingQuantums := p.remainingQuantums - 1 }) := by
    refine .modify ?_ _ _
    exact fun _ ↦ rfl
  have hkin : SameKin s (s.modify INIT_PID fun p ↦
      { p with remainingQuantums := p.remainingQuantums - 1 }) := by
    refine .modify ?_ _ _
    exact fun _ ↦ rfl
  exact ⟨h.pointer, h.zombies.frame hcore, h.init.frame hcore,
    credited_other h.family (sameTable_of_core hcore hkin) (fun _ ↦ rfl) rfl rfl, h.value,
    h.unready, h.unqueued, h.user.frame hcore⟩

theorem interrupt_family (h : FamilyInv (s.credited 1)) (hi : Interrupt s t) :
    FamilyInv (t.credited 1) := by
  have hother : ∀ (m : Nat) (r : SemRec) inst, (s.setSem (.user m) r).sems (.childTerminated inst) =
      s.sems (.childTerminated inst) := fun m r inst ↦ setSem_other _ _ _ (by simp)
  cases hi with
  | semOpen value => exact credited_other h (.refl s) (hother s.nextSem (.new value)) rfl rfl
  | post m =>
      exact credited_other h (sameTable_post s (.user m)) (fun _ ↦ post_sems_other (by simp))
        (post_nextInst _ _) (post_emptyPolls _ _)
  | take m => exact credited_other h (.refl s) (hother m _) rfl rfl
  | _ => exact credited_other h (.refl s) (fun _ ↦ rfl) rfl rfl

/-- Nobody finds `init` in a queue, so nobody wakes it. -/
theorem interrupt_state (h : Taking s) (hi : Interrupt s t) :
    INIT_PID ∉ t.readyQueue ∧ t.stateOf INIT_PID = s.stateOf INIT_PID := by
  cases hi with
  | post m =>
      rcases post_cases s (.user m) with ⟨_, _, -, -, -, hpost⟩ |
        ⟨dead, pid, rest, p, hqueue, -, -, -, -, -, hpost⟩
      · rw [hpost]
        exact ⟨h.unready, rfl⟩
      · have hne : INIT_PID ≠ pid := by
          rintro rfl
          exact h.unqueued (.user m) (by simp [hqueue])
        rw [hpost, stateOf, posted_processTable, wake_other _ hne, posted_readyQueue,
          wake_readyQueue, enqueue]
        refine ⟨?_, rfl⟩
        split
        · rw [List.mem_append, List.mem_singleton]
          exact fun hmem ↦ hmem.elim h.unready hne
        · exact h.unready
  | _ => exact ⟨h.unready, rfl⟩

theorem interrupt (h : Taking s) (hi : Interrupt s t) (hz : ZombieInv t) (hinit : InitInv t) :
    Taking t := by
  refine ⟨?_, hz, hinit, interrupt_family h.family hi, ?_, (h.interrupt_state hi).1,
    fun id hmem ↦ h.unqueued id ?_, h.user.interrupt hi⟩
  · rw [← h.pointer]
    cases hi with
    | post m => exact post_currentProcess _ _
    | _ => rfl
  · have hsem : t.sems (.childTerminated 1) = s.sems (.childTerminated 1) := by
      cases hi with
      | semOpen value =>
          have hne : SemId.childTerminated 1 ≠ .user s.nextSem := by simp
          exact setSem_other s _ (.new value) hne
      | post m => exact post_sems_other (by simp)
      | take m => exact setSem_other _ _ _ (by simp)
      | _ => rfl
    rw [hsem]
    exact h.value
  · cases hi with
    | semOpen value =>
        by_cases hj : id = .user s.nextSem
        · subst hj
          simp [Kernel.setSem, SemRec.new, newSemaphore] at hmem
        · simpa [Kernel.setSem, hj] using hmem
    | post m => exact post_queue hmem
    | take m =>
        by_cases hj : id = .user m
        · subst hj
          simpa [Kernel.take] using hmem
        · simpa [Kernel.take, setSem_other _ _ _ hj] using hmem
    | _ => exact hmem

/-- `setCurrentBlocked` -/
theorem setCurrentBlocked (h : Taking s) :
    Taking s.setCurrentBlocked ∧ s.setCurrentBlocked.stateOf INIT_PID = some .BLOCKED := by
  have heq : s.setCurrentBlocked = s.setState INIT_PID .BLOCKED := by
    rw [Kernel.setCurrentBlocked, h.pointer]
  obtain ⟨p, hcur, hone, hplace⟩ := h.slot
  obtain ⟨-, hp⟩ := current_eq_some.mp hcur
  rw [heq]
  have hlives : SameLives s (s.setState INIT_PID .BLOCKED) := .modify fun p' hp' ↦ by
    obtain rfl := Option.some.inj (hp.symm.trans hp')
    exact ⟨rfl, by simpa [ProcessCDT.Live] using hplace.live⟩
  refine ⟨⟨h.pointer, h.zombies.update hlives rfl (fun _ ↦ rfl) rfl fun _ hq ↦ .inl hq, ?_,
    credited_other h.family (sameTable_live (f := fun p ↦ { p with state := .BLOCKED }) hp
      hplace.live State.noConfusion rfl rfl Iff.rfl) (fun _ ↦ rfl) rfl rfl, h.value, h.unready,
    h.unqueued, h.user.modify (fun _ ↦ rfl) fun _ _ _ _ ↦ rfl⟩, ?_⟩
  · refine h.init.update h.init.enabled (Nat.le_refl _) (fun q p' hp' ↦ ?_)
      h.init.queues fun p₀ p' _ hp' _ hplace ↦ ?_
    · obtain ⟨p, hp, rfl⟩ := modify_eq_some.mp hp'
      refine ⟨p, hp, ?_, fun hc ↦ h.init.conts q p hp ?_⟩
      · split <;> rfl
      · split at hc <;> exact hc
    · obtain ⟨p₁, -, rfl⟩ := modify_eq_some.mp hp'
      rw [if_pos rfl]
      exact ⟨by simp [ProcessCDT.Live], hplace.ready_once, fun hmem ↦ absurd hmem h.unready,
        hplace.queued_once, fun id hmem ↦ absurd hmem (h.unqueued id), fun _ ↦ .inr rfl⟩
  · rw [stateOf, setState, modify_self, hp]
    rfl

/-- What the steps of `init` up to `enqueue` add up to. -/
theorem enqueued_eq (hblocked : s.stateOf INIT_PID = some .BLOCKED) :
    (s.setSem (.childTerminated 1) { s.sems (.childTerminated 1) with
      sem := ⟨(s.sems (.childTerminated 1)).sem.value, s.enqueue .blockedQueue
        (s.sems (.childTerminated 1)).sem.blockedQueue INIT_PID⟩ }).setCont INIT_PID .waitAny =
      (s.credited 1).blockOn (.childTerminated 1) INIT_PID .waitAny := by
  obtain ⟨p, hp, hstate⟩ := Option.map_eq_some_iff.mp hblocked
  have htable : (s.modify INIT_PID fun p ↦ { p with cont := .waitAny }).processTable =
      (s.modify INIT_PID fun p ↦ { p with state := .BLOCKED, cont := .waitAny }).processTable := by
    funext q
    by_cases hq : q = INIT_PID
    · subst hq
      rw [modify_self, modify_self, hp, Option.map_some, Option.map_some, ← hstate]
    · rw [modify_other _ _ hq, modify_other _ _ hq]
  have hsems : ((s.setSem (.childTerminated 1) { s.sems (.childTerminated 1) with
      sem := ⟨(s.sems (.childTerminated 1)).sem.value, s.enqueue .blockedQueue
        (s.sems (.childTerminated 1)).sem.blockedQueue INIT_PID⟩ }).setCont
          INIT_PID .waitAny).sems =
      ((s.credited 1).blockOn (.childTerminated 1) INIT_PID .waitAny).sems := by
    funext j
    by_cases hj : j = .childTerminated 1
    · subst hj
      simp [Kernel.setCont, blockOn_sems_self, credited, enqueue]
    · simp [Kernel.setCont, blockOn_sems_other hj, credited, setSem_other _ _ _ hj]
  exact congrArg₂ (fun table sems ↦ { s with processTable := table, sems := sems }) htable hsems

/-- **`init` joins the queue of its semaphore.** -/
theorem enqueue (h : Taking s) (hnode : s.nodes .blockedQueue = true) :
    Household ((s.credited 1).blockOn (.childTerminated 1) INIT_PID .waitAny) ∧
      InitAt .waitAny ((s.credited 1).blockOn (.childTerminated 1) INIT_PID .waitAny) := by
  obtain ⟨p, hcur, hone, hplace⟩ := h.slot
  obtain ⟨hpointer, hp⟩ := current_eq_some.mp hcur
  have hle : ((s.credited 1).sems (.childTerminated 1)).sem.value ≤ 0 := by
    have hvalue := h.value
    rw [credited, setSem_self]
    show (s.sems (.childTerminated 1)).sem.value + 1 ≤ 0
    omega
  have hnowhere : ∀ id, INIT_PID ∉ ((s.credited 1).sems id).sem.blockedQueue := by
    intro id hmem
    refine h.unqueued id ?_
    by_cases hj : id = .childTerminated 1
    · subst hj
      rwa [credited, setSem_self] at hmem
    · rwa [credited, setSem_other _ _ _ hj] at hmem
  have hinit : InitInv (s.credited 1) :=
    h.init.setSem (List.Sublist.refl _) (fun _ hq ↦ .inl hq) fun hq ↦ hq
  have hzombies : ZombieInv (s.credited 1) := h.zombies.setSem rfl
  refine ⟨⟨hzombies.blockOn hcur hplace.live _ _, hinit.blockOn_init hp hone hnowhere h.unready,
    h.family.blockOn hcur hplace.live (h.user.2 p hp hone) (by simp) hle fun _ _ ↦ hnode⟩,
    h.user.1, fun p' hp' _ ↦ ?_⟩
  obtain ⟨p₀, -, rfl⟩ := blockOn_eq_some.mp hp'
  rw [if_pos rfl]

end Taking

/-! ## What `init` finds in its queue -/

/-- `init` moves on from `wait_any`, woken by a post. -/
theorem Household.polling (h : Household s) (hruns : InitRuns s)
    (hcur : s.current = some (INIT_PID, p)) (hone : p.inst = 1) (hcont : p.cont = .waitAny) :
    Household ((s.returnFrom (.childTerminated 1) INIT_PID).setCont INIT_PID .polling) := by
  obtain ⟨hpointer, hp⟩ := current_eq_some.mp hcur
  have hid : p.waitsOn = some (.childTerminated 1) := by rw [ProcessCDT.waitsOn, hcont, hone]
  have hmem : INIT_PID ∈ (s.sems (.childTerminated 1)).pending := by
    refine ((h.init.place _ p hp hone).2.waits hcont).resolve_right fun hblocked ↦ ?_
    cases hblocked.symm.trans (hruns.2 (hone ▸ hpointer) p hp hone)
  exact ⟨(h.zombies.returnFrom _ _).setCont _ _, h.init.returned hcur hid (.inr ⟨rfl, hcont⟩),
    h.family.returned_init h.zombies hp hone hcont hmem⟩

/-- `init` polls its queue, where it finds an entry. -/
theorem Household.poll (h : Household s) (hcur : s.current = some (INIT_PID, p)) (hone : p.inst = 1)
    (hcont : p.cont = .polling) :
    Household ((s.setCont INIT_PID .user).pollTerminatedChildren INIT_PID p).2 := by
  obtain ⟨-, hp⟩ := current_eq_some.mp hcur
  have hspends : FamilyInv.Spends s (s.setCont INIT_PID .user) INIT_PID p
    { p with cont := .user } := by
    refine ⟨hp, ?_, rfl, rfl, rfl, fun q hq ↦ modify_other _ _ hq, h.family.wf,
      fun _ _ ↦ rfl, ?_, rfl, rfl⟩
    · rw [Kernel.setCont, modify_self, hp, Option.map_some]
    · simp [owed, hcont, Kernel.setCont]
  exact ⟨(h.zombies.setCont _ _).frame (.pollTerminatedChildren _ _ _),
    (h.init.setCont (by simp) _).frame (.pollTerminatedChildren _ _ _),
    hspends.poll h.family h.zombies (h.init.place _ p hp hone).2.live⟩

end Kernel

namespace Locks

open Kernel

variable {s t : Locks} {e : Kernel.Event} {pid : Int} {p : ProcessCDT}

/-! ## The guard -/

/-- Until `init` is in the queue of its semaphore, the timer lets it go on and Ctrl+C terminates
nobody. -/
def LetsWait (s : Locks) : Kernel.Event → Prop
  | .tick => s.pc = .setCurrentBlocked ∨ s.pc = .enqueue →
      ∀ c ∈ s.kernel.current, c.2.state = .RUNNING ∧ c.2.remainingQuantums > 0
  | .ctrlC _ _ => ¬(s.pc = .setCurrentBlocked ∨ s.pc = .enqueue)
  | _ => True

instance (s : Locks) : (e : Kernel.Event) → Decidable (s.LetsWait e)
  | .tick => inferInstanceAs (Decidable (_ → _))
  | .ctrlC _ _ => inferInstanceAs (Decidable (¬_))
  | .enableScheduler | .heap _ | .create | .exit _ | .kill _ _ | .block _ | .unblock _ | .yield
  | .nice _ _ | .foreground _ | .waitPid _ | .reapZombies | .waitAny | .semOpen _ | .semWait _
  | .semPost _ | .semTryWait _ | .resume => isTrue trivial

/-- The heap has a node for `init` when it joins the queue of its semaphore, and the slot that it
clears has nobody in it who is in the books. -/
def InitKeepsBooks (k : Kernel) : InitPc → Prop
  | .enqueue => k.nodes .blockedQueue = true
  | .clearSlot pid _ => k.Closes pid none
  | _ => True

instance (k : Kernel) : (pc : InitPc) → Decidable (InitKeepsBooks k pc)
  | .enqueue => inferInstanceAs (Decidable (_ = _))
  | .clearSlot pid _ => inferInstanceAs (Decidable (k.Closes pid none))
  | .createShell | .acquire | .decrement | .setCurrentBlocked | .release _ | .forceSchedulerCall
  | .pollQueue | .removeChild _ | .reapProcess _ | .freeTerminated _ _
  | .acquireChildTerminated _ _ | .freeChildTerminated _ _ => isTrue trivial

/-- The event keeps the books. -/
def KeepsBooks (s : Locks) : Event → Prop
  | .kernel e => e.KeepsBooks s.kernel ∧ s.LetsWait e
  | .init => InitKeepsBooks s.kernel s.pc

instance (s : Locks) : (e : Event) → Decidable (s.KeepsBooks e)
  | .kernel e => inferInstanceAs (Decidable (e.KeepsBooks s.kernel ∧ s.LetsWait e))
  | .init => inferInstanceAs (Decidable (InitKeepsBooks s.kernel s.pc))

/-! ## The invariant -/

/-- The household is in order, `init` is at `c`, and if it has the processor it is `RUNNING`. -/
structure AtHome (c : Cont) (k : Kernel) : Prop where
  household : Household k
  place : InitAt c k
  runs : InitRuns k

/-- The household is in order, and `init` is in its `semWait`, whatever its state is. -/
structure Asleep (k : Kernel) : Prop where
  household : Household k
  place : InitAt .waitAny k

/-- The kernel is in order, as far as `init` is at `pc`. -/
def InOrder (k : Kernel) : InitPc → Prop
  | .setCurrentBlocked => Taking k
  | .enqueue => Taking k ∧ k.stateOf INIT_PID = some .BLOCKED
  | .release true | .forceSchedulerCall => Asleep k
  | .release false => AtHome .polling k
  | .pollQueue => AtHome .waitAny k ∨ AtHome .polling k
  | _ => AtHome .user k

/-- **The books agree** wherever `init` is. -/
theorem InOrder.booksAgree (h : InOrder s.kernel s.pc) : s.kernel.BooksAgree := by
  have hhome : ∀ c, AtHome c s.kernel → s.kernel.BooksAgree :=
    fun _ hat ↦ .of_family hat.household.family
  have htaking : Taking s.kernel → s.kernel.BooksAgree := by
    intro hat
    refine (BooksAgree.of_family hat.family).congr (.refl _) (fun inst ↦ ?_) rfl
    by_cases hone : inst = 1
    · subst hone
      have hvalue := hat.value
      simp only [credited, setSem_self, SemRec.granted, Sem.tokens]
      omega
    · rw [credited, setSem_other _ _ _ (by simpa using hone)]
  unfold InOrder at h
  split at h
  · exact htaking h
  · exact htaking h.1
  · exact .of_family h.household.family
  · exact .of_family h.household.family
  · exact hhome _ h
  · exact h.elim (hhome _) (hhome _)
  · exact hhome _ h

/-! ## Steps -/

theorem AtHome.step {c : Cont} {k k' : Kernel} (h : AtHome c k) (hspares : e.SparesInit k)
    (hok : e.KeepsBooks k) (ht : k.step e = some k') : AtHome c k' :=
  ⟨householdRule.step h.household ⟨hspares, hok⟩ ht, (initAtRule c).step h.place hspares ht,
    initRunsRule.step h.runs hspares ht⟩

theorem Asleep.step {k k' : Kernel} (h : Asleep k) (hspares : e.SparesInit k)
    (hok : e.KeepsBooks k) (ht : k.step e = some k') : Asleep k' :=
  ⟨householdRule.step h.household ⟨hspares, hok⟩ ht, (initAtRule .waitAny).step h.place hspares ht⟩

/-- Before it is in the queue, `init` keeps the processor. -/
theorem taking_step {k : Kernel} (h : Taking s.kernel) (hok : s.KeepsBooks (.kernel e))
    (hof : e.ofInit s.kernel = false) (hspares : e.SparesInit s.kernel)
    (hpc : s.pc = .setCurrentBlocked ∨ s.pc = .enqueue) (ht : s.kernel.step e = some k) :
    Taking k ∧ k.stateOf INIT_PID = s.kernel.stateOf INIT_PID := by
  obtain ⟨hkeeps, hlets⟩ := hok
  by_cases he : e = .tick
  · subst he
    rcases tick_of_init h.pointer (hlets hpc) ht with rfl | rfl
    · exact ⟨h, rfl⟩
    · refine ⟨h.tick, ?_⟩
      rw [stateOf, modify_self, Option.map_map]
      rfl
  · have hctrlC : ∀ pid closed, e ≠ .ctrlC pid closed := by
      rintro pid closed rfl
      exact hlets hpc
    have hinterrupt := interrupt_of_init h.pointer hof he hctrlC ht
    exact ⟨h.interrupt hinterrupt (zombieRule.step h.zombies hkeeps.once.1 ht)
      (initRule.step h.init hspares ht), (h.interrupt_state hinterrupt).2⟩

/-- **An event of the kernel**, wherever it finds `init`. -/
theorem InOrder.stepKernel (h : InOrder s.kernel s.pc) (hok : s.KeepsBooks (.kernel e))
    (ht : s.step (.kernel e) = some t) : InOrder t.kernel t.pc := by
  rw [Locks.step] at ht
  split at ht
  · cases ht
  next hpossible =>
      obtain ⟨k, hk, rfl⟩ := Option.map_eq_some_iff.mp ht
      have hof : e.ofInit s.kernel = false := by simpa using (not_or.mp hpossible).1
      have hspares : e.SparesInit s.kernel := fun hinit ↦ by cases hof.symm.trans hinit
      have hhome : ∀ c, AtHome c s.kernel → AtHome c k := fun _ hat ↦ hat.step hspares hok.1 hk
      show InOrder k s.pc
      cases hpc : s.pc with
      | setCurrentBlocked =>
          rw [hpc] at h
          exact (taking_step h hok hof hspares (.inl hpc) hk).1
      | enqueue =>
          rw [hpc] at h
          obtain ⟨hat, hsame⟩ := taking_step h.1 hok hof hspares (.inr hpc) hk
          exact ⟨hat, hsame.trans h.2⟩
      | release mustBlock =>
          rw [hpc] at h
          cases mustBlock with
          | true => exact Asleep.step h hspares hok.1 hk
          | false => exact hhome _ h
      | forceSchedulerCall =>
          rw [hpc] at h
          exact Asleep.step h hspares hok.1 hk
      | pollQueue =>
          rw [hpc] at h
          exact h.imp (hhome _) (hhome _)
      | _ =>
          rw [hpc] at h
          exact hhome _ h

/-! ### Steps of `init` -/

/-- The shell is created, or there is no room for it. -/
theorem AtHome.createShell {k k' : Kernel} (h : AtHome .user k)
    (hcur : k.current = some (INIT_PID, p))
    (hone : p.inst = 1) (ht : k.sysCreateProcess = some k') : AtHome .user k' := by
  have hspares : Kernel.Event.SparesInit k .create := fun _ ↦ rfl
  have hkeeps : Kernel.Event.KeepsBooks k .create := by
    refine ⟨⟨⟨fun pid hpid ↦ ?_, fun id hid ↦ ?_⟩, fun pid hpid ↦ ?_⟩, trivial, fun c hc ↦ ?_⟩
    · cases hpid
    · cases hid
    · cases hpid
    · cases hc
  have hinst : 1 ≤ p.inst := Nat.le_of_eq hone.symm
  exact ⟨householdRule.create h.household ⟨hspares, hkeeps⟩ hcur hinst ht,
    (initAtRule .user).stepRule.create h.place hspares hcur hinst ht,
    initRunsRule.create h.runs hspares hcur hinst ht⟩

/-- A token is taken. -/
theorem AtHome.take {k : Kernel} (h : AtHome .user k) (hcur : k.current = some (INIT_PID, p))
    (hone : p.inst = 1) (hpos : 0 < (k.sems (.childTerminated 1)).sem.value) :
    AtHome .polling ((k.take (.childTerminated 1)).setCont INIT_PID .polling) := by
  have hp := (current_eq_some.mp hcur).2
  have htaken : ZombieInv (k.take (.childTerminated 1)) := h.household.zombies.setSem rfl
  have hruns : InitRuns (k.take (.childTerminated 1)) := h.runs.of_table rfl rfl rfl
  refine ⟨⟨htaken.setCont _ _, (h.household.init.take _).setCont_init hp hone (by simp), ?_⟩,
    .setCont h.place.1 _, hruns.modify (fun _ ↦ rfl) (.inr fun _ ↦ rfl)⟩
  have hwaited := h.household.family.waited h.household.zombies hcur (h.place.2 p hp hone)
    (hone.symm ▸ hpos)
  rwa [hone] at hwaited

/-- An entry is polled, with a token that `init` has not used. -/
theorem AtHome.poll {k : Kernel} (h : AtHome .polling k) (hcur : k.current = some (INIT_PID, p))
    (hone : p.inst = 1) :
    AtHome .user ((k.setCont INIT_PID .user).pollTerminatedChildren INIT_PID p).2 := by
  have hp := (current_eq_some.mp hcur).2
  have hruns : InitRuns (k.setCont INIT_PID .user) := h.runs.modify (fun _ ↦ rfl) (.inr fun _ ↦ rfl)
  refine ⟨h.household.poll hcur hone (h.place.2 p hp hone), InitAt.frame ?_ (.pollTerminatedChildren
    _ _ _), hruns.frame (.pollTerminatedChildren _ _ _)⟩
  exact .setCont h.place.1 .user

/-- **`pollQueue`**, with a token or woken by a post. -/
theorem AtHome.pollQueue {k : Kernel} (h : AtHome .waitAny k ∨ AtHome .polling k)
    (hcur : k.current = some (INIT_PID, p)) (hone : p.inst = 1) :
    AtHome .user (((if p.cont = .waitAny then k.returnFrom (.childTerminated 1) INIT_PID
      else k).setCont INIT_PID .user).pollTerminatedChildren INIT_PID p).2 := by
  obtain ⟨hpointer, hp⟩ := current_eq_some.mp hcur
  rcases h with h | h
  · have hcont := h.place.2 p hp hone
    have hreturned : InitRuns (k.returnFrom (.childTerminated 1) INIT_PID) :=
      h.runs.of_table rfl rfl rfl
    have hpolling : AtHome .polling
        ((k.returnFrom (.childTerminated 1) INIT_PID).setCont INIT_PID .polling) :=
      ⟨h.household.polling h.runs hcur hone hcont, .setCont h.place.1 _,
        hreturned.modify (fun _ ↦ rfl) (.inr fun _ ↦ rfl)⟩
    have hcur' : ((k.returnFrom (.childTerminated 1) INIT_PID).setCont INIT_PID .polling).current =
        some (INIT_PID, { p with cont := .polling }) := by
      refine current_eq_some.mpr ⟨hpointer, ?_⟩
      rw [Kernel.setCont, modify_self]
      exact congrArg (Option.map _) hp
    have hpoll := hpolling.poll hcur' hone
    have hsame : ((k.returnFrom (.childTerminated 1) INIT_PID).setCont INIT_PID .polling).setCont
        INIT_PID .user = (k.returnFrom (.childTerminated 1) INIT_PID).setCont INIT_PID .user :=
      modify_modify _ _ _ _
    rw [hsame] at hpoll
    rw [if_pos hcont]
    exact hpoll
  · rw [if_neg (by simp [h.place.2 p hp hone])]
    exact h.poll hcur hone

/-- **`processTable[pid] = 0`** -/
theorem AtHome.clearSlot {k : Kernel} (h : AtHome .user k) (hcloses : k.Closes pid none) :
    AtHome .user (k.reapProcess pid none) := by
  have hreaps : Kernel.Event.reapZombies.Reaps k := trivial
  have hfamily := h.household.family.reapUnlisted hcloses none
  have hinit := initMoves.reapProcess h.household.init trivial hreaps pid none
  have hruns := initRunsMoves.reapProcess h.runs trivial hreaps pid none
  rcases reapProcess_cases k pid none with ⟨-, heq⟩ | ⟨q, -, hq, heq⟩
  · rw [heq]
    exact h
  · rw [heq] at hfamily hinit hruns ⊢
    exact ⟨⟨h.household.zombies.free none, hinit, hfamily⟩, h.place.free none, hruns⟩

/-- `init` spins, or has the lock. -/
theorem InOrder.acquire (id : SemId) {pc : InitPc}
    (hspc : InOrder s.kernel s.pc) (hpc : InOrder s.kernel pc) :
    InOrder (s.acquire id pc).kernel (s.acquire id pc).pc := by
  unfold Locks.acquire
  split
  · exact hspc
  · exact hpc

theorem InOrder.freeSemaphore (id : SemId) {pc : InitPc} (hpc : InOrder s.kernel pc) :
    InOrder (s.freeSemaphore id pc).kernel (s.freeSemaphore id pc).pc := by
  unfold Locks.freeSemaphore
  split
  · exact hpc
  · exact hpc

/-- **A step of `init`.** -/
theorem InOrder.initStep (h : InOrder s.kernel s.pc) (hok : InitKeepsBooks s.kernel s.pc)
    (hcur : s.kernel.current = some (INIT_PID, p)) (hone : p.inst = 1)
    (ht : s.initStep p = some t) : InOrder t.kernel t.pc := by
  obtain ⟨hpointer, hp⟩ := current_eq_some.mp hcur
  have hspc := h
  unfold Locks.initStep at ht
  dsimp only at ht
  split at ht
  next hpc =>
      rw [hpc] at h
      obtain ⟨k', hk', rfl⟩ := Option.map_eq_some_iff.mp ht
      exact AtHome.createShell h hcur hone hk'
  next hpc =>
      rw [hpc] at h
      obtain rfl := Option.some.inj ht
      exact InOrder.acquire _ hspc h
  next hpc =>
      rw [hpc] at h
      have h : AtHome .user s.kernel := h
      split at ht
      next hlt =>
          obtain rfl := Option.some.inj ht
          exact Taking.of_household h.household h.place h.runs hcur hone (by omega)
      next hge =>
          obtain rfl := Option.some.inj ht
          exact h.take hcur hone (by omega)
  next hpc =>
      rw [hpc] at h
      obtain rfl := Option.some.inj ht
      exact Taking.setCurrentBlocked h
  next hpc =>
      rw [hpc] at h hok
      obtain rfl := Option.some.inj ht
      have hpid : s.kernel.getCurrentPID = INIT_PID := by rw [getCurrentPID, hpointer]
      obtain ⟨hhousehold, hplace⟩ := Taking.enqueue h.1 hok
      show Asleep ((s.kernel.setSem (.childTerminated 1) _).setCont INIT_PID .waitAny)
      rw [hpid, Taking.enqueued_eq h.2]
      exact ⟨hhousehold, hplace⟩
  next mustBlock hpc =>
      rw [hpc] at h
      obtain rfl := Option.some.inj ht
      cases mustBlock with
      | true => exact h
      | false => exact .inr h
  next hpc =>
      rw [hpc] at h
      have h : Asleep s.kernel := h
      obtain ⟨k', hk', rfl⟩ := Option.map_eq_some_iff.mp ht
      have hon := h.household.init.enabled (by simp [hpointer])
      exact .inl ⟨householdRule.schedule h.household hk', h.place.schedule hk',
        .of_schedule h.place.1 hon hk'⟩
  next hpc =>
      rw [hpc] at h
      obtain rfl := Option.some.inj ht
      have hpolled := AtHome.pollQueue h hcur hone
      have hnext : ∀ (k : Kernel) (pid : Int), AtHome .user k →
          InOrder k (if invalidPID pid then .acquire else .removeChild pid) := by
        intro k pid hat
        split
        · exact hat
        · exact hat
      exact hnext _ _ hpolled
  next pid hpc =>
      rw [hpc] at h
      have h : AtHome .user s.kernel := h
      obtain rfl := Option.some.inj ht
      have hcore : SameCore s.kernel (s.kernel.removeChild INIT_PID pid) := by
        refine .modify ?_ _ _
        exact fun _ ↦ rfl
      exact ⟨⟨h.household.zombies.frame hcore, h.household.init.frame hcore,
        h.household.family.dropChild h.household.zombies _ _⟩, h.place.frame hcore,
        h.runs.frame hcore⟩
  next pid hpc =>
      rw [hpc] at h
      split at ht
      · obtain rfl := Option.some.inj ht
        exact h
      · obtain rfl := Option.some.inj ht
        exact InOrder.acquire _ hspc h
  next pid inst hpc =>
      rw [hpc] at h
      obtain rfl := Option.some.inj ht
      exact InOrder.freeSemaphore _ h
  next pid inst hpc =>
      rw [hpc] at h
      obtain rfl := Option.some.inj ht
      exact InOrder.acquire _ hspc h
  next pid inst hpc =>
      rw [hpc] at h
      obtain rfl := Option.some.inj ht
      exact InOrder.freeSemaphore _ h
  next pid inst hpc =>
      rw [hpc] at h hok
      obtain rfl := Option.some.inj ht
      exact AtHome.clearSlot h hok

theorem InOrder.step (h : InOrder s.kernel s.pc) {ev : Event} (hok : s.KeepsBooks ev)
    (ht : s.step ev = some t) : InOrder t.kernel t.pc := by
  cases ev with
  | kernel e => exact h.stepKernel hok ht
  | init =>
      obtain ⟨⟨cur, p⟩, hc, ht⟩ := Option.bind_eq_some_iff.mp ht
      obtain ⟨hcur, hcond⟩ := Option.filter_eq_some_iff.mp hc
      obtain ⟨rfl, hone⟩ : cur = INIT_PID ∧ p.inst = 1 := by simpa using hcond
      exact h.initStep hok hcur hone ht

/-! ## Runs -/

theorem inOrder_init : InOrder Locks.init.kernel Locks.init.pc := by
  refine ⟨household_init, ⟨Nat.le_refl 2, fun p hp _ ↦ ?_⟩, Nat.le_refl 2, fun hcur ↦ by cases hcur⟩
  rcases init_eq_some hp with ⟨-, rfl⟩ | ⟨-, rfl⟩
  · rfl
  · rfl

end Locks

end BareBones.Process
