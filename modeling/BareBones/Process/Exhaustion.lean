import BareBones.Process.SelfDeadlock
import BareBones.Process.Undisturbed

/-!
# The heap and the ready queue

Every queue of the kernel allocates a node for each element, and every caller of `enqueue`
ignores its result.  Without a node, a process becomes `READY` and is in no queue: it never
runs again.  As long as there is room for the nodes of the ready queue and of the queues of
the semaphores, whoever is `READY` is queued.

`init` may be lost although there is room: it calls `semWait` with interrupts on, and a tick after
`setCurrentBlocked` finds it `BLOCKED` and in no queue yet.  The results are about the runs of
`Locks`, where `init` takes single steps.

**Key results**

- `queuedRule`: every update of the kernel keeps whoever is `READY` in the ready queue, and `init`
  in the queue of its semaphore.
- `Locks.loses_nobody`: nobody is lost in a run with room for the nodes and without that tick.
- `Locks.shell_lost`, `Locks.init_lost`: the shell is lost when the heap is full, and `init` by the
  tick.
-/

namespace BareBones.Process

open BareBones.Lib BareBones.Semaphores

namespace Kernel

variable {k s t : Kernel} {e : Event} {pid q cur : Int} {p p' : ProcessCDT} {id : SemId}

/-- The heap has room for the nodes of the queues that processes wait in. -/
structure HasNodes (k : Kernel) : Prop where
  readyQueue : k.nodes .readyQueue = true
  blockedQueue : k.nodes .blockedQueue = true

/-- Whoever is `READY` is in the ready queue. -/
structure QueuedInv (k : Kernel) : Prop where
  nodes : k.HasNodes
  queued : ∀ q p, k.processTable q = some p → p.state = .READY → q ∈ k.readyQueue

namespace QueuedInv

/-- Nobody leaves the ready queue, and whoever becomes `READY` joins it. -/
theorem update (h : QueuedInv s) (hnodes : t.nodes = s.nodes)
    (hqueue : ∀ q ∈ s.readyQueue, ∀ p, t.processTable q = some p → p.state = .READY →
      q ∈ t.readyQueue)
    (hready : ∀ q p', t.processTable q = some p' → p'.state = .READY → q ∈ t.readyQueue ∨
      ∃ p, s.processTable q = some p ∧ p.state = .READY) : QueuedInv t := by
  refine ⟨⟨hnodes ▸ h.nodes.readyQueue, hnodes ▸ h.nodes.blockedQueue⟩, fun q p hp hst ↦ ?_⟩
  rcases hready q p hp hst with hq | ⟨p₀, hp₀, hst₀⟩
  · exact hq
  · exact hqueue q (h.queued q p₀ hp₀ hst₀) p hp hst

theorem mem_wake (h : QueuedInv s) : q ∈ (s.wake pid).readyQueue ↔ q ∈ s.readyQueue ∨ q = pid := by
  rw [wake_readyQueue, enqueue, if_pos h.nodes.readyQueue, List.mem_append, List.mem_singleton]

theorem wake (h : QueuedInv s) (pid : Int) : QueuedInv (s.wake pid) := by
  refine h.update rfl (fun q hq _ _ _ ↦ h.mem_wake.mpr (.inl hq)) fun q p' hp' hst ↦ ?_
  by_cases hq : q = pid
  · exact .inl (h.mem_wake.mpr (.inr hq))
  · rw [wake_other _ hq] at hp'
    exact .inr ⟨p', hp', hst⟩

/-- One process changes, and does not become `READY`. -/
theorem modify (h : QueuedInv s) {f : ProcessCDT → ProcessCDT}
    (hf : ∀ p, (f p).state = .READY → p.state = .READY) (pid : Int) :
    QueuedInv (s.modify pid f) := by
  refine h.update rfl (fun q hq _ _ _ ↦ hq) fun q p' hp' hst ↦ ?_
  obtain ⟨p, hp, rfl⟩ := modify_eq_some.mp hp'
  split at hst
  · exact .inr ⟨p, hp, hf p hst⟩
  · exact .inr ⟨p, hp, hst⟩

theorem setSem (h : QueuedInv s) (id : SemId) (r : SemRec) : QueuedInv (s.setSem id r) :=
  h.update rfl (fun _ hq _ _ _ ↦ hq) fun _ p' hp' hst ↦ .inr ⟨p', hp', hst⟩

theorem setCont (h : QueuedInv s) (cur : Int) (c : Cont) : QueuedInv (s.setCont cur c) :=
  h.modify (f := fun p ↦ { p with cont := c }) (fun _ hst ↦ hst) cur

theorem returnFrom (h : QueuedInv s) (id : SemId) (cur : Int) : QueuedInv (s.returnFrom id cur) :=
  h.setSem _ _

theorem post (h : QueuedInv s) (id : SemId) : QueuedInv (s.post id) := by
  have hposted : ∀ {u : Kernel} value rest woken, QueuedInv u →
      QueuedInv (u.posted id value rest woken) := fun _ _ _ hu ↦
    hu.update rfl (fun _ hq _ _ _ ↦ hq) fun _ p' hp' hst ↦ .inr ⟨p', hp', hst⟩
  rcases post_cases s id with ⟨_, _, -, -, -, heq⟩ | ⟨_, pid, _, _, -, -, -, -, -, -, heq⟩
  · rw [heq]
    exact hposted _ _ _ h
  · rw [heq]
    exact hposted _ _ _ (h.wake pid)

theorem frame (h : QueuedInv s) (hsame : SameCore s t) : QueuedInv t := by
  refine h.update hsame.nodes (fun q hq _ _ _ ↦ hsame.readyQueue ▸ hq) fun q p' hp' hst ↦ ?_
  obtain ⟨p, hp, -, hstate, -⟩ := hsame.eq_some hp'
  exact .inr ⟨p, hp, hstate.trans hst⟩

theorem dispatch (h : QueuedInv s) (ht : s.dispatch = some t) : QueuedInv t := by
  obtain ⟨next, p, rest, hnext, hp, rfl⟩ := dispatch_cases ht
  have htable : ∀ q p', (s.dispatched next p.inst rest).processTable q = some p' →
      p'.state = .READY → q ≠ next ∧ s.processTable q = some p' := by
    intro q p' hp' hst
    obtain ⟨p₀, hp₀, rfl⟩ := modify_eq_some.mp hp'
    split at hst
    · cases hst
    next hq => exact ⟨hq, by rw [if_neg hq]; exact hp₀⟩
  refine h.update rfl (fun q hq p' hp' hst ↦ ?_) fun q p' hp' hst ↦
    .inr ⟨p', (htable q p' hp' hst).2, hst⟩
  rcases hnext with hqueue | ⟨hqueue, -, -⟩
  · rw [hqueue] at hq
    exact (List.mem_cons.mp hq).resolve_left (htable q p' hp' hst).1
  · rw [hqueue] at hq
    cases hq

theorem schedule (h : QueuedInv s) (ht : s.schedule = some t) : QueuedInv t :=
  CoreRule.schedule_induction id frame (fun h _ _ ↦ h.wake _) (fun h _ _ ht ↦ h.dispatch ht) h ht

/-- One process leaves the queue, and is not `READY` any more. -/
theorem remove (h : QueuedInv s) {st : State} (hst : st ≠ .READY) (pid : Int) :
    QueuedInv ({ s with readyQueue := s.readyQueue.filter (· ≠ pid) }.setState pid st) := by
  have htable : ∀ q p', (({ s with readyQueue := s.readyQueue.filter (· ≠ pid) } : Kernel).setState
      pid st).processTable q = some p' → p'.state = .READY →
        q ≠ pid ∧ s.processTable q = some p' := by
    intro q p' hp' hready
    obtain ⟨p₀, hp₀, rfl⟩ := modify_eq_some.mp hp'
    split at hready
    · exact absurd hready hst
    next hq => exact ⟨hq, by rw [if_neg hq]; exact hp₀⟩
  refine h.update rfl (fun q hq p' hp' hready ↦ ?_) fun q p' hp' hready ↦
    .inr ⟨p', (htable q p' hp' hready).2, hready⟩
  exact List.mem_filter.mpr ⟨hq, by simpa using (htable q p' hp' hready).1⟩

theorem start (h : QueuedInv s) (pid ppid : Int) : QueuedInv (s.started 1 pid ppid) := by
  have hmem : ∀ q, q ∈ (s.started 1 pid ppid).readyQueue ↔ q ∈ s.readyQueue ∨ q = pid := by
    intro q
    simp only [started, enqueueReady, enqueue, if_pos h.nodes.readyQueue, List.mem_append,
      List.mem_singleton]
  refine h.update rfl (fun q hq _ _ _ ↦ (hmem q).mpr (.inl hq)) fun q p' hp' hst ↦ ?_
  simp only [started, enqueueReady] at hp'
  split at hp'
  next hq => exact .inl ((hmem q).mpr (.inr hq))
  · exact .inr ⟨p', hp', hst⟩

end QueuedInv

/-- The heap keeps room for the nodes of the queues that processes wait in. -/
def Event.KeepsNodes : Event → Prop
  | .heap nodes => nodes .readyQueue = true ∧ nodes .blockedQueue = true
  | _ => True

instance : (e : Event) → Decidable e.KeepsNodes
  | .heap nodes =>
      inferInstanceAs (Decidable (nodes .readyQueue = true ∧ nodes .blockedQueue = true))
  | .tick | .enableScheduler | .create | .exit _ | .kill _ _ | .ctrlC _ _ | .block _ | .unblock _
  | .yield | .nice _ _ | .foreground _ | .waitPid _ | .reapZombies | .waitAny | .semOpen _
  | .semWait _ | .semPost _ | .semTryWait _ | .resume => isTrue trivial

/-- Every update keeps the ready processes queued. -/
theorem queuedRule : CoreRule (fun _ e ↦ e.KeepsNodes) QueuedInv where
  frame := QueuedInv.frame
  post id h _ := h.post id
  take _ h _ := h.setSem _ _
  semOpen _ h := h.update rfl (fun _ hq _ _ _ ↦ hq) fun _ p' hp' hst ↦ .inr ⟨p', hp', hst⟩
  heap _ h hok := ⟨⟨hok.1, hok.2⟩, h.queued⟩
  setBlocked h _ _ _ ht := by
    rcases ht with ⟨-, rfl⟩ | ⟨-, rfl⟩
    · exact h.modify (fun _ hst ↦ State.noConfusion hst) _
    · exact h.remove (by simp) _
  unblock h _ _ _ _ := h.wake _
  exit h _ _ _ := h.setCont _ _
  waited h _ _ _ _ := h.setCont _ _
  polled h _ _ _ := h.setCont _ _
  returned h _ _ _ _ := (h.returnFrom _ _).setCont _ _
  block h _ _ _ _ _ _ ht :=
    ((h.modify (fun _ hst ↦ State.noConfusion hst) _).setSem _ _).schedule ht
  preempt h _ _ := h.wake _
  dispatch h _ _ ht := h.dispatch ht
  zombify h _ _ _ _ _ _ _ := by
    refine QueuedInv.post ?_ _
    exact (h.remove (show State.ZOMBIE ≠ .READY by simp) _).update rfl (fun _ hq _ _ _ ↦ hq)
      fun _ p' hp' hst ↦ .inr ⟨p', hp', hst⟩
  free h _ _ _ := by
    refine h.update rfl (fun _ hq _ _ _ ↦ hq) fun q p' hp' hst ↦ .inr ⟨p', ?_, hst⟩
    simp only [freed] at hp'
    split at hp'
    · cases hp'
    · exact hp'
  start h _ _ _ := h.start _ _

theorem queuedInv_init : QueuedInv initializeScheduler := by
  refine ⟨⟨rfl, rfl⟩, fun q p hp _ ↦ ?_⟩
  rw [init_readyQueue]
  rcases init_eq_some hp with ⟨rfl, -⟩ | ⟨rfl, -⟩ <;> simp

/-- What a state must be like so that nobody is lost there: whoever is `READY` is in the
ready queue, and whoever an operation preempts, wakes, blocks or creates is queued after it. -/
structure LosesNobody (k : Kernel) : Prop where
  ready : ∀ q p, k.processTable q = some p → p.state = .READY → q ∈ k.readyQueue
  /-- A process that `schedule` preempts is queued, unless it is dispatched at once. -/
  preempted : ∀ cur p t, k.current = some (cur, p) → p.state = .RUNNING → k.schedule = some t →
    t.currentProcess = some (cur, p.inst) ∨ cur ∈ t.readyQueue
  woken : ∀ pid t, k.setReady pid = some t → pid ∈ t.readyQueue
  blocked : ∀ cur p id, k.current = some (cur, p) → (k.wait id).2 = true →
    cur ∈ ((k.wait id).1.sems id).sem.blockedQueue
  created : ∀ t, k.startNewProcess 1 = some t → ∃ pid, k.findFreePid = some pid ∧
    pid ∈ t.readyQueue

/-- With room for their nodes, every operation queues whom it makes ready or blocks. -/
theorem QueuedInv.losesNobody (h : QueuedInv k) : LosesNobody k where
  ready := h.queued
  preempted cur p t hcur hrun ht := by
    obtain ⟨hpointer, hp⟩ := current_eq_some.mp hcur
    rcases schedule_cases ht with ⟨-, rfl⟩ | ⟨-, ⟨cur', p', -, -, -, rfl⟩ |
      ⟨cur', p', hcur', -, -, hdispatch⟩ | ⟨hnot, -⟩⟩
    · exact .inl hpointer
    · exact .inl hpointer
    · cases hcur.symm.trans hcur'
      have hmem : cur ∈ (k.wake cur).readyQueue := h.mem_wake.mpr (.inr rfl)
      obtain ⟨next, p₁, rest, hnext, hp₁, rfl⟩ := dispatch_cases hdispatch
      rcases hnext with hqueue | ⟨hqueue, -, -⟩
      · rw [hqueue] at hmem
        rcases List.mem_cons.mp hmem with rfl | hmem
        · rw [wake_self, hp] at hp₁
          cases hp₁
          exact .inl rfl
        · exact .inr hmem
      · rw [hqueue] at hmem
        cases hmem
    · rcases hnot with hnone | ⟨cur', p', hcur', hrun'⟩
      · rw [hnone] at hpointer
        cases hpointer
      · cases hcur.symm.trans hcur'
        exact absurd hrun hrun'
  woken pid t ht := by
    obtain ⟨-, -, rfl⟩ := setReady_eq_some ht
    exact h.mem_wake.mpr (.inr rfl)
  blocked cur p id hcur hwait := by
    rcases wait_cases (current_eq_some.mp hcur).1 id with ⟨-, heq⟩ | ⟨-, -, heq⟩
    · rw [heq] at hwait
      cases hwait
    · have hqueue := congrArg (fun u : Kernel ↦ (u.sems id).sem.blockedQueue) (heq .user)
      simp only [blockOn, setSem_self, enqueue, h.nodes.blockedQueue, if_true] at hqueue
      have hsems : ((k.wait id).1.setCont cur .user).sems = (k.wait id).1.sems := rfl
      rw [hsems] at hqueue
      rw [hqueue]
      exact List.mem_append_right _ List.mem_cons_self
  created t ht := by
    rcases startNewProcess_cases 1 k with hnone | ⟨pid, hfree, heq⟩
    · rw [hnone] at ht
      cases ht
    · rw [heq] at ht
      refine ⟨pid, hfree, ?_⟩
      have hnodes : (k.registered pid).2.nodes = k.nodes := by
        unfold registered
        split
        · split <;> rfl
        · rfl
      rw [← Option.some.inj ht]
      simp only [started, enqueueReady, enqueue, hnodes, if_pos h.nodes.readyQueue]
      exact List.mem_append_right _ List.mem_cons_self

/-! ## `init` -/

/-- `init` is in the queue of its semaphore if it is blocked. -/
def InitQueued (k : Kernel) : Prop :=
  ∀ p, k.processTable INIT_PID = some p → p.inst = 1 → p.state = .BLOCKED →
    INIT_PID ∈ (k.sems (.childTerminated 1)).sem.blockedQueue

namespace InitQueued

/-- Whatever `init` was blocked in, it is blocked in, and no one is taken from the queue. -/
theorem update (h : InitQueued s)
    (htable : ∀ p', t.processTable INIT_PID = some p' → p'.inst = 1 → p'.state = .BLOCKED →
      ∃ p, s.processTable INIT_PID = some p ∧ p.inst = 1 ∧ p.state = .BLOCKED)
    (hqueue : INIT_PID ∈ (s.sems (.childTerminated 1)).sem.blockedQueue →
      INIT_PID ∈ (t.sems (.childTerminated 1)).sem.blockedQueue) : InitQueued t := by
  intro p' hp' hinst hblocked
  obtain ⟨p, hp, hinst, hblocked⟩ := htable p' hp' hinst hblocked
  exact hqueue (h p hp hinst hblocked)

/-- A process changes that is not `init`, or `init` is not blocked afterwards if it was not. -/
theorem modify (h : InitQueued s) {f : ProcessCDT → ProcessCDT} (hinst : ∀ p, (f p).inst = p.inst)
    (hf : pid = INIT_PID → ∀ p, (f p).state = .BLOCKED → p.state = .BLOCKED) :
    InitQueued (s.modify pid f) := by
  refine h.update (fun p' hp' hone hblocked ↦ ?_) fun hq ↦ hq
  obtain ⟨p, hp, rfl⟩ := modify_eq_some.mp hp'
  refine ⟨p, hp, ?_⟩
  split at hblocked
  next heq =>
      rw [if_pos heq] at hone
      exact ⟨(hinst p).symm.trans hone, hf heq.symm p hblocked⟩
  next hne =>
      rw [if_neg hne] at hone
      exact ⟨hone, hblocked⟩

theorem setCont (h : InitQueued s) (cur : Int) (c : Cont) : InitQueued (s.setCont cur c) :=
  h.modify (f := fun p ↦ { p with cont := c }) (fun _ ↦ rfl) fun _ _ hblocked ↦ hblocked

theorem wake (h : InitQueued s) (pid : Int) : InitQueued (s.wake pid) := by
  have hstate : InitQueued (s.setState pid .READY) :=
    h.modify (fun _ ↦ rfl) fun _ _ hblocked ↦ State.noConfusion hblocked
  exact hstate

/-- A semaphore changes, and nobody is taken from its queue. -/
theorem setSem (h : InitQueued s) {r : SemRec}
    (hr : ∀ q ∈ (s.sems id).sem.blockedQueue, q ∈ r.sem.blockedQueue) :
    InitQueued (s.setSem id r) := by
  refine h.update (fun p hp hinst hblocked ↦ ⟨p, hp, hinst, hblocked⟩) fun hq ↦ ?_
  by_cases hj : .childTerminated 1 = id
  · subst hj
    rw [setSem_self]
    exact hr _ hq
  · rwa [setSem_other _ _ _ hj]

/-- A post takes those from the queue that are not blocked, and then wakes one. -/
theorem post (h : InitQueued s) (id : SemId) : InitQueued (s.post id) := by
  intro p' hp' hone hblocked
  obtain ⟨p, hp, hp'' | ⟨-, hready⟩⟩ := post_table hp'
  · subst hp''
    have hq := h p' hp hone hblocked
    by_cases hj : .childTerminated 1 = id
    · subst hj
      have halive : ∀ dead : List Int, (∀ d ∈ dead, s.setReady d = none) → INIT_PID ∉ dead :=
        fun dead hdead hmem ↦ setReady_eq_none (by decide) (hdead _ hmem) hp hblocked
      rcases post_cases s (.childTerminated 1) with ⟨dead, rest, hqueue, hdead, -, hpost⟩ |
        ⟨dead, pid, rest, _, hqueue, hdead, -, -, -, -, hpost⟩
      · rw [hqueue] at hq
        rw [hpost, posted_self]
        exact (List.mem_append.mp hq).resolve_left (halive dead hdead)
      · rw [hqueue] at hq
        rw [hpost, posted_self]
        rcases List.mem_cons.mp ((List.mem_append.mp hq).resolve_left (halive dead hdead)) with
          rfl | hq
        · -- then it has been woken
          rw [hpost, posted_processTable, wake_self, hp] at hp'
          rw [← Option.some.inj hp'] at hblocked
          cases hblocked
        · exact hq
    · rwa [post_sems_other hj]
  · rw [hready] at hblocked
    cases hblocked

theorem frame (h : InitQueued s) (hsame : SameCore s t) : InitQueued t := by
  refine h.update (fun p' hp' hone hblocked ↦ ?_) fun hq ↦ hsame.sems ▸ hq
  obtain ⟨p, hp, hinst, hstate, -⟩ := hsame.eq_some hp'
  exact ⟨p, hp, hinst.trans hone, hstate.trans hblocked⟩

theorem dispatch (h : InitQueued s) (ht : s.dispatch = some t) : InitQueued t := by
  obtain ⟨next, p, rest, -, -, rfl⟩ := dispatch_cases ht
  have hrun : InitQueued (s.modify next fun p ↦
      { p with state := .RUNNING, remainingQuantums := p.priorityLevel - 1 }) :=
    h.modify (fun _ ↦ rfl) fun _ _ hblocked ↦ State.noConfusion hblocked
  exact hrun

theorem schedule (h : InitQueued s) (ht : s.schedule = some t) : InitQueued t :=
  CoreRule.schedule_induction id frame (fun h _ _ ↦ h.wake _) (fun h _ _ ht ↦ h.dispatch ht) h ht

theorem free (h : InitQueued s) (expected : Option Nat) : InitQueued (s.freed pid p expected) := by
  refine h.update (fun p' hp' hone hblocked ↦ ⟨p', ?_, hone, hblocked⟩) fun hq ↦ hq
  simp only [freed] at hp'
  split at hp'
  · cases hp'
  · exact hp'

theorem start (h : InitQueued s) (pid ppid : Int) : InitQueued (s.started 1 pid ppid) := by
  refine h.update (fun p' hp' hone hblocked ↦ ⟨p', ?_, hone, hblocked⟩) fun hq ↦ hq
  simp only [started, enqueueReady] at hp'
  split at hp'
  · rw [← Option.some.inj hp'] at hblocked
    cases hblocked
  · exact hp'

end InitQueued

/-- Every update keeps `init` in the queue of its semaphore. -/
theorem initQueuedRule :
    CoreRule (fun _ e ↦ e.KeepsNodes) fun k ↦ QueuedInv k ∧ InitQueued k where
  frame h hsame := ⟨h.1.frame hsame, h.2.frame hsame⟩
  post id h _ := ⟨h.1.post id, h.2.post id⟩
  take id h hpos := ⟨queuedRule.take id h.1 hpos, h.2.setSem fun _ hq ↦ hq⟩
  semOpen value h := by
    refine ⟨queuedRule.semOpen value h.1, ?_⟩
    refine h.2.update (fun p hp hinst hblocked ↦ ⟨p, hp, hinst, hblocked⟩) fun hq ↦ ?_
    rwa [show ((_ : Kernel).sems (.childTerminated 1)) = _ from setSem_other _ _ _ (by simp)]
  heap nodes h hok := ⟨queuedRule.heap nodes h.1 hok, h.2⟩
  setBlocked {s} {_} {pid} {_} h hok hkillable hp ht := by
    refine ⟨queuedRule.setBlocked h.1 hok hkillable hp ht, ?_⟩
    have hblocked : InitQueued (s.setState pid .BLOCKED) :=
      h.2.modify (fun _ ↦ rfl) fun heq ↦ absurd (.inr heq) hkillable
    rcases ht with ⟨-, rfl⟩ | ⟨-, rfl⟩
    · exact hblocked
    · exact hblocked
  unblock h _ _ _ _ := ⟨h.1.wake _, h.2.wake _⟩
  exit h _ _ _ := ⟨h.1.setCont _ _, h.2.setCont _ _⟩
  waited h _ _ _ _ := ⟨h.1.setCont _ _, h.2.setCont _ _⟩
  polled h _ _ _ := ⟨h.1.setCont _ _, h.2.setCont _ _⟩
  returned {s} cur _ id c h _ _ _ _ := by
    have hreturned : InitQueued (s.returnFrom id cur) := h.2.setSem fun _ hq ↦ hq
    exact ⟨(h.1.returnFrom _ _).setCont _ _, hreturned.setCont _ _⟩
  block {s} {_} {_} {cur} {p} {id} {c} h hok hwaits hcur hcont hinst hle ht := by
    refine ⟨queuedRule.block h.1 hok hwaits hcur hcont hinst hle ht, InitQueued.schedule ?_ ht⟩
    intro p' hp' hone hblocked
    obtain ⟨p₀, hp₀, rfl⟩ := blockOn_eq_some.mp hp'
    by_cases hq : INIT_PID = cur
    · -- `init` joins the queue of its own semaphore
      subst hq
      obtain rfl := Option.some.inj ((current_eq_some.mp hcur).2.symm.trans hp₀)
      have hinit : p.inst = 1 := by
        rw [if_pos rfl] at hone
        exact hone
      obtain rfl : c = .waitAny := (hinst.resolve_left (by omega)).2
      cases hwaits with
      | waitAny hcur' =>
          cases hcur.symm.trans hcur'
          rw [hinit, blockOn_sems_self, enqueue, if_pos h.1.nodes.blockedQueue]
          exact List.mem_append_right _ List.mem_cons_self
    · rw [if_neg hq] at hone hblocked
      have hmem := h.2 p₀ hp₀ hone hblocked
      by_cases hj : SemId.childTerminated 1 = id
      · subst hj
        rw [blockOn_sems_self, enqueue, if_pos h.1.nodes.blockedQueue]
        exact List.mem_append_left _ hmem
      · rwa [blockOn_sems_other hj]
  preempt h _ _ := ⟨h.1.wake _, h.2.wake _⟩
  dispatch h _ _ ht := ⟨h.1.dispatch ht, h.2.dispatch ht⟩
  zombify {_} {s} {_} {pid} {_} {_} {_} h hok hpid hkillable hp hp' hinst hlive := by
    have hdead : InitQueued (s.setState pid .ZOMBIE) :=
      h.2.modify (fun _ ↦ rfl) fun _ _ hblocked ↦ State.noConfusion hblocked
    refine ⟨queuedRule.zombify h.1 hok hpid hkillable hp hp' hinst hlive, InitQueued.post ?_ _⟩
    exact hdead
  free h hok hreaps hp := ⟨queuedRule.free h.1 hok hreaps hp, h.2.free _⟩
  start h hok hsame hfree := ⟨queuedRule.start h.1 hok hsame hfree, h.2.start _ _⟩

end Kernel

/-! ## Runs -/

namespace Locks

open Kernel

variable {s t : Locks} {e : Kernel.Event} {p : ProcessCDT}

/-- What a state must be like so that nobody is lost there: nobody is lost in the kernel, and
`init`, if it is blocked, is in the queue of its semaphore or goes on to join it. -/
structure LosesNobody (s : Locks) : Prop where
  kernel : s.kernel.LosesNobody
  init : ∀ p, s.kernel.processTable INIT_PID = some p → p.inst = 1 → p.state = .BLOCKED →
    INIT_PID ∈ (s.kernel.sems (.childTerminated 1)).sem.blockedQueue ∨
      s.pc = .enqueue ∧ s.kernel.currentProcess = some (INIT_PID, 1)

/-- The heap keeps room for the nodes of the queues that processes wait in, and no tick comes while
`init` is blocked and not in its queue yet. -/
def KeepsQueued (s : Locks) : Event → Prop
  | .kernel .tick => s.pc ≠ .enqueue
  | .kernel e => e.KeepsNodes
  | .init => True

instance (s : Locks) : (e : Event) → Decidable (s.KeepsQueued e)
  | .kernel .tick => inferInstanceAs (Decidable (_ ≠ _))
  | .kernel (.heap nodes) => inferInstanceAs (Decidable (Kernel.Event.heap nodes).KeepsNodes)
  | .init | .kernel .enableScheduler | .kernel .create | .kernel (.exit _) | .kernel (.kill _ _)
  | .kernel (.ctrlC _ _) | .kernel (.block _) | .kernel (.unblock _) | .kernel .yield
  | .kernel (.nice _ _) | .kernel (.foreground _) | .kernel (.waitPid _) | .kernel .reapZombies
  | .kernel .waitAny | .kernel (.semOpen _) | .kernel (.semWait _) | .kernel (.semPost _)
  | .kernel (.semTryWait _) | .kernel .resume => isTrue trivial

/-- Whoever is `READY` is queued, and so is `init` if it is blocked, except between
`setCurrentBlocked` and `enqueue`, where it is the running process. -/
structure Queued (s : Locks) : Prop where
  kernel : s.kernel.QueuedInv
  init : s.pc ≠ .enqueue → s.kernel.InitQueued
  running : s.pc = .enqueue → s.kernel.currentProcess = some (INIT_PID, 1)

namespace Queued

theorem losesNobody (h : Queued s) : s.LosesNobody where
  kernel := h.kernel.losesNobody
  init p hp hone hblocked := by
    by_cases hpc : s.pc = .enqueue
    · exact .inr ⟨hpc, h.running hpc⟩
    · exact .inl (h.init hpc p hp hone hblocked)

/-- `init` is not where it would be blocked and not queued. -/
theorem of_pc (hk : t.kernel.QueuedInv ∧ t.kernel.InitQueued) (hpc : t.pc ≠ .enqueue) : Queued t :=
  ⟨hk.1, fun _ ↦ hk.2, fun heq ↦ absurd heq hpc⟩

/-- Only a tick takes the processor from `init`. -/
theorem currentProcess_of_init {k k' : Kernel} (hcur : k.currentProcess = some (INIT_PID, 1))
    (hof : e.ofInit k = false) (htick : e ≠ .tick) (ht : k.step e = some k') :
    k'.currentProcess = k.currentProcess := by
  cases e with
  | ctrlC pid closed =>
      simp only [Kernel.step] at ht
      split at ht
      · cases ht
      rw [← Option.some.inj ht, killFromIsr]
      cases hterm : k.terminate pid closed with
      | none => rfl
      | some u => exact terminate_currentProcess hterm
  | _ => exact (calm_of_init hcur hof (fun heq ↦ absurd heq htick) (by simp) ht).currentProcess

/-- An event of the kernel. -/
theorem step_kernel (h : Queued s) (hok : s.KeepsQueued (.kernel e))
    (ht : s.step (.kernel e) = some t) : Queued t := by
  rw [step] at ht
  split at ht
  · cases ht
  next hpossible =>
      obtain ⟨k', hk', rfl⟩ := Option.map_eq_some_iff.mp ht
      have hof : e.ofInit s.kernel = false := by simpa using (not_or.mp hpossible).1
      have hnodes : e.KeepsNodes := by
        cases e with
        | heap nodes => exact hok
        | _ => trivial
      refine ⟨queuedRule.step h.kernel hnodes hk', fun hpc ↦ ?_, fun hpc ↦ ?_⟩
      · exact (initQueuedRule.step ⟨h.kernel, h.init hpc⟩ hnodes hk').2
      · rw [← h.running hpc]
        refine currentProcess_of_init (h.running hpc) hof ?_ hk'
        rintro rfl
        exact hok hpc

/-- **A step of `init`.** -/
theorem initStep (h : Queued s) (hcur : s.kernel.current = some (INIT_PID, p)) (hinst : p.inst = 1)
    (ht : s.initStep p = some t) : Queued t := by
  have hpointer := (current_eq_some.mp hcur).1
  have hkernel : s.pc ≠ .enqueue → s.kernel.QueuedInv ∧ s.kernel.InitQueued :=
    fun hpc ↦ ⟨h.kernel, h.init hpc⟩
  have hacquire : ∀ (id : SemId) (pc : InitPc), s.pc ≠ .enqueue → pc ≠ .enqueue →
      Queued (s.acquire id pc) := by
    intro id pc hspc hpc
    unfold Locks.acquire
    split
    · exact h
    · exact of_pc (hkernel hspc) hpc
  have hfree : ∀ (id : SemId) (pc : InitPc), s.pc ≠ .enqueue → pc ≠ .enqueue →
      Queued (s.freeSemaphore id pc) := by
    intro id pc hspc hpc
    unfold Locks.freeSemaphore
    split
    · exact of_pc (hkernel hspc) hpc
    · exact of_pc (hkernel hspc) hpc
  have hreaps : Kernel.Event.reapZombies.Reaps s.kernel := trivial
  unfold Locks.initStep at ht
  dsimp only at ht
  split at ht
  next hpc =>
      obtain ⟨k', hk', rfl⟩ := Option.map_eq_some_iff.mp ht
      exact of_pc (initQueuedRule.stepRule.create (hkernel (by simp [hpc])) trivial hcur
        (Nat.le_of_eq hinst.symm) hk') (by simp)
  next hpc =>
      obtain rfl := Option.some.inj ht
      exact hacquire _ _ (by simp [hpc]) (by simp)
  next hpc =>
      obtain ⟨hq, hi⟩ := hkernel (by simp [hpc])
      have hset : ∀ r : SemRec, r.sem.blockedQueue = (s.kernel.sems
          (.childTerminated 1)).sem.blockedQueue →
          InitQueued (s.kernel.setSem (.childTerminated 1) r) :=
        fun r hr ↦ hi.setSem fun _ hmem ↦ hr ▸ hmem
      split at ht
      · obtain rfl := Option.some.inj ht
        exact of_pc ⟨hq.setSem _ _, hset _ rfl⟩ (by simp [Locks.setSem])
      · obtain rfl := Option.some.inj ht
        exact of_pc ⟨(hq.setSem _ _).setCont _ _, (hset _ rfl).setCont _ _⟩
          (by simp [Locks.setCont, Locks.setSem])
  next hpc =>
      obtain rfl := Option.some.inj ht
      have hblocked : s.kernel.setCurrentBlocked = s.kernel.setState INIT_PID .BLOCKED := by
        rw [setCurrentBlocked, hpointer]
      refine ⟨?_, fun hne ↦ absurd rfl hne, fun _ ↦ ?_⟩
      · show s.kernel.setCurrentBlocked.QueuedInv
        rw [hblocked]
        exact h.kernel.modify (fun _ hst ↦ State.noConfusion hst) _
      · show s.kernel.setCurrentBlocked.currentProcess = _
        rw [hblocked, ← hinst]
        exact hpointer
  next hpc =>
      obtain rfl := Option.some.inj ht
      refine of_pc ⟨(h.kernel.setSem _ _).setCont _ _, ?_⟩ (by simp [Locks.setCont, Locks.setSem])
      refine InitQueued.setCont (fun p hp hone hblocked ↦ ?_) _ _
      have hpid : s.kernel.getCurrentPID = INIT_PID := by rw [getCurrentPID, hpointer]
      rw [Locks.setSem, setSem_self, hpid, Kernel.enqueue, if_pos h.kernel.nodes.blockedQueue]
      exact List.mem_append_right _ List.mem_cons_self
  next mustBlock hpc =>
      obtain rfl := Option.some.inj ht
      refine of_pc (hkernel (by simp [hpc])) ?_
      show (if mustBlock = true then InitPc.forceSchedulerCall else .pollQueue) ≠ .enqueue
      split
      · simp
      · simp
  next hpc =>
      obtain ⟨k', hk', rfl⟩ := Option.map_eq_some_iff.mp ht
      obtain ⟨hq, hi⟩ := hkernel (by simp [hpc])
      exact of_pc ⟨hq.schedule hk', hi.schedule hk'⟩ (by simp)
  next hpc =>
      obtain rfl := Option.some.inj ht
      have hreturned : ∀ k : Kernel, k.QueuedInv ∧ k.InitQueued →
          ((k.setCont INIT_PID .user).pollTerminatedChildren INIT_PID p).2.QueuedInv ∧
            ((k.setCont INIT_PID .user).pollTerminatedChildren INIT_PID p).2.InitQueued := by
        intro k hk
        have huser := initQueuedRule.frame
          ⟨hk.1.setCont INIT_PID .user, hk.2.setCont INIT_PID .user⟩
          (SameCore.pollTerminatedChildren (k.setCont INIT_PID .user) INIT_PID p)
        exact huser
      refine of_pc (hreturned _ ?_) ?_
      · obtain ⟨hq, hi⟩ := hkernel (by simp [hpc])
        split
        · exact ⟨hq.returnFrom _ _, hi.setSem fun _ hmem ↦ hmem⟩
        · exact ⟨hq, hi⟩
      · have hpc : ∀ pid : Int, (if invalidPID pid then InitPc.acquire else .removeChild pid) ≠
            .enqueue := by
          intro pid
          split
          · simp
          · simp
        exact hpc _
  next pid hpc =>
      obtain rfl := Option.some.inj ht
      refine of_pc (initQueuedRule.frame (hkernel (by simp [hpc])) (.modify ?_ _ _)) (by simp)
      exact fun _ ↦ rfl
  next pid hpc =>
      split at ht
      · obtain rfl := Option.some.inj ht
        exact of_pc (hkernel (by simp [hpc])) (by simp)
      · obtain rfl := Option.some.inj ht
        exact hacquire _ _ (by simp [hpc]) (by simp)
  next pid inst hpc =>
      obtain rfl := Option.some.inj ht
      exact hfree _ _ (by simp [hpc]) (by simp)
  next pid inst hpc =>
      obtain rfl := Option.some.inj ht
      exact hacquire _ _ (by simp [hpc]) (by simp)
  next pid inst hpc =>
      obtain rfl := Option.some.inj ht
      exact hfree _ _ (by simp [hpc]) (by simp)
  next pid inst hpc =>
      obtain rfl := Option.some.inj ht
      exact of_pc (initQueuedRule.moveRule.reapProcess (e := .reapZombies) (hkernel (by simp [hpc]))
        trivial hreaps pid none) (by simp)

theorem step (h : Queued s) {ev : Event} (hok : s.KeepsQueued ev) (ht : s.step ev = some t) :
    Queued t := by
  cases ev with
  | kernel e => exact h.step_kernel hok ht
  | init =>
      obtain ⟨c, hc, ht⟩ := Option.bind_eq_some_iff.mp ht
      obtain ⟨hcurrent, hcond⟩ := Option.filter_eq_some_iff.mp hc
      obtain ⟨cur, p⟩ := c
      obtain ⟨rfl, hinst⟩ : cur = INIT_PID ∧ p.inst = 1 := by simpa using hcond
      exact h.initStep hcurrent hinst ht

theorem queued_init : Queued Locks.init := by
  refine of_pc ⟨queuedInv_init, fun p hp _ hblocked ↦ ?_⟩ (by simp [Locks.init])
  rcases init_eq_some hp with ⟨-, rfl⟩ | ⟨-, rfl⟩
  · cases hblocked
  · cases hblocked

end Queued

/-- A tick finds `init` between `setCurrentBlocked` and `enqueue`: it is blocked, in no queue, and
another process runs. -/
theorem init_lost : ∃ s : Locks, Reach Locks.step (fun _ e ↦ ∀ k, e = .kernel k → k.KeepsNodes)
    Locks.init s ∧ (s.kernel.processTable INIT_PID).map ProcessCDT.state = some .BLOCKED ∧
      s.kernel.readyQueue = [2] ∧ (s.kernel.sems (.childTerminated 1)).sem.blockedQueue = [] ∧
      s.kernel.currentProcess = some (IDLE_PID, 0) := by
  let es : List Event := [.kernel .enableScheduler, .kernel .tick, .kernel .tick] ++
    List.replicate 4 .init ++ [.kernel .tick]
  have hrun : (run Locks.step Locks.init es).map (fun s ↦
      decide ((s.kernel.processTable INIT_PID).map ProcessCDT.state = some .BLOCKED ∧
        s.kernel.readyQueue = [2] ∧ (s.kernel.sems (.childTerminated 1)).sem.blockedQueue = [] ∧
        s.kernel.currentProcess = some (IDLE_PID, 0))) = some true := by decide +kernel
  obtain ⟨s, hrun, hobs⟩ := Option.map_eq_some_iff.mp hrun
  refine ⟨s, .of_run hrun (Guarded.of_forall (fun e he k hk ↦ ?_) _), of_decide_eq_true hobs⟩
  subst hk
  simp [es] at he
  rcases he with rfl | rfl
  · trivial
  · trivial

end Locks

end BareBones.Process
