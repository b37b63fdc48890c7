import BareBones.Process.KernelRule
import BareBones.Process.Spinlocks

/-!
# The place of `init`

`init` alone calls `wait_any`, and nothing but a post of its own `childTerminated` brings it
back: neither `sys_block` nor `sys_unblock` nor a signal reaches it.  So wherever a run goes,
with any events and whatever the heap refuses, `init` is in the ready queue only if it is
`READY`, in the queue of a semaphore only if it is blocked there, and once it is inside the
`semWait` of `wait_any` it does not go on before a post has woken it.  `InitInv` says so of
the block that `initializeScheduler` makes for `init`, the number 1; of the semaphores
`childTerminated` of all other processes, it says that nobody ever waits there.

**Key results**

- `initRule`: every update of the kernel keeps the invariant, except those that are steps of `init`
  in its `wait_any`.
- `initInv_init`: the first state has it.
-/

namespace BareBones.Process.Kernel

open BareBones.Lib BareBones.Semaphores

variable {k s t : Kernel} {e : Event} {pid q cur : Int} {p p' : ProcessCDT} {id : SemId}

/-- The event is no step of `init` in its `wait_any`. -/
def Event.SparesInit (k : Kernel) (e : Event) : Prop := e.ofInit k = true → e = .create

/-! ## The invariant -/

/-- The process `p` is `init`, and is where it should be. -/
structure InitPlace (k : Kernel) (p : ProcessCDT) : Prop where
  live : p.Live
  ready_once : k.readyQueue.count INIT_PID ≤ 1
  ready : INIT_PID ∈ k.readyQueue → p.state = .READY
  queued_once : ∀ id, (k.sems id).sem.blockedQueue.count INIT_PID ≤ 1
  queued : ∀ id, INIT_PID ∈ (k.sems id).sem.blockedQueue →
    id = .childTerminated 1 ∧ p.state = .BLOCKED
  /-- It has been woken, or still sleeps. -/
  waits : p.cont = .waitAny →
    INIT_PID ∈ (k.sems (.childTerminated 1)).pending ∨ p.state = .BLOCKED

/-- The invariant of `init`. -/
structure InitInv (k : Kernel) : Prop where
  enabled : k.currentProcess ≠ none → k.schedulerEnabled = true
  next : 2 ≤ k.nextInst
  place : ∀ q p, k.processTable q = some p → p.inst = 1 → q = INIT_PID ∧ k.InitPlace p
  conts : ∀ q p, k.processTable q = some p → p.cont = .waitAny ∨ p.cont = .polling → p.inst = 1
  queues : ∀ inst q, q ∈ (k.sems (.childTerminated inst)).sem.blockedQueue ∨
    q ∈ (k.sems (.childTerminated inst)).pending → inst = 1 ∧ q = INIT_PID

/-- `init` keeps its place if it stays as it is and joins no queue. -/
theorem InitPlace.mono (h : s.InitPlace p) (hstate : p'.state = p.state)
    (hcont : p'.cont = .waitAny → p.cont = .waitAny)
    (hready : t.readyQueue.count INIT_PID ≤ s.readyQueue.count INIT_PID)
    (hqueue : ∀ id, (t.sems id).sem.blockedQueue.count INIT_PID ≤
      (s.sems id).sem.blockedQueue.count INIT_PID)
    (hpending : INIT_PID ∈ (s.sems (.childTerminated 1)).pending →
      INIT_PID ∈ (t.sems (.childTerminated 1)).pending) : t.InitPlace p' where
  live := by
    rw [ProcessCDT.Live, hstate]
    exact h.live
  ready_once := Nat.le_trans hready h.ready_once
  ready hmem := by
    rw [hstate]
    exact h.ready (List.count_pos_iff.mp (Nat.lt_of_lt_of_le (List.count_pos_iff.mpr hmem) hready))
  queued_once id := Nat.le_trans (hqueue id) (h.queued_once id)
  queued id hmem := by
    rw [hstate]
    exact h.queued id
      (List.count_pos_iff.mp (Nat.lt_of_lt_of_le (List.count_pos_iff.mpr hmem) (hqueue id)))
  waits hwaits := by
    rw [hstate]
    exact (h.waits (hcont hwaits)).imp_left hpending

namespace InitInv

/-- An update that creates nobody. -/
theorem update (h : InitInv s)
    (henabled : t.currentProcess ≠ none → t.schedulerEnabled = true)
    (hnext : s.nextInst ≤ t.nextInst)
    (htable : ∀ q p', t.processTable q = some p' → ∃ p, s.processTable q = some p ∧
      p'.inst = p.inst ∧ (p'.cont = .waitAny ∨ p'.cont = .polling → p.inst = 1))
    (hmem : ∀ inst q, q ∈ (t.sems (.childTerminated inst)).sem.blockedQueue ∨
      q ∈ (t.sems (.childTerminated inst)).pending → inst = 1 ∧ q = INIT_PID)
    (hplace : ∀ p p', s.processTable INIT_PID = some p → t.processTable INIT_PID = some p' →
      p.inst = 1 → s.InitPlace p → t.InitPlace p') : InitInv t where
  enabled := henabled
  next := Nat.le_trans h.next hnext
  place q p' hp' hinst := by
    obtain ⟨p, hp, heq, -⟩ := htable q p' hp'
    have hone : p.inst = 1 := heq.symm.trans hinst
    obtain ⟨rfl, hinit⟩ := h.place q p hp hone
    exact ⟨rfl, hplace p p' hp hp' hone hinit⟩
  conts q p' hp' hc := by
    obtain ⟨p, -, heq, hcont⟩ := htable q p' hp'
    exact heq.trans (hcont hc)
  queues := hmem

/-- An update of the processes in the table that leaves `init` as it is. -/
theorem table (h : InitInv s) (hsems : t.sems = s.sems) (hready : t.readyQueue = s.readyQueue)
    (hcur : t.currentProcess = s.currentProcess)
    (henabled : s.schedulerEnabled = true → t.schedulerEnabled = true)
    (hnext : s.nextInst ≤ t.nextInst)
    (htable : ∀ q p', t.processTable q = some p' → ∃ p, s.processTable q = some p ∧
      p'.inst = p.inst ∧ (p'.cont = .waitAny ∨ p'.cont = .polling → p'.cont = p.cont) ∧
        (p.inst = 1 → p'.state = p.state)) : InitInv t := by
  refine h.update (fun hne ↦ henabled (h.enabled (hcur ▸ hne))) hnext (fun q p' hp' ↦ ?_)
    (fun inst q hq ↦ ?_) fun p p' hp hp' hone hplace ↦ ?_
  · obtain ⟨p, hp, hinst, hcont, -⟩ := htable q p' hp'
    refine ⟨p, hp, hinst, fun hc ↦ h.conts q p hp ?_⟩
    rwa [hcont hc] at hc
  · rw [hsems] at hq
    exact h.queues inst q hq
  · obtain ⟨p₀, hp₀, -, hcont, hstate⟩ := htable _ p' hp'
    obtain rfl := Option.some.inj (hp.symm.trans hp₀)
    refine hplace.mono (hstate hone) (fun hc ↦ (hcont (.inl hc)).symm.trans hc) ?_ ?_ ?_
    · rw [hready]
    · intro id
      rw [hsems]
    · rw [hsems]
      exact fun hq ↦ hq

theorem frame (h : InitInv s) (hsame : SameCore s t) : InitInv t := by
  refine h.table hsame.sems hsame.readyQueue hsame.currentProcess hsame.enabled
    (Nat.le_of_eq hsame.nextInst.symm) fun q p' hp' ↦ ?_
  obtain ⟨p, hp, hinst, hstate, hcont⟩ := hsame.eq_some hp'
  exact ⟨p, hp, hinst.symm, fun _ ↦ hcont.symm, fun _ ↦ hstate.symm⟩

/-- A process changes that is not `init`. -/
theorem modify (h : InitInv s) {f : ProcessCDT → ProcessCDT} (hinst : ∀ p, (f p).inst = p.inst)
    (hcont : ∀ p, (f p).cont = .waitAny ∨ (f p).cont = .polling → (f p).cont = p.cont)
    (hstate : ∀ p, s.processTable pid = some p → p.inst = 1 → (f p).state = p.state) :
    InitInv (s.modify pid f) := by
  refine h.table rfl rfl rfl (fun hon ↦ hon) (Nat.le_refl _) fun q p' hp' ↦ ?_
  obtain ⟨p, hp, rfl⟩ := modify_eq_some.mp hp'
  by_cases hq : q = pid
  · subst hq
    rw [if_pos rfl]
    exact ⟨p, hp, hinst p, hcont p, hstate p hp⟩
  · rw [if_neg hq]
    exact ⟨p, hp, rfl, fun _ ↦ rfl, fun _ ↦ rfl⟩

/-- A semaphore changes: nobody joins it, and whom it has woken it remembers. -/
theorem setSem (h : InitInv s) {r : SemRec}
    (hqueue : r.sem.blockedQueue.Sublist (s.sems id).sem.blockedQueue)
    (hpending : ∀ q ∈ r.pending, q ∈ (s.sems id).pending ∨ q ∈ (s.sems id).sem.blockedQueue)
    (hkeeps : INIT_PID ∈ (s.sems id).pending → INIT_PID ∈ r.pending) :
    InitInv (s.setSem id r) := by
  refine h.update h.enabled (Nat.le_refl _) (fun q p hp ↦ ⟨p, hp, rfl, h.conts q p hp⟩)
    (fun inst q hq ↦ h.queues inst q ?_) fun p p' hp hp' _ hplace ↦ ?_
  · by_cases hj : .childTerminated inst = id
    · subst hj
      rw [setSem_self] at hq
      rcases hq with hq | hq
      · exact .inl (hqueue.subset hq)
      · exact (hpending q hq).symm
    · rwa [setSem_other _ _ _ hj] at hq
  · obtain rfl := Option.some.inj (hp.symm.trans hp')
    refine hplace.mono rfl (fun hc ↦ hc) (Nat.le_refl _) (fun j ↦ ?_) fun hmem ↦ ?_
    · by_cases hj : j = id
      · subst hj
        rw [setSem_self]
        exact hqueue.count_le _
      · rw [setSem_other _ _ _ hj]
    · by_cases hj : .childTerminated 1 = id
      · subst hj
        rw [setSem_self]
        exact hkeeps hmem
      · rwa [setSem_other _ _ _ hj]

theorem take (h : InitInv s) (id : SemId) : InitInv (s.take id) :=
  h.setSem (List.Sublist.refl _) (fun _ hq ↦ .inl hq) fun hq ↦ hq

/-- A process that is not `init` is woken. -/
theorem wake (h : InitInv s) (hpid : ∀ p, s.processTable pid = some p → p.inst ≠ 1) :
    InitInv (s.wake pid) := by
  refine h.update h.enabled (Nat.le_refl _) (fun q p' hp' ↦ ?_) h.queues
    fun p p' hp hp' hone hplace ↦ ?_
  · obtain ⟨p, hp, rfl⟩ := modify_eq_some.mp hp'
    refine ⟨p, hp, ?_, fun hc ↦ h.conts q p hp ?_⟩
    · split <;> rfl
    · split at hc <;> exact hc
  · have hne : INIT_PID ≠ pid := by
      rintro rfl
      exact hpid p hp hone
    rw [wake_other _ hne, hp] at hp'
    obtain rfl := Option.some.inj hp'
    refine hplace.mono rfl (fun hc ↦ hc) ?_ (fun _ ↦ Nat.le_refl _) fun hq ↦ hq
    rw [wake_readyQueue, enqueue]
    split
    · have hzero : [pid].count INIT_PID = 0 :=
        List.count_eq_zero_of_not_mem (by simpa using hne)
      rw [List.count_append, hzero, Nat.add_zero]
    · exact Nat.le_refl _

/-- A post drops pids from the queue, and maybe takes the first one left off it. -/
theorem posted (h : InitInv s) {dead rest : List Int} (woken : Option (Int × ProcessCDT))
    (hqueue : (s.sems id).sem.blockedQueue = dead ++ (woken.map Prod.fst).toList ++ rest)
    (value : Int) : InitInv (s.posted id value rest woken) := by
  have hset : InitInv (s.setSem id { s.sems id with
      sem := ⟨value, rest⟩
      posts := (s.sems id).posts + 1
      grants := (s.sems id).grants + woken.toList.length
      pending := (s.sems id).pending ++ (woken.map Prod.fst).toList }) := by
    refine h.setSem ?_ (fun q hq ↦ ?_) fun hq ↦ List.mem_append_left _ hq
    · rw [hqueue]
      exact List.sublist_append_right _ _
    · rcases List.mem_append.mp hq with hq | hq
      · exact .inl hq
      · rw [hqueue]
        exact .inr (List.mem_append_left _ (List.mem_append_right _ hq))
  exact hset.table rfl rfl rfl (fun hon ↦ hon) (Nat.le_refl _)
    fun q p hp ↦ ⟨p, hp, rfl, fun _ ↦ rfl, fun _ ↦ rfl⟩

/-- `init` is woken, when it is in no queue any more. -/
theorem wake_init (h : InitInv s) (hp : s.processTable INIT_PID = some p)
    (hready : INIT_PID ∉ s.readyQueue) (hqueue : ∀ id, INIT_PID ∉ (s.sems id).sem.blockedQueue)
    (hwaits : p.cont = .waitAny → INIT_PID ∈ (s.sems (.childTerminated 1)).pending) :
    InitInv (s.wake INIT_PID) := by
  refine h.update h.enabled (Nat.le_refl _) (fun q p' hp' ↦ ?_) h.queues
    fun p₀ p' hp₀ hp' hone hplace ↦ ?_
  · obtain ⟨p, hp, rfl⟩ := modify_eq_some.mp hp'
    refine ⟨p, hp, ?_, fun hc ↦ h.conts q p hp ?_⟩
    · split <;> rfl
    · split at hc <;> exact hc
  · rw [wake_self, hp] at hp'
    obtain rfl := Option.some.inj hp'
    refine ⟨by simp [ProcessCDT.Live], ?_, fun _ ↦ rfl, hplace.queued_once,
      fun id hmem ↦ absurd hmem (hqueue id), fun hc ↦ .inl (hwaits hc)⟩
    have hzero : s.readyQueue.count INIT_PID = 0 := List.count_eq_zero_of_not_mem hready
    rw [wake_readyQueue, enqueue]
    split
    · rw [List.count_append, hzero, List.count_singleton_self]
    · rw [hzero]
      exact Nat.zero_le 1

theorem post (h : InitInv s) (id : SemId) : InitInv (s.post id) := by
  rcases post_cases s id with ⟨dead, rest, hqueue, -, -, hpost⟩ |
    ⟨dead, pid, rest, p, hqueue, -, -, hp, hblocked, -, hpost⟩
  · rw [hpost]
    exact h.posted none (by simpa using hqueue) _
  · rw [hpost]
    have hposted := h.posted (some (pid, p)) (by simpa using hqueue)
      ((s.sems id).sem.value + 1 + dead.length)
    by_cases hone : p.inst = 1
    · obtain ⟨rfl, hplace⟩ := h.place pid p hp hone
      obtain ⟨rfl, -⟩ := hplace.queued id (by rw [hqueue]; simp)
      refine hposted.wake_init hp (fun hmem ↦ ?_) (fun j hmem ↦ ?_) fun _ ↦ ?_
      · cases (hplace.ready hmem).symm.trans hblocked
      · by_cases hj : j = .childTerminated 1
        · -- the queue had the pid once
          subst hj
          rw [posted_self] at hmem
          have honce := hplace.queued_once (.childTerminated 1)
          rw [hqueue, List.count_append, List.count_cons_self] at honce
          have hpos : 0 < rest.count INIT_PID := List.count_pos_iff.mpr hmem
          omega
        · rw [posted_other _ _ _ _ _ hj] at hmem
          exact hj (hplace.queued j hmem).1
      · rw [posted_self]
        simp
    · refine hposted.wake fun p' hp' ↦ ?_
      obtain rfl := Option.some.inj (hp.symm.trans hp')
      exact hone

theorem semOpen (h : InitInv s) (value : Int) :
    InitInv { s.setSem (.user s.nextSem) (.new value) with nextSem := s.nextSem + 1 } := by
  have hsems : ∀ inst, (s.setSem (.user s.nextSem) (.new value)).sems (.childTerminated inst) =
      s.sems (.childTerminated inst) := fun inst ↦ setSem_other _ _ _ (by simp)
  refine h.update h.enabled (Nat.le_refl _) (fun q p hp ↦ ⟨p, hp, rfl, h.conts q p hp⟩)
    (fun inst q hq ↦ h.queues inst q ?_) fun p p' hp hp' _ hplace ↦ ?_
  · rw [← hsems]
    exact hq
  · obtain rfl := Option.some.inj (hp.symm.trans hp')
    refine hplace.mono rfl (fun hc ↦ hc) (Nat.le_refl _) (fun j ↦ ?_) fun hmem ↦ ?_
    · show ((s.setSem _ _).sems j).sem.blockedQueue.count INIT_PID ≤ _
      by_cases hj : j = .user s.nextSem
      · rw [hj, setSem_self]
        exact Nat.zero_le _
      · rw [setSem_other _ _ _ hj]
    · rw [← hsems] at hmem
      exact hmem

/-! ### The scheduler -/

/-- The running process is preempted. -/
theorem preempt (h : InitInv s) (hcur : s.current = some (cur, p)) (hrun : p.state = .RUNNING) :
    InitInv (s.wake cur) := by
  obtain ⟨-, hp⟩ := current_eq_some.mp hcur
  by_cases hone : p.inst = 1
  · obtain ⟨rfl, hplace⟩ := h.place cur p hp hone
    refine h.wake_init hp (fun hmem ↦ ?_) (fun id hmem ↦ ?_) fun hc ↦ ?_
    · cases (hplace.ready hmem).symm.trans hrun
    · cases (hplace.queued id hmem).2.symm.trans hrun
    · refine (hplace.waits hc).resolve_right fun hblocked ↦ ?_
      cases hblocked.symm.trans hrun
  · refine h.wake fun p' hp' ↦ ?_
    obtain rfl := Option.some.inj (hp.symm.trans hp')
    exact hone

/-- The process that is dispatched was in the ready queue, or it is the idle process. -/
theorem dispatch (h : InitInv s) (hon : s.schedulerEnabled = true)
    (ht : s.dispatch = some t) : InitInv t := by
  obtain ⟨next, p, rest, hnext, hp, rfl⟩ := dispatch_cases ht
  have hsub : rest.Sublist s.readyQueue := by
    rcases hnext with hqueue | ⟨-, -, rfl⟩
    · rw [hqueue]
      exact List.sublist_cons_self _ _
    · exact List.nil_sublist _
  refine h.update (fun _ ↦ hon) (Nat.le_refl _) (fun q p' hp' ↦ ?_) h.queues
    fun p₀ p' hp₀ hp' hone hplace ↦ ?_
  · obtain ⟨p, hp, rfl⟩ := modify_eq_some.mp hp'
    refine ⟨p, hp, ?_, fun hc ↦ h.conts q p hp ?_⟩
    · split <;> rfl
    · split at hc <;> exact hc
  · obtain ⟨p₁, hp₁, rfl⟩ := modify_eq_some.mp hp'
    obtain rfl := Option.some.inj (hp₀.symm.trans hp₁)
    by_cases heq : INIT_PID = next
    · subst heq
      rcases hnext with hqueue | ⟨-, hidle, -⟩
      · have hready := hplace.ready (by rw [hqueue]; exact List.mem_cons_self)
        have honce := hplace.ready_once
        rw [hqueue, List.count_cons_self] at honce
        have hrest : INIT_PID ∉ rest := fun hmem ↦ by
          have hpos : 0 < rest.count INIT_PID := List.count_pos_iff.mpr hmem
          omega
        rw [if_pos rfl]
        refine ⟨by simp [ProcessCDT.Live], ?_, fun hmem ↦ absurd hmem hrest, hplace.queued_once,
          fun id hmem ↦ ?_, fun hc ↦ .inl ?_⟩
        · show rest.count INIT_PID ≤ 1
          omega
        · cases (hplace.queued id hmem).2.symm.trans hready
        · refine (hplace.waits hc).resolve_right fun hblocked ↦ ?_
          cases hblocked.symm.trans hready
      · cases hidle
    · rw [if_neg heq]
      exact hplace.mono rfl (fun hc ↦ hc) (hsub.count_le _) (fun _ ↦ Nat.le_refl _) fun hq ↦ hq

theorem schedule (h : InitInv s) (ht : s.schedule = some t) : InitInv t := by
  rcases schedule_cases ht with ⟨-, rfl⟩ | ⟨hon, ⟨cur, p, -, -, -, rfl⟩ |
    ⟨cur, p, hcur, hrun, -, hdispatch⟩ | ⟨-, hdispatch⟩⟩
  · exact h
  · refine h.frame (.modify ?_ _ _)
    exact fun _ ↦ rfl
  · exact (h.preempt hcur hrun).dispatch hon hdispatch
  · exact h.dispatch hon hdispatch

/-! ### Processes -/

/-- A process that is not `init` moves on. -/
theorem setCont (h : InitInv s) {c : Cont} (hc : c ≠ .waitAny ∧ c ≠ .polling) (cur : Int) :
    InitInv (s.setCont cur c) :=
  h.modify (f := fun p ↦ { p with cont := c }) (fun _ ↦ rfl)
    (fun _ hcont ↦ absurd hcont fun hor ↦ hor.elim hc.1 hc.2) fun _ _ _ ↦ rfl

/-- `init` moves on, and does not wait any more. -/
theorem setCont_init (h : InitInv s) (hp : s.processTable INIT_PID = some p) (hone : p.inst = 1)
    {c : Cont} (hc : c ≠ .waitAny) : InitInv (s.setCont INIT_PID c) := by
  refine h.update h.enabled (Nat.le_refl _) (fun q p' hp' ↦ ?_) h.queues
    fun p₀ p' hp₀ hp' _ hplace ↦ ?_
  · obtain ⟨p₀, hp₀, rfl⟩ := modify_eq_some.mp hp'
    by_cases hq : q = INIT_PID
    · subst hq
      obtain rfl := Option.some.inj (hp.symm.trans hp₀)
      rw [if_pos rfl]
      exact ⟨p, hp, rfl, fun _ ↦ hone⟩
    · rw [if_neg hq]
      exact ⟨p₀, hp₀, rfl, h.conts q p₀ hp₀⟩
  · obtain ⟨p₁, hp₁, rfl⟩ := modify_eq_some.mp hp'
    obtain rfl := Option.some.inj (hp₀.symm.trans hp₁)
    rw [if_pos rfl]
    exact hplace.mono rfl (fun hwaits ↦ absurd hwaits hc) (Nat.le_refl _)
      (fun _ ↦ Nat.le_refl _) fun hq ↦ hq

/-- A process returns from its `semWait`. -/
theorem returned (h : InitInv s) (hcur : s.current = some (cur, p)) (hid : p.waitsOn = some id)
    {c : Cont} (hc : c = .user ∧ p.cont ≠ .waitAny ∨ c = .polling ∧ p.cont = .waitAny) :
    InitInv ((s.returnFrom id cur).setCont cur c) := by
  obtain ⟨-, hp⟩ := current_eq_some.mp hcur
  -- once the process has moved on, the semaphore may forget it
  have herase : ∀ {u : Kernel}, InitInv u → u.sems = s.sems →
      (∀ p', u.processTable INIT_PID = some p' → p'.inst = 1 → p'.cont = .waitAny →
        cur ≠ INIT_PID) →
      InitInv (u.returnFrom id cur) := by
    intro u hu hsems hwaits
    refine hu.update hu.enabled (Nat.le_refl _) (fun q p hp ↦ ⟨p, hp, rfl, hu.conts q p hp⟩)
      (fun inst q hq ↦ hu.queues inst q ?_) fun p₀ p' hp₀ hp' hone hplace ↦ ?_
    · by_cases hj : .childTerminated inst = id
      · subst hj
        simp only [returnFrom, setSem_self] at hq
        exact hq.imp_right List.mem_of_mem_erase
      · simpa only [returnFrom, setSem_other _ _ _ hj] using hq
    · obtain rfl := Option.some.inj (hp₀.symm.trans hp')
      have hqueue : ∀ j, ((u.returnFrom id cur).sems j).sem = (u.sems j).sem := by
        intro j
        by_cases hj : j = id
        · subst hj
          simp only [returnFrom, setSem_self]
        · simp only [returnFrom, setSem_other _ _ _ hj]
      refine ⟨hplace.live, hplace.ready_once, hplace.ready, fun j ↦ ?_, fun j hj ↦ ?_,
        fun hc ↦ ?_⟩
      · rw [hqueue]
        exact hplace.queued_once j
      · rw [hqueue] at hj
        exact hplace.queued j hj
      · refine (hplace.waits hc).imp_left fun hmem ↦ ?_
        by_cases hj : .childTerminated 1 = id
        · subst hj
          simp only [returnFrom, setSem_self]
          exact (List.mem_erase_of_ne (hwaits p₀ hp₀ hone hc).symm).mpr hmem
        · simpa only [returnFrom, setSem_other _ _ _ hj] using hmem
  rcases hc with ⟨rfl, hcont⟩ | ⟨rfl, hcont⟩
  · have hmoved : InitInv (s.setCont cur .user) := h.setCont (by simp) cur
    refine herase hmoved rfl fun p' hp' _ hwaits heq ↦ ?_
    subst heq
    obtain ⟨p₀, -, rfl⟩ := modify_eq_some.mp hp'
    rw [if_pos rfl] at hwaits
    cases hwaits
  · have hone := h.conts cur p hp (.inl hcont)
    obtain ⟨rfl, -⟩ := h.place cur p hp hone
    refine herase (h.setCont_init hp hone (c := .polling) (by simp)) rfl fun p' hp' _ hwaits ↦ ?_
    obtain ⟨p₀, -, rfl⟩ := modify_eq_some.mp hp'
    rw [if_pos rfl] at hwaits
    cases hwaits

/-- `init` stops in the `semWait` of `wait_any`. -/
theorem blockOn_init (h : InitInv s)
    (hp : s.processTable INIT_PID = some p) (hone : p.inst = 1)
    (hnowhere : ∀ j, INIT_PID ∉ (s.sems j).sem.blockedQueue) (hready : INIT_PID ∉ s.readyQueue) :
    InitInv (s.blockOn (.childTerminated 1) INIT_PID .waitAny) := by
  refine h.update h.enabled (Nat.le_refl _) (fun q p' hp' ↦ ?_) (fun inst q hq ↦ ?_)
    fun p₀ p' hp₀ hp' _ hplace ↦ ?_
  · obtain ⟨p₀, hp₀, rfl⟩ := blockOn_eq_some.mp hp'
    by_cases hq : q = INIT_PID
    · subst hq
      obtain rfl := Option.some.inj (hp.symm.trans hp₀)
      rw [if_pos rfl]
      exact ⟨p, hp, rfl, fun _ ↦ hone⟩
    · rw [if_neg hq]
      exact ⟨p₀, hp₀, rfl, h.conts q p₀ hp₀⟩
  · rcases hq with hq | hq
    · rcases mem_blockOn hq with hold | ⟨hj, rfl⟩
      · exact h.queues inst q (.inl hold)
      · exact ⟨SemId.childTerminated.inj hj, rfl⟩
    · exact h.queues inst q (.inr (blockOn_pending ▸ hq))
  · obtain ⟨p₁, hp₁, rfl⟩ := blockOn_eq_some.mp hp'
    rw [if_pos rfl]
    refine ⟨by simp [ProcessCDT.Live], hplace.ready_once, fun hmem ↦ absurd hmem hready,
      fun j ↦ ?_, fun j hmem ↦ ?_, fun _ ↦ .inr rfl⟩
    · have hzero := List.count_eq_zero_of_not_mem (hnowhere j)
      by_cases hj : j = .childTerminated 1
      · subst hj
        rw [blockOn_sems_self]
        simp only [enqueue]
        split
        · rw [List.count_append, hzero, List.count_singleton_self]
        · rw [hzero]
          exact Nat.zero_le 1
      · rw [blockOn_sems_other hj]
        exact hplace.queued_once j
    · exact ⟨((mem_blockOn hmem).resolve_left (hnowhere j)).1, rfl⟩

/-- A process that is not `init` stops in a `semWait`. -/
theorem blockOn_other (h : InitInv s) {c : Cont}
    (hcur : ∀ p, s.processTable cur = some p → p.inst ≠ 1)
    (hid : ∀ inst, id ≠ .childTerminated inst) (hc : c ≠ .waitAny ∧ c ≠ .polling) :
    InitInv (s.blockOn id cur c) := by
  have hsems : ∀ inst, (s.blockOn id cur c).sems (.childTerminated inst) =
      s.sems (.childTerminated inst) := fun inst ↦ blockOn_sems_other (hid inst).symm
  refine h.update h.enabled (Nat.le_refl _) (fun q p' hp' ↦ ?_)
    (fun inst q hq ↦ h.queues inst q ?_) fun p₀ p' hp₀ hp' hone hplace ↦ ?_
  · obtain ⟨p₀, hp₀, rfl⟩ := blockOn_eq_some.mp hp'
    by_cases hq : q = cur
    · rw [if_pos hq]
      exact ⟨p₀, hp₀, rfl, fun hcont ↦ absurd hcont fun hor ↦ hor.elim hc.1 hc.2⟩
    · rw [if_neg hq]
      exact ⟨p₀, hp₀, rfl, h.conts q p₀ hp₀⟩
  · rwa [hsems] at hq
  · have hne : INIT_PID ≠ cur := by
      rintro rfl
      exact hcur p₀ hp₀ hone
    obtain ⟨p₁, hp₁, rfl⟩ := blockOn_eq_some.mp hp'
    obtain rfl := Option.some.inj (hp₀.symm.trans hp₁)
    rw [if_neg hne]
    refine hplace.mono rfl (fun hwaits ↦ hwaits) (Nat.le_refl _) (fun j ↦ ?_) fun hmem ↦ ?_
    · by_cases hj : j = id
      · subst hj
        rw [blockOn_sems_self]
        simp only [enqueue]
        split
        · have hzero : [cur].count INIT_PID = 0 :=
            List.count_eq_zero_of_not_mem (by simpa using hne)
          rw [List.count_append, hzero, Nat.add_zero]
        · exact Nat.le_refl _
      · rw [blockOn_sems_other hj]
    · rwa [hsems]

/-- A process changes its state that is not `init`, and the ready queue gets no longer. -/
theorem setState (h : InitInv s) (hpid : pid ≠ INIT_PID) (st : State) {queue : List Int}
    (hqueue : queue.Sublist s.readyQueue) :
    InitInv { s.setState pid st with readyQueue := queue } := by
  refine h.update h.enabled (Nat.le_refl _) (fun q p' hp' ↦ ?_) h.queues
    fun p p' hp hp' _ hplace ↦ ?_
  · obtain ⟨p, hp, rfl⟩ := modify_eq_some.mp hp'
    refine ⟨p, hp, ?_, fun hc ↦ h.conts q p hp ?_⟩
    · split <;> rfl
    · split at hc <;> exact hc
  · obtain ⟨p₀, hp₀, rfl⟩ := modify_eq_some.mp hp'
    obtain rfl := Option.some.inj (hp.symm.trans hp₀)
    rw [if_neg hpid.symm]
    exact hplace.mono rfl (fun hc ↦ hc) (hqueue.count_le _) (fun _ ↦ Nat.le_refl _) fun hq ↦ hq

/-- A process dies that is not `init`. -/
theorem zombify (h : InitInv s) (hpid : pid ≠ INIT_PID) (inst parent : Nat) :
    InitInv (s.zombify pid inst parent) :=
  (h.setState hpid .ZOMBIE List.filter_sublist).table rfl rfl rfl (fun hon ↦ hon) (Nat.le_refl _)
    fun _ p hp ↦ ⟨p, hp, rfl, fun _ ↦ rfl, fun _ ↦ rfl⟩

theorem free (h : InitInv s) (pid : Int) (p : ProcessCDT) (expected : Option Nat) :
    InitInv (s.freed pid p expected) := by
  refine h.table rfl rfl rfl (fun hon ↦ hon) (Nat.le_refl _) fun q p' hp' ↦ ?_
  simp only [freed] at hp'
  split at hp'
  · cases hp'
  · exact ⟨p', hp', rfl, fun _ ↦ rfl, fun _ ↦ rfl⟩

theorem start (h : InitInv s) (hfree : s.processTable pid = none) (ppid : Int) :
    InitInv (s.started 1 pid ppid) := by
  have htable : ∀ q p', (s.started 1 pid ppid).processTable q = some p' →
      p' = s.newCDT 1 ppid ∨ s.processTable q = some p' := by
    intro q p' hp'
    simp only [started, enqueueReady] at hp'
    split at hp'
    · exact .inl (Option.some.inj hp').symm
    · exact .inr hp'
  refine ⟨h.enabled, Nat.le_succ_of_le h.next, fun q p' hp' hone ↦ ?_, fun q p' hp' hc ↦ ?_,
    h.queues⟩
  · rcases htable q p' hp' with rfl | hold
    · exact absurd hone (Nat.ne_of_gt h.next)
    · obtain ⟨rfl, hplace⟩ := h.place q p' hold hone
      refine ⟨rfl, hplace.mono rfl (fun hc ↦ hc) ?_ (fun _ ↦ Nat.le_refl _) fun hq ↦ hq⟩
      have hne : pid ≠ INIT_PID := by
        rintro rfl
        cases hfree.symm.trans hold
      simp only [started, enqueueReady, enqueue]
      split
      · have hzero : [pid].count INIT_PID = 0 :=
          List.count_eq_zero_of_not_mem (by simpa using hne.symm)
        rw [List.count_append, hzero, Nat.add_zero]
      · exact Nat.le_refl _
  · rcases htable q p' hp' with rfl | hold
    · simp [newCDT] at hc
    · exact h.conts q p' hold hc

end InitInv

/-! ## Runs -/

/-- Whoever goes on in an event that is no step of `init` is somebody else. -/
theorem resume_spares (hok : Event.resume.SparesInit k) (hcur : k.current = some (cur, p)) :
    p.inst ≠ 1 := by
  intro hone
  have hof : Event.ofInit k .resume = true := by simp [Event.ofInit, hcur, hone]
  cases hok hof

/-- Whoever blocks in an event that is no step of `init` is somebody else. -/
theorem Event.Waits.spares {c : Cont} (h : e.Waits k id c) (hok : e.SparesInit k)
    (hinst : 2 ≤ p.inst ∨ p.inst = 1 ∧ c = .waitAny) : p.inst ≠ 1 ∧ c ≠ .waitAny := by
  have hc : c ≠ .waitAny := by
    rintro rfl
    cases h with
    | waitAny _ => cases hok rfl
  refine ⟨fun hone ↦ ?_, hc⟩
  rcases hinst with htwo | ⟨-, hwaits⟩
  · omega
  · exact hc hwaits

/-- Nobody but `init` waits for a child in general. -/
theorem Event.Waits.other {c : Cont} (h : e.Waits k id c) (hc : c ≠ .waitAny) :
    (∀ inst, id ≠ .childTerminated inst) ∧ c ≠ .polling := by
  cases h with
  | semWait n _ => exact ⟨by simp, by simp⟩
  | waitPid _ _ _ => exact ⟨by simp, by simp⟩
  | waitAny _ => exact absurd rfl hc

/-- What terminating and reaping keep of the place of `init`. -/
theorem initMoves : MoveRule (fun _ _ ↦ True) InitInv where
  frame := InitInv.frame
  post id h _ := h.post id
  take id h _ := h.take id
  zombify h _ _ hkillable _ _ _ _ := (h.zombify (fun hpid ↦ hkillable (.inr hpid)) _ _).post _
  free h _ _ _ := h.free _ _ _

/-- Every update keeps `init` in its place, if it is no step of `init` in its `wait_any`. -/
theorem initRule : StepRule (fun k e ↦ e.SparesInit k) InitInv where
  frame h hsame _ := h.frame hsame
  schedule h ht := h.schedule ht
  post n h := h.post _
  take id h _ _ := h.take id
  semOpen value h := h.semOpen value
  heap nodes h _ := h.table rfl rfl rfl (fun hon ↦ hon) (Nat.le_refl _)
    fun _ p hp ↦ ⟨p, hp, rfl, fun _ ↦ rfl, fun _ ↦ rfl⟩
  setBlocked h _ hkillable _ ht := by
    have hpid := fun hpid ↦ hkillable (.inr hpid)
    rcases ht with ⟨-, rfl⟩ | ⟨-, rfl⟩
    · exact h.setState hpid .BLOCKED (List.Sublist.refl _)
    · exact h.setState hpid .BLOCKED List.filter_sublist
  unblock h _ hkillable _ _ := by
    refine h.wake fun p hp hone ↦ hkillable (.inr ?_)
    exact (h.place _ p hp hone).1
  exit h _ _ _ := h.setCont (by simp) _
  waited _ hok _ _ _ _ := by cases hok rfl
  returned h _ hcur hid hc := h.returned hcur hid hc
  block h hok hwaits hcur _ hinst _ ht := by
    obtain ⟨htwo, hc⟩ := hwaits.spares hok hinst
    obtain ⟨hid, hcont⟩ := hwaits.other hc
    refine InitInv.schedule (h.blockOn_other (fun p' hp' ↦ ?_) hid ⟨hc, hcont⟩) ht
    obtain rfl := Option.some.inj ((current_eq_some.mp hcur).2.symm.trans hp')
    exact htwo
  terminate h _ hpid hkillable hp hprocess hinst hlive _ _ _ :=
    initMoves.terminate h trivial hpid hkillable hp hprocess hinst hlive _
  afterTerminated h _ hcompletes ht :=
    initMoves.afterTerminated h trivial (CoreRule.completes_reaps hcompletes) ht
  polled h hok hcur hcont := by
    have hone := h.conts _ _ (current_eq_some.mp hcur).2 (.inr hcont)
    exact absurd hone (resume_spares hok hcur)
  reapRound {k} {_} {_} {_} {_} h _ _ _ _ _ _ _ := by
    have hreaps : Event.reapZombies.Reaps k := trivial
    exact initMoves.pollAndReap (h.take _) trivial hreaps _ _
  start {s} {_} {_} {pid} h _ _ _ hfree := by
    have hsame := SameCore.registered s pid
    exact (h.frame hsame).start (hsame.eq_none.mpr (findFreePid_eq_some hfree).2) _

theorem initInv_init : InitInv initializeScheduler := by
  refine ⟨fun hcur ↦ absurd rfl hcur, Nat.le_refl 2, fun q p hp hone ↦ ?_, fun q p hp hc ↦ ?_,
    fun inst q hq ↦ ?_⟩
  · rcases init_eq_some hp with ⟨rfl, rfl⟩ | ⟨rfl, rfl⟩
    · refine ⟨rfl, by simp [ProcessCDT.Live], by decide, fun _ ↦ rfl, fun _ ↦ Nat.zero_le 1,
        fun id hmem ↦ ?_, fun hc ↦ ?_⟩
      · rw [init_sems] at hmem
        cases hmem
      · cases hc
    · cases hone
  · rcases init_eq_some hp with ⟨-, rfl⟩ | ⟨-, rfl⟩ <;> simp at hc
  · rw [init_sems] at hq
    rcases hq with hq | hq <;> cases hq

end BareBones.Process.Kernel
