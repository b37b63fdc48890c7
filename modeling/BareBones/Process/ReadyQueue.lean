import BareBones.Process.KernelRule

/-!
# The ready queue is exact

The state of a process and the ready queue are changed by separate statements.  They agree
as long as a process is `READY` only if it is queued: `setCurrentBlocked` changes the state
of the running process and does not look at the queue.  A process that blocks and unblocks
itself with system calls is `READY`, queued and still running; if it then waits for a
semaphore, it is blocked and queued.

`ReadyInv` is the invariant, and `ReadyInv.change` the step lemma behind most updates: one
process changes its state, and the queue changes at that pid only.
-/

namespace BareBones.Process.Kernel

open BareBones.Lib BareBones.Semaphores

variable {k s t : Kernel} {e : Event} {pid q cur : Int} {p p' : ProcessCDT} {id : SemId}

/-- What the scheduler sees of a process. -/
def seen (k : Kernel) (q : Int) : Option (Nat × State) :=
  (k.processTable q).map fun p ↦ (p.inst, p.state)

/-- The ready queue and the states agree. -/
structure ReadyInv (k : Kernel) : Prop where
  nodes : k.nodes .readyQueue = true
  count : ∀ q, k.readyQueue.count q = if k.stateOf q = some .READY then 1 else 0
  running : ∀ q p, k.processTable q = some p → p.state = .RUNNING →
    k.currentProcess = some (q, p.inst)
  /-- The idle process is never blocked and cannot be killed. -/
  idle : ∃ st, k.seen IDLE_PID = some (0, st) ∧ (st = .READY ∨ st = .RUNNING)

namespace ReadyInv

theorem seen_eq_some (hp : k.processTable q = some p) : k.seen q = some (p.inst, p.state) := by
  rw [seen, hp, Option.map_some]

theorem stateOf_eq (hseen : t.seen q = s.seen q) : t.stateOf q = s.stateOf q := by
  have h := congrArg (Option.map Prod.snd) hseen
  rwa [seen, seen, Option.map_map, Option.map_map] at h

/-- Nothing changes that the scheduler sees. -/
theorem congr (h : ReadyInv s) (hnodes : t.nodes = s.nodes)
    (hcur : t.currentProcess = s.currentProcess) (hqueue : t.readyQueue = s.readyQueue)
    (hseen : ∀ q, t.seen q = s.seen q) : ReadyInv t := by
  refine ⟨hnodes ▸ h.nodes, fun q ↦ ?_, fun q p hp hrun ↦ ?_, ?_⟩
  · rw [hqueue, stateOf_eq (hseen q)]
    exact h.count q
  · have hq := hseen q
    rw [seen_eq_some hp] at hq
    obtain ⟨p₀, hp₀, heq⟩ := Option.map_eq_some_iff.mp hq.symm
    obtain ⟨hinst, hstate⟩ := Prod.mk.inj heq
    rw [hcur, h.running q p₀ hp₀ (hstate.trans hrun), hinst]
  · rw [hseen]
    exact h.idle

/-- The process `pid` changes its state, and the queue changes at `pid`. -/
theorem change (h : ReadyInv s) (hp : s.processTable pid = some p)
    {f : ProcessCDT → ProcessCDT} {queue : List Int} (hinst : (f p).inst = p.inst)
    (hidle : pid = IDLE_PID → (f p).state = .READY)
    (hother : ∀ q, q ≠ pid → queue.count q = s.readyQueue.count q)
    (hself : queue.count pid = if (f p).state = .READY then 1 else 0)
    (hrun : (f p).state ≠ .RUNNING) : ReadyInv { s.modify pid f with readyQueue := queue } := by
  refine ⟨h.nodes, fun q ↦ ?_, fun q p' hp' hrun' ↦ ?_, ?_⟩
  · by_cases hq : q = pid
    · subst hq
      simp only [stateOf, modify_self, hp, Option.map_some, Option.some.injEq]
      exact hself
    · simp only [stateOf, modify_other _ _ hq]
      rw [hother q hq]
      exact h.count q
  · by_cases hq : q = pid
    · subst hq
      obtain rfl : f p = p' := by simpa [hp] using hp'
      exact absurd hrun' hrun
    · exact h.running q p' (by simpa [modify_other _ _ hq] using hp') hrun'
  · obtain ⟨st, hseen, hst⟩ := h.idle
    by_cases hq : IDLE_PID = pid
    · subst hq
      rw [seen_eq_some hp] at hseen
      obtain ⟨hzero, -⟩ := Prod.mk.inj (Option.some.inj hseen)
      refine ⟨.READY, ?_, .inl rfl⟩
      simp [seen, hp, hinst, hzero, hidle rfl]
    · refine ⟨st, ?_, hst⟩
      simp only [seen, modify_other _ _ hq]
      exact hseen

theorem count_eq (h : ReadyInv s) (hp : s.processTable pid = some p) :
    s.readyQueue.count pid = if p.state = .READY then 1 else 0 := by
  rw [h.count, stateOf, hp, Option.map_some]
  simp

/-- A process that is not `READY` becomes so. -/
theorem wake (h : ReadyInv s) (hp : s.processTable pid = some p) (hst : p.state ≠ .READY) :
    ReadyInv (s.wake pid) := by
  have hcount : (s.readyQueue ++ [pid]).count pid = 1 := by
    rw [List.count_append, h.count_eq hp, if_neg hst, List.count_singleton_self]
  have hqueue : (s.wake pid) = { s.modify pid (fun p ↦ { p with state := .READY }) with
      readyQueue := s.readyQueue ++ [pid] } := by
    rw [Kernel.wake, enqueueReady, enqueue, if_pos h.nodes]
    rfl
  rw [hqueue]
  refine h.change hp rfl (fun _ ↦ rfl) (fun q hq ↦ ?_) hcount (by simp)
  rw [List.count_append, List.count_singleton, beq_eq_false_iff_ne.mpr (Ne.symm hq)]
  rfl

/-- A process that is not queued changes to a state in which it is not queued. -/
theorem leave (h : ReadyInv s) (hp : s.processTable pid = some p) (hst : p.state ≠ .READY)
    (hidle : pid ≠ IDLE_PID) {f : ProcessCDT → ProcessCDT} (hinst : (f p).inst = p.inst)
    (hready : (f p).state ≠ .READY) (hrun : (f p).state ≠ .RUNNING) :
    ReadyInv (s.modify pid f) := by
  refine h.change hp hinst (fun hpid ↦ absurd hpid hidle) (fun _ _ ↦ rfl) ?_ hrun
  rw [h.count_eq hp, if_neg hst, if_neg hready]

/-- A process is taken out of the queue. -/
theorem remove (h : ReadyInv s) (hp : s.processTable pid = some p) (hidle : pid ≠ IDLE_PID)
    {st : State} (hready : st ≠ .READY) (hrun : st ≠ .RUNNING) :
    ReadyInv { s.setState pid st with readyQueue := s.readyQueue.filter (· ≠ pid) } := by
  refine h.change hp rfl (fun hpid ↦ absurd hpid hidle) (fun q hq ↦ ?_) ?_ hrun
  · exact List.count_filter (by simpa using hq)
  · rw [if_neg hready, List.count_eq_zero]
    simp

theorem setSem (h : ReadyInv s) (id : SemId) (r : SemRec) : ReadyInv (s.setSem id r) :=
  h.congr rfl rfl rfl fun _ ↦ rfl

theorem setCont (h : ReadyInv s) (cur : Int) (c : Cont) : ReadyInv (s.setCont cur c) := by
  refine h.congr rfl rfl rfl fun q ↦ ?_
  unfold seen Kernel.setCont
  by_cases hq : q = cur
  · subst hq
    rw [modify_self, Option.map_map]
    rfl
  · rw [modify_other _ _ hq]

theorem returnFrom (h : ReadyInv s) (id : SemId) (cur : Int) : ReadyInv (s.returnFrom id cur) :=
  h.setSem _ _

theorem post (h : ReadyInv s) (id : SemId) : ReadyInv (s.post id) := by
  rcases post_cases s id with ⟨_, _, -, -, -, heq⟩ | ⟨_, pid, _, p, -, -, -, hp, hblocked, -, heq⟩
  · rw [heq]
    exact h.congr rfl rfl rfl fun _ ↦ rfl
  · rw [heq]
    exact (h.wake hp (by simp [hblocked])).congr rfl rfl rfl fun _ ↦ rfl

theorem frame (h : ReadyInv s) (hsame : SameCore s t) : ReadyInv t := by
  refine h.congr hsame.nodes hsame.currentProcess hsame.readyQueue fun q ↦ ?_
  have hq := congrArg (Option.map fun c : Nat × State × Cont ↦ (c.1, c.2.1)) (hsame.table q)
  rwa [Option.map_map, Option.map_map] at hq

/-- Once nobody is running, the queue is not empty, and its head is dispatched. -/
theorem dispatch (h : ReadyInv s) (hrun : ∀ cur p, s.current = some (cur, p) → p.state ≠ .RUNNING)
    (ht : s.dispatch = some t) : ReadyInv t := by
  have hnone : ∀ q p, s.processTable q = some p → p.state ≠ .RUNNING := fun q p hp hst ↦
    hrun q p (current_eq_some.mpr ⟨h.running q p hp hst, hp⟩) hst
  obtain ⟨next, p, rest, hnext, hp, rfl⟩ := dispatch_cases ht
  have hqueue : s.readyQueue = next :: rest := by
    refine hnext.resolve_right ?_
    rintro ⟨hnil, -, -⟩
    obtain ⟨st, hseen, hst⟩ := h.idle
    obtain ⟨p₀, hp₀, heq⟩ := Option.map_eq_some_iff.mp hseen
    obtain ⟨-, rfl⟩ := Prod.mk.inj heq
    rcases hst with hready | hrunning
    · have hcount := h.count_eq hp₀
      rw [hnil, if_pos hready] at hcount
      cases hcount
    · exact hnone _ p₀ hp₀ hrunning
  have hcount := h.count_eq hp
  rw [hqueue, List.count_cons_self] at hcount
  have hrest : rest.count next = 0 := by
    split at hcount <;> omega
  refine ⟨h.nodes, fun q ↦ ?_, fun q p' hp' hrun' ↦ ?_, ?_⟩
  · by_cases hq : q = next
    · subst hq
      simp [dispatched, stateOf, hp, hrest]
    · have hold := h.count q
      rw [hqueue, List.count_cons_of_ne (Ne.symm hq)] at hold
      simp only [dispatched, stateOf, modify_other _ _ hq]
      exact hold
  · by_cases hq : q = next
    · subst hq
      simp only [dispatched, modify_self, hp, Option.map_some, Option.some.injEq] at hp'
      rw [dispatched, ← hp']
    · simp only [dispatched, modify_other _ _ hq] at hp'
      exact absurd hrun' (hnone q p' hp')
  · obtain ⟨st, hseen, hst⟩ := h.idle
    by_cases hq : IDLE_PID = next
    · subst hq
      rw [seen_eq_some hp] at hseen
      obtain ⟨hzero, -⟩ := Prod.mk.inj (Option.some.inj hseen)
      exact ⟨.RUNNING, by simp [dispatched, seen, hp, hzero], .inr rfl⟩
    · refine ⟨st, ?_, hst⟩
      simp only [dispatched, seen, modify_other _ _ hq]
      exact hseen

theorem schedule (h : ReadyInv s) (ht : s.schedule = some t) : ReadyInv t :=
  CoreRule.schedule_induction id frame
    (fun h hcur hrun ↦ h.wake (current_eq_some.mp hcur).2 (by simp [hrun]))
    (fun h _ hrun ht ↦ h.dispatch hrun ht) h ht

/-- The idle process makes no system calls. -/
theorem not_idle (h : ReadyInv s) (hp : s.processTable cur = some p) (hinst : 1 ≤ p.inst) :
    cur ≠ IDLE_PID := by
  rintro rfl
  obtain ⟨st, hseen, -⟩ := h.idle
  rw [seen_eq_some hp] at hseen
  obtain ⟨hzero, -⟩ := Prod.mk.inj (Option.some.inj hseen)
  omega

theorem blockOn (h : ReadyInv s) (hcur : s.current = some (cur, p)) (hinst : 1 ≤ p.inst)
    (hst : p.state ≠ .READY) (id : SemId) (c : Cont) : ReadyInv (s.blockOn id cur c) := by
  have hp := (current_eq_some.mp hcur).2
  have hleave : ReadyInv (s.modify cur fun p ↦ { p with state := .BLOCKED, cont := c }) :=
    h.leave hp hst (h.not_idle hp hinst) rfl (by simp) (by simp)
  exact hleave.setSem id _

theorem start (h : ReadyInv s) (hfree : s.processTable pid = none) (ppid : Int) :
    ReadyInv (s.started 1 pid ppid) := by
  have hidle : pid ≠ IDLE_PID := by
    rintro rfl
    obtain ⟨st, hseen, -⟩ := h.idle
    rw [seen, hfree] at hseen
    cases hseen
  have hcount := h.count pid
  rw [stateOf, hfree, Option.map_none, if_neg (by simp)] at hcount
  have hqueue : (s.started 1 pid ppid).readyQueue = s.readyQueue ++ [pid] := by
    rw [started, enqueueReady, enqueue, if_pos h.nodes]
  have hself : (s.started 1 pid ppid).processTable pid = some (s.newCDT 1 ppid) := if_pos rfl
  have hother : ∀ q, q ≠ pid → (s.started 1 pid ppid).processTable q = s.processTable q :=
    fun q hq ↦ if_neg hq
  refine ⟨h.nodes, fun q ↦ ?_, fun q p' hp' hrun ↦ ?_, ?_⟩
  · rw [hqueue, List.count_append]
    by_cases hq : q = pid
    · subst hq
      rw [hcount, List.count_singleton_self, stateOf, hself]
      rfl
    · rw [List.count_singleton, beq_eq_false_iff_ne.mpr (Ne.symm hq), stateOf, hother q hq]
      exact h.count q
  · by_cases hq : q = pid
    · subst hq
      rw [hself] at hp'
      cases hp'
      cases hrun
    · rw [hother q hq] at hp'
      exact h.running q p' hp' hrun
  · obtain ⟨st, hseen, hst⟩ := h.idle
    refine ⟨st, ?_, hst⟩
    rw [seen, hother _ (Ne.symm hidle)]
    exact hseen

end ReadyInv

/-- The events of the scheduler and of the semaphores: the heap has room for the nodes of
the ready queue, and nobody is reaped. -/
def Event.Schedules (k : Kernel) (e : Event) : Prop :=
  ¬e.Reaps k ∧ ∀ nodes, e = .heap nodes → nodes .readyQueue = true

instance (k : Kernel) (e : Event) : Decidable (e.Schedules k) :=
  match e with
  | .heap nodes => decidable_of_iff (¬(Event.heap nodes).Reaps k ∧ nodes .readyQueue = true)
      (and_congr_right fun _ ↦ ⟨fun h _ heq ↦ by cases heq; exact h, fun h ↦ h nodes rfl⟩)
  | .tick | .enableScheduler | .create | .exit _ | .kill _ _ | .ctrlC _ _ | .block _ | .unblock _
  | .yield | .nice _ _ | .foreground _ | .waitPid _ | .reapZombies | .waitAny | .semOpen _
  | .semWait _ | .semPost _ | .semTryWait _ | .resume =>
      decidable_of_iff (¬Event.Reaps k _) ⟨fun h ↦ ⟨h, fun _ heq ↦ by cases heq⟩, fun h ↦ h.1⟩

/-- A process that is `READY` calls no `semWait` that blocks. -/
def Event.BlocksRunning (k : Kernel) (e : Event) : Prop :=
  ∀ id ∈ e.waitsFor k, (k.sems id).sem.value ≤ 0 → ∀ c ∈ k.current, c.2.state ≠ .READY

instance (k : Kernel) (e : Event) : Decidable (e.BlocksRunning k) :=
  inferInstanceAs (Decidable (∀ _ ∈ _, _))

/-- Every update keeps the ready queue exact. -/
theorem readyRule : CoreRule (fun k e ↦ e.Schedules k ∧ e.BlocksRunning k) ReadyInv where
  frame := ReadyInv.frame
  post id h _ := h.post id
  take _ h _ := h.setSem _ _
  semOpen _ h := h.congr rfl rfl rfl fun _ ↦ rfl
  heap nodes h hok := ⟨hok.1.2 nodes rfl, h.count, h.running, h.idle⟩
  setBlocked h _ hkillable hp ht := by
    have hidle := fun hpid ↦ hkillable (.inl hpid)
    rcases ht with ⟨hrun, rfl⟩ | ⟨-, rfl⟩
    · exact h.leave hp (by simp [hrun]) hidle rfl (by simp) (by simp)
    · exact h.remove hp hidle (by simp) (by simp)
  unblock h _ _ hp hblocked := h.wake hp (by simp [hblocked])
  exit h _ _ _ := h.setCont _ _
  waited h _ _ _ _ := h.setCont _ _
  polled h _ _ _ := h.setCont _ _
  returned h _ _ _ _ := (h.returnFrom _ _).setCont _ _
  block h hok hwaits hcur _ hinst hle ht := by
    refine (h.blockOn hcur ?_ (hok.2 _ hwaits.waitsFor hle _ hcur) _ _).schedule ht
    rcases hinst with hinst | ⟨hinst, -⟩ <;> omega
  preempt h hcur hrun := h.wake (current_eq_some.mp hcur).2 (by simp [hrun])
  dispatch h _ hrun ht := h.dispatch hrun ht
  zombify h _ _ hkillable _ hp' _ _ := by
    have hremove := h.remove hp' (fun hpid ↦ hkillable (.inl hpid))
      (show State.ZOMBIE ≠ .READY by simp) (by simp)
    refine ReadyInv.post ?_ _
    exact hremove.congr rfl rfl rfl fun _ ↦ rfl
  free _ hok hreaps _ := absurd hreaps hok.1.1
  start h _ hsame hfree := h.start (hsame.eq_none.mpr (findFreePid_eq_some hfree).2) _

theorem readyInv_init : ReadyInv initializeScheduler := by
  refine ⟨rfl, fun q ↦ ?_, fun q p hp hrun ↦ ?_, ⟨.READY, rfl, .inl rfl⟩⟩
  · rw [init_readyQueue, stateOf, init_table]
    by_cases hinit : q = INIT_PID
    · subst hinit
      decide
    by_cases hidle : q = IDLE_PID
    · subst hidle
      decide
    rw [if_neg hinit, if_neg hidle]
    simp [Ne.symm hinit, Ne.symm hidle]
  · rcases init_eq_some hp with ⟨-, rfl⟩ | ⟨-, rfl⟩ <;> cases hrun

/-- A pid is queued once if its process is `READY` and not at all otherwise, and only
`currentProcess` is `RUNNING`. -/
structure ReadyExact (k : Kernel) : Prop where
  count : ∀ q, k.readyQueue.count q = if k.stateOf q = some .READY then 1 else 0
  running : ∀ q p, k.processTable q = some p → p.state = .RUNNING →
    k.currentProcess = some (q, p.inst)

/-- **The ready queue is exact**, in every run in which no process that is `READY` calls a
`semWait` that blocks. -/
theorem ready_exact
    (h : Reach step (fun k e ↦ e.Schedules k ∧ e.BlocksRunning k) initializeScheduler s) :
    ReadyExact s := by
  have hinv : ReadyInv s :=
    h.invariant readyInv_init fun _ _ _ hu hok hv ↦ readyRule.step hu hok hv
  exact ⟨hinv.count, hinv.running⟩

/-- The shell creates a process and yields to it. -/
theorem ready_exact_shell : ∃ s : Kernel,
    (s.readyQueue = [2, 0] ∧ s.currentProcess = some (3, 3)) ∧ ReadyExact s := by
  let es : List Event := bootEvents ++ [.create, .semOpen 0, .yield, .tick]
  have hrun : (run step initializeScheduler es).map (fun s ↦
      decide (s.readyQueue = [2, 0] ∧ s.currentProcess = some (3, 3))) = some true := by
    decide +kernel
  have hguard : Guarded step (fun k e ↦ e.Schedules k ∧ e.BlocksRunning k)
      initializeScheduler es := by decide +kernel
  obtain ⟨s, hrun, hobs⟩ := Option.map_eq_some_iff.mp hrun
  exact ⟨s, of_decide_eq_true hobs, ready_exact (.of_run hrun hguard)⟩

/-- The shell blocks and unblocks itself with system calls and then waits for a semaphore:
it is blocked and in the ready queue. -/
theorem blocked_in_readyQueue : ¬∀ s : Kernel,
    Reach step (fun k e ↦ e.Schedules k) initializeScheduler s → ReadyExact s := by
  intro hclaim
  let es : List Event := bootEvents ++ [.semOpen 0, .block 2, .unblock 2, .semWait 0]
  have hrun : (run step initializeScheduler es).map (fun s ↦
      decide (s.stateOf 2 = some .BLOCKED ∧ s.readyQueue = [2])) = some true := by decide +kernel
  have hguard : Guarded step (fun k e ↦ e.Schedules k) initializeScheduler es := by decide +kernel
  obtain ⟨s, hrun, hobs⟩ := Option.map_eq_some_iff.mp hrun
  obtain ⟨hblocked, hqueue⟩ := of_decide_eq_true hobs
  have hcount := (hclaim s (.of_run hrun hguard)).count 2
  rw [hblocked, hqueue] at hcount
  simp at hcount

end BareBones.Process.Kernel
