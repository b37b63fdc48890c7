import BareBones.Lib.Run
import BareBones.Semaphores.Semaphore
import Mathlib.Data.List.Nodup

/-!
# Conservation of tokens

One semaphore and everything that can happen around it.  Of the processes, a semaphore
sees only their states: `blockedQueue` holds pids, and the pid of a waiter that has died
stays there.  What the rest of the kernel does to a pid that is not queued (scheduling,
`sys_block` and `sys_unblock`, waits for something else, creation) is one event, `env`;
what it does to one that is queued is to kill and to reap it.

The counter, the queue and the history of the semaphore are tied by one equation, which
no number of dead waiters can upset (`Conserved`).  A heap without room can: `semWait` does not
look at what `enqueue` returns, so that the token of a waiter that is not queued is missing from
then on (`token_missing`).  Where every waiter gets its node, and the counter stays an `int`,
the equation holds in every run (`token_conservation`).
-/

namespace BareBones.Semaphores

open BareBones.Lib BareBones.Process

/-- The states of the processes, and whether the heap has room for a node of a queue. -/
structure States where
  state : Int → Option State
  currentPID : Int
  nodes : Bool

namespace States

/-- Overwrite the state of a process. -/
def set (ps : States) (pid : Int) (st : Option State) : States :=
  { ps with state := fun q ↦ if q = pid then st else ps.state q }

instance : Scheduler States where
  getCurrentPID ps := ps.currentPID
  setCurrentBlocked ps := ps.set ps.currentPID (some .BLOCKED)
  setReady pid ps :=
    if invalidPID pid then none
    else if ps.state pid ≠ some .BLOCKED then none
    else some (ps.set pid (some .READY))
  hasNode ps := ps.nodes

@[simp] theorem set_self (ps : States) (pid : Int) (st : Option State) :
    (ps.set pid st).state pid = st := by simp [set]

theorem set_other {pid q : Int} (ps : States) (st : Option State) (h : q ≠ pid) :
    (ps.set pid st).state q = ps.state q := by simp [set, h]

/-- The process exists and has not died. -/
def Live (ps : States) (pid : Int) : Prop := ∃ st, ps.state pid = some st ∧ st ≠ .ZOMBIE

theorem setReady_eq_some {ps ps' : States} {pid : Int} (h : Scheduler.setReady pid ps = some ps') :
    ¬invalidPID pid ∧ ps.state pid = some .BLOCKED ∧ ps' = ps.set pid (some .READY) := by
  simp only [Scheduler.setReady] at h
  split at h
  · cases h
  next hvalid =>
      split at h
      · cases h
      next hblocked => exact ⟨hvalid, not_not.mp hblocked, (Option.some.inj h).symm⟩

/-- All that a post does to the processes is to make one that is blocked ready. -/
theorem semPost_state (sem : Sem) (ps : States) (q : Int) :
    (semPost sem ps).2.state q = ps.state q ∨
      ps.state q = some .BLOCKED ∧ (semPost sem ps).2.state q = some .READY := by
  rcases semPost_cases sem ps with ⟨dead, rest, -, -, -, hpost⟩ |
    ⟨dead, pid, rest, ps', -, -, -, hready, hpost⟩
  · exact .inl (by rw [hpost])
  · obtain ⟨-, hblocked, rfl⟩ := setReady_eq_some hready
    rw [hpost]
    by_cases hq : q = pid
    · subst hq
      exact .inr ⟨hblocked, set_self _ _ _⟩
    · exact .inl (set_other _ _ hq)

/-- A wait changes the caller at most. -/
theorem semWait_state (sem : Sem) (ps : States) {q : Int} (hq : q ≠ ps.currentPID) :
    (semWait sem ps).2.1.state q = ps.state q := by
  rw [semWait]
  split
  · exact set_other _ _ hq
  · rfl

/-- It leaves the caller as it is, or blocks it. -/
theorem semWait_current (sem : Sem) (ps : States) :
    (semWait sem ps).2.1.state ps.currentPID = ps.state ps.currentPID ∨
      sem.value ≤ 0 ∧ (semWait sem ps).2.1.state ps.currentPID = some .BLOCKED := by
  rw [semWait]
  split
  · exact .inr ⟨by omega, set_self _ _ _⟩
  · exact .inl rfl

/-- Neither of them changes what the heap has room for. -/
theorem semWait_nodes (sem : Sem) (ps : States) : (semWait sem ps).2.1.nodes = ps.nodes := by
  rw [semWait]
  split <;> rfl

theorem semPost_nodes (sem : Sem) (ps : States) : (semPost sem ps).2.nodes = ps.nodes := by
  rcases semPost_cases sem ps with ⟨dead, rest, -, -, -, hpost⟩ |
    ⟨dead, pid, rest, ps', -, -, -, hready, hpost⟩
  · rw [hpost]
  · obtain ⟨-, -, rfl⟩ := setReady_eq_some hready
    rw [hpost]
    rfl

instance (ps : States) (pid : Int) : Decidable (ps.Live pid) :=
  match h : ps.state pid with
  | none => isFalse fun ⟨_, hst, _⟩ ↦ by
      rw [h] at hst
      cases hst
  | some st => decidable_of_iff (st ≠ .ZOMBIE) ⟨fun hne ↦ ⟨st, h, hne⟩, fun ⟨st', hst, hne⟩ ↦ by
      rw [h] at hst
      cases hst
      exact hne⟩

end States

/-- A semaphore with its history. -/
structure History where
  sem : Sem
  procs : States
  /-- The number of `semPost` calls. -/
  posts : Nat
  /-- The number of waits that did not block, of waits that a post has woken, and of
  successful `semTryWait` calls. -/
  grants : Nat

namespace History

/-- What can happen around a semaphore. -/
inductive Event
  /-- The running process `pid` calls `semWait`; `node` tells whether `enqueue` gets the memory
  for its node, should it need one. -/
  | semWait (pid : Int) (node : Bool)
  | semPost
  | semTryWait
  /-- A process dies. -/
  | terminate (pid : Int)
  /-- A dead process is reaped. -/
  | reap (pid : Int)
  /-- The rest of the kernel changes the state of a process, or creates one. -/
  | env (pid : Int) (st : State)
deriving DecidableEq, Repr

/-- One event. -/
def step (s : History) : Event → Option History
  | .semWait pid node =>
      if s.procs.state pid = some .RUNNING then
        let (sem, procs, mustBlock) :=
          semWait s.sem { s.procs with currentPID := pid, nodes := node }
        some { s with
          sem := sem
          procs := procs
          grants := if mustBlock then s.grants else s.grants + 1 }
      else none
  | .semPost =>
      let (sem, procs) := semPost s.sem s.procs
      some { s with
        sem := sem
        procs := procs
        posts := s.posts + 1
        grants := s.grants +
          s.sem.blockedQueue.countP fun pid ↦ procs.state pid ≠ s.procs.state pid }
  | .semTryWait =>
      let (sem, got) := semTryWait s.sem
      some { s with sem := sem, grants := if got then s.grants + 1 else s.grants }
  | .terminate pid =>
      if (s.procs.state pid).isSome then
        some { s with procs := s.procs.set pid (some .ZOMBIE) }
      else none
  | .reap pid =>
      if s.procs.state pid = some .ZOMBIE then some { s with procs := s.procs.set pid none }
      else none
  | .env pid st =>
      if invalidPID pid then none else some { s with procs := s.procs.set pid (some st) }

/-- A semaphore that was just created, among processes in any states. -/
def init (value : Int) (procs : States) : History := ⟨newSemaphore value, procs, 0, 0⟩

/-- As long as a pid is queued, it is neither unblocked nor reused: all that happens to its
process is that it is woken by the semaphore, killed and reaped. -/
def Event.Allowed (s : History) : Event → Prop
  | .env pid _ => pid ∉ s.sem.blockedQueue
  | _ => True

instance (s : History) : (e : Event) → Decidable (e.Allowed s)
  | .env pid _ => inferInstanceAs (Decidable (pid ∉ s.sem.blockedQueue))
  | .semWait _ _ | .semPost | .semTryWait | .terminate _ | .reap _ => isTrue trivial

/-- A process that blocks gets a node in the queue. -/
def Event.GetsNode (s : History) : Event → Prop
  | .semWait _ node => s.sem.value ≤ 0 → node = true
  | _ => True

instance (s : History) : (e : Event) → Decidable (e.GetsNode s)
  | .semWait _ node => inferInstanceAs (Decidable (s.sem.value ≤ 0 → node = true))
  | .env _ _ | .semPost | .semTryWait | .terminate _ | .reap _ => isTrue trivial

/-- A post does not carry the counter, which is an `int`, beyond `2 ^ 31 - 1`. -/
def Event.Fits (s : History) : Event → Prop
  | .semPost => s.sem.value < 2147483647
  | _ => True

instance (s : History) : (e : Event) → Decidable (e.Fits s)
  | .semPost => inferInstanceAs (Decidable (s.sem.value < 2147483647))
  | .semWait _ _ | .env _ _ | .semTryWait | .terminate _ | .reap _ => isTrue trivial

variable {s t : History} {v₀ : Int} {pid : Int} {e : Event}

/-- The invariant of the counter, the queue and the history. -/
structure Conserved (v₀ : Int) (s : History) : Prop where
  valid : ∀ pid, s.procs.state pid ≠ none → ¬invalidPID pid
  wf : s.sem.Wf
  total : s.sem.value + s.sem.blockedQueue.length = v₀ + s.posts - s.grants
  nodup : s.sem.blockedQueue.Nodup
  /-- What is queued and not dead is blocked. -/
  blocked : ∀ pid ∈ s.sem.blockedQueue, s.procs.Live pid → s.procs.state pid = some .BLOCKED

/-- `setReady` refuses exactly the dead among the queued. -/
theorem Conserved.setReady_eq_none (h : Conserved v₀ s) (hmem : pid ∈ s.sem.blockedQueue) :
    Scheduler.setReady pid s.procs = none ↔ ¬s.procs.Live pid := by
  simp only [Scheduler.setReady]
  constructor
  · intro hnone hlive
    have hblocked := h.blocked pid hmem hlive
    rw [if_neg (h.valid pid (by rw [hblocked]; simp)), if_neg (by simp [hblocked])] at hnone
    cases hnone
  · intro hdead
    split
    · rfl
    · rw [if_pos]
      exact fun hblocked ↦ hdead ⟨_, hblocked, by simp⟩

/-- **What a post does**: it wakes the longest-waiting live process, or it leaves one more
token and no queue. -/
theorem Conserved.semPost (h : Conserved v₀ s) (ht : step s .semPost = some t) :
    (∃ dead pid rest, s.sem.blockedQueue = dead ++ pid :: rest ∧
        (∀ d ∈ dead, ¬s.procs.Live d) ∧ s.procs.Live pid ∧
        t = ⟨Sem.waiting rest, s.procs.set pid (some .READY), s.posts + 1, s.grants + 1⟩) ∨
      ((∀ d ∈ s.sem.blockedQueue, ¬s.procs.Live d) ∧
        t = ⟨⟨s.sem.tokens + 1, []⟩, s.procs, s.posts + 1, s.grants⟩) := by
  simp only [step, Option.some.injEq] at ht
  rcases semPost_spec (s := s.procs) h.wf with
    ⟨dead, pid, rest, ps, hqueue, hdead, hready, hpost⟩ | ⟨hdead, hpost⟩
  · have hpid : pid ∈ s.sem.blockedQueue := by simp [hqueue]
    have hdead' : ∀ d ∈ dead, ¬s.procs.Live d := fun d hd ↦
      (h.setReady_eq_none (by simp [hqueue, hd])).mp (hdead d hd)
    have hlive : s.procs.Live pid := by
      by_contra hnot
      rw [(h.setReady_eq_none hpid).mpr hnot] at hready
      cases hready
    have hps : ps = s.procs.set pid (some .READY) := by
      simp only [Scheduler.setReady] at hready
      split at hready
      · cases hready
      · split at hready
        · cases hready
        · exact (Option.some.inj hready).symm
    -- exactly one queued process changes its state, since no pid is queued twice
    have hcount : (s.sem.blockedQueue.countP fun q ↦
        (s.procs.set pid (some .READY)).state q ≠ s.procs.state q) = 1 := by
      have heq : ∀ q, (decide ((s.procs.set pid (some .READY)).state q ≠ s.procs.state q)) =
          (q == pid) := by
        intro q
        by_cases hq : q = pid
        · subst hq
          simp [h.blocked q hpid hlive]
        · simp [States.set_other _ _ hq, hq]
      rw [funext heq]
      exact List.nodup_iff_count_eq_one.mp h.nodup pid hpid
    rw [hpost] at ht
    exact .inl ⟨dead, pid, rest, hqueue, hdead', hlive, by rw [← ht, hps, hcount]⟩
  · rw [hpost] at ht
    refine .inr ⟨fun d hd ↦ (h.setReady_eq_none hd).mp (hdead d hd), ?_⟩
    rw [← ht]
    simp

/-- A process that is not queued changes its state. -/
theorem Conserved.set (h : Conserved v₀ s) {st : Option State} (hpid : st ≠ none → ¬invalidPID pid)
    (hqueue : pid ∈ s.sem.blockedQueue → st = none ∨ st = some .ZOMBIE) :
    Conserved v₀ { s with procs := s.procs.set pid st } := by
  refine ⟨fun q hq ↦ ?_, h.wf, h.total, h.nodup, fun q hmem hlive ↦ ?_⟩
  · by_cases heq : q = pid
    · subst heq
      exact hpid (by simpa using hq)
    · exact h.valid q (by rwa [States.set_other _ _ heq] at hq)
  · by_cases heq : q = pid
    · subst heq
      obtain ⟨st', hst', hne⟩ := hlive
      rw [States.set_self] at hst'
      rcases hqueue hmem with rfl | rfl
      · cases hst'
      · cases hst'
        exact absurd rfl hne
    · rw [States.Live, States.set_other _ _ heq] at hlive
      rw [States.set_other _ _ heq]
      exact h.blocked q hmem hlive

/-- **Every event conserves the tokens.** -/
theorem Conserved.step (h : Conserved v₀ s) (hok : e.Allowed s) (hnode : e.GetsNode s)
    (ht : History.step s e = some t) : Conserved v₀ t := by
  cases e with
  | semWait pid node =>
      simp only [History.step] at ht
      split at ht
      next hrun =>
          have hnot : pid ∉ s.sem.blockedQueue := fun hmem ↦ by
            have := h.blocked pid hmem ⟨_, hrun, by simp⟩
            rw [hrun] at this
            cases this
          have htotal := h.total
          have hnode' : s.sem.value ≤ 0 → Scheduler.hasNode
              ({ s.procs with currentPID := pid, nodes := node } : States) = true := hnode
          rcases semWait_spec h.wf hnode' with
            ⟨hpos, hwait⟩ | ⟨hneg, hwait⟩
          · rw [hwait] at ht
            obtain rfl := Option.some.inj ht
            rw [h.wf.queue_eq_nil hpos] at htotal
            refine ⟨h.valid, .take hpos, ?_, List.nodup_nil, by simp⟩
            simp only [List.length_nil, Bool.false_eq_true, if_false] at htotal ⊢
            push_cast
            omega
          · rw [hwait] at ht
            obtain rfl := Option.some.inj ht
            have hset : Conserved v₀ { s with procs := s.procs.set pid (some .BLOCKED) } :=
              h.set (fun _ ↦ h.valid pid (by rw [hrun]; simp)) fun hmem ↦ absurd hmem hnot
            refine ⟨hset.valid, Sem.waiting_wf _, ?_, ?_, fun q hmem hlive ↦ ?_⟩
            · have hq : s.sem.value = -s.sem.blockedQueue.length := by
                by_cases hnil : s.sem.blockedQueue = []
                · have := h.wf.empty hnil
                  rw [hnil, List.length_nil]
                  omega
                · exact h.wf.queued hnil
              simp only [Sem.waiting_value, Sem.waiting_queue, if_true]
              omega
            · rw [Sem.waiting_queue]
              exact List.nodup_append.mpr ⟨h.nodup, List.pairwise_singleton _ _, by
                rintro q hq r hr rfl
                have hcur : q = pid := List.mem_singleton.mp hr
                exact hnot (hcur ▸ hq)⟩
            · rw [Sem.waiting_queue] at hmem
              rcases List.mem_append.mp hmem with hmem | hmem
              · exact hset.blocked q hmem hlive
              · rw [List.mem_singleton.mp hmem]
                exact States.set_self _ _ _
      · cases ht
  | semPost =>
      rcases h.semPost ht with ⟨dead, pid, rest, hqueue, hdead, hlive, rfl⟩ | ⟨hdead, rfl⟩
      · have hpid : pid ∈ s.sem.blockedQueue := by simp [hqueue]
        have hsub : ∀ q ∈ rest, q ∈ s.sem.blockedQueue := fun q hq ↦ by simp [hqueue, hq]
        have hnodup := h.nodup
        have htotal := h.total
        have hvalue := h.wf.queued (by simp [hqueue])
        rw [hqueue] at hnodup htotal hvalue
        obtain ⟨hnot, hrest⟩ := List.nodup_cons.mp (List.nodup_append.mp hnodup).2.1
        refine ⟨fun q hq ↦ ?_, Sem.waiting_wf _, ?_, hrest, fun q hq hq' ↦ ?_⟩
        · by_cases heq : q = pid
          · rw [heq]
            obtain ⟨st, hst, -⟩ := hlive
            exact h.valid pid (by rw [hst]; simp)
          · rw [States.set_other _ _ heq] at hq
            exact h.valid q hq
        · simp only [Sem.waiting_value, Sem.waiting_queue]
          push_cast
          omega
        · have heq : q ≠ pid := fun heq ↦ hnot (heq ▸ hq)
          rw [States.Live, States.set_other _ _ heq] at hq'
          rw [States.set_other _ _ heq]
          exact h.blocked q (hsub q hq) hq'
      · have htotal := h.total
        have htokens := h.wf.value_add_length
        refine ⟨h.valid, Sem.free_wf (s.sem.tokens + 1), ?_, List.nodup_nil, by simp⟩
        simp only [List.length_nil]
        push_cast
        omega
  | semTryWait =>
      simp only [History.step] at ht
      rcases semTryWait_spec h.wf with ⟨hpos, htry⟩ | ⟨-, htry⟩
      · rw [htry] at ht
        obtain rfl := Option.some.inj ht
        have htotal := h.total
        rw [h.wf.queue_eq_nil hpos] at htotal
        refine ⟨h.valid, .take hpos, ?_, List.nodup_nil, by simp⟩
        simp only [List.length_nil, if_true] at htotal ⊢
        push_cast
        omega
      · rw [htry] at ht
        obtain rfl := Option.some.inj ht
        exact ⟨h.valid, h.wf, by simpa using h.total, h.nodup, h.blocked⟩
  | terminate pid =>
      simp only [History.step] at ht
      split at ht
      next hsome =>
          obtain rfl := Option.some.inj ht
          exact h.set (fun _ ↦ h.valid pid (Option.isSome_iff_ne_none.mp hsome)) fun _ ↦ .inr rfl
      · cases ht
  | reap pid =>
      simp only [History.step] at ht
      split at ht
      · obtain rfl := Option.some.inj ht
        exact h.set (fun hne ↦ absurd rfl hne) fun _ ↦ .inl rfl
      · cases ht
  | env pid st =>
      simp only [History.step] at ht
      split at ht
      · cases ht
      next hvalid =>
          obtain rfl := Option.some.inj ht
          exact h.set (fun _ ↦ hvalid) fun hmem ↦ absurd hmem hok

/-- **Tokens are conserved, whoever dies in the queue**, in every run in which each process that
blocks gets a node in the queue, and no post overflows the counter.  The value is what the history
leaves, less the queue; while somebody is queued, everything that was there has been granted; and
each post wakes the longest-waiting live process if there is one, and otherwise drops the dead and
leaves one more token. -/
theorem token_conservation {procs : States} (hv₀ : 0 ≤ v₀)
    (hprocs : ∀ pid, procs.state pid ≠ none → ¬invalidPID pid)
    (hreach : Reach History.step (fun s e ↦ e.Allowed s ∧ e.GetsNode s ∧ e.Fits s)
      (init v₀ procs) s) :
    s.sem.value = v₀ + s.posts - s.grants - s.sem.blockedQueue.length ∧
    (s.sem.blockedQueue ≠ [] → v₀ + s.posts = s.grants) ∧
    ∀ t, History.step s .semPost = some t →
      (∃ dead pid rest, s.sem.blockedQueue = dead ++ pid :: rest ∧
          (∀ d ∈ dead, ¬s.procs.Live d) ∧ s.procs.Live pid ∧
          t = ⟨Sem.waiting rest, s.procs.set pid (some .READY), s.posts + 1, s.grants + 1⟩) ∨
        ((∀ d ∈ s.sem.blockedQueue, ¬s.procs.Live d) ∧
          t = ⟨⟨s.sem.tokens + 1, []⟩, s.procs, s.posts + 1, s.grants⟩) := by
  have h : Conserved v₀ s := hreach.invariant
    ⟨hprocs, .new hv₀, by simp [init, newSemaphore], List.nodup_nil, by simp [init, newSemaphore]⟩
    fun _ _ _ hu hok hv ↦ hu.step hok.1 hok.2.1 hv
  have htotal := h.total
  refine ⟨by omega, fun hne ↦ ?_, fun t ht ↦ h.semPost ht⟩
  have := h.wf.queued hne
  omega

/-- Two processes wait, the first one dies, and a post wakes the second. -/
theorem token_conservation_dead : ∃ s : History,
    (s.sem = ⟨0, []⟩ ∧ s.posts = 1 ∧ s.grants = 1 ∧ s.procs.state 3 = some .READY) ∧
    s.sem.value = 0 + s.posts - s.grants - s.sem.blockedQueue.length ∧
    (s.sem.blockedQueue ≠ [] → (0 : Int) + s.posts = s.grants) ∧
    ∀ t, History.step s .semPost = some t →
      (∃ dead pid rest, s.sem.blockedQueue = dead ++ pid :: rest ∧
          (∀ d ∈ dead, ¬s.procs.Live d) ∧ s.procs.Live pid ∧
          t = ⟨Sem.waiting rest, s.procs.set pid (some .READY), s.posts + 1, s.grants + 1⟩) ∨
        ((∀ d ∈ s.sem.blockedQueue, ¬s.procs.Live d) ∧
          t = ⟨⟨s.sem.tokens + 1, []⟩, s.procs, s.posts + 1, s.grants⟩) := by
  let es : List Event := [.env 2 .RUNNING, .semWait 2 true, .env 3 .RUNNING, .semWait 3 true,
    .terminate 2, .semPost]
  have hrun : (run History.step (init 0 ⟨fun _ ↦ none, 0, true⟩) es).map (fun s ↦
      decide (s.sem = ⟨0, []⟩ ∧ s.posts = 1 ∧ s.grants = 1 ∧ s.procs.state 3 = some .READY)) =
      some true := by decide
  have hguard : Guarded History.step (fun s e ↦ e.Allowed s ∧ e.GetsNode s ∧ e.Fits s)
      (init 0 ⟨fun _ ↦ none, 0, true⟩) es := by decide
  obtain ⟨s, hrun, hobs⟩ := Option.map_eq_some_iff.mp hrun
  exact ⟨s, of_decide_eq_true hobs,
    token_conservation (by decide) (by simp) (.of_run hrun hguard)⟩

/-- A process blocks when the heap has no room for its node: the counter counts it, and the queue
does not have it.  The post that follows wakes nobody and leaves no token. -/
theorem token_missing : ∃ s, Reach History.step (fun s e ↦ e.Allowed s)
      (init 0 ⟨fun _ ↦ none, 0, true⟩) s ∧
    s.sem.value ≠ (0 : Int) + s.posts - s.grants - s.sem.blockedQueue.length ∧
    s.procs.state 2 = some .BLOCKED ∧
    ∃ t, History.step s .semPost = some t ∧ t.procs.state 2 = some .BLOCKED ∧ t.sem = ⟨0, []⟩ := by
  let es : List Event := [.env 2 .RUNNING, .semWait 2 false]
  have hrun : (run History.step (init 0 ⟨fun _ ↦ none, 0, true⟩) es).map (fun s ↦
      decide (s.sem.value ≠ (0 : Int) + s.posts - s.grants - s.sem.blockedQueue.length ∧
        s.procs.state 2 = some .BLOCKED ∧
        (History.step s .semPost).map (fun t ↦ (t.procs.state 2, t.sem)) =
          some (some .BLOCKED, ⟨0, []⟩))) = some true := by decide
  have hguard : Guarded History.step (fun s e ↦ e.Allowed s) (init 0 ⟨fun _ ↦ none, 0, true⟩)
    es := by
    decide
  obtain ⟨s, hs, hobs⟩ := Option.map_eq_some_iff.mp hrun
  obtain ⟨hne, hblocked, hpost⟩ := of_decide_eq_true hobs
  obtain ⟨t, ht, heq⟩ := Option.map_eq_some_iff.mp hpost
  exact ⟨s, .of_run hs hguard, hne, hblocked, t, ht, (Prod.mk.inj heq).1, (Prod.mk.inj heq).2⟩

end History

end BareBones.Semaphores
