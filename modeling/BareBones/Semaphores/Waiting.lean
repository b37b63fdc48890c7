import BareBones.Semaphores.Conservation
import BareBones.Semaphores.SharedSemaphores

/-!
# Semaphores whose waiters are all alive

Where no process dies, none is unblocked by anything but a post, and the heap has room for the
nodes of the queues, the queue of a semaphore holds exactly the processes that are blocked in a
wait for it (`Waiting`).  Then a wait either takes a token or blocks its caller, and a post either
wakes one of the waiters, which has been granted a token by it, or leaves one more token.

The operations on named semaphores leave the heap's answer as it is (`Shared.sharedSemWait_nodes`
and the others), so that it is the same all along a run that no event of the heap interrupts.
-/

namespace BareBones.Semaphores

open BareBones.Process

/-- The queue of the semaphore holds the processes that wait for it and are blocked. -/
structure Waiting (sem : Sem) (ps : States) (waits : Int → Prop) : Prop where
  wf : sem.Wf
  nodup : sem.blockedQueue.Nodup
  mem : ∀ q, q ∈ sem.blockedQueue ↔ waits q ∧ ps.state q = some .BLOCKED

namespace Waiting

variable {sem : Sem} {ps ps' : States} {waits waits' : Int → Prop} {pid : Int}

theorem new {value : Int} (hvalue : 0 ≤ value)
    (hnone : ∀ q, ¬(waits q ∧ ps.state q = some .BLOCKED)) :
    Waiting (newSemaphore value) ps waits :=
  ⟨.new hvalue, List.nodup_nil, fun q ↦ ⟨fun hq ↦ absurd hq List.not_mem_nil,
    fun hq ↦ absurd hq (hnone q)⟩⟩

/-- What does not concern the semaphore. -/
theorem congr (h : Waiting sem ps waits) (hiff : ∀ q, (waits' q ∧ ps'.state q = some .BLOCKED) ↔
    waits q ∧ ps.state q = some .BLOCKED) : Waiting sem ps' waits' :=
  ⟨h.wf, h.nodup, fun q ↦ (h.mem q).trans (hiff q).symm⟩

theorem tokens_eq_zero (h : Waiting sem ps waits) (hpid : waits pid)
    (hblocked : ps.state pid = some .BLOCKED) : sem.tokens = 0 := by
  have hq := (h.mem pid).mpr ⟨hpid, hblocked⟩
  have hvalue := h.wf.queued (List.ne_nil_of_mem hq)
  rw [Sem.tokens, hvalue]
  omega

/-- **A wait** with a token. -/
theorem take (h : Waiting sem ps waits) (waits' : Int → Prop) (hpos : 0 < sem.tokens)
    (hother : ∀ q, ps.state q = some .BLOCKED → (waits' q ↔ waits q)) :
    sem.tokens = (semWait sem ps).1.tokens + 1 ∧ (semWait sem ps).2.1 = ps ∧
      Waiting (semWait sem ps).1 ps waits' := by
  have hvalue : 0 < sem.value := by
    rw [Sem.tokens] at hpos
    omega
  rcases semWait_spec (s := ps) h.wf fun hle ↦ by omega with ⟨-, heq⟩ | ⟨hle, -⟩
  · refine ⟨?_, by rw [heq], ?_⟩
    · rw [heq, Sem.tokens, Sem.tokens]
      simp only
      omega
    · rw [heq]
      refine ⟨.take hvalue, List.nodup_nil, fun q ↦ ⟨fun hq ↦ absurd hq List.not_mem_nil, ?_⟩⟩
      rintro ⟨hw, hb⟩
      have hmem := (h.mem q).mpr ⟨(hother q hb).mp hw, hb⟩
      rw [h.wf.queue_eq_nil hvalue] at hmem
      cases hmem
  · omega

/-- **A wait** takes a token, or there is none and the caller is blocked. -/
theorem wait (h : Waiting sem ps waits) (waits' : Int → Prop)
    (hnodes : ps.nodes = true) (hrun : ps.state ps.currentPID = some .READY)
    (hself : waits' ps.currentPID) (hother : ∀ q, q ≠ ps.currentPID → (waits' q ↔ waits q)) :
    (sem.tokens = (semWait sem ps).1.tokens + 1 ∧ (semWait sem ps).2.1 = ps ∧
        Waiting (semWait sem ps).1 ps waits') ∨
      (sem.tokens = 0 ∧ (semWait sem ps).1.tokens = 0 ∧
        (semWait sem ps).2.1 = ps.set ps.currentPID (some .BLOCKED) ∧
        Waiting (semWait sem ps).1 (ps.set ps.currentPID (some .BLOCKED)) waits') := by
  rcases semWait_spec (s := ps) h.wf fun _ ↦ hnodes with ⟨hpos, -⟩ | ⟨hle, heq⟩
  · refine .inl (h.take waits' (by rw [Sem.tokens]; omega) fun q hb ↦ hother q ?_)
    rintro rfl
    cases hrun.symm.trans hb
  · have hcur : ps.currentPID ∉ sem.blockedQueue := fun hmem ↦ by
      cases hrun.symm.trans ((h.mem _).mp hmem).2
    refine .inr ⟨?_, ?_, by rw [heq]; rfl, ?_⟩
    · rw [Sem.tokens]
      omega
    · rw [heq, Sem.tokens, Sem.waiting_value]
      omega
    · rw [heq]
      refine ⟨Sem.waiting_wf _, ?_, fun q ↦ ?_⟩
      · rw [Sem.waiting_queue]
        exact List.nodup_append.mpr ⟨h.nodup, List.pairwise_singleton _ _, by
          rintro a ha b hb rfl
          have heq : a = ps.currentPID := List.mem_singleton.mp hb
          exact hcur (heq ▸ ha)⟩
      · rw [Sem.waiting_queue, List.mem_append]
        by_cases hq : q = ps.currentPID
        · subst hq
          exact ⟨fun _ ↦ ⟨hself, States.set_self _ _ _⟩,
            fun _ ↦ .inr (List.mem_singleton.mpr rfl)⟩
        · rw [States.set_other _ _ hq, hother q hq, ← h.mem]
          exact ⟨fun hmem ↦ hmem.elim id fun hmem ↦ absurd (List.mem_singleton.mp hmem) hq, .inl⟩

/-- **A post** wakes a waiter, or nobody waits and it leaves a token. -/
theorem post (h : Waiting sem ps waits) (waits' : Int → Prop)
    (hvalid : ∀ q, ps.state q ≠ none → ¬invalidPID q)
    (hother : ∀ q, ps.state q = some .BLOCKED → (waits' q ↔ waits q)) :
    (∃ q, waits q ∧ ps.state q = some .BLOCKED ∧ sem.tokens = 0 ∧
        (semPost sem ps).1.tokens = 0 ∧ (semPost sem ps).2 = ps.set q (some .READY) ∧
        Waiting (semPost sem ps).1 (ps.set q (some .READY)) waits') ∨
      ((semPost sem ps).1.tokens = sem.tokens + 1 ∧ (semPost sem ps).2 = ps ∧
        Waiting (semPost sem ps).1 ps waits') := by
  have hready : ∀ q ∈ sem.blockedQueue,
      Scheduler.setReady q ps = some (ps.set q (some .READY)) := by
    intro q hq
    have hb := ((h.mem q).mp hq).2
    simp only [Scheduler.setReady]
    rw [if_neg (hvalid q (by rw [hb]; simp)), if_neg (by simp [hb])]
  rcases semPost_spec (s := ps) h.wf with ⟨dead, q, rest, ps₁, hqueue, hdead, hq, heq⟩ |
    ⟨hdead, heq⟩
  · have hnil : dead = [] := by
      cases dead with
      | nil => rfl
      | cons d dead =>
          have hd := hready d (by simp [hqueue])
          rw [hdead d List.mem_cons_self] at hd
          cases hd
    subst hnil
    have hmem : q ∈ sem.blockedQueue := by simp [hqueue]
    obtain ⟨hw, hb⟩ := (h.mem q).mp hmem
    rw [hready q hmem] at hq
    obtain rfl := Option.some.inj hq
    have hnodup := h.nodup
    rw [hqueue] at hnodup
    obtain ⟨hrest, hnodup⟩ := List.nodup_cons.mp hnodup
    refine .inl ⟨q, hw, hb, h.tokens_eq_zero hw hb, ?_, by rw [heq], ?_⟩
    · rw [heq, Sem.tokens, Sem.waiting_value]
      omega
    · rw [heq]
      refine ⟨Sem.waiting_wf _, hnodup, fun r ↦ ?_⟩
      rw [Sem.waiting_queue]
      by_cases hr : r = q
      · subst hr
        rw [States.set_self]
        exact ⟨fun hmem ↦ absurd hmem hrest, fun hmem ↦ by cases hmem.2⟩
      · rw [States.set_other _ _ hr]
        have hiff := h.mem r
        rw [hqueue, List.nil_append, List.mem_cons, or_iff_right hr] at hiff
        rw [hiff]
        exact and_congr_left fun hb ↦ (hother r hb).symm
  · have hnil : sem.blockedQueue = [] := by
      refine List.eq_nil_iff_forall_not_mem.mpr fun q hq ↦ ?_
      have hd := hready q hq
      rw [hdead q hq] at hd
      cases hd
    refine .inr ⟨?_, by rw [heq], ?_⟩
    · rw [heq]
      exact Int.toNat_natCast _
    · rw [heq]
      refine ⟨Sem.free_wf (sem.tokens + 1), List.nodup_nil, fun q ↦
        ⟨fun hq ↦ (by cases hq), fun hq ↦ ?_⟩⟩
      have hmem := (h.mem q).mpr ⟨(hother q hq.2).mp hq.1, hq.2⟩
      rw [hnil] at hmem
      cases hmem

end Waiting

/-! ## The heap -/

namespace Shared

variable {s t : Shared States} {name : List UInt8} {r : Int}

theorem sharedSemOpen_sched (name : List UInt8) (v : Int) (room : Bool) (s : Shared States) :
    (s.sharedSemOpen name v room).2.sched = s.sched := by
  rw [sharedSemOpen]
  split
  · rfl
  · split
    · rfl
    · split
      · rfl
      · cases room <;> rfl

theorem freeSemaphore_sched {sem : Option Nat} (h : s.freeSemaphore sem = some t) :
    t.sched = s.sched := by
  cases sem with
  | none =>
      cases h
      rfl
  | some p =>
      simp only [freeSemaphore] at h
      split at h
      · cases h
      · split at h
        · cases h
          rfl
        · cases h
          rfl

theorem sharedSemClose_sched (h : s.sharedSemClose name = some (r, t)) : t.sched = s.sched := by
  rw [sharedSemClose] at h
  split at h
  · cases h
    rfl
  · split at h
    · cases h
      rfl
    · simp only at h
      split at h
      · obtain ⟨u, hu, heq⟩ := Option.map_eq_some_iff.mp h
        cases heq
        exact (freeSemaphore_sched hu).trans rfl
      · cases h
        rfl

theorem sharedSemWait_nodes (h : s.sharedSemWait name = some (r, t)) :
    t.sched.nodes = s.sched.nodes := by
  rw [sharedSemWait] at h
  split at h
  · cases h
    rfl
  · split at h
    · cases h
      rfl
    · split at h
      · cases h
      · cases h
        exact States.semWait_nodes _ _

theorem sharedSemPost_nodes (h : s.sharedSemPost name = some (r, t)) :
    t.sched.nodes = s.sched.nodes := by
  rw [sharedSemPost] at h
  split at h
  · cases h
    rfl
  · split at h
    · cases h
      rfl
    · split at h
      · cases h
      · cases h
        exact States.semPost_nodes _ _

end Shared

end BareBones.Semaphores
