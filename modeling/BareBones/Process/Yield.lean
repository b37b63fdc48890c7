import BareBones.Lib.Overtaking
import BareBones.Process.RoundRobin
import BareBones.Process.KernelRule

/-!
# Yielding

`sys_yield` raises the timer interrupt, and what the scheduler does then depends on the
quantum: a running process that has ticks left uses one of them and goes on.  The CPU
changes hands only if the tick of the call is the one that finds no quantum left, or if the
caller has been blocked or terminated in the meantime.

Then the head of `readyQueue` is dispatched, and the caller goes to the back of the queue.
Whoever was in the queue stays in front of it (`Waiting`), through every event of every
later run, until it is dispatched or leaves the queue: a process that joins the queue joins
at the back, and one that is terminated in the course of an event comes to the end of the
event without being woken (`Gone`).
-/

namespace BareBones.Process.Kernel

open BareBones.Lib BareBones.Semaphores

variable {k s t : Kernel} {e : Event} {pid c w d cur : Int} {p : ProcessCDT} {id : SemId}
  {rest : List Int}

/-- The process that runs. -/
def runner (k : Kernel) : Option Int := k.currentProcess.map Prod.fst

/-- `w` runs, or is not in the ready queue. -/
def Served (w : Int) (k : Kernel) : Prop := k.runner = some w ∨ w ∉ k.readyQueue

/-- From `t` on, `c` does not run before `w` has been dispatched or has left the queue. -/
def RunsAfter (c w : Int) (t : Kernel) : Prop :=
  ∀ es u, run step t es = some u → u.runner = some c →
    ∃ es₁ es₂ v, es = es₁ ++ es₂ ∧ run step t es₁ = some v ∧ Served w v

/-- A `sys_yield` of `c` dispatches the head of the ready queue, and `c` does not run again
before every process that was `READY` has been dispatched or has left the queue. -/
def Yields (k : Kernel) (c : Int) : Prop :=
  ∃ d rest t, k.readyQueue = d :: rest ∧ k.step .yield = some t ∧ t.runner = some d ∧
    ∀ w, w ≠ c → k.stateOf w = some .READY → RunsAfter c w t

/-- The state in which `sys_yield` yields: the caller `p` with the pid `c` has used its
quantum, or is not `RUNNING` any more, the head of the queue names a process, and the caller
does not itself wait in front of a process that is `READY`. -/
structure MayYield (k : Kernel) (c : Int) (p : ProcessCDT) : Prop where
  used : p.state = .RUNNING → p.remainingQuantums = 0
  head : ∃ d rest, k.readyQueue = d :: rest ∧ k.processTable d ≠ none
  last : ∀ w ∈ k.readyQueue, w ≠ c → k.stateOf w = some .READY → Ahead c w k.readyQueue

/-! ## The scheduler is on -/

/-- A process runs only once the scheduler is on. -/
def EnabledInv (k : Kernel) : Prop := k.currentProcess ≠ none → k.schedulerEnabled = true

theorem EnabledInv.schedule (h : EnabledInv s) (ht : s.schedule = some t) : EnabledInv t := by
  rcases schedule_cases ht with ⟨-, rfl⟩ | ⟨hon, ⟨_, _, -, -, -, rfl⟩ | ⟨_, _, -, -, -, hdispatch⟩ |
    ⟨-, hdispatch⟩⟩
  · exact h
  · exact fun _ ↦ hon
  · obtain ⟨_, _, _, -, -, rfl⟩ := dispatch_cases hdispatch
    exact fun _ ↦ hon
  · obtain ⟨_, _, _, -, -, rfl⟩ := dispatch_cases hdispatch
    exact fun _ ↦ hon

theorem enabledRule : CoreRule (fun _ _ ↦ True) EnabledInv where
  frame h hsame hcur := hsame.enabled (h (by rwa [← hsame.currentProcess]))
  post id h _ hcur := by
    rw [post_schedulerEnabled]
    exact h (by rwa [← post_currentProcess])
  take _ h _ := h
  semOpen _ h := h
  heap _ h _ := h
  setBlocked h _ _ _ ht := by rcases ht with ⟨-, rfl⟩ | ⟨-, rfl⟩ <;> exact h
  unblock h _ _ _ _ := h
  exit h _ _ _ := h
  waited h _ _ _ _ := h
  polled h _ _ _ := h
  returned h _ _ _ _ := h
  block h _ _ _ _ _ _ ht := EnabledInv.schedule (s := blockOn _ _ _ _) h ht
  preempt h _ _ := h
  dispatch _ hon _ ht := by
    obtain ⟨_, _, _, -, -, rfl⟩ := dispatch_cases ht
    exact fun _ ↦ hon
  zombify h _ _ _ _ _ _ _ hcur := by
    rw [post_schedulerEnabled]
    exact h (by rwa [post_currentProcess] at hcur)
  free h _ _ _ := h
  start h _ _ _ := h

theorem enabled_reach (h : Reach step (fun _ _ ↦ True) initializeScheduler k) : EnabledInv k :=
  h.invariant (fun hcur ↦ absurd rfl hcur) fun _ _ _ hk hok ht ↦ enabledRule.step hk hok ht

/-! ## What a process waits for -/

/-- `w` waits in front of `c`, which does not run. -/
structure Waiting (c w : Int) (k : Kernel) : Prop where
  ahead : Ahead c w k.readyQueue
  off : k.runner ≠ some c

/-- `w` has been terminated. -/
structure Gone (w : Int) (k : Kernel) : Prop where
  queue : w ∉ k.readyQueue
  slot : ∀ p, k.processTable w = some p → p.state = .ZOMBIE

namespace Waiting

/-- Others join the queue at the back. -/
theorem join (h : Waiting c w s) {node : Node}
    (hqueue : t.readyQueue = s.enqueue node s.readyQueue d)
    (hcur : t.currentProcess = s.currentProcess) : Waiting c w t := by
  refine ⟨?_, by rw [runner, hcur]; exact h.off⟩
  rw [hqueue, enqueue]
  split
  · exact h.ahead.append [d]
  · exact h.ahead

theorem congr (h : Waiting c w s) (hqueue : t.readyQueue = s.readyQueue)
    (hcur : t.currentProcess = s.currentProcess) : Waiting c w t :=
  ⟨hqueue ▸ h.ahead, by rw [runner, hcur]; exact h.off⟩

theorem wake (h : Waiting c w s) (pid : Int) : Waiting c w (s.wake pid) := h.join rfl rfl

theorem post (h : Waiting c w s) (id : SemId) : Waiting c w (s.post id) := by
  rcases post_cases s id with ⟨_, _, -, -, -, heq⟩ | ⟨_, pid, _, _, -, -, -, -, -, -, heq⟩
  · rw [heq]
    exact h.congr rfl rfl
  · rw [heq]
    exact (h.wake pid).congr rfl rfl

/-- A process leaves the queue. -/
theorem leave (h : Waiting c w s) (hqueue : t.readyQueue = s.readyQueue.filter (· ≠ pid))
    (hcur : t.currentProcess = s.currentProcess) (hw : w ≠ pid) : Waiting c w t := by
  refine ⟨?_, by rw [runner, hcur]; exact h.off⟩
  rw [hqueue]
  exact h.ahead.filter (by simpa using hw)

/-- The head of the queue is dispatched: it is not `c`, and `w` keeps its place unless it is
the head. -/
theorem dispatch (h : Waiting c w s) (ht : s.dispatch = some t) : Served w t ∨ Waiting c w t := by
  obtain ⟨next, p, rest, hnext | ⟨hnil, -, -⟩, -, rfl⟩ := dispatch_cases ht
  · have hahead := h.ahead
    rw [hnext] at hahead
    obtain ⟨hne, rfl | hrest⟩ := Ahead.cons_iff.mp hahead
    · exact .inl (.inl rfl)
    · refine .inr ⟨hrest, ?_⟩
      intro heq
      exact hne (Option.some.inj heq)
  · have hmem := h.ahead.mem
    rw [hnil] at hmem
    cases hmem

end Waiting

namespace Gone

theorem congr (h : Gone w s) (hqueue : w ∈ t.readyQueue → w ∈ s.readyQueue)
    (hslot : ∀ p', t.processTable w = some p' →
      ∃ p, s.processTable w = some p ∧ p'.state = p.state) : Gone w t := by
  refine ⟨fun hmem ↦ h.queue (hqueue hmem), fun p' hp' ↦ ?_⟩
  obtain ⟨p, hp, hstate⟩ := hslot p' hp'
  exact hstate.trans (h.slot p hp)

/-- A process changes, but not its state. -/
theorem modify (h : Gone w s) {f : ProcessCDT → ProcessCDT} (hf : ∀ p, (f p).state = p.state)
    (hqueue : t.readyQueue = s.readyQueue)
    (htable : t.processTable = (s.modify pid f).processTable) : Gone w t := by
  refine h.congr (fun hmem ↦ hqueue ▸ hmem) fun p' hp' ↦ ?_
  rw [htable] at hp'
  obtain ⟨p, hp, rfl⟩ := modify_eq_some.mp hp'
  refine ⟨p, hp, ?_⟩
  split
  · exact hf p
  · rfl

/-- A process that is not dead is woken. -/
theorem wake (h : Gone w s) (hp : s.processTable pid = some p) (hlive : p.state ≠ .ZOMBIE) :
    Gone w (s.wake pid) := by
  have hne : w ≠ pid := by
    rintro rfl
    exact hlive (h.slot p hp)
  refine h.congr (fun hmem ↦ ?_) fun p' hp' ↦ ⟨p', by rwa [wake_other _ hne] at hp', rfl⟩
  rw [wake_readyQueue, enqueue] at hmem
  split at hmem
  · simpa [hne] using hmem
  · exact hmem

theorem post (h : Gone w s) (id : SemId) : Gone w (s.post id) := by
  rcases post_cases s id with ⟨_, _, -, -, -, heq⟩ | ⟨_, pid, _, p, -, -, -, hp, hst, -, heq⟩
  · rw [heq]
    exact h.congr (fun hmem ↦ hmem) fun p' hp' ↦ ⟨p', hp', rfl⟩
  · rw [heq]
    exact (h.wake hp (by simp [hst])).congr (fun hmem ↦ hmem) fun p' hp' ↦ ⟨p', hp', rfl⟩

/-- Who is not in the queue is not there after a dispatch. -/
theorem dispatch (h : Gone w s) (ht : s.dispatch = some t) : Served w t := by
  obtain ⟨next, p, rest, hnext | ⟨-, -, rfl⟩, -, rfl⟩ := dispatch_cases ht
  · refine .inr fun hmem ↦ h.queue ?_
    rw [hnext]
    exact List.mem_cons_of_mem _ hmem
  · exact .inr List.not_mem_nil

end Gone

/-! ## Every event -/

/-- In the course of an event: `w` waits, or has been terminated by the event. -/
def Pending (c w : Int) (k : Kernel) : Prop := Waiting c w k ∨ Gone w k

namespace Pending

theorem post (h : Pending c w s) (id : SemId) : Pending c w (s.post id) :=
  h.imp (·.post id) (·.post id)

theorem setCont (h : Pending c w s) (cur : Int) (a : Cont) : Pending c w (s.setCont cur a) := by
  refine h.imp (·.congr rfl rfl) fun hgone ↦ ?_
  exact hgone.modify (f := fun p ↦ { p with cont := a }) (fun _ ↦ rfl) rfl rfl

/-- Nothing changes but semaphores. -/
theorem congr (h : Pending c w s) (hqueue : t.readyQueue = s.readyQueue)
    (hcur : t.currentProcess = s.currentProcess) (htable : t.processTable = s.processTable) :
    Pending c w t := by
  refine h.imp (·.congr hqueue hcur) fun hgone ↦ hgone.congr (fun hmem ↦ hqueue ▸ hmem) ?_
  rw [htable]
  exact fun p hp ↦ ⟨p, hp, rfl⟩

theorem frame (h : Pending c w s) (hsame : SameCore s t) : Pending c w t := by
  refine h.imp (·.congr hsame.readyQueue hsame.currentProcess) fun hgone ↦ ?_
  refine hgone.congr (fun hmem ↦ hsame.readyQueue ▸ hmem) fun p' hp' ↦ ?_
  obtain ⟨p, hp, -, hstate, -⟩ := hsame.eq_some hp'
  exact ⟨p, hp, hstate.symm⟩

/-- The running process goes to the back of the queue. -/
theorem preempt (h : Pending c w s) (hcur : s.current = some (cur, p))
    (hrun : p.state = .RUNNING) : Pending c w (s.wake cur) :=
  h.imp (·.wake cur) (·.wake (current_eq_some.mp hcur).2 (by simp [hrun]))

theorem dispatch (h : Pending c w s) (ht : s.dispatch = some t) : Served w t ∨ Waiting c w t :=
  h.elim (·.dispatch ht) fun hgone ↦ .inl (hgone.dispatch ht)

theorem weaken (h : Pending c w s) : Served w s ∨ Waiting c w s :=
  h.symm.imp_left fun hgone ↦ .inr hgone.queue

theorem schedule (h : Pending c w s) (ht : s.schedule = some t) : Served w t ∨ Waiting c w t :=
  CoreRule.schedule_induction (I := Pending c w) weaken frame preempt
    (fun h _ _ ht ↦ dispatch h ht) h ht

/-- A process is terminated: if it is `w`, no later part of the event brings it back. -/
theorem zombify (h : Pending c w s) (pid : Int) (inst parent : Nat) :
    Pending c w (s.zombify pid inst parent) := by
  rcases h with hwaiting | hgone
  · by_cases hw : w = pid
    · refine .inr ⟨?_, fun p' hp' ↦ ?_⟩
      · rw [hw]
        exact fun hmem ↦ by simpa using List.of_mem_filter hmem
      · obtain ⟨p₀, -, rfl⟩ := modify_eq_some.mp hp'
        rw [if_pos hw]
    · exact .inl (hwaiting.leave rfl rfl hw)
  · refine .inr (hgone.congr (fun hmem ↦ List.mem_of_mem_filter hmem) fun p' hp' ↦ ?_)
    obtain ⟨p₀, hp₀, rfl⟩ := modify_eq_some.mp hp'
    refine ⟨p₀, hp₀, ?_⟩
    split
    · exact (hgone.slot p₀ hp₀).symm
    · rfl

theorem free (h : Pending c w s) (pid : Int) (p : ProcessCDT) (expected : Option Nat) :
    Pending c w (s.freed pid p expected) := by
  refine h.imp (·.congr rfl rfl) fun hgone ↦ hgone.congr (fun hmem ↦ hmem) fun p' hp' ↦ ?_
  replace hp' : (if w = pid then none else s.processTable w) = some p' := hp'
  split at hp'
  · cases hp'
  · exact ⟨p', hp', rfl⟩

end Pending

/-- While `w` waits in front of `c`, every event lets it wait on, unless it dispatches `w` or
takes it out of the queue. -/
theorem waitingRule (c w : Int) : CoreRule (fun k _ ↦ Waiting c w k) (Pending c w)
    fun k ↦ Served w k ∨ Waiting c w k where
  weaken := Pending.weaken
  frame := Pending.frame
  post id h _ := h.post id
  take _ h _ := h.congr rfl rfl rfl
  semOpen _ h := h.congr rfl rfl rfl
  heap _ _ hok := .inl (hok.congr rfl rfl)
  setBlocked {_ _ pid _} _ hok _ _ ht := by
    rcases ht with ⟨-, rfl⟩ | ⟨-, rfl⟩
    · exact .inr (hok.congr rfl rfl)
    · by_cases hw : w = pid
      · refine .inl (.inr ?_)
        rw [hw]
        exact fun hmem ↦ by simpa using List.of_mem_filter hmem
      · exact .inr (hok.leave rfl rfl hw)
  unblock _ hok _ _ _ := .inl (hok.wake _)
  exit h _ _ _ := h.setCont _ _
  waited h _ _ _ _ := h.setCont _ _
  polled h _ _ _ := h.setCont _ _
  returned {s _ _ id _} h _ _ _ _ :=
    Pending.setCont (s := s.returnFrom id _) (h.congr rfl rfl rfl) _ _
  block _ hok _ _ _ _ _ ht :=
    Pending.schedule (s := blockOn _ _ _ _) (.inl (hok.congr rfl rfl)) ht
  preempt := Pending.preempt
  dispatch h _ _ ht := h.dispatch ht
  zombify h _ _ _ _ _ _ _ := (h.zombify _ _ _).post _
  free h _ _ _ := h.free _ _ _
  start _ hok hsame _ := .inl ((hok.congr hsame.readyQueue hsame.currentProcess).join rfl rfl)

theorem Waiting.step (h : Waiting c w k) (ht : k.step e = some t) : Served w t ∨ Waiting c w t :=
  (waitingRule c w).step (.inl h) h ht

/-- **Nobody is overtaken.**  If `w` waits in front of `c`, then `c` does not run before `w`
has been dispatched or has left the queue. -/
theorem Waiting.runsAfter (h : Waiting c w t) : RunsAfter c w t := by
  intro es u hrun hu
  refine (run_until (fun _ _ _ hw ht ↦ hw.step ht) h hrun).resolve_left ?_
  intro hwaiting
  exact hwaiting.off hu

/-- Who is served is not waited for. -/
theorem Served.runsAfter (h : Served w t) (c : Int) : RunsAfter c w t :=
  fun es _ _ _ ↦ ⟨[], es, t, rfl, rfl, h⟩

/-! ## `sys_yield` -/

/-- The call of the scheduler takes the head of the queue. -/
theorem schedule_head (hon : k.schedulerEnabled = true) (hcur : k.current = some (c, p))
    (hused : p.state = .RUNNING → p.remainingQuantums = 0) (hqueue : k.readyQueue = d :: rest)
    (hd : k.processTable d ≠ none) : ∃ t, k.schedule = some t ∧ t.runner = some d ∧
      (t.readyQueue = rest ∨ t.readyQueue = rest ++ [c]) := by
  by_cases hrun : p.state = .RUNNING
  · obtain ⟨p', hp'⟩ := Option.ne_none_iff_exists'.mp fun hnone ↦ hd (modify_eq_none.mp hnone)
    have hwake : (k.wake c).readyQueue = d :: rest ∨
        (k.wake c).readyQueue = d :: (rest ++ [c]) := by
      rw [wake_readyQueue, hqueue, enqueue]
      split
      · exact .inr rfl
      · exact .inl rfl
    rw [schedule_preempt hon hcur hrun (hused hrun)]
    rcases hwake with hwake | hwake
    · exact ⟨_, dispatch_cons (k := k.wake c) hwake hp', rfl, .inl rfl⟩
    · exact ⟨_, dispatch_cons (k := k.wake c) hwake hp', rfl, .inr rfl⟩
  · obtain ⟨p', hp'⟩ := Option.ne_none_iff_exists'.mp hd
    rw [schedule_idle hon (.inr ⟨c, p, hcur, hrun⟩)]
    exact ⟨_, dispatch_cons hqueue hp', rfl, .inl rfl⟩

theorem step_yield (hcaller : k.caller = some (c, p)) : k.step .yield = k.schedule := by
  rw [step, hcaller]
  rfl

/-- Whoever was in front of the caller is the head, or waits in front of it now. -/
theorem MayYield.yields (h : MayYield k c p) (hon : EnabledInv k)
    (hcaller : k.caller = some (c, p)) : k.Yields c := by
  obtain ⟨hcur, -, -⟩ := caller_eq_some hcaller
  have henabled : k.schedulerEnabled = true := hon (by simp [(current_eq_some.mp hcur).1])
  obtain ⟨d, rest, hqueue, hd⟩ := h.head
  obtain ⟨t, ht, hrunner, hrest⟩ := schedule_head henabled hcur h.used hqueue hd
  refine ⟨d, rest, t, hqueue, (step_yield hcaller).trans ht, hrunner, fun w hw hready ↦ ?_⟩
  by_cases hmem : w ∈ k.readyQueue
  · have hahead := h.last w hmem hw hready
    rw [hqueue] at hahead
    obtain ⟨hne, rfl | hwait⟩ := Ahead.cons_iff.mp hahead
    · exact Served.runsAfter (.inl hrunner) c
    · refine Waiting.runsAfter ⟨?_, ?_⟩
      · rcases hrest with hrest | hrest
        · rw [hrest]
          exact hwait
        · rw [hrest]
          exact hwait.append [c]
      · rw [hrunner]
        exact fun heq ↦ hne (Option.some.inj heq)
  · refine Served.runsAfter (.inr fun hmem' ↦ hmem ?_) c
    rw [hqueue]
    refine List.mem_cons_of_mem _ ?_
    rcases hrest with hrest | hrest
    · rwa [← hrest]
    · rw [hrest] at hmem'
      simpa [hw] using hmem'

/-- A call that comes back to the caller at once has not yielded to the others. -/
theorem not_yields (hstep : k.step .yield = some t) (hrunner : t.runner = some c) (hw : w ≠ c)
    (hready : k.stateOf w = some .READY) (hmem : w ∈ t.readyQueue) : ¬k.Yields c := by
  rintro ⟨d, rest, t', -, ht', -, hafter⟩
  obtain rfl := Option.some.inj (hstep.symm.trans ht')
  obtain ⟨es₁, es₂, v, hnil, hv, hserved⟩ := hafter w hw hready [] t rfl hrunner
  obtain ⟨rfl, -⟩ := List.append_eq_nil_iff.mp hnil.symm
  cases hv
  rcases hserved with hruns | hnot
  · exact hw (Option.some.inj (hruns.symm.trans hrunner))
  · exact hnot hmem

/-- **A caller with ticks left does not yield**, if anyone else is `READY`. -/
theorem not_yields_of_quantums (hon : EnabledInv k) (hcaller : k.caller = some (c, p))
    (hrun : p.state = .RUNNING) (hquantums : 0 < p.remainingQuantums) (hw : w ≠ c)
    (hready : k.stateOf w = some .READY) (hmem : w ∈ k.readyQueue) : ¬k.Yields c := by
  obtain ⟨hcur, -, -⟩ := caller_eq_some hcaller
  have hpointer := (current_eq_some.mp hcur).1
  have henabled : k.schedulerEnabled = true := hon (by simp [hpointer])
  refine not_yields ((step_yield hcaller).trans (schedule_running henabled hcur hrun hquantums))
    ?_ hw hready hmem
  change k.runner = some c
  rw [runner, hpointer]
  rfl

/-- A call that returns has found the process at the head. -/
theorem head_of_schedule (hon : k.schedulerEnabled = true) (hcur : k.current = some (c, p))
    (hused : p.state = .RUNNING → p.remainingQuantums = 0) (hqueue : k.readyQueue = d :: rest)
    (ht : k.schedule = some t) : k.processTable d ≠ none := by
  have hhead : ∀ s : Kernel, s.dispatch = some t → (∃ others, s.readyQueue = d :: others) →
      s.processTable d ≠ none := by
    rintro s hdispatch ⟨others, hs⟩
    obtain ⟨next, p', rest', hnext | ⟨hnil, -, -⟩, hp', -⟩ := dispatch_cases hdispatch
    · obtain ⟨rfl, -⟩ := List.cons.inj (hs.symm.trans hnext)
      simp [hp']
    · cases hs.symm.trans hnil
  rcases schedule_cases ht with ⟨hoff, -⟩ | ⟨-, ⟨_, _, hcur', hrun, hpos, -⟩ |
    ⟨_, _, -, -, -, hdispatch⟩ | ⟨-, hdispatch⟩⟩
  · cases hoff.symm.trans hon
  · cases hcur.symm.trans hcur'
    exact absurd (hused hrun) hpos.ne'
  · refine fun hnone ↦ hhead _ hdispatch ?_ (modify_eq_none.mpr hnone)
    rw [wake_readyQueue, hqueue, enqueue]
    split
    · exact ⟨_, rfl⟩
    · exact ⟨_, rfl⟩
  · exact hhead k hdispatch ⟨rest, hqueue⟩

/-- **`sys_yield` yields** in every reachable state in which the caller may yield.  If any
other process waits `READY`, the call does so only when the caller has no tick left, and
the head of the queue is another process, which exists. -/
theorem yields_of_used (h : Reach step (fun _ _ ↦ True) initializeScheduler k)
    (hcaller : k.caller = some (c, p)) :
    (k.MayYield c p → k.Yields c) ∧
      ((∃ w ∈ k.readyQueue, w ≠ c ∧ k.stateOf w = some .READY) → k.Yields c →
        (p.state = .RUNNING → p.remainingQuantums = 0) ∧
          ∃ d rest, k.readyQueue = d :: rest ∧ d ≠ c ∧ k.processTable d ≠ none) := by
  have hon := enabled_reach h
  refine ⟨fun hmay ↦ hmay.yields hon hcaller, ?_⟩
  rintro ⟨w, hmem, hw, hready⟩ hyields
  have hused : p.state = .RUNNING → p.remainingQuantums = 0 := by
    intro hrun
    by_contra hquantums
    exact not_yields_of_quantums hon hcaller hrun (by omega) hw hready hmem hyields
  refine ⟨hused, ?_⟩
  obtain ⟨hcur, -, -⟩ := caller_eq_some hcaller
  have henabled : k.schedulerEnabled = true := hon (by simp [(current_eq_some.mp hcur).1])
  obtain ⟨d, rest, t, hqueue, ht, hrunner, -⟩ := id hyields
  have hd := head_of_schedule henabled hcur hused hqueue ((step_yield hcaller).symm.trans ht)
  refine ⟨d, rest, hqueue, ?_, hd⟩
  rintro rfl
  obtain ⟨t', ht', -, hrest⟩ := schedule_head henabled hcur hused hqueue hd
  obtain rfl := Option.some.inj (ht.symm.trans ((step_yield hcaller).trans ht'))
  refine not_yields ht hrunner hw hready ?_ hyields
  rw [hqueue] at hmem
  have hwait : w ∈ rest := List.mem_of_ne_of_mem hw hmem
  rcases hrest with hrest | hrest
  · rwa [hrest]
  · rw [hrest]
    exact List.mem_append_left _ hwait

/-- The shell has the priority 1, and its first tick is its last: it yields to the idle
process and to the process that it has created. -/
theorem yields_of_used_shell : ∃ k : Kernel, k.readyQueue = [0, 3] ∧ k.Yields 2 := by
  have hrun : (run step initializeScheduler (bootEvents ++ [.create])).map (fun k ↦
      decide (k.readyQueue = [0, 3] ∧ k.caller.map Prod.fst = some 2 ∧
        (k.caller.all fun c ↦ c.2.remainingQuantums = 0) ∧ (k.processTable 0).isSome)) =
      some true := by decide +kernel
  obtain ⟨k, hrun, hobs⟩ := Option.map_eq_some_iff.mp hrun
  obtain ⟨hqueue, hcaller, hused, hidle⟩ := of_decide_eq_true hobs
  obtain ⟨⟨c, p⟩, hcaller, rfl⟩ := Option.map_eq_some_iff.mp hcaller
  rw [hcaller] at hused
  refine ⟨k, hqueue, (yields_of_used (.of_run hrun (.of_true _ _)) hcaller).1 ?_⟩
  constructor
  · exact fun _ ↦ by simpa using hused
  · exact ⟨0, [3], hqueue, Option.isSome_iff_ne_none.mp hidle⟩
  · intro w hw hne _
    rw [hqueue] at hw ⊢
    simp only [List.mem_cons, List.not_mem_nil, or_false] at hw
    rcases hw with rfl | rfl <;> decide

/-- With a higher priority it goes on. -/
theorem nice_not_yields : ¬∀ k : Kernel, Reach step (fun _ _ ↦ True) initializeScheduler k →
    ∀ c p, k.caller = some (c, p) → (∃ w, k.stateOf w = some .READY) → k.Yields c := by
  intro hclaim
  have hrun : (run step initializeScheduler (bootEvents ++ [.create, .nice 2 5])).map (fun k ↦
      decide (k.readyQueue = [0, 3] ∧ k.caller.map Prod.fst = some 2 ∧
        (k.caller.all fun c ↦ c.2.state = .RUNNING ∧ c.2.remainingQuantums = 5) ∧
        k.stateOf 3 = some .READY)) = some true := by decide +kernel
  obtain ⟨k, hrun, hobs⟩ := Option.map_eq_some_iff.mp hrun
  obtain ⟨hqueue, hcaller, hstate, hready⟩ := of_decide_eq_true hobs
  obtain ⟨⟨c, p⟩, hcaller, rfl⟩ := Option.map_eq_some_iff.mp hcaller
  rw [hcaller] at hstate
  obtain ⟨hstate, hquantums⟩ : p.state = .RUNNING ∧ p.remainingQuantums = 5 := by
    simpa using hstate
  have hreach : Reach step (fun _ _ ↦ True) initializeScheduler k := .of_run hrun (.of_true _ _)
  refine not_yields_of_quantums (w := 3) (enabled_reach hreach) hcaller hstate (by omega)
    (by decide) hready ?_ (hclaim k hreach 2 p hcaller ⟨3, hready⟩)
  rw [hqueue]
  decide

end BareBones.Process.Kernel
