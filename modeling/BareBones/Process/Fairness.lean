import BareBones.Lib.Progress
import BareBones.Process.Yield

/-!
# Fairness

Nobody waits for ever in `readyQueue`.  What a process in the queue still waits for is
bounded by its `patience`: the ticks that the running process has left, and a whole quantum
for each process in front.  A priority is a `uint8_t`, so that a whole quantum is at most
255 ticks.  No event raises the bound, and each event that raises the timer interrupt lowers
it, whatever else the processes do in the meantime: whoever blocks, exits, is killed, is
woken or is created joins at the back or leaves.

There is one exception.  `setPriorityOnPID` starts a fresh quantum, so a running process
that changes its own priority again and again keeps the CPU for ever (`renews`).

To see what an event does to the bound, it is taken apart once (`Move`): up to the call of
the scheduler, if there is one, it is `Orderly`.

## Key results

- `step_move`: every event is a `Move`.
- `quanta_in_range`: in every reachable state all priorities are between 1 and 255, no
  process has more ticks left than its priority, and each pid of `foregroundSet` names a
  process.
- `served_within`: a process in the queue is dispatched, or leaves the queue, before the
  timer has interrupted more than `patience` times.
- `renews`: a process that renews its quantum starves the others.
-/

namespace BareBones.Process

/-- A process has kept its block and its quantum, and has not begun to run. -/
structure ProcessCDT.Keeps (p p' : ProcessCDT) : Prop where
  inst : p'.inst = p.inst
  priorityLevel : p'.priorityLevel = p.priorityLevel
  remainingQuantums : p'.remainingQuantums = p.remainingQuantums
  running : p'.state = .RUNNING → p.state = .RUNNING

theorem ProcessCDT.Keeps.refl (p : ProcessCDT) : p.Keeps p := ⟨rfl, rfl, rfl, id⟩

theorem ProcessCDT.Keeps.trans {p p' p'' : ProcessCDT} (h : p.Keeps p') (h' : p'.Keeps p'') :
    p.Keeps p'' where
  inst := h'.inst.trans h.inst
  priorityLevel := h'.priorityLevel.trans h.priorityLevel
  remainingQuantums := h'.remainingQuantums.trans h.remainingQuantums
  running hrun := h.running (h'.running hrun)

/-- What the scheduler reads of a process. -/
def ProcessCDT.turn (p : ProcessCDT) : Nat × State × Nat × Nat :=
  (p.inst, p.state, p.priorityLevel, p.remainingQuantums)

theorem ProcessCDT.Keeps.of_turn {p p' : ProcessCDT} (h : p'.turn = p.turn) : p.Keeps p' := by
  obtain ⟨hinst, hstate, hpriority, hquantums⟩ : p'.inst = p.inst ∧ p'.state = p.state ∧
      p'.priorityLevel = p.priorityLevel ∧ p'.remainingQuantums = p.remainingQuantums := by
    simpa [ProcessCDT.turn] using h
  exact ⟨hinst, hpriority, hquantums, fun hrun ↦ hstate.symm.trans hrun⟩

namespace Kernel

open BareBones.Lib BareBones.Semaphores

variable {k s t u : Kernel} {e : Event} {pid cur w : Int} {p p' : ProcessCDT} {id : SemId}

/-- `w` waits no further back than before. -/
def Holds (w : Int) (s t : Kernel) : Prop :=
  w ∈ t.readyQueue ∧ t.readyQueue.idxOf w ≤ s.readyQueue.idxOf w

/-- The pids of the foreground set name processes. -/
def Foreground (k : Kernel) : Prop :=
  ∀ pid, k.foregroundSet pid = true → k.processTable pid ≠ none

/-- The kernel has come from `s` to `t` in the course of an event, without a call of the
scheduler: nobody runs who has not run, no quantum has changed, and whoever waits in the
queue waits no further back, or has been terminated. -/
structure Orderly (s t : Kernel) : Prop where
  currentProcess : t.currentProcess = s.currentProcess
  enabled : s.schedulerEnabled = true → t.schedulerEnabled = true
  quanta : ∀ q p', t.processTable q = some p' → ∃ p, s.processTable q = some p ∧ p.Keeps p'
  foreground : Foreground s → Foreground t
  place : ∀ w ∈ s.readyQueue, s.runner ≠ some w → Holds w s t ∨ Gone w t
  gone : ∀ w, s.runner ≠ some w → Gone w s → Gone w t

namespace Orderly

theorem runner (h : Orderly s t) : t.runner = s.runner :=
  congrArg (Option.map Prod.fst) h.currentProcess

/-- Nothing of this changes. -/
theorem of_eq (htable : t.processTable = s.processTable) (hqueue : t.readyQueue = s.readyQueue)
    (hcur : t.currentProcess = s.currentProcess)
    (hon : s.schedulerEnabled = true → t.schedulerEnabled = true)
    (hfg : ∀ q, t.foregroundSet q = true → s.foregroundSet q = true) : Orderly s t where
  currentProcess := hcur
  enabled := hon
  quanta q p' hp' := ⟨p', htable ▸ hp', .refl p'⟩
  foreground h q hq := htable ▸ h q (hfg q hq)
  place w hw _ := by
    refine .inl ⟨?_, ?_⟩
    · rwa [hqueue]
    · rw [hqueue]
  gone w _ h := h.congr (fun hmem ↦ hqueue ▸ hmem) fun p hp ↦ ⟨p, htable ▸ hp, rfl⟩

theorem refl (s : Kernel) : Orderly s s := of_eq rfl rfl rfl (fun h ↦ h) fun _ h ↦ h

theorem trans (h : Orderly s t) (h' : Orderly t u) : Orderly s u where
  currentProcess := h'.currentProcess.trans h.currentProcess
  enabled hon := h'.enabled (h.enabled hon)
  quanta q p'' hp'' := by
    obtain ⟨p', hp', hkeeps'⟩ := h'.quanta q p'' hp''
    obtain ⟨p, hp, hkeeps⟩ := h.quanta q p' hp'
    exact ⟨p, hp, hkeeps.trans hkeeps'⟩
  foreground hfg := h'.foreground (h.foreground hfg)
  place w hw hrunner := by
    have hrunner' : t.runner ≠ some w := by rwa [h.runner]
    rcases h.place w hw hrunner with ⟨hmem, hle⟩ | hgone
    · refine (h'.place w hmem hrunner').imp_left ?_
      rintro ⟨hmem', hle'⟩
      exact ⟨hmem', hle'.trans hle⟩
    · exact .inr (h'.gone w hrunner' hgone)
  gone w hrunner hgone := h'.gone w (by rwa [h.runner]) (h.gone w hrunner hgone)

/-- A process changes.  It stays dead, unless it is the running one. -/
theorem modify {f : ProcessCDT → ProcessCDT} (hf : ∀ p : ProcessCDT, p.Keeps (f p))
    (hdead : s.runner = some pid ∨
      ∀ p, s.processTable pid = some p → p.state = .ZOMBIE → (f p).state = .ZOMBIE) :
    Orderly s (s.modify pid f) where
  currentProcess := rfl
  enabled h := h
  quanta q p' hp' := by
    obtain ⟨p, hp, rfl⟩ := modify_eq_some.mp hp'
    refine ⟨p, hp, ?_⟩
    split
    · exact hf p
    · exact .refl p
  foreground h q hq := mt modify_eq_none.mp (h q hq)
  place w hw _ := .inl ⟨hw, Nat.le_refl _⟩
  gone w hrunner hgone := by
    refine ⟨hgone.queue, ?_⟩
    intro p' hp'
    obtain ⟨p, hp, rfl⟩ := modify_eq_some.mp hp'
    split
    next heq =>
        subst heq
        exact hdead.resolve_left hrunner p hp (hgone.slot p hp)
    · exact hgone.slot p hp

/-- A process changes, but nothing that the scheduler reads. -/
theorem frame (s : Kernel) (pid : Int) {f : ProcessCDT → ProcessCDT}
    (hf : ∀ p, (f p).turn = p.turn := by exact fun _ ↦ rfl) : Orderly s (s.modify pid f) :=
  modify (fun p ↦ .of_turn (hf p)) <| .inr fun p _ hdead ↦
    (congrArg (fun turn ↦ turn.2.1) (hf p)).trans hdead

theorem setCont (s : Kernel) (pid : Int) (c : Cont) : Orderly s (s.setCont pid c) := frame s pid

theorem addChild (s : Kernel) (parent childPid : Int) : Orderly s (s.addChild parent childPid) :=
  frame s parent

theorem removeChild (s : Kernel) (parent childPid : Int) :
    Orderly s (s.removeChild parent childPid) := frame s parent

theorem enqueueTerminated (s : Kernel) (parent childPid : Int) :
    Orderly s (s.enqueueTerminated parent childPid) := frame s parent

theorem setSem (s : Kernel) (id : SemId) (r : SemRec) : Orderly s (s.setSem id r) :=
  of_eq rfl rfl rfl (fun h ↦ h) fun _ h ↦ h

/-! ### Semaphores -/

/-- A blocked process is woken. -/
theorem wake (hp : s.processTable pid = some p) (hblocked : p.state = .BLOCKED) :
    Orderly s (s.wake pid) where
  currentProcess := rfl
  enabled h := h
  quanta q p' hp' := by
    obtain ⟨p, hp, rfl⟩ := modify_eq_some.mp hp'
    refine ⟨p, hp, ?_⟩
    split
    · refine ⟨rfl, rfl, rfl, ?_⟩
      rintro ⟨⟩
    · exact .refl p
  foreground h q hq := mt modify_eq_none.mp (h q hq)
  place w hw _ := by
    unfold Holds
    rw [wake_readyQueue, enqueue]
    split
    · exact .inl ⟨List.mem_append_left _ hw, Nat.le_of_eq (List.idxOf_append_of_mem hw)⟩
    · exact .inl ⟨hw, Nat.le_refl _⟩
  gone w _ h := h.wake hp (by simp [hblocked])

theorem post (s : Kernel) (id : SemId) : Orderly s (s.post id) := by
  have hposted : ∀ (u : Kernel) value rest woken, Orderly u (u.posted id value rest woken) :=
    fun _ _ _ _ ↦ of_eq rfl rfl rfl (fun h ↦ h) fun _ h ↦ h
  rcases post_cases s id with ⟨_, _, -, -, -, heq⟩ |
    ⟨_, pid, _, p, -, -, -, hp, hblocked, -, heq⟩
  · rw [heq]
    exact hposted s _ _ _
  · rw [heq]
    exact (wake hp hblocked).trans (hposted _ _ _ _)

theorem tryWait (s : Kernel) (id : SemId) : Orderly s (s.tryWait id).1 := by
  rcases tryWait_cases s id with ⟨-, heq⟩ | ⟨-, heq⟩
  · rw [heq]
    exact setSem s id _
  · rw [heq]
    exact refl s

/-- The running process stops in a `semWait`. -/
theorem blockOn (hrunner : s.runner = some cur) (id : SemId) (c : Cont) :
    Orderly s (s.blockOn id cur c) := by
  have hblocked : Orderly s (s.modify cur fun p ↦ { p with state := .BLOCKED, cont := c }) := by
    refine modify (fun p ↦ ⟨rfl, rfl, rfl, ?_⟩) (.inl hrunner)
    rintro ⟨⟩
  exact hblocked.trans (setSem _ id _)

/-! ### Termination -/

theorem closeFdsOf (s : Kernel) (closed : List Nat) : Orderly s (s.closeFdsOf closed) := by
  unfold Kernel.closeFdsOf
  induction closed generalizing s with
  | nil => exact refl s
  | cons n closed ih => exact (post s _).trans (ih _)

theorem transferOrphan (s : Kernel) (initProc : Nat) (childPid : Int) :
    Orderly s (s.transferOrphan initProc childPid) := by
  unfold Kernel.transferOrphan
  split
  · exact refl s
  split
  · exact refl s
  next child _ =>
      have hadopted : Orderly s ((s.addChild INIT_PID childPid).modify childPid fun p ↦
          { p with ppid := INIT_PID }) :=
        (addChild s _ _).trans (frame _ _)
      dsimp only
      split
      · exact (hadopted.trans (enqueueTerminated _ _ _)).trans (post _ _)
      · exact hadopted

theorem transferOrphanChildren (s : Kernel) (pid : Int) :
    Orderly s (s.transferOrphanChildren pid) := by
  have hloop : ∀ (children : List Int) (s : Kernel) (initProc : Nat),
      Orderly s (children.foldl (Kernel.transferOrphan initProc) s) := by
    intro children
    induction children with
    | nil => exact fun s _ ↦ refl s
    | cons childPid children ih =>
        exact fun s initProc ↦ (transferOrphan s initProc childPid).trans (ih _ _)
  unfold Kernel.transferOrphanChildren
  split
  · exact (hloop _ _ _).trans (frame _ _)
  · exact refl s

/-- A process is marked as dead: if it is `w`, no later part of the event brings it back. -/
theorem zombify (s : Kernel) (pid : Int) (inst parent : Nat) :
    Orderly s (s.zombify pid inst parent) where
  currentProcess := rfl
  enabled h := h
  quanta q p' hp' := by
    obtain ⟨p, hp, rfl⟩ := modify_eq_some.mp hp'
    refine ⟨p, hp, ?_⟩
    split
    · refine ⟨rfl, rfl, rfl, ?_⟩
      rintro ⟨⟩
    · exact .refl p
  foreground h q hq := mt modify_eq_none.mp (h q hq)
  place w hw _ := by
    by_cases hne : w = pid
    · subst hne
      refine .inr ⟨fun hmem ↦ by simpa using List.of_mem_filter hmem, ?_⟩
      intro p' hp'
      obtain ⟨p, -, rfl⟩ := modify_eq_some.mp hp'
      rw [if_pos rfl]
    · have hkeep : decide (w ≠ pid) = true := decide_eq_true hne
      exact .inl ⟨List.mem_filter.mpr ⟨hw, hkeep⟩, idxOf_filter_le hkeep⟩
  gone w _ hgone := by
    refine ⟨fun hmem ↦ hgone.queue (List.mem_of_mem_filter hmem), ?_⟩
    intro p' hp'
    obtain ⟨p, hp, rfl⟩ := modify_eq_some.mp hp'
    split
    · rfl
    · exact hgone.slot p hp

theorem terminate {closed : List Nat} (ht : s.terminate pid closed = some t) : Orderly s t := by
  unfold Kernel.terminate at ht
  split at ht
  · cases ht
  split at ht
  · cases ht
  split at ht
  · cases ht
  split at ht
  · cases ht
  split at ht
  · cases ht
  obtain rfl := Option.some.inj ht
  have hset : ∀ u : Kernel, Orderly u
      { u with foregroundSet := fun q ↦ if q = pid then false else u.foregroundSet q } := by
    intro u
    refine of_eq rfl rfl rfl (fun h ↦ h) fun q hq ↦ ?_
    dsimp only at hq
    split at hq
    · cases hq
    · exact hq
  refine ((closeFdsOf s closed).trans (hset _)).trans (trans ?_ (transferOrphanChildren _ pid))
  have hrecorded : ∀ (u before : Kernel) (process parent : Nat) (ppid pid : Int),
      Orderly u (u.recordNotice before process parent ppid pid) :=
    fun _ _ _ _ _ _ ↦ of_eq rfl rfl rfl (fun h ↦ h) fun _ h ↦ h
  rw [notifyTermination_eq]
  exact ((((zombify _ pid _ _).trans (post _ _)).trans (post _ _)).trans
    (enqueueTerminated _ _ _)).trans (hrecorded _ _ _ _ _ _)

/-! ### Waiting and reaping -/

theorem freed (s : Kernel) (pid : Int) (p : ProcessCDT) (expected : Option Nat) :
    Orderly s (s.freed pid p expected) where
  currentProcess := rfl
  enabled h := h
  quanta q p' hp' := by
    replace hp' : (if q = pid then none else s.processTable q) = some p' := hp'
    split at hp'
    · cases hp'
    · exact ⟨p', hp', .refl p'⟩
  foreground h q hq := by
    replace hq : (if q = pid then false else s.foregroundSet q) = true := hq
    change (if q = pid then none else s.processTable q) ≠ none
    split at hq
    · cases hq
    next hne =>
        rw [if_neg hne]
        exact h q hq
  place w hw _ := .inl ⟨hw, Nat.le_refl _⟩
  gone w _ hgone := by
    refine ⟨hgone.queue, fun p' hp' ↦ ?_⟩
    replace hp' : (if w = pid then none else s.processTable w) = some p' := hp'
    split at hp'
    · cases hp'
    · exact hgone.slot p' hp'

theorem reapProcess (s : Kernel) (pid : Int) (expected : Option Nat) :
    Orderly s (s.reapProcess pid expected) := by
  rcases reapProcess_cases s pid expected with ⟨-, heq⟩ | ⟨p, -, -, heq⟩
  · rw [heq]
    exact refl s
  · rw [heq]
    exact freed s pid p expected

theorem afterTerminated {inst : Nat} {parent : Option (Int × Nat)}
    (ht : s.afterTerminated pid inst parent = some t) : Orderly s t := by
  unfold Kernel.afterTerminated at ht
  split at ht
  · exact Option.some.inj ht ▸ reapProcess s pid _
  next ppid pinst =>
      split at ht
      · cases ht
      split at ht
      · cases ht
      obtain rfl := Option.some.inj ht
      have hremoved : ∀ u : Kernel, Orderly u (u.modify ppid fun p ↦
          { p with terminatedChildren := p.terminatedChildren.filter (· ≠ pid) }) :=
        fun u ↦ frame u ppid
      exact (((tryWait s _).trans (hremoved _)).trans (removeChild _ _ _)).trans
        (reapProcess _ _ _)

theorem pollAndReap (s : Kernel) (cur : Int) (p : ProcessCDT) :
    Orderly s (s.pollAndReap cur p) := by
  have hpolled : Orderly s (s.pollTerminatedChildren cur p).2 := by
    unfold pollTerminatedChildren
    split
    · exact of_eq rfl rfl rfl (fun h ↦ h) fun _ h ↦ h
    · exact frame s cur
  unfold Kernel.pollAndReap
  dsimp only
  split
  · exact hpolled
  · exact (hpolled.trans (removeChild _ _ _)).trans (reapProcess _ _ _)

theorem reapLoop {n : Nat} (ht : Kernel.reapLoop n s = some t) : Orderly s t := by
  induction n generalizing s with
  | zero => exact Option.some.inj ht ▸ refl s
  | succ n ih =>
      unfold Kernel.reapLoop at ht
      split at ht
      · cases ht
      next cur p _ =>
          have htaken : Orderly s (s.tryWait (.childTerminated p.inst)).1 := tryWait s _
          split at ht
          next u hu =>
              rw [hu] at htaken
              exact (htaken.trans (pollAndReap u cur p)).trans (ih ht)
          next u hu =>
              rw [hu] at htaken
              exact Option.some.inj ht ▸ htaken

theorem resume (ht : s.resume cur p = some t) : Orderly s t := by
  have hreturned : ∀ id c, Orderly s ((s.returnFrom id cur).setCont cur c) :=
    fun id c ↦ (setSem s id _).trans (setCont _ cur c)
  unfold Kernel.resume at ht
  split at ht
  · exact Option.some.inj ht ▸ hreturned _ _
  · exact (hreturned _ _).trans (afterTerminated ht)
  · exact Option.some.inj ht ▸ hreturned _ _
  · exact Option.some.inj ht ▸ (setCont s cur _).trans (pollAndReap _ cur p)
  · cases ht
  · cases ht

end Orderly

/-! ## The events -/

/-- The timer interrupt, from the clock or from `sys_yield`. -/
def Event.interrupts : Event → Bool
  | .tick | .yield => true
  | _ => false

/-- What an event does. -/
inductive Move (k : Kernel) : Event → Kernel → Prop
  | orderly {e : Event} {t : Kernel} (h : Orderly k t) (he : e.interrupts = false) : Move k e t
  /-- The event ends with a call of the scheduler. -/
  | scheduled {e : Event} {u t : Kernel} (h : Orderly k u) (ht : u.schedule = some t) : Move k e t
  /-- A process is put into a free slot; the caller has one. -/
  | created {s : Kernel} {pid ppid cur : Int} {p : ProcessCDT}
      (hcur : k.current = some (cur, p)) (h : Orderly k s) (hqueue : s.readyQueue = k.readyQueue)
      (hfree : k.findFreePid = some pid) : Move k .create (s.started 1 pid ppid)
  /-- A `READY` process leaves the queue. -/
  | blocked {pid : Int} {p : ProcessCDT} (hp : k.processTable pid = some p)
      (hready : p.state = .READY) : Move k (.block pid)
        ({ k with readyQueue := k.readyQueue.filter (· ≠ pid) }.setState pid .BLOCKED)
  /-- A process gets a priority, and a fresh quantum. -/
  | niced {pid : Int} {priority : UInt8} (hpriority : priority ≠ 0) :
      Move k (.nice pid priority) (k.modify pid fun p ↦
        { p with priorityLevel := priority.toNat, remainingQuantums := priority.toNat })
  /-- A process comes to the foreground. -/
  | foregrounded {pid : Int} (hp : k.processTable pid ≠ none) : Move k (.foreground pid)
      { k with foregroundSet := fun q ↦ if q = pid then true else k.foregroundSet q }

namespace Move

theorem stay (he : e.interrupts = false) : Move k e k := .orderly (.refl k) he

/-- A call of `semWait` takes a token, or blocks the caller and calls the scheduler. -/
theorem wait (hcur : k.current = some (cur, p)) (c : Cont) (next : Kernel → Option Kernel)
    (he : e.interrupts = false) (hnext : ∀ {u}, next (k.take id) = some u → Orderly k u)
    (ht : (match k.wait id with
      | (u, true) => (u.setCont cur c).schedule
      | (u, false) => next u) = some t) : Move k e t := by
  have hpointer := (current_eq_some.mp hcur).1
  rcases wait_cases hpointer id with ⟨-, hwait⟩ | ⟨-, hflag, hblock⟩
  · rw [hwait] at ht
    exact .orderly (hnext ht) he
  · generalize k.wait id = w at ht hflag hblock
    obtain ⟨u, flag⟩ := w
    obtain rfl : flag = true := hflag
    dsimp only at ht
    rw [hblock] at ht
    refine .scheduled (.blockOn ?_ id c) ht
    rw [runner, hpointer]
    rfl

theorem take (k : Kernel) (id : SemId) : Orderly k (k.take id) := .setSem k id _

theorem wait_pid (hcaller : k.caller = some (cur, p)) (ht : k.wait_pid cur pid = some t) :
    Move k (.waitPid pid) t := by
  obtain ⟨hcur, -, -⟩ := caller_eq_some hcaller
  unfold Kernel.wait_pid at ht
  split at ht
  · exact Option.some.inj ht ▸ stay rfl
  split at ht
  · exact Option.some.inj ht ▸ stay rfl
  next process _ =>
      refine wait hcur _ _ rfl (fun h ↦ ?_) ht
      exact (take k _).trans (.afterTerminated h)

theorem wait_any (hcaller : k.initCaller = some (cur, p)) (ht : k.wait_any cur p = some t) :
    Move k .waitAny t := by
  obtain ⟨hcur, -, -⟩ := initCaller_eq_some hcaller
  unfold Kernel.wait_any at ht
  refine wait hcur _ (fun u ↦ some (u.setCont cur .polling)) rfl (fun h ↦ ?_) ht
  exact Option.some.inj h ▸ (take k _).trans (.setCont _ cur _)

theorem sysSemWait (hcaller : k.caller = some (cur, p)) {n : Nat}
    (ht : k.sysSemWait cur n = some t) : Move k (.semWait n) t := by
  obtain ⟨hcur, -, -⟩ := caller_eq_some hcaller
  unfold Kernel.sysSemWait at ht
  refine wait hcur _ some rfl (fun h ↦ ?_) ht
  exact Option.some.inj h ▸ take k _

theorem terminateProcess {closed : List Nat} (h : Orderly k s) (he : e.interrupts = false)
    (ht : s.terminateProcess pid closed = some t) : Move k e t := by
  unfold Kernel.terminateProcess at ht
  split at ht
  · exact Option.some.inj ht ▸ .orderly h he
  next u hu =>
      split at ht
      · exact .scheduled (h.trans (.terminate hu)) ht
      · exact Option.some.inj ht ▸ .orderly (h.trans (.terminate hu)) he

theorem setBlocked (k : Kernel) (pid : Int) : Move k (.block pid) ((k.setBlocked pid).getD k) := by
  cases hblock : k.setBlocked pid with
  | none => exact stay rfl
  | some t =>
      obtain ⟨-, p, hp, ⟨hrun, rfl⟩ | ⟨hready, rfl⟩⟩ := setBlocked_eq_some hblock
      · refine .orderly (.modify (fun p ↦ ⟨rfl, rfl, rfl, ?_⟩) (.inr ?_)) rfl
        · rintro ⟨⟩
        · intro p' hp' hdead
          cases hp.symm.trans hp'
          cases hrun.symm.trans hdead
      · exact .blocked hp hready

theorem sysUnblock (k : Kernel) (pid : Int) :
    Move k (.unblock pid) ((k.sysUnblock pid).getD k) := by
  cases hready : k.sysUnblock pid with
  | none => exact stay rfl
  | some t =>
      obtain ⟨-, p, hp, hblocked, rfl⟩ := sysUnblock_eq_some hready
      exact .orderly (.wake hp hblocked) rfl

theorem create (hcur : k.current = some (cur, p)) (ht : k.sysCreateProcess = some t) :
    Move k .create t := by
  rw [sysCreateProcess_eq_some ht]
  rcases startNewProcess_cases 1 k with hnone | ⟨pid, hfree, heq⟩
  · rw [hnone]
    exact stay rfl
  · rw [heq]
    have hregistered : Orderly k (k.registered pid).2 ∧
        (k.registered pid).2.readyQueue = k.readyQueue := by
      unfold registered
      split
      · split
        · exact ⟨.addChild k _ pid, rfl⟩
        · exact ⟨.refl k, rfl⟩
      · exact ⟨.refl k, rfl⟩
    exact .created hcur hregistered.1 hregistered.2 hfree

end Move

/-- **Every event is a move.** -/
theorem step_move (ht : k.step e = some t) : Move k e t := by
  cases e with
  | tick => exact .scheduled (.refl k) ht
  | yield =>
      obtain ⟨-, -, hschedule⟩ := Option.bind_eq_some_iff.mp ht
      exact .scheduled (.refl k) hschedule
  | enableScheduler =>
      exact Option.some.inj ht ▸ .orderly (.of_eq rfl rfl rfl (fun _ ↦ rfl) fun _ h ↦ h) rfl
  | heap nodes =>
      exact Option.some.inj ht ▸ .orderly (.of_eq rfl rfl rfl (fun h ↦ h) fun _ h ↦ h) rfl
  | semOpen value =>
      exact Option.some.inj ht ▸ .orderly (.of_eq rfl rfl rfl (fun h ↦ h) fun _ h ↦ h) rfl
  | create =>
      obtain ⟨⟨cur, p⟩, hcaller, hcreate⟩ := Option.bind_eq_some_iff.mp ht
      cases hc : k.caller with
      | some c => exact .create (caller_eq_some hc).1 hcreate
      | none =>
          rw [hc] at hcaller
          exact .create (initCaller_eq_some hcaller).1 hcreate
  | exit closed =>
      obtain ⟨⟨cur, p⟩, -, hexit⟩ := Option.bind_eq_some_iff.mp ht
      exact .terminateProcess (.setCont k cur _) rfl hexit
  | kill pid closed =>
      obtain ⟨-, -, hkill⟩ := Option.bind_eq_some_iff.mp ht
      exact .terminateProcess (.refl k) rfl hkill
  | ctrlC pid closed =>
      simp only [Kernel.step] at ht
      split at ht
      · cases ht
      rw [← Option.some.inj ht, killFromIsr]
      cases hterm : k.terminate pid closed with
      | none => exact .stay rfl
      | some u => exact .orderly (.terminate hterm) rfl
  | block pid =>
      obtain ⟨-, -, rfl⟩ := Option.map_eq_some_iff.mp ht
      exact .setBlocked k pid
  | unblock pid =>
      obtain ⟨-, -, rfl⟩ := Option.map_eq_some_iff.mp ht
      exact .sysUnblock k pid
  | nice pid priority =>
      obtain ⟨-, -, rfl⟩ := Option.map_eq_some_iff.mp ht
      cases hnice : k.setPriorityOnPID pid priority with
      | none => exact .stay rfl
      | some u =>
          obtain ⟨hpriority, rfl⟩ := setPriorityOnPID_eq_some hnice
          exact .niced hpriority
  | foreground pid =>
      obtain ⟨-, -, rfl⟩ := Option.map_eq_some_iff.mp ht
      cases hadd : k.addToFG pid with
      | none => exact .stay rfl
      | some u =>
          obtain ⟨hp, rfl⟩ := addToFG_eq_some hadd
          exact .foregrounded hp
  | waitPid pid =>
      obtain ⟨⟨cur, p⟩, hcaller, hwait⟩ := Option.bind_eq_some_iff.mp ht
      exact .wait_pid hcaller hwait
  | reapZombies =>
      obtain ⟨c, -, hreap⟩ := Option.bind_eq_some_iff.mp ht
      exact .orderly (.reapLoop hreap) rfl
  | waitAny =>
      obtain ⟨⟨cur, p⟩, hcaller, hwait⟩ := Option.bind_eq_some_iff.mp ht
      exact .wait_any hcaller hwait
  | semWait n =>
      obtain ⟨⟨cur, p⟩, hcaller, hwait⟩ := Option.bind_eq_some_iff.mp ht
      dsimp only at hwait
      split at hwait
      · exact .sysSemWait hcaller hwait
      · cases hwait
  | semPost n =>
      simp only [Kernel.step] at ht
      split at ht
      · exact Option.some.inj ht ▸ .orderly (.post k _) rfl
      · cases ht
  | semTryWait n =>
      simp only [Kernel.step] at ht
      split at ht
      · exact Option.some.inj ht ▸ .orderly (.tryWait k _) rfl
      · cases ht
  | resume =>
      obtain ⟨⟨cur, p⟩, -, hresume⟩ := Option.bind_eq_some_iff.mp ht
      exact .orderly (.resume hresume) rfl

/-! ## Quanta -/

/-- What holds of the quanta in every reachable state. -/
structure QuantumInv (k : Kernel) : Prop where
  valid : ∀ pid p, k.processTable pid = some p → ¬invalidPID pid
  /-- A priority is a `uint8_t`, and never 0. -/
  priority : ∀ pid p, k.processTable pid = some p → 1 ≤ p.priorityLevel ∧ p.priorityLevel ≤ 255
  quantum : ∀ pid p, k.processTable pid = some p → p.remainingQuantums ≤ p.priorityLevel
  foreground : Foreground k

namespace QuantumInv

theorem orderly (h : QuantumInv s) (ho : Orderly s t) : QuantumInv t where
  valid pid p' hp' := by
    obtain ⟨p, hp, -⟩ := ho.quanta pid p' hp'
    exact h.valid pid p hp
  priority pid p' hp' := by
    obtain ⟨p, hp, hkeeps⟩ := ho.quanta pid p' hp'
    rw [hkeeps.priorityLevel]
    exact h.priority pid p hp
  quantum pid p' hp' := by
    obtain ⟨p, hp, hkeeps⟩ := ho.quanta pid p' hp'
    rw [hkeeps.priorityLevel, hkeeps.remainingQuantums]
    exact h.quantum pid p hp
  foreground := ho.foreground h.foreground

/-- A process gets another quantum. -/
theorem modify (h : QuantumInv s) {f : ProcessCDT → ProcessCDT}
    (hpriority : ∀ p, 1 ≤ p.priorityLevel ∧ p.priorityLevel ≤ 255 →
      1 ≤ (f p).priorityLevel ∧ (f p).priorityLevel ≤ 255)
    (hquantum : ∀ p, p.remainingQuantums ≤ p.priorityLevel →
      (f p).remainingQuantums ≤ (f p).priorityLevel)
    (htable : t.processTable = (s.modify pid f).processTable)
    (hfg : t.foregroundSet = s.foregroundSet) : QuantumInv t := by
  constructor
  · intro q p' hp'
    rw [htable] at hp'
    obtain ⟨p, hp, -⟩ := modify_eq_some.mp hp'
    exact h.valid q p hp
  · intro q p' hp'
    rw [htable] at hp'
    obtain ⟨p, hp, rfl⟩ := modify_eq_some.mp hp'
    split
    · exact hpriority p (h.priority q p hp)
    · exact h.priority q p hp
  · intro q p' hp'
    rw [htable] at hp'
    obtain ⟨p, hp, rfl⟩ := modify_eq_some.mp hp'
    split
    · exact hquantum p (h.quantum q p hp)
    · exact h.quantum q p hp
  · intro q hq
    rw [hfg] at hq
    rw [htable]
    exact mt modify_eq_none.mp (h.foreground q hq)

theorem wake (h : QuantumInv s) (pid : Int) : QuantumInv (s.wake pid) :=
  h.modify (f := fun p ↦ { p with state := .READY }) (fun _ h ↦ h) (fun _ h ↦ h) rfl rfl

theorem dispatch (h : QuantumInv s) (ht : s.dispatch = some t) : QuantumInv t := by
  obtain ⟨next, p, rest, -, -, rfl⟩ := dispatch_cases ht
  refine h.modify (f := fun p ↦ { p with
    state := .RUNNING, remainingQuantums := p.priorityLevel - 1 }) (fun _ h ↦ h) ?_ rfl rfl
  exact fun p _ ↦ Nat.sub_le _ _

theorem schedule (h : QuantumInv s) (ht : s.schedule = some t) : QuantumInv t := by
  rcases schedule_cases ht with ⟨-, rfl⟩ | ⟨-,
    ⟨cur, p, -, -, -, rfl⟩ | ⟨cur, p, -, -, -, hdispatch⟩ | ⟨-, hdispatch⟩⟩
  · exact h
  · refine h.modify ?_ ?_ rfl rfl
    · exact fun _ h ↦ h
    · exact fun p hp ↦ (Nat.sub_le _ _).trans hp
  · exact (h.wake cur).dispatch hdispatch
  · exact h.dispatch hdispatch

/-- **Every event keeps the quanta in range.** -/
theorem move (h : QuantumInv k) (hmove : Move k e t) : QuantumInv t := by
  cases hmove with
  | orderly ho => exact h.orderly ho
  | scheduled ho ht => exact (h.orderly ho).schedule ht
  | @created s pid ppid _ _ _ ho _ hfree =>
      have hs := h.orderly ho
      have htable : ∀ q p', (s.started 1 pid ppid).processTable q = some p' →
          q = pid ∧ p' = s.newCDT 1 ppid ∨ s.processTable q = some p' := by
        intro q p' hp'
        replace hp' : (if q = pid then some (s.newCDT 1 ppid) else s.processTable q) = some p' :=
          hp'
        split at hp'
        next heq => exact .inl ⟨heq, (Option.some.inj hp').symm⟩
        · exact .inr hp'
      constructor
      · intro q p' hp'
        rcases htable q p' hp' with ⟨rfl, -⟩ | hp
        · exact (findFreePid_eq_some hfree).1
        · exact hs.valid q p' hp
      · intro q p' hp'
        rcases htable q p' hp' with ⟨-, rfl⟩ | hp
        · exact ⟨Nat.le_refl 1, show 1 ≤ 255 by decide⟩
        · exact hs.priority q p' hp
      · intro q p' hp'
        rcases htable q p' hp' with ⟨-, rfl⟩ | hp
        · exact Nat.le_refl _
        · exact hs.quantum q p' hp
      · intro q hq
        change (if q = pid then some (s.newCDT 1 ppid) else s.processTable q) ≠ none
        split
        · exact Option.some_ne_none _
        · exact hs.foreground q hq
  | blocked =>
      refine h.modify ?_ ?_ rfl rfl
      · exact fun _ h ↦ h
      · exact fun _ h ↦ h
  | @niced pid priority hpriority =>
      refine h.modify (fun _ _ ↦ ⟨?_, ?_⟩) (fun _ _ ↦ Nat.le_refl _) rfl rfl
      · refine Nat.pos_of_ne_zero fun hzero ↦ hpriority ?_
        exact UInt8.toNat_inj.mp hzero
      · exact Nat.le_of_lt_succ priority.toNat_lt
  | @foregrounded pid hp =>
      refine ⟨h.valid, h.priority, h.quantum, fun q hq ↦ ?_⟩
      replace hq : (if q = pid then true else k.foregroundSet q) = true := hq
      split at hq
      next heq => exact heq ▸ hp
      · exact h.foreground q hq

theorem init : QuantumInv initializeScheduler := by
  constructor
  · intro q p hp
    rcases init_eq_some hp with ⟨rfl, -⟩ | ⟨rfl, -⟩ <;> decide
  · intro q p hp
    rcases init_eq_some hp with ⟨-, rfl⟩ | ⟨-, rfl⟩ <;> decide
  · intro q p hp
    rcases init_eq_some hp with ⟨-, rfl⟩ | ⟨-, rfl⟩ <;> decide
  · rintro q ⟨⟩

theorem reach (h : Reach step (fun _ _ ↦ True) initializeScheduler k) : QuantumInv k :=
  h.invariant init fun _ _ _ hk _ ht ↦ hk.move (step_move ht)

end QuantumInv

/-- **Quanta stay in range.**  In every reachable state a process in the table has a valid
pid, a priority between 1 and 255 and no more ticks left than its priority, and each pid of
the foreground set names a process. -/
theorem quanta_in_range (h : Reach step (fun _ _ ↦ True) initializeScheduler k) :
    (∀ pid p, k.processTable pid = some p → ¬invalidPID pid ∧ 1 ≤ p.priorityLevel ∧
      p.priorityLevel ≤ 255 ∧ p.remainingQuantums ≤ p.priorityLevel) ∧
    ∀ pid, k.foregroundSet pid = true → k.processTable pid ≠ none := by
  have hquanta := QuantumInv.reach h
  refine ⟨fun pid p hp ↦ ?_, hquanta.foreground⟩
  obtain ⟨hpos, hle⟩ := hquanta.priority pid p hp
  exact ⟨hquanta.valid pid p hp, hpos, hle, hquanta.quantum pid p hp⟩

/-- The shell comes to the foreground, gets a priority and has used some of its quantum. -/
theorem quanta_in_range_shell : ∃ k : Kernel, k.foregroundSet 2 = true ∧
    (∃ p, k.processTable 2 = some p ∧ p.priorityLevel = 5 ∧ p.remainingQuantums = 3 ∧
      p.remainingQuantums ≤ p.priorityLevel) ∧ k.processTable 2 ≠ none := by
  have hrun : (run step initializeScheduler
      (bootEvents ++ [.foreground 2, .nice 2 5, .tick, .tick])).map (fun k ↦
      decide (k.foregroundSet 2 = true ∧ (k.processTable 2).map (fun p ↦
        (p.priorityLevel, p.remainingQuantums)) = some (5, 3))) = some true := by decide +kernel
  obtain ⟨k, hrun, hobs⟩ := Option.map_eq_some_iff.mp hrun
  obtain ⟨hfg, hslot⟩ := of_decide_eq_true hobs
  obtain ⟨p, hp, heq⟩ := Option.map_eq_some_iff.mp hslot
  obtain ⟨hpriority, hquantums⟩ := Prod.mk.inj heq
  obtain ⟨hrange, hforeground⟩ := quanta_in_range (.of_run hrun (.of_true _ _))
  obtain ⟨-, -, -, hle⟩ := hrange 2 p hp
  exact ⟨k, hfg, ⟨p, hp, hpriority, hquantums, hle⟩, hforeground 2 hfg⟩

/-! ## Bounded waiting -/

/-- The ticks that the running process has left. -/
def ticksLeft (k : Kernel) : Nat :=
  match k.current with
  | some (_, p) => if p.state = .RUNNING then p.remainingQuantums else 0
  | none => 0

/-- A bound on the timer interrupts that come before `w` is dispatched: the ticks that the
running process has left, and a whole quantum for each process in front. -/
def patience (k : Kernel) (w : Int) : Nat := k.ticksLeft + 255 * k.readyQueue.idxOf w

/-- The event does not start a fresh quantum for the running process. -/
def LeavesQuantum (k : Kernel) (e : Event) : Prop :=
  ∀ pid priority, e = .nice pid priority → k.runner ≠ some pid

/-- `w` waits in the queue of a system that is up. -/
structure Queued (w : Int) (k : Kernel) : Prop where
  enabled : k.schedulerEnabled = true
  quanta : QuantumInv k
  mem : w ∈ k.readyQueue
  off : k.runner ≠ some w

theorem ticksLeft_of_current (hcur : k.current = some (cur, p)) :
    k.ticksLeft = if p.state = .RUNNING then p.remainingQuantums else 0 := by
  unfold ticksLeft
  rw [hcur]

/-- The running process has no more ticks left, if it has not begun to run and its quantum
has not grown. -/
theorem ticksLeft_le (hcur : t.currentProcess = s.currentProcess)
    (hquanta : ∀ cur p', t.current = some (cur, p') → p'.state = .RUNNING →
      ∃ p, s.processTable cur = some p ∧ p.inst = p'.inst ∧ p.state = .RUNNING ∧
        p'.remainingQuantums ≤ p.remainingQuantums) : t.ticksLeft ≤ s.ticksLeft := by
  cases hpointer : t.current with
  | none =>
      unfold ticksLeft
      rw [hpointer]
      exact Nat.zero_le _
  | some c =>
      obtain ⟨cur, p'⟩ := c
      rw [ticksLeft_of_current hpointer]
      split
      next hrun =>
          obtain ⟨p, hp, hinst, hrun', hle⟩ := hquanta cur p' hpointer hrun
          have hcurrent : s.current = some (cur, p) :=
            current_eq_some.mpr ⟨by rw [← hcur, (current_eq_some.mp hpointer).1, hinst], hp⟩
          rw [ticksLeft_of_current hcurrent, if_pos hrun']
          exact hle
      · exact Nat.zero_le _

theorem Orderly.ticksLeft_le (h : Orderly s t) : t.ticksLeft ≤ s.ticksLeft := by
  refine Kernel.ticksLeft_le h.currentProcess fun cur p' hcur hrun ↦ ?_
  obtain ⟨p, hp, hkeeps⟩ := h.quanta cur p' (current_eq_some.mp hcur).2
  exact ⟨p, hp, hkeeps.inst.symm, hkeeps.running hrun, Nat.le_of_eq hkeeps.remainingQuantums⟩

/-- A process other than the running one changes. -/
theorem ticksLeft_modify {f : ProcessCDT → ProcessCDT} (pid : Int)
    (hcur : t.currentProcess = s.currentProcess)
    (htable : t.processTable = (s.modify pid f).processTable)
    (hother : ∀ p', t.current = some (pid, p') → p'.state ≠ .RUNNING) :
    t.ticksLeft ≤ s.ticksLeft := by
  refine Kernel.ticksLeft_le hcur fun cur p' hcurrent hrun ↦ ?_
  have hne : cur ≠ pid := by
    rintro rfl
    exact hother p' hcurrent hrun
  have hp' := (current_eq_some.mp hcurrent).2
  rw [htable, modify_other _ _ hne] at hp'
  exact ⟨p', hp', rfl, hrun, Nat.le_refl _⟩

/-- The head of the queue is dispatched, and everybody else moves up. -/
theorem dispatch_place (hquanta : QuantumInv s) (hmem : w ∈ s.readyQueue)
    (ht : s.dispatch = some t) :
    Served w t ∨ t.ticksLeft + 1 ≤ 255 ∧ t.readyQueue.idxOf w + 1 = s.readyQueue.idxOf w := by
  obtain ⟨next, p, rest, hqueue | ⟨hnil, -, -⟩, hp, rfl⟩ := dispatch_cases ht
  · by_cases hnext : next = w
    · exact .inl (.inl (congrArg some hnext))
    · refine .inr ⟨?_, ?_⟩
      · have hcurrent : (s.dispatched next p.inst rest).current =
            some (next, { p with
              state := .RUNNING, remainingQuantums := p.priorityLevel - 1 }) := by
          refine current_eq_some.mpr ⟨rfl, ?_⟩
          change (s.modify next _).processTable next = _
          rw [modify_self, hp]
          rfl
        rw [ticksLeft_of_current hcurrent, if_pos rfl]
        have hrange := hquanta.priority next p hp
        dsimp only
        omega
      · rw [hqueue, List.idxOf_cons_ne _ hnext]
        rfl
  · rw [hnil] at hmem
    cases hmem

/-- Who is not in the queue is not there after a call of the scheduler. -/
theorem Gone.schedule (h : Gone w s) (ht : s.schedule = some t) : Served w t := by
  rcases schedule_cases ht with ⟨-, rfl⟩ | ⟨-, ⟨cur, p, -, -, -, rfl⟩ |
    ⟨cur, p, hcur, hrun, -, hdispatch⟩ | ⟨-, hdispatch⟩⟩
  · exact .inr h.queue
  · exact .inr h.queue
  · have hwoken := h.wake (current_eq_some.mp hcur).2 (by simp [hrun])
    exact hwoken.dispatch hdispatch
  · exact h.dispatch hdispatch

/-- **A call of the scheduler** uses a tick of the running process, or dispatches the head of
the queue. -/
theorem schedule_patience (hon : s.schedulerEnabled = true) (hquanta : QuantumInv s)
    (hmem : w ∈ s.readyQueue) (ht : s.schedule = some t) :
    Served w t ∨ t.patience w + 1 ≤ s.patience w := by
  rcases schedule_cases ht with ⟨hoff, -⟩ | ⟨-, ⟨cur, p, hcur, hrun, hpos, rfl⟩ |
    ⟨cur, p, hcur, -, -, hdispatch⟩ | ⟨-, hdispatch⟩⟩
  · cases hoff.symm.trans hon
  · obtain ⟨hpointer, hp⟩ := current_eq_some.mp hcur
    have hcurrent : (s.modify cur fun p ↦
        { p with remainingQuantums := p.remainingQuantums - 1 }).current =
        some (cur, { p with remainingQuantums := p.remainingQuantums - 1 }) := by
      refine current_eq_some.mpr ⟨hpointer, ?_⟩
      rw [modify_self, hp]
      rfl
    refine .inr ?_
    unfold patience
    rw [ticksLeft_of_current hcur, ticksLeft_of_current hcurrent, modify_readyQueue, if_pos hrun,
      if_pos hrun]
    dsimp only
    omega
  · have hplace : w ∈ (s.wake cur).readyQueue ∧
        (s.wake cur).readyQueue.idxOf w = s.readyQueue.idxOf w := by
      rw [wake_readyQueue, enqueue]
      split
      · exact ⟨List.mem_append_left _ hmem, List.idxOf_append_of_mem hmem⟩
      · exact ⟨hmem, rfl⟩
    refine (dispatch_place (hquanta.wake cur) hplace.1 hdispatch).imp_right ?_
    rintro ⟨hticks, hidx⟩
    rw [hplace.2] at hidx
    unfold patience
    omega
  · refine (dispatch_place hquanta hmem hdispatch).imp_right ?_
    rintro ⟨hticks, hidx⟩
    unfold patience
    omega

/-- Who waits no further back, while the running process has no more ticks left, has no
longer to wait. -/
theorem Holds.patience_le (h : Holds w s t) (hticks : t.ticksLeft ≤ s.ticksLeft) :
    t.patience w ≤ s.patience w := by
  have hle := h.2
  unfold patience
  omega

/-- **The step lemma.**  No event raises the patience of a process that waits, and a timer
interrupt lowers it, unless the process is served. -/
theorem Queued.move (h : Queued w k) (hok : LeavesQuantum k e) (hmove : Move k e t) :
    Served w t ∨ t.patience w + (if e.interrupts then 1 else 0) ≤ k.patience w := by
  cases hmove with
  | orderly ho he =>
      rw [he, if_neg Bool.false_ne_true]
      rcases ho.place w h.mem h.off with hholds | hgone
      · exact .inr (hholds.patience_le ho.ticksLeft_le)
      · exact .inl (.inr hgone.queue)
  | scheduled ho ht =>
      rcases ho.place w h.mem h.off with hholds | hgone
      · have hle := hholds.patience_le ho.ticksLeft_le
        have hnext := schedule_patience (ho.enabled h.enabled) (h.quanta.orderly ho) hholds.1 ht
        refine hnext.imp_right fun hless ↦ ?_
        split <;> omega
      · exact .inl (hgone.schedule ht)
  | @created s pid ppid cur p hcur ho hqueue hfree =>
      refine .inr (Holds.patience_le ?_ ?_)
      · have hplace : (s.started 1 pid ppid).readyQueue =
            s.enqueue .readyQueue k.readyQueue pid := by
          rw [← hqueue]
          rfl
        unfold Holds
        rw [hplace, enqueue]
        split
        · exact ⟨List.mem_append_left _ h.mem, Nat.le_of_eq (List.idxOf_append_of_mem h.mem)⟩
        · exact ⟨h.mem, Nat.le_refl _⟩
      · -- the slot of the running process is not free
        refine (ticksLeft_le (s := s) (t := s.started 1 pid ppid) rfl fun q p' hcurrent hrun ↦
          ?_).trans ho.ticksLeft_le
        obtain ⟨hpointer, hp'⟩ := current_eq_some.mp hcurrent
        have hq : q = cur := by
          have heq := (ho.currentProcess.symm.trans hpointer).symm.trans (current_eq_some.mp hcur).1
          exact congrArg Prod.fst (Option.some.inj heq)
        have hne : q ≠ pid := by
          intro heq
          have hfull := (current_eq_some.mp hcur).2
          rw [← hq, heq, (findFreePid_eq_some hfree).2] at hfull
          cases hfull
        replace hp' : (if q = pid then some (s.newCDT 1 ppid) else s.processTable q) = some p' :=
          hp'
        rw [if_neg hne] at hp'
        exact ⟨p', hp', rfl, hrun, Nat.le_refl _⟩
  | @blocked pid p hp hready =>
      by_cases hw : w = pid
      · refine .inl (.inr fun hmem ↦ ?_)
        have hkept := List.of_mem_filter hmem
        simp [hw] at hkept
      · have hkeep : decide (w ≠ pid) = true := decide_eq_true hw
        refine .inr (Holds.patience_le ?_ ?_)
        · exact ⟨List.mem_filter.mpr ⟨h.mem, hkeep⟩, idxOf_filter_le hkeep⟩
        · refine ticksLeft_modify pid rfl rfl ?_
          intro p' hcurrent hrun
          obtain ⟨p₀, -, rfl⟩ := modify_eq_some.mp (current_eq_some.mp hcurrent).2
          rw [if_pos rfl] at hrun
          cases hrun
  | @niced pid priority _ =>
      refine .inr (Holds.patience_le ⟨h.mem, Nat.le_refl _⟩ ?_)
      refine ticksLeft_modify pid rfl rfl ?_
      intro p' hcurrent
      refine absurd ?_ (hok pid priority rfl)
      exact congrArg (Option.map Prod.fst) (current_eq_some.mp hcurrent).1
  | foregrounded =>
      exact .inr (Holds.patience_le ⟨h.mem, Nat.le_refl _⟩ (Nat.le_refl _))

/-- The system stays up. -/
theorem Move.enabled (h : Move k e t) (hon : k.schedulerEnabled = true) :
    t.schedulerEnabled = true := by
  have hdispatch : ∀ s : Kernel, s.schedulerEnabled = true → s.dispatch = some t →
      t.schedulerEnabled = true := by
    intro s hs ht
    obtain ⟨_, _, _, -, -, rfl⟩ := dispatch_cases ht
    exact hs
  cases h with
  | orderly ho => exact ho.enabled hon
  | @scheduled _ u _ ho ht =>
      have hu := ho.enabled hon
      rcases schedule_cases ht with ⟨-, rfl⟩ | ⟨-, ⟨cur, _, -, -, -, rfl⟩ |
        ⟨cur, _, -, -, -, ht⟩ | ⟨-, ht⟩⟩
      · exact hu
      · exact hu
      · exact hdispatch (u.wake cur) hu ht
      · exact hdispatch u hu ht
  | created _ ho => exact ho.enabled hon
  | blocked => exact hon
  | niced => exact hon
  | foregrounded => exact hon

theorem Queued.step (h : Queued w k) (hok : LeavesQuantum k e) (ht : k.step e = some t) :
    Served w t ∨ Queued w t ∧ t.patience w + (if e.interrupts then 1 else 0) ≤ k.patience w := by
  have hmove := step_move ht
  by_cases hserved : Served w t
  · exact .inl hserved
  · refine .inr ⟨?_, (h.move hok hmove).resolve_left hserved⟩
    constructor
    · exact hmove.enabled h.enabled
    · exact h.quanta.move hmove
    · by_contra hmem
      exact hserved (.inr hmem)
    · exact fun hrunner ↦ hserved (.inl hrunner)

/-- **Nobody waits for ever.**  Once the scheduler is on, a run with more timer interrupts
than the patience of `w`, in which the running process does not start a fresh quantum for
itself, passes a state in which `w` runs or is not in the queue. -/
theorem served_within (h : Reach step (fun _ _ ↦ True) initializeScheduler k)
    (hon : k.schedulerEnabled = true) {es : List Event} (hguard : Guarded step LeavesQuantum k es)
    (hrun : run step k es = some t) (hlong : k.patience w < es.countP Event.interrupts) :
    ∃ es₁ es₂ v, es = es₁ ++ es₂ ∧ run step k es₁ = some v ∧ Served w v := by
  by_cases hserved : Served w k
  · exact ⟨[], es, k, rfl, rfl, hserved⟩
  · have hqueued : Queued w k := by
      constructor
      · exact hon
      · exact .reach h
      · by_contra hmem
        exact hserved (.inr hmem)
      · exact fun hrunner ↦ hserved (.inl hrunner)
    refine run_within (μ := fun k ↦ k.patience w) ?_ hqueued hguard hrun hlong
    exact fun _ _ _ hw hok ht ↦ hw.step hok ht

/-- The shell has taken a quantum of five ticks while two processes wait.  It has exited
before it is over. -/
theorem served_within_shell : ∃ k t : Kernel, k.readyQueue = [0, 3] ∧ k.patience 0 = 5 ∧
    run step k [.tick, .yield, .tick, .create, .exit [], .tick, .tick, .tick] = some t ∧
    ∃ es₁ es₂ v, [Event.tick, .yield, .tick, .create, .exit [], .tick, .tick, .tick] = es₁ ++ es₂ ∧
      run step k es₁ = some v ∧ Served 0 v := by
  have hrun : (run step initializeScheduler (bootEvents ++ [.create, .nice 2 5])).map (fun k ↦
      decide (k.readyQueue = [0, 3] ∧ k.patience 0 = 5 ∧ k.schedulerEnabled = true ∧
        (run step k [.tick, .yield, .tick, .create, .exit [], .tick, .tick, .tick]).isSome)) =
      some true := by decide +kernel
  obtain ⟨k, hrun, hobs⟩ := Option.map_eq_some_iff.mp hrun
  obtain ⟨hqueue, hpatience, hon, hsome⟩ := of_decide_eq_true hobs
  obtain ⟨t, ht⟩ := Option.isSome_iff_exists.mp hsome
  have hreach : Reach step (fun _ _ ↦ True) initializeScheduler k := .of_run hrun (.of_true _ _)
  refine ⟨k, t, hqueue, hpatience, ht, served_within hreach hon ?_ ht ?_⟩
  · have hcalm : Guarded step (fun _ (e : Event) ↦ ∀ pid priority, e ≠ .nice pid priority) k
        [.tick, .yield, .tick, .create, .exit [], .tick, .tick, .tick] := by
      refine .of_forall ?_ k
      simp
    exact hcalm.mono fun _ _ hne pid priority heq ↦ absurd heq (hne pid priority)
  · rw [hpatience]
    decide

/-! ## Renewed quanta -/

/-- The caller changes, but stays a caller. -/
theorem caller_modify (hcaller : k.caller = some (cur, p)) {f : ProcessCDT → ProcessCDT}
    (hf : (f p).inst = p.inst ∧ (f p).cont = p.cont) :
    (k.modify cur f).caller = some (cur, f p) := by
  obtain ⟨hcur, hcont, hinst⟩ := caller_eq_some hcaller
  obtain ⟨hpointer, hp⟩ := current_eq_some.mp hcur
  have hcurrent : (k.modify cur f).current = some (cur, f p) := by
    refine current_eq_some.mpr ⟨?_, ?_⟩
    · rw [modify_currentProcess, hpointer, hf.1]
    · rw [modify_self, hp, Option.map_some]
  refine Option.filter_eq_some_iff.mpr ⟨hcurrent, ?_⟩
  simp [hf.1, hf.2, hcont, hinst]

/-- One round: the caller sets its own priority, and a tick of the fresh quantum is used. -/
theorem renew_once (hon : k.schedulerEnabled = true) (hvalid : ¬invalidPID cur)
    (hcaller : k.caller = some (cur, p)) (hrun : p.state = .RUNNING) {priority : UInt8}
    (hpriority : priority ≠ 0) :
    ∃ t p', run step k [.nice cur priority, .tick] = some t ∧ t.caller = some (cur, p') ∧
      p'.state = .RUNNING ∧ t.schedulerEnabled = true ∧ t.readyQueue = k.readyQueue := by
  obtain ⟨hpointer, hp⟩ := current_eq_some.mp (caller_eq_some hcaller).1
  obtain ⟨u, hu⟩ : ∃ u, u = k.modify cur fun p ↦
    { p with priorityLevel := priority.toNat, remainingQuantums := priority.toNat } := ⟨_, rfl⟩
  have hnice : k.step (.nice cur priority) = some u := by
    have hset : k.setPriorityOnPID cur priority = some u := by
      rw [setPriorityOnPID, if_neg hvalid, if_neg (by simp [hp, hpriority]), hu]
    simp only [step, hcaller, Option.map_some, hset, Option.getD_some]
  have hcaller' : u.caller = some (cur, { p with
      priorityLevel := priority.toNat, remainingQuantums := priority.toNat }) := by
    rw [hu]
    exact caller_modify hcaller ⟨rfl, rfl⟩
  have hpos : 0 < priority.toNat :=
    Nat.pos_of_ne_zero fun hzero ↦ hpriority (UInt8.toNat_inj.mp hzero)
  have htick : u.step .tick = some (u.modify cur fun p ↦
      { p with remainingQuantums := p.remainingQuantums - 1 }) := by
    refine schedule_running ?_ (caller_eq_some hcaller').1 hrun hpos
    rw [hu]
    exact hon
  have hcaller'' := caller_modify hcaller' (f := fun p ↦
    { p with remainingQuantums := p.remainingQuantums - 1 }) ⟨rfl, rfl⟩
  refine ⟨_, _, ?_, hcaller'', hrun, ?_, ?_⟩
  · rw [run, hnice, Option.bind_some, run, htick]
    rfl
  · rw [hu]
    exact hon
  · rw [hu]
    rfl

/-- **A process that renews its quantum keeps the CPU.**  It sets its own priority before
each tick, and nobody in the queue gets a turn. -/
theorem renews (h : Reach step (fun _ _ ↦ True) initializeScheduler k)
    (hcaller : k.caller = some (cur, p)) (hrun : p.state = .RUNNING) {priority : UInt8}
    (hpriority : priority ≠ 0) (n : Nat) :
    ∃ t, run step k (List.replicate n [Event.nice cur priority, .tick]).flatten = some t ∧
      t.runner = some cur ∧ t.readyQueue = k.readyQueue := by
  obtain ⟨hpointer, hp⟩ := current_eq_some.mp (caller_eq_some hcaller).1
  have hvalid := (QuantumInv.reach h).valid cur p hp
  have hon : k.schedulerEnabled = true := enabled_reach h (by simp [hpointer])
  clear h hpointer hp
  induction n generalizing k p with
  | zero =>
      have hpointer := (current_eq_some.mp (caller_eq_some hcaller).1).1
      refine ⟨k, rfl, ?_, rfl⟩
      rw [runner, hpointer]
      rfl
  | succ n ih =>
      obtain ⟨u, p', hround, hcaller', hrun', hon', hqueue⟩ :=
        renew_once hon hvalid hcaller hrun hpriority
      obtain ⟨t, ht, hrunner, hqueue'⟩ := ih hcaller' hrun' hon'
      refine ⟨t, ?_, hrunner, hqueue'.trans hqueue⟩
      rw [List.replicate_succ, List.flatten_cons, run_append, hround]
      exact ht

/-- The shell does so while two processes wait. -/
theorem renews_shell : ∃ k t : Kernel, k.readyQueue = [0, 3] ∧
    run step k (List.replicate 1000 [Event.nice 2 1, .tick]).flatten = some t ∧
      t.runner = some 2 ∧ t.readyQueue = [0, 3] := by
  have hrun : (run step initializeScheduler (bootEvents ++ [.create])).map (fun k ↦
      decide (k.readyQueue = [0, 3] ∧ k.caller.map Prod.fst = some 2 ∧
        (k.caller.all fun c ↦ c.2.state = .RUNNING))) = some true := by decide +kernel
  obtain ⟨k, hrun, hobs⟩ := Option.map_eq_some_iff.mp hrun
  obtain ⟨hqueue, hcaller, hstate⟩ := of_decide_eq_true hobs
  obtain ⟨⟨c, p⟩, hcaller, rfl⟩ := Option.map_eq_some_iff.mp hcaller
  rw [hcaller] at hstate
  obtain ⟨t, ht, hrunner, hqueue'⟩ := renews (.of_run hrun (.of_true _ _)) hcaller
    (by simpa using hstate) (show (1 : UInt8) ≠ 0 by decide) 1000
  exact ⟨k, t, hqueue, ht, hrunner, hqueue'.trans hqueue⟩

end Kernel

end BareBones.Process
