import BareBones.Process.StepRule

/-!
# What the functions of the kernel leave alone

`Undisturbed ids k k'` says that the kernel has come from `k` to `k'` without switching to
another process, without blocking anybody or bringing anybody to the foreground, and without
touching the counter and the queue of a semaphore outside `ids`.  Everything that interrupt
handlers and the ends of system calls are made of is undisturbing in this sense.

`Spares ids k k'` is the part about semaphores alone, which every event of the kernel
satisfies for the semaphores that it does not name (`step_spares`).
-/

namespace BareBones.Process

open BareBones.Semaphores

namespace Kernel

variable {ids : SemId → Prop} {k k' k'' : Kernel} {pid q cur : Int} {id : SemId}

/-! ## Updates that disturb nobody -/

/-- The semaphores outside `ids` have kept their counter and their queue. -/
structure Spares (ids : SemId → Prop) (k k' : Kernel) : Prop where
  sem : ∀ id, ¬ids id → (k'.sems id).sem = (k.sems id).sem
  nextSem : k.nextSem ≤ k'.nextSem

/-- The same process is running, nobody has been blocked or brought to the foreground, and
the semaphores outside `ids` have kept their counter and their queue. -/
structure Undisturbed (ids : SemId → Prop) (k k' : Kernel) : Prop extends Spares ids k k' where
  currentProcess : k'.currentProcess = k.currentProcess
  blocked : ∀ q, k'.stateOf q = some .BLOCKED → k.stateOf q = some .BLOCKED
  foregroundSet : ∀ q, k'.foregroundSet q = true → k.foregroundSet q = true

namespace Spares

theorem refl (k : Kernel) : Spares ids k k := ⟨fun _ _ ↦ rfl, Nat.le_refl _⟩

theorem trans (h : Spares ids k k') (h' : Spares ids k' k'') : Spares ids k k'' where
  sem id hid := (h'.sem id hid).trans (h.sem id hid)
  nextSem := Nat.le_trans h.nextSem h'.nextSem

/-- The semaphores stay. -/
theorem of_eq (hsems : k'.sems = k.sems) (hnext : k'.nextSem = k.nextSem) : Spares ids k k' :=
  ⟨fun _ _ ↦ by rw [hsems], Nat.le_of_eq hnext.symm⟩

/-- One semaphore changes. -/
theorem setSem {r : SemRec} (hid : ids id) : Spares ids k (k.setSem id r) where
  sem j hj := by
    have hne : j ≠ id := fun heq ↦ hj (heq ▸ hid)
    rw [setSem_other _ _ _ hne]
  nextSem := Nat.le_refl _

theorem modify (f : ProcessCDT → ProcessCDT) : Spares ids k (k.modify pid f) := .of_eq rfl rfl

end Spares

namespace Undisturbed

theorem refl (k : Kernel) : Undisturbed ids k k := ⟨.refl k, rfl, fun _ h ↦ h, fun _ h ↦ h⟩

theorem trans (h : Undisturbed ids k k') (h' : Undisturbed ids k' k'') : Undisturbed ids k k'' where
  toSpares := h.toSpares.trans h'.toSpares
  currentProcess := h'.currentProcess.trans h.currentProcess
  blocked q hq := h.blocked q (h'.blocked q hq)
  foregroundSet q hq := h.foregroundSet q (h'.foregroundSet q hq)

/-- The table and the semaphores stay. -/
theorem of_eq (htable : k'.processTable = k.processTable)
    (hcur : k'.currentProcess = k.currentProcess)
    (hfg : ∀ q, k'.foregroundSet q = true → k.foregroundSet q = true)
    (hsems : k'.sems = k.sems) (hnext : k'.nextSem = k.nextSem) : Undisturbed ids k k' where
  toSpares := .of_eq hsems hnext
  currentProcess := hcur
  blocked q hq := by rwa [Kernel.stateOf, htable] at hq
  foregroundSet := hfg

theorem modify {f : ProcessCDT → ProcessCDT}
    (hf : ∀ p, (f p).state = .BLOCKED → p.state = .BLOCKED) :
    Undisturbed ids k (k.modify pid f) where
  toSpares := .modify f
  currentProcess := rfl
  blocked q hq := by
    unfold Kernel.stateOf at hq ⊢
    by_cases heq : q = pid
    · subst heq
      rw [modify_self, Option.map_map] at hq
      obtain ⟨p, hp, hstate⟩ := Option.map_eq_some_iff.mp hq
      rw [hp, Option.map_some, hf p hstate]
    · rwa [modify_other _ _ heq] at hq
  foregroundSet _ h := h

/-- A semaphore changes. -/
theorem setSem {r : SemRec} (h : ids id ∨ r.sem = (k.sems id).sem) :
    Undisturbed ids k (k.setSem id r) where
  sem j hj := by
    by_cases heq : j = id
    · subst heq
      rw [setSem_self, h.resolve_left hj]
    · rw [setSem_other _ _ _ heq]
  nextSem := Nat.le_refl _
  currentProcess := rfl
  blocked _ h := h
  foregroundSet _ h := h

/-- A semaphore changes, and the log. -/
theorem posted {value : Int} {rest : List Int} {woken : Option (Int × ProcessCDT)} (hid : ids id) :
    Undisturbed ids k (k.posted id value rest woken) :=
  (setSem (.inl hid)).trans (.of_eq rfl rfl (fun _ h ↦ h) rfl rfl)

theorem wake (k : Kernel) (pid : Int) : Undisturbed ids k (k.wake pid) := by
  have hqueued : Undisturbed ids k (k.enqueueReady pid) := .of_eq rfl rfl (fun _ h ↦ h) rfl rfl
  refine hqueued.trans ?_
  unfold Kernel.wake Kernel.setState
  exact modify fun _ h ↦ by cases h

theorem post (hid : ids id) : Undisturbed ids k (k.post id) := by
  rcases post_cases k id with ⟨dead, rest, -, -, -, hpost⟩ |
    ⟨dead, pid, rest, p, -, -, -, -, -, -, hpost⟩
  · rw [hpost]
    exact posted hid
  · rw [hpost]
    exact (wake k pid).trans (posted hid)

theorem tryWait (hid : ids id) : Undisturbed ids k (k.tryWait id).1 := by
  rcases tryWait_cases k id with ⟨-, h⟩ | ⟨-, h⟩ <;> rw [h]
  · exact setSem (.inl hid)
  · exact .refl k

/-- The return from a `semWait` is only recorded. -/
theorem returnFrom (k : Kernel) (id : SemId) (pid : Int) :
    Undisturbed ids k (k.returnFrom id pid) := setSem (.inr rfl)

theorem setCont (k : Kernel) (pid : Int) (c : Cont) : Undisturbed ids k (k.setCont pid c) := by
  unfold Kernel.setCont
  exact modify fun _ h ↦ h

/-! ### The end of a process -/

theorem closeFdsOf {closed : List Nat} (h : ∀ n ∈ closed, ids (.user n)) :
    Undisturbed ids k (k.closeFdsOf closed) := by
  induction closed generalizing k with
  | nil => exact .refl k
  | cons n closed ih =>
      have hpost : Undisturbed ids k (k.post (.user n)) := post (h n List.mem_cons_self)
      exact hpost.trans (ih fun m hm ↦ h m (List.mem_cons_of_mem _ hm))

theorem enqueueTerminated (k : Kernel) (parent pid : Int) :
    Undisturbed ids k (k.enqueueTerminated parent pid) := by
  unfold Kernel.enqueueTerminated
  exact modify fun _ h ↦ h

theorem removeChild (k : Kernel) (parent pid : Int) :
    Undisturbed ids k (k.removeChild parent pid) := by
  unfold Kernel.removeChild
  exact modify fun _ h ↦ h

theorem adopted (k : Kernel) (childPid : Int) : Undisturbed ids k
    ((k.addChild INIT_PID childPid).modify childPid fun p ↦ { p with ppid := INIT_PID }) := by
  have hadded : Undisturbed ids k (k.addChild INIT_PID childPid) := by
    unfold Kernel.addChild
    exact modify fun _ h ↦ h
  refine hadded.trans ?_
  exact modify fun _ h ↦ h

theorem transferOrphan (initProc : Nat) (childPid : Int) (h : ids (.childTerminated initProc)) :
    Undisturbed ids k (transferOrphan initProc k childPid) := by
  unfold Kernel.transferOrphan
  split
  · exact .refl k
  split
  · exact .refl k
  · dsimp only
    split
    · exact ((adopted k childPid).trans (enqueueTerminated _ _ _)).trans (post h)
    · exact adopted k childPid

theorem foldl_transferOrphan (initProc : Nat) (children : List Int)
    (h : ids (.childTerminated initProc)) :
    Undisturbed ids k (children.foldl (Kernel.transferOrphan initProc) k) := by
  induction children generalizing k with
  | nil => exact .refl k
  | cons child children ih => exact (transferOrphan initProc child h).trans ih

theorem transferOrphanChildren (pid : Int) (h : ∀ inst, ids (.childTerminated inst)) :
    Undisturbed ids k (k.transferOrphanChildren pid) := by
  unfold Kernel.transferOrphanChildren
  split
  next initProc p _ _ =>
      refine (foldl_transferOrphan initProc.inst p.children (h _)).trans ?_
      exact modify fun _ h ↦ h
  · exact .refl k

theorem notifyTermination (process parent : ProcessCDT) (ppid pid : Int)
    (h : ∀ inst, ids (.terminated inst)) (h' : ∀ inst, ids (.childTerminated inst)) :
    Undisturbed ids k (k.notifyTermination process parent ppid pid) := by
  have hzombie : Undisturbed ids k (k.setState pid .ZOMBIE) := by
    unfold Kernel.setState
    exact modify fun _ h ↦ by cases h
  rw [notifyTermination_eq]
  refine .trans (.trans (.trans (.trans ?_ (post (h _))) (post (h' _))) (enqueueTerminated _ _ _))
    (.of_eq rfl rfl (fun _ h ↦ h) rfl rfl)
  exact hzombie.trans (.of_eq rfl rfl (fun _ h ↦ h) rfl rfl)

/-- The end of a process touches the semaphores of processes, and those that the descriptors
post. -/
theorem terminate {closed : List Nat} (h : ∀ inst, ids (.terminated inst))
    (h' : ∀ inst, ids (.childTerminated inst)) (hclosed : ∀ n ∈ closed, ids (.user n))
    (ht : k.terminate pid closed = some k') : Undisturbed ids k k' := by
  unfold Kernel.terminate at ht
  split at ht
  · cases ht
  split at ht
  · cases ht
  split at ht
  · cases ht
  split at ht
  · cases ht
  split at ht
  · cases ht
  obtain rfl := Option.some.inj ht
  have hset : ∀ u : Kernel, Undisturbed ids u
      { u with foregroundSet := fun q ↦ if q = pid then false else u.foregroundSet q } := by
    intro u
    refine .of_eq rfl rfl (fun q hq ↦ ?_) rfl rfl
    dsimp only at hq
    split at hq
    · cases hq
    · exact hq
  have hfds : Undisturbed ids k (k.closeFdsOf closed) := closeFdsOf hclosed
  exact ((hfds.trans (hset _)).trans (notifyTermination _ _ _ _ h h')).trans
    (transferOrphanChildren pid h')

theorem killFromIsr {closed : List Nat} (h : ∀ inst, ids (.terminated inst))
    (h' : ∀ inst, ids (.childTerminated inst)) (hclosed : ∀ n ∈ closed, ids (.user n)) :
    Undisturbed ids k (k.killFromIsr pid closed) := by
  unfold Kernel.killFromIsr
  cases ht : k.terminate pid closed with
  | none => exact .refl k
  | some k' => exact terminate h h' hclosed ht

/-! ### Reaping -/

theorem reapProcess (k : Kernel) (pid : Int) (expected : Option Nat) :
    Undisturbed ids k (k.reapProcess pid expected) := by
  rcases reapProcess_cases k pid expected with ⟨-, h⟩ | ⟨p, -, -, h⟩ <;> rw [h]
  · exact .refl k
  · refine ⟨.of_eq rfl rfl, rfl, fun q hq ↦ ?_, fun q hq ↦ ?_⟩
    · simp only [Kernel.stateOf, freed] at hq ⊢
      split at hq
      · cases hq
      · exact hq
    · simp only [freed] at hq
      split at hq
      · cases hq
      · exact hq

theorem afterTerminated {inst : Nat} {parent : Option (Int × Nat)}
    (h : ∀ inst, ids (.childTerminated inst)) (ht : k.afterTerminated pid inst parent = some k') :
    Undisturbed ids k k' := by
  rcases parent with _ | ⟨ppid, pinst⟩
  · exact Option.some.inj ht ▸ reapProcess k pid _
  unfold Kernel.afterTerminated at ht
  dsimp only at ht
  split at ht
  · cases ht
  split at ht
  · cases ht
  obtain rfl := Option.some.inj ht
  have htaken : Undisturbed ids k (k.tryWait (.childTerminated pinst)).1 := tryWait (h _)
  have hremoved : ∀ u : Kernel, Undisturbed ids u (u.modify ppid fun p ↦
      { p with terminatedChildren := p.terminatedChildren.filter (· ≠ pid) }) :=
    fun u ↦ modify fun _ h ↦ h
  exact ((htaken.trans (hremoved _)).trans (removeChild _ _ _)).trans (reapProcess _ _ _)

theorem pollAndReap (k : Kernel) (cur : Int) (p : ProcessCDT) :
    Undisturbed ids k (k.pollAndReap cur p) := by
  have hpolled : Undisturbed ids k (k.pollTerminatedChildren cur p).2 := by
    unfold Kernel.pollTerminatedChildren
    split
    · exact .of_eq rfl rfl (fun _ h ↦ h) rfl rfl
    · exact modify fun _ h ↦ h
  unfold Kernel.pollAndReap
  dsimp only
  split
  · exact hpolled
  · exact (hpolled.trans (removeChild _ _ _)).trans (reapProcess _ _ _)

theorem reapLoop (h : ∀ inst, ids (.childTerminated inst)) (n : Nat) :
    ∀ {k}, Kernel.reapLoop n k = some k' → Undisturbed ids k k' := by
  induction n with
  | zero => exact fun ht ↦ Option.some.inj ht ▸ .refl _
  | succ n ih =>
      intro k ht
      rw [Kernel.reapLoop] at ht
      split at ht
      · cases ht
      next cur p _ =>
      have htaken : Undisturbed ids k (k.tryWait (.childTerminated p.inst)).1 := tryWait (h _)
      split at ht
      next k₁ hk₁ =>
          rw [hk₁] at htaken
          exact (htaken.trans (pollAndReap _ _ _)).trans (ih ht)
      next k₁ hk₁ =>
          rw [hk₁] at htaken
          exact Option.some.inj ht ▸ htaken

/-- A process that goes on after its `semWait` touches its parent's semaphore at most. -/
theorem resume {p : ProcessCDT} (h : ∀ inst, ids (.childTerminated inst))
    (ht : k.resume cur p = some k') : Undisturbed ids k k' := by
  unfold Kernel.resume at ht
  split at ht
  · exact Option.some.inj ht ▸ (returnFrom _ _ _).trans (setCont _ _ _)
  · exact ((returnFrom _ _ _).trans (setCont _ _ _)).trans (afterTerminated h ht)
  · exact Option.some.inj ht ▸ (returnFrom _ _ _).trans (setCont _ _ _)
  · exact Option.some.inj ht ▸ (setCont _ _ _).trans (pollAndReap _ _ _)
  · cases ht
  · cases ht

end Undisturbed

/-- Terminating a process does not switch to another one. -/
theorem terminate_currentProcess {closed : List Nat}
    (ht : k.terminate pid closed = some k') : k'.currentProcess = k.currentProcess := by
  have hundisturbed : Undisturbed (fun _ ↦ True) k k' :=
    .terminate (fun _ ↦ trivial) (fun _ ↦ trivial) (fun _ _ ↦ trivial) ht
  exact hundisturbed.currentProcess

/-! ## Updates that may block the running process -/

/-- The same process is running, nobody else has been blocked and nobody brought to the
foreground, and the semaphores outside `ids` have kept their counter and their queue. -/
structure Gentle (ids : SemId → Prop) (k k' : Kernel) : Prop extends Spares ids k k' where
  currentProcess : k'.currentProcess = k.currentProcess
  blocked : ∀ q, q ≠ k.getCurrentPID → k'.stateOf q = some .BLOCKED → k.stateOf q = some .BLOCKED
  foregroundSet : ∀ q, k'.foregroundSet q = true → k.foregroundSet q = true

theorem Undisturbed.gentle (h : Undisturbed ids k k') : Gentle ids k k' where
  toSpares := h.toSpares
  currentProcess := h.currentProcess
  blocked q _ hq := h.blocked q hq
  foregroundSet := h.foregroundSet

namespace Gentle

theorem getCurrentPID (h : Gentle ids k k') : k'.getCurrentPID = k.getCurrentPID := by
  rw [Kernel.getCurrentPID, h.currentProcess, Kernel.getCurrentPID]

theorem refl (k : Kernel) : Gentle ids k k := (Undisturbed.refl k).gentle

theorem trans (h : Gentle ids k k') (h' : Gentle ids k' k'') : Gentle ids k k'' where
  toSpares := h.toSpares.trans h'.toSpares
  currentProcess := h'.currentProcess.trans h.currentProcess
  blocked q hne hq := h.blocked q hne (h'.blocked q (by rwa [h.getCurrentPID]) hq)
  foregroundSet q hq := h.foregroundSet q (h'.foregroundSet q hq)

theorem mono {ids' : SemId → Prop} (h : Gentle ids k k') (himp : ∀ id, ids id → ids' id) :
    Gentle ids' k k' where
  sem id hid := h.sem id fun h' ↦ hid (himp id h')
  nextSem := h.nextSem
  currentProcess := h.currentProcess
  blocked := h.blocked
  foregroundSet := h.foregroundSet

/-- A `semWait` touches its semaphore, and may block the caller. -/
theorem wait (hid : ids id) : Gentle ids k (k.wait id).1 := by
  have hstate : Gentle ids k (semWait (k.sems id).sem k).2.1 := by
    unfold semWait
    split
    · simp only [Scheduler.setCurrentBlocked, setCurrentBlocked]
      cases hcur : k.currentProcess with
      | none => exact .refl k
      | some c =>
          refine ⟨.modify _, rfl, fun q hne hq ↦ ?_, fun _ h ↦ h⟩
          rw [Kernel.getCurrentPID, hcur] at hne
          have hother : (k.setState c.1 .BLOCKED).processTable q = k.processTable q :=
            modify_other _ _ hne
          rwa [Kernel.stateOf, hother] at hq
    · exact .refl k
  have hset : ∀ (u : Kernel) r, Gentle ids u (u.setSem id r) := fun u r ↦
    (Undisturbed.setSem (.inl hid)).gentle
  unfold Kernel.wait
  dsimp only
  split
  · exact hstate.trans (hset _ _)
  · exact hstate.trans (hset _ _)

end Gentle

/-! ## The scheduler -/

theorem dispatch_spares (h : k.dispatch = some k') : Spares ids k k' := by
  obtain ⟨next, p, rest, -, -, rfl⟩ := dispatch_cases h
  exact .of_eq rfl rfl

/-- The scheduler touches no semaphore. -/
theorem schedule_spares (h : k.schedule = some k') : Spares ids k k' := by
  rcases schedule_cases h with ⟨-, rfl⟩ | ⟨-,
    ⟨cur, p, -, -, -, rfl⟩ | ⟨cur, p, -, -, -, ht⟩ | ⟨-, ht⟩⟩
  · exact .refl _
  · exact .modify _
  · exact (Undisturbed.wake k cur).toSpares.trans (dispatch_spares ht)
  · exact dispatch_spares ht

/-- The dispatch changes the state of one process, which runs. -/
theorem dispatch_stateOf (h : k.dispatch = some k') (q : Int) :
    k'.stateOf q = k.stateOf q ∨ k'.stateOf q = some .RUNNING := by
  obtain ⟨next, p, rest, -, hp, rfl⟩ := dispatch_cases h
  by_cases hq : q = next
  · subst hq
    right
    simp [dispatched, Kernel.stateOf, hp]
  · left
    simp [dispatched, Kernel.stateOf, modify_other _ _ hq]

theorem wake_stateOf (k : Kernel) (pid q : Int) :
    (k.wake pid).stateOf q = k.stateOf q ∨ (k.wake pid).stateOf q = some .READY := by
  by_cases hq : q = pid
  · subst hq
    cases hp : k.processTable q with
    | none => simp [Kernel.stateOf, hp]
    | some p => simp [Kernel.stateOf, hp]
  · left
    simp [Kernel.stateOf, wake_other _ hq]

/-- **The scheduler only moves processes between `READY` and `RUNNING`.** -/
theorem schedule_stateOf (h : k.schedule = some k') (q : Int) :
    k'.stateOf q = k.stateOf q ∨ k'.stateOf q = some .RUNNING ∨ k'.stateOf q = some .READY := by
  rcases schedule_cases h with ⟨-, rfl⟩ | ⟨-,
    ⟨cur, p, -, -, -, rfl⟩ | ⟨cur, p, -, -, -, ht⟩ | ⟨-, ht⟩⟩
  · exact .inl rfl
  · left
    unfold Kernel.stateOf
    by_cases hq : q = cur
    · subst hq
      rw [modify_self, Option.map_map]
      rfl
    · rw [modify_other _ _ hq]
  · rcases dispatch_stateOf ht q with heq | hrun
    · rw [heq]
      rcases wake_stateOf k cur q with h' | h'
      · exact .inl h'
      · exact .inr (.inr h')
    · exact .inr (.inl hrun)
  · rcases dispatch_stateOf ht q with heq | hrun
    · exact .inl heq
    · exact .inr (.inl hrun)

/-- The scheduler blocks nobody. -/
theorem schedule_blocked (h : k.schedule = some k') (hq : k'.stateOf q = some .BLOCKED) :
    k.stateOf q = some .BLOCKED := by
  rcases schedule_stateOf h q with heq | hrun | hready
  · rw [← heq, hq]
  · cases hq.symm.trans hrun
  · cases hq.symm.trans hready

theorem dispatch_foregroundSet (h : k.dispatch = some k') :
    k'.foregroundSet = k.foregroundSet := by
  obtain ⟨next, p, rest, -, -, rfl⟩ := dispatch_cases h
  rfl

theorem schedule_foregroundSet (h : k.schedule = some k') :
    k'.foregroundSet = k.foregroundSet := by
  rcases schedule_cases h with ⟨-, rfl⟩ | ⟨-,
    ⟨cur, p, -, -, -, rfl⟩ | ⟨cur, p, -, -, -, ht⟩ | ⟨-, ht⟩⟩
  · rfl
  · rfl
  · exact (dispatch_foregroundSet ht).trans rfl
  · exact dispatch_foregroundSet ht

/-! ## Events -/

/-- The semaphores of user processes that an event names. -/
def Event.named : Event → List Nat
  | .semWait n | .semPost n | .semTryWait n => [n]
  | .exit closed | .kill _ closed | .ctrlC _ closed => closed
  | _ => []

/-- The semaphores that an event may touch: those of processes, those that it names, and
those that do not exist yet. -/
def Event.MayTouch (k : Kernel) (e : Event) (id : SemId) : Prop :=
  ∀ n, id = .user n → n ∈ e.named ∨ k.nextSem ≤ n

theorem Event.mayTouch_terminated {e : Event} (inst : Nat) : e.MayTouch k (.terminated inst) :=
  fun _ h ↦ by cases h

theorem Event.mayTouch_childTerminated {e : Event} (inst : Nat) :
    e.MayTouch k (.childTerminated inst) := fun _ h ↦ by cases h

theorem Event.mayTouch_named {e : Event} {n : Nat} (h : n ∈ e.named) : e.MayTouch k (.user n) := by
  intro m hm
  obtain rfl := SemId.user.inj hm
  exact .inl h

/-- A caller that blocks gives up the processor. -/
theorem block_spares {cur : Int} {c : Cont} {u : Kernel} (hid : ids id)
    (hu : k.wait id = (u, true)) (h : (u.setCont cur c).schedule = some k') : Spares ids k k' := by
  have hwait : Gentle ids k (k.wait id).1 := .wait hid
  rw [hu] at hwait
  exact (hwait.toSpares.trans (.modify _)).trans (schedule_spares h)

/-- A caller that does not block has taken a token. -/
theorem pass_spares {u : Kernel} (hid : ids id) (hu : k.wait id = (u, false)) :
    Spares ids k u := by
  have hwait : Gentle ids k (k.wait id).1 := .wait hid
  rw [hu] at hwait
  exact hwait.toSpares

theorem terminateProcess_spares {e : Event} {closed : List Nat} (hclosed : closed = e.named)
    (h : k.terminateProcess pid closed = some k') : Spares (e.MayTouch k) k k' := by
  unfold Kernel.terminateProcess at h
  split at h
  · exact Option.some.inj h ▸ .refl k
  next u hu =>
      have hdead : Undisturbed (e.MayTouch k) k u := .terminate Event.mayTouch_terminated
        Event.mayTouch_childTerminated
        (fun n hn ↦ Event.mayTouch_named (hclosed ▸ hn)) hu
      split at h
      · exact hdead.toSpares.trans (schedule_spares h)
      · exact Option.some.inj h ▸ hdead.toSpares

theorem startNewProcess_spares {n : Nat} (h : k.startNewProcess n = some k') : Spares ids k k' := by
  rcases startNewProcess_cases n k with hnone | ⟨pid, -, hsome⟩
  · cases hnone.symm.trans h
  · obtain rfl := Option.some.inj (hsome.symm.trans h)
    have hregistered : Spares ids k (k.registered pid).2 := by
      unfold registered
      split
      · split
        · exact .modify _
        · exact .refl k
      · exact .refl k
    exact hregistered.trans (.of_eq rfl rfl)

/-- What is not done leaves everything as it is. -/
theorem getD_spares {o : Option Kernel} (h : ∀ t, o = some t → Spares ids k t) :
    Spares ids k (o.getD k) := by
  cases o with
  | none => exact .refl k
  | some t => exact h t rfl

/-- **An event touches no semaphore of user processes but those it names.** -/
theorem step_spares {e : Event} (h : k.step e = some k') : Spares (e.MayTouch k) k k' := by
  cases e with
  | tick => exact schedule_spares h
  | enableScheduler => exact Option.some.inj h ▸ .of_eq rfl rfl
  | heap nodes => exact Option.some.inj h ▸ .of_eq rfl rfl
  | create =>
      obtain ⟨c, -, hcreate⟩ := Option.bind_eq_some_iff.mp h
      rw [sysCreateProcess_eq_some hcreate]
      exact getD_spares fun t ht ↦ startNewProcess_spares ht
  | exit closed =>
      obtain ⟨c, -, ht⟩ := Option.bind_eq_some_iff.mp h
      have hcont : Spares ((Event.exit closed).MayTouch k) k (k.setCont c.1 .exited) := .modify _
      have hdead : Spares ((Event.exit closed).MayTouch (k.setCont c.1 .exited))
          (k.setCont c.1 .exited) k' := terminateProcess_spares rfl ht
      exact hcont.trans hdead
  | kill pid closed =>
      obtain ⟨c, -, ht⟩ := Option.bind_eq_some_iff.mp h
      exact terminateProcess_spares rfl ht
  | ctrlC pid closed =>
      simp only [step] at h
      split at h
      · cases h
      · obtain rfl := Option.some.inj h
        exact (Undisturbed.killFromIsr Event.mayTouch_terminated
          Event.mayTouch_childTerminated fun n hn ↦ Event.mayTouch_named hn).toSpares
  | block pid =>
      obtain ⟨c, -, rfl⟩ := Option.map_eq_some_iff.mp h
      refine getD_spares fun t ht ↦ ?_
      obtain ⟨-, p, -, ⟨-, rfl⟩ | ⟨-, rfl⟩⟩ := setBlocked_eq_some ht
      · exact .modify _
      · exact .of_eq rfl rfl
  | unblock pid =>
      obtain ⟨c, -, rfl⟩ := Option.map_eq_some_iff.mp h
      refine getD_spares fun t ht ↦ ?_
      obtain ⟨-, p, -, -, rfl⟩ := sysUnblock_eq_some ht
      exact (Undisturbed.wake k pid).toSpares
  | yield =>
      obtain ⟨c, -, ht⟩ := Option.bind_eq_some_iff.mp h
      exact schedule_spares ht
  | nice pid priority =>
      obtain ⟨c, -, rfl⟩ := Option.map_eq_some_iff.mp h
      refine getD_spares fun t ht ↦ ?_
      obtain ⟨-, rfl⟩ := setPriorityOnPID_eq_some ht
      exact .modify _
  | foreground pid =>
      obtain ⟨c, -, rfl⟩ := Option.map_eq_some_iff.mp h
      refine getD_spares fun t ht ↦ ?_
      obtain ⟨-, rfl⟩ := addToFG_eq_some ht
      exact .of_eq rfl rfl
  | waitPid pid =>
      obtain ⟨c, -, ht⟩ := Option.bind_eq_some_iff.mp h
      unfold wait_pid at ht
      split at ht
      · exact Option.some.inj ht ▸ .refl k
      split at ht
      · exact Option.some.inj ht ▸ .refl k
      next process _ =>
          have hid : (Event.waitPid pid).MayTouch k (.terminated process.inst) :=
            Event.mayTouch_terminated _
          dsimp only at ht
          split at ht
          next u hu => exact block_spares hid hu ht
          next u hu =>
              exact (pass_spares hid hu).trans
                (Undisturbed.afterTerminated Event.mayTouch_childTerminated ht).toSpares
  | reapZombies =>
      obtain ⟨c, -, ht⟩ := Option.bind_eq_some_iff.mp h
      exact (Undisturbed.reapLoop Event.mayTouch_childTerminated _ ht).toSpares
  | waitAny =>
      obtain ⟨c, -, ht⟩ := Option.bind_eq_some_iff.mp h
      have hid : Event.waitAny.MayTouch k (.childTerminated c.2.inst) :=
        Event.mayTouch_childTerminated _
      unfold wait_any at ht
      split at ht
      next u hu => exact block_spares hid hu ht
      next u hu => exact Option.some.inj ht ▸ (pass_spares hid hu).trans (.modify _)
  | semOpen value =>
      obtain rfl := Option.some.inj h
      have hid : (Event.semOpen value).MayTouch k (.user k.nextSem) := by
        intro n hn
        obtain rfl := SemId.user.inj hn
        exact .inr (Nat.le_refl _)
      have hset : Spares ((Event.semOpen value).MayTouch k) k
          (k.setSem (.user k.nextSem) (.new value)) := .setSem hid
      exact ⟨hset.sem, Nat.le_succ _⟩
  | semWait n =>
      obtain ⟨c, -, ht⟩ := Option.bind_eq_some_iff.mp h
      have hid : (Event.semWait n).MayTouch k (.user n) :=
        Event.mayTouch_named (List.mem_singleton_self n)
      split at ht
      · unfold sysSemWait at ht
        split at ht
        next u hu => exact block_spares hid hu ht
        next u hu => exact Option.some.inj ht ▸ pass_spares hid hu
      · cases ht
  | semPost n =>
      simp only [step] at h
      split at h
      · exact Option.some.inj h ▸ (Undisturbed.post (Event.mayTouch_named
          (List.mem_singleton_self n))).toSpares
      · cases h
  | semTryWait n =>
      simp only [step] at h
      split at h
      · exact Option.some.inj h ▸ (Undisturbed.tryWait (Event.mayTouch_named
          (List.mem_singleton_self n))).toSpares
      · cases h
  | resume =>
      obtain ⟨c, -, ht⟩ := Option.bind_eq_some_iff.mp h
      exact (Undisturbed.resume Event.mayTouch_childTerminated ht).toSpares

end Kernel

end BareBones.Process
