import BareBones.Process.KernelRule

/-!
# Dead processes stay dead

`terminateProcess` and `killFromIsr` mark a process as `ZOMBIE` and tell its parent.
Neither looks at the state of the process first, and `killFromIsr` does not call the
scheduler, so that the running process may be dead and go on until the next tick.  A dead
process can then be terminated a second time, and one that calls a `semWait` that blocks
is `BLOCKED` and may come back to life.

As long as neither happens (`Event.SparesZombies`), a dead process stays dead until it is
reaped, joins no queue and has been announced exactly once.  The invariant `ZombieInv` only
speaks of who is alive, so that every update that kills, frees and creates nobody is an
instance of `ZombieInv.update`.

What a parent is told may be less than it should: `notifyTermination` ignores it if the heap has no
node for the entry in the queue of the parent.  `NoticeInv` says that every notice was complete as
long as there is one (`Event.EntersDeath`).
-/

namespace BareBones.Process.Kernel

open BareBones.Lib BareBones.Semaphores

variable {k s t : Kernel} {e : Event} {pid q cur : Int} {p p' : ProcessCDT} {id : SemId}

/-! ## Who is alive -/

theorem live_of_state {st : State} (h : p.state = st) (hst : st ≠ .ZOMBIE) : p.Live := by
  rwa [ProcessCDT.Live, h]

/-- The process in a slot, and whether it is alive. -/
def lives (k : Kernel) (q : Int) : Option (Nat × Bool) :=
  (k.processTable q).map fun p ↦ (p.inst, p.Live)

/-- The same processes are alive and dead. -/
def SameLives (s t : Kernel) : Prop := ∀ q, t.lives q = s.lives q

namespace SameLives

theorem trans {u : Kernel} (h : SameLives s t) (h' : SameLives t u) : SameLives s u :=
  fun q ↦ (h' q).trans (h q)

theorem modify {f : ProcessCDT → ProcessCDT}
    (hf : ∀ p, s.processTable pid = some p → (f p).inst = p.inst ∧ ((f p).Live ↔ p.Live)) :
    SameLives s (s.modify pid f) := by
  intro q
  unfold lives
  by_cases hq : q = pid
  · subst hq
    rw [modify_self]
    cases hp : s.processTable q with
    | none => rfl
    | some p => simp [hf p hp]
  · rw [modify_other _ _ hq]

theorem eq_some (h : SameLives s t) (hp' : t.processTable q = some p') :
    ∃ p, s.processTable q = some p ∧ p.inst = p'.inst ∧ (p.Live ↔ p'.Live) := by
  have hq := h q
  rw [lives, hp', Option.map_some] at hq
  obtain ⟨p, hp, heq⟩ := Option.map_eq_some_iff.mp hq.symm
  obtain ⟨hinst, hlive⟩ : p.inst = p'.inst ∧ (p.Live ↔ p'.Live) := by simpa using heq
  exact ⟨p, hp, hinst, hlive⟩

theorem eq_none (h : SameLives s t) (hq : s.processTable q = none) : t.processTable q = none := by
  have hlives := h q
  rw [lives, lives, hq, Option.map_none] at hlives
  exact Option.map_eq_none_iff.mp hlives

theorem eq_some' (h : SameLives s t) (hp : s.processTable q = some p) :
    ∃ p', t.processTable q = some p' ∧ p'.inst = p.inst ∧ (p'.Live ↔ p.Live) :=
  eq_some (s := t) (t := s) (fun q ↦ (h q).symm) hp

theorem sameCore (h : SameCore s t) : SameLives s t := by
  intro q
  have hq := congrArg (Option.map fun c : Nat × State × Cont ↦ (c.1, decide (c.2.1 ≠ .ZOMBIE)))
    (h.table q)
  rwa [Option.map_map, Option.map_map] at hq

theorem wake (hp : s.processTable pid = some p) (hlive : p.Live) : SameLives s (s.wake pid) := by
  refine modify fun p' hp' ↦ ?_
  obtain rfl := Option.some.inj (hp.symm.trans hp')
  exact ⟨rfl, by simpa [ProcessCDT.Live] using hlive⟩

theorem setCont (c : Cont) : SameLives s (s.setCont pid c) := modify fun _ _ ↦ ⟨rfl, Iff.rfl⟩

theorem post (id : SemId) : SameLives s (s.post id) := by
  rcases post_cases s id with ⟨_, rest, -, -, -, hpost⟩ |
    ⟨_, pid, rest, p, -, -, -, hp, hblocked, -, hpost⟩
  · rw [hpost]
    exact fun _ ↦ rfl
  · rw [hpost]
    exact wake hp (by simp [ProcessCDT.Live, hblocked])

end SameLives

/-! ## The invariant -/

/-- How many times the parent was told of the death of a process. -/
def announced (k : Kernel) (inst : Nat) : Nat := k.log.notified.countP fun n ↦ n.1 = inst

/-- The invariant of the dead and the living. -/
structure ZombieInv (k : Kernel) : Prop where
  unique : ∀ q q' p p', k.processTable q = some p → k.processTable q' = some p' →
    p.inst = p'.inst → q = q'
  fresh : ∀ q p, k.processTable q = some p → p.inst < k.nextInst
  future : ∀ inst, k.nextInst ≤ inst →
    (k.sems (.terminated inst)).posts = 0 ∧ k.announced inst = 0
  alive : ∀ q p, k.processTable q = some p → p.Live →
    (k.sems (.terminated p.inst)).posts = 0 ∧ k.announced p.inst = 0
  dead : ∀ q p, k.processTable q = some p → ¬p.Live →
    q ∉ k.readyQueue ∧ (k.sems (.terminated p.inst)).posts = 1 ∧ k.announced p.inst = 1
  /-- The idle process cannot be killed. -/
  idle : ∀ p, k.processTable IDLE_PID = some p → p.Live

/-- An update that kills, frees and creates nobody. -/
theorem ZombieInv.update (h : ZombieInv s) (hlives : SameLives s t)
    (hnext : t.nextInst = s.nextInst)
    (hposts : ∀ inst, (t.sems (.terminated inst)).posts = (s.sems (.terminated inst)).posts)
    (hnotified : t.log.notified = s.log.notified)
    (hready : ∀ q ∈ t.readyQueue, q ∈ s.readyQueue ∨
      ∃ p, s.processTable q = some p ∧ p.Live) : ZombieInv t := by
  have hannounced : ∀ inst, t.announced inst = s.announced inst := fun inst ↦ by
    rw [announced, hnotified, announced]
  refine ⟨fun q q' p p' hp hp' hinst ↦ ?_, fun q p hp ↦ ?_, fun inst hinst ↦ ?_,
    fun q p hp hlive ↦ ?_, fun q p hp hdead ↦ ?_, fun p hp ↦ ?_⟩
  · obtain ⟨p₀, hp₀, heq, -⟩ := hlives.eq_some hp
    obtain ⟨p₁, hp₁, heq', -⟩ := hlives.eq_some hp'
    exact h.unique q q' p₀ p₁ hp₀ hp₁ (heq.trans (hinst.trans heq'.symm))
  · obtain ⟨p₀, hp₀, heq, -⟩ := hlives.eq_some hp
    rw [hnext, ← heq]
    exact h.fresh q p₀ hp₀
  · rw [hposts, hannounced]
    exact h.future inst (hnext ▸ hinst)
  · obtain ⟨p₀, hp₀, heq, hiff⟩ := hlives.eq_some hp
    rw [hposts, hannounced, ← heq]
    exact h.alive q p₀ hp₀ (hiff.mpr hlive)
  · obtain ⟨p₀, hp₀, heq, hiff⟩ := hlives.eq_some hp
    obtain ⟨hmem, hrest⟩ := h.dead q p₀ hp₀ (mt hiff.mp hdead)
    rw [hposts, hannounced, ← heq]
    refine ⟨fun hq ↦ ?_, hrest⟩
    rcases hready q hq with hq | ⟨p₁, hp₁, hlive⟩
    · exact hmem hq
    · obtain rfl := Option.some.inj (hp₀.symm.trans hp₁)
      exact hdead (hiff.mp hlive)
  · obtain ⟨p₀, hp₀, -, hiff⟩ := hlives.eq_some hp
    exact hiff.mp (h.idle p₀ hp₀)

/-- Whoever joins the ready queue is alive. -/
theorem mem_wake (hp : s.processTable pid = some p) (hlive : p.Live)
    (hq : q ∈ (s.wake pid).readyQueue) :
    q ∈ s.readyQueue ∨ ∃ p, s.processTable q = some p ∧ p.Live := by
  rw [wake_readyQueue, enqueue] at hq
  split at hq
  · rcases List.mem_append.mp hq with hq | hq
    · exact .inl hq
    · rw [List.mem_singleton.mp hq]
      exact .inr ⟨p, hp, hlive⟩
  · exact .inl hq

namespace ZombieInv

theorem wake (h : ZombieInv s) (hp : s.processTable pid = some p) (hlive : p.Live) :
    ZombieInv (s.wake pid) :=
  h.update (.wake hp hlive) rfl (fun _ ↦ rfl) rfl fun _ hq ↦ mem_wake hp hlive hq

theorem frame (h : ZombieInv s) (hsame : SameCore s t) : ZombieInv t :=
  h.update (.sameCore hsame) hsame.nextInst (fun _ ↦ by rw [hsame.sems]) hsame.notified
    fun _ hq ↦ .inl (hsame.readyQueue ▸ hq)

theorem post (h : ZombieInv s) (hid : ∀ inst, id ≠ .terminated inst) : ZombieInv (s.post id) := by
  refine h.update (.post id) (post_nextInst _ _) (fun inst ↦ ?_) (post_notified _ _) fun q hq ↦ ?_
  · rw [post_posts, if_neg (hid inst).symm, Nat.add_zero]
  · refine (post_readyQueue hq).imp_right ?_
    rintro ⟨p, hp, hblocked⟩
    exact ⟨p, hp, by simp [ProcessCDT.Live, hblocked]⟩

theorem setSem (h : ZombieInv s) {r : SemRec} (hr : r.posts = (s.sems id).posts) :
    ZombieInv (s.setSem id r) := by
  refine h.update (fun _ ↦ rfl) rfl (fun inst ↦ ?_) rfl fun _ hq ↦ .inl hq
  by_cases heq : .terminated inst = id
  · rw [heq, setSem_self, hr]
  · rw [setSem_other _ _ _ heq]

theorem setCont (h : ZombieInv s) (cur : Int) (c : Cont) : ZombieInv (s.setCont cur c) :=
  h.update (.setCont c) rfl (fun _ ↦ rfl) rfl fun _ hq ↦ .inl hq

theorem returnFrom (h : ZombieInv s) (id : SemId) (cur : Int) : ZombieInv (s.returnFrom id cur) :=
  h.setSem rfl

theorem semOpen (h : ZombieInv s) (value : Int) :
    ZombieInv { s.setSem (.user s.nextSem) (.new value) with nextSem := s.nextSem + 1 } := by
  refine h.update (fun _ ↦ rfl) rfl (fun inst ↦ ?_) rfl fun _ hq ↦ .inl hq
  have hne : SemId.terminated inst ≠ .user s.nextSem := by simp
  exact congrArg SemRec.posts (setSem_other s _ (.new value) hne)

theorem setBlocked (h : ZombieInv s) (hp : s.processTable pid = some p)
    (ht : p.state = .RUNNING ∧ t = s.setState pid .BLOCKED ∨ p.state = .READY ∧
      t = { s with readyQueue := s.readyQueue.filter (· ≠ pid) }.setState pid .BLOCKED) :
    SameLives s t ∧ ZombieInv t := by
  have hlive : p.Live := by
    rcases ht with ⟨hst, -⟩ | ⟨hst, -⟩
    · exact live_of_state hst (by simp)
    · exact live_of_state hst (by simp)
  have hlives : SameLives s (s.setState pid .BLOCKED) := .modify fun p' hp' ↦ by
    obtain rfl := Option.some.inj (hp.symm.trans hp')
    exact ⟨rfl, by simpa [ProcessCDT.Live] using hlive⟩
  rcases ht with ⟨-, rfl⟩ | ⟨-, rfl⟩
  · exact ⟨hlives, h.update hlives rfl (fun _ ↦ rfl) rfl fun _ hq ↦ .inl hq⟩
  · exact ⟨hlives, h.update hlives rfl (fun _ ↦ rfl) rfl
      fun _ hq ↦ .inl (List.mem_of_mem_filter hq)⟩

/-- The dispatched process was alive. -/
theorem next_live (h : ZombieInv s) {next : Int} {rest : List Int}
    (hnext : s.readyQueue = next :: rest ∨ s.readyQueue = [] ∧ next = IDLE_PID ∧ rest = [])
    (hp : s.processTable next = some p) : p.Live := by
  by_contra hdead
  rcases hnext with hq | ⟨-, rfl, -⟩
  · exact (h.dead next p hp hdead).1 (by simp [hq])
  · exact hdead (h.idle p hp)

theorem dispatch (h : ZombieInv s) (ht : s.dispatch = some t) : ZombieInv t := by
  obtain ⟨next, p, rest, hnext, hp, rfl⟩ := dispatch_cases ht
  have hlive := h.next_live hnext hp
  refine h.update (.modify (s := s) fun p' hp' ↦ ?_) rfl (fun _ ↦ rfl) rfl fun q hq ↦ .inl ?_
  · obtain rfl := Option.some.inj (hp.symm.trans hp')
    exact ⟨rfl, by simpa [ProcessCDT.Live] using hlive⟩
  · rcases hnext with hq' | ⟨-, -, rfl⟩
    · rw [hq']
      exact List.mem_cons_of_mem _ hq
    · cases hq

/-- A process that is alive dies, and its `terminated` is posted. -/
theorem zombify (h : ZombieInv s) (hkillable : ¬isUnkillable pid)
    (hp : s.processTable pid = some p) (hlive : p.Live) (parent : Nat) :
    ZombieInv ((s.zombify pid p.inst parent).post (.terminated p.inst)) := by
  obtain ⟨hposts, hannounced⟩ := h.alive pid p hp hlive
  -- the slots after the update
  have htable : ∀ q p', ((s.zombify pid p.inst parent).post (.terminated p.inst)).processTable q =
      some p' → ∃ p₀, s.processTable q = some p₀ ∧ p₀.inst = p'.inst ∧
        (q = pid ∧ ¬p'.Live ∨ q ≠ pid ∧ (p₀.Live ↔ p'.Live)) := by
    intro q p' hp'
    obtain ⟨p₁, hp₁, hinst, hiff⟩ := (SameLives.post _).eq_some hp'
    obtain ⟨p₀, hp₀, rfl⟩ := modify_eq_some.mp hp₁
    refine ⟨p₀, hp₀, ?_⟩
    by_cases hq : q = pid
    · rw [if_pos hq] at hinst hiff
      exact ⟨hinst, .inl ⟨hq, fun hl ↦ hiff.mpr hl rfl⟩⟩
    · rw [if_neg hq] at hinst hiff
      exact ⟨hinst, .inr ⟨hq, hiff⟩⟩
  have hcount : ∀ inst, ((s.zombify pid p.inst parent).post (.terminated p.inst)).announced inst =
      s.announced inst + if inst = p.inst then 1 else 0 := by
    intro inst
    rw [announced, post_notified]
    show (s.log.notified ++ [(p.inst, parent)]).countP _ = _
    simp only [List.countP_append, List.countP_singleton, decide_eq_true_eq, announced,
      eq_comm (a := inst)]
  have hpost : ∀ inst, (((s.zombify pid p.inst parent).post (.terminated p.inst)).sems
      (.terminated inst)).posts =
        (s.sems (.terminated inst)).posts + if inst = p.inst then 1 else 0 := by
    intro inst
    rw [post_posts]
    simp only [SemId.terminated.injEq]
    rfl
  refine ⟨fun q q' p₁ p₂ hp₁ hp₂ hinst ↦ ?_, fun q p₁ hp₁ ↦ ?_, fun inst hinst ↦ ?_,
    fun q p₁ hp₁ hl ↦ ?_, fun q p₁ hp₁ hdead ↦ ?_, fun p₁ hp₁ ↦ ?_⟩
  · obtain ⟨p₃, hp₃, heq, -⟩ := htable q p₁ hp₁
    obtain ⟨p₄, hp₄, heq', -⟩ := htable q' p₂ hp₂
    exact h.unique q q' p₃ p₄ hp₃ hp₄ (heq.trans (hinst.trans heq'.symm))
  · obtain ⟨p₃, hp₃, heq, -⟩ := htable q p₁ hp₁
    rw [post_nextInst, ← heq]
    exact h.fresh q p₃ hp₃
  · rw [post_nextInst] at hinst
    have hne : inst ≠ p.inst := Nat.ne_of_gt (Nat.lt_of_lt_of_le (h.fresh pid p hp) hinst)
    rw [hpost, hcount, if_neg hne]
    exact h.future inst hinst
  · obtain ⟨p₃, hp₃, heq, ⟨-, hdead⟩ | ⟨hq, hiff⟩⟩ := htable q p₁ hp₁
    · exact absurd hl hdead
    · have hne : p₁.inst ≠ p.inst := fun hinst ↦ hq (h.unique q pid p₃ p hp₃ hp (heq.trans hinst))
      rw [hpost, hcount, if_neg hne, ← heq]
      exact h.alive q p₃ hp₃ (hiff.mpr hl)
  · obtain ⟨p₃, hp₃, heq, ⟨rfl, -⟩ | ⟨hq, hiff⟩⟩ := htable q p₁ hp₁
    · obtain rfl := Option.some.inj (hp₃.symm.trans hp)
      rw [hpost, hcount, ← heq, if_pos rfl, hposts, hannounced]
      refine ⟨fun hmem ↦ ?_, rfl, rfl⟩
      rcases post_readyQueue hmem with hmem | ⟨p₄, hp₄, hblocked⟩
      · simp [Kernel.zombify] at hmem
      · obtain ⟨p₅, -, rfl⟩ := modify_eq_some.mp hp₄
        simp at hblocked
    · have hne : p₁.inst ≠ p.inst := fun hinst ↦ hq (h.unique q pid p₃ p hp₃ hp (heq.trans hinst))
      obtain ⟨hmem, hrest⟩ := h.dead q p₃ hp₃ (mt hiff.mp hdead)
      rw [hpost, hcount, if_neg hne, ← heq]
      refine ⟨fun hmem' ↦ ?_, hrest⟩
      rcases post_readyQueue hmem' with hmem' | ⟨p₄, hp₄, hblocked⟩
      · exact hmem (List.mem_of_mem_filter hmem')
      · obtain ⟨p₅, hp₅, rfl⟩ := modify_eq_some.mp hp₄
        rw [if_neg hq] at hblocked
        obtain rfl := Option.some.inj (hp₃.symm.trans hp₅)
        exact hdead (hiff.mp (by simp [ProcessCDT.Live, hblocked]))
  · obtain ⟨p₃, hp₃, -, ⟨hq, -⟩ | ⟨-, hiff⟩⟩ := htable IDLE_PID p₁ hp₁
    · exact absurd (.inl hq.symm) hkillable
    · exact hiff.mp (h.idle p₃ hp₃)

theorem free (h : ZombieInv s) (expected : Option Nat) : ZombieInv (s.freed pid p expected) := by
  have htable : ∀ q p', (s.freed pid p expected).processTable q = some p' →
      s.processTable q = some p' := by
    intro q p' hp'
    simp only [freed] at hp'
    split at hp'
    · cases hp'
    · exact hp'
  exact ⟨fun q q' p p' hp hp' ↦ h.unique q q' p p' (htable q p hp) (htable q' p' hp'),
    fun q p hp ↦ h.fresh q p (htable q p hp), h.future, fun q p hp ↦ h.alive q p (htable q p hp),
    fun q p hp ↦ h.dead q p (htable q p hp), fun p hp ↦ h.idle p (htable _ p hp)⟩

theorem start (h : ZombieInv s) (hfree : s.processTable pid = none) (ppid : Int) :
    ZombieInv (s.started 1 pid ppid) := by
  have htable : ∀ q p', (s.started 1 pid ppid).processTable q = some p' →
      q = pid ∧ p' = s.newCDT 1 ppid ∨ q ≠ pid ∧ s.processTable q = some p' := by
    intro q p' hp'
    simp only [started, enqueueReady] at hp'
    split at hp'
    next hq => exact .inl ⟨hq, (Option.some.inj hp').symm⟩
    next hq => exact .inr ⟨hq, hp'⟩
  have hnew : (s.newCDT 1 ppid).Live := by simp [newCDT, ProcessCDT.Live]
  refine ⟨fun q q' p₁ p₂ hp₁ hp₂ hinst ↦ ?_, fun q p₁ hp₁ ↦ ?_, fun inst hinst ↦ ?_,
    fun q p₁ hp₁ hl ↦ ?_, fun q p₁ hp₁ hdead ↦ ?_, fun p₁ hp₁ ↦ ?_⟩
  · rcases htable q p₁ hp₁ with ⟨hq, rfl⟩ | ⟨-, hold₁⟩
    · rcases htable q' p₂ hp₂ with ⟨hq', -⟩ | ⟨-, hold₂⟩
      · exact hq.trans hq'.symm
      · exact absurd hinst.symm (Nat.ne_of_lt (h.fresh q' p₂ hold₂))
    · rcases htable q' p₂ hp₂ with ⟨-, rfl⟩ | ⟨-, hold₂⟩
      · exact absurd hinst (Nat.ne_of_lt (h.fresh q p₁ hold₁))
      · exact h.unique q q' p₁ p₂ hold₁ hold₂ hinst
  · rcases htable q p₁ hp₁ with ⟨rfl, rfl⟩ | ⟨hq, hp₁⟩
    · exact Nat.lt_succ_self _
    · exact Nat.lt_succ_of_lt (h.fresh q p₁ hp₁)
  · exact h.future inst (Nat.le_of_succ_le hinst)
  · rcases htable q p₁ hp₁ with ⟨rfl, rfl⟩ | ⟨hq, hp₁⟩
    · exact h.future _ (Nat.le_refl _)
    · exact h.alive q p₁ hp₁ hl
  · rcases htable q p₁ hp₁ with ⟨rfl, rfl⟩ | ⟨hq, hp₁⟩
    · exact absurd hnew hdead
    · obtain ⟨hmem, hrest⟩ := h.dead q p₁ hp₁ hdead
      refine ⟨fun hmem' ↦ ?_, hrest⟩
      simp only [started, enqueueReady, enqueue] at hmem'
      split at hmem'
      · rcases List.mem_append.mp hmem' with hmem' | hmem'
        · exact hmem hmem'
        · exact hq (List.mem_singleton.mp hmem')
      · exact hmem hmem'
  · rcases htable _ p₁ hp₁ with ⟨-, rfl⟩ | ⟨-, hp₁⟩
    · exact hnew
    · exact h.idle p₁ hp₁

theorem blockOn (h : ZombieInv s) (hcur : s.current = some (cur, p)) (hlive : p.Live) (id : SemId)
    (c : Cont) : ZombieInv (s.blockOn id cur c) := by
  refine ZombieInv.setSem (h.update (.modify fun p' hp' ↦ ?_) rfl (fun _ ↦ rfl) rfl
    fun _ hq ↦ .inl hq) rfl
  obtain rfl := Option.some.inj ((current_eq_some.mp hcur).2.symm.trans hp')
  exact ⟨rfl, by simpa [ProcessCDT.Live] using hlive⟩

theorem schedule (h : ZombieInv s) (ht : s.schedule = some t) : ZombieInv t := by
  refine CoreRule.schedule_induction id frame (fun h hcur hrun ↦ ?_)
    (fun h _ _ ht ↦ h.dispatch ht) h ht
  exact h.wake (current_eq_some.mp hcur).2 (by simp [ProcessCDT.Live, hrun])

end ZombieInv

/-! ## Runs -/

/-- Nobody terminates a dead process, and a dead process calls no `semWait` that blocks. -/
def Event.SparesZombies (k : Kernel) (e : Event) : Prop :=
  (∀ pid ∈ e.terminates k, ∀ p ∈ k.processTable pid, p.Live) ∧
    ∀ id ∈ e.waitsFor k, (k.sems id).sem.value ≤ 0 → ∀ c ∈ k.current, c.2.Live

instance (k : Kernel) (e : Event) : Decidable (e.SparesZombies k) :=
  inferInstanceAs (Decidable (_ ∧ _))

/-- Every update keeps the invariant of the dead and the living. -/
theorem zombieRule : CoreRule (fun k e ↦ e.SparesZombies k) ZombieInv where
  frame := ZombieInv.frame
  post _ h hid := h.post hid
  take _ h _ := h.setSem rfl
  semOpen value h := h.semOpen value
  heap _ h _ := h.update (fun _ ↦ rfl) rfl (fun _ ↦ rfl) rfl fun _ hq ↦ .inl hq
  setBlocked h _ _ hp ht := (h.setBlocked hp ht).2
  unblock h _ _ hp hblocked := h.wake hp (live_of_state hblocked (by simp))
  exit h _ _ _ := h.setCont _ _
  waited h _ _ _ _ := h.setCont _ _
  polled h _ _ _ := h.setCont _ _
  returned h _ _ _ _ := (h.returnFrom _ _).setCont _ _
  block h hok hwaits hcur _ _ hle ht :=
    (h.blockOn hcur (hok.2 _ hwaits.waitsFor hle _ hcur) _ _).schedule ht
  preempt h hcur hrun := h.wake (current_eq_some.mp hcur).2 (live_of_state hrun (by simp))
  dispatch h _ _ ht := h.dispatch ht
  zombify h hok hpid hkillable hp hp' hinst hlive := by
    rw [← hinst]
    exact h.zombify hkillable hp' (hlive.mpr (hok.1 _ hpid _ hp)) _
  free h _ _ _ := h.free _
  start h _ hsame hfree := h.start (hsame.eq_none.mpr (findFreePid_eq_some hfree).2) _

/-- Whatever has happened to the process `inst` since it was dead in the slot `pid`: it may
be gone; if not, it is dead and waits nowhere where it did not wait then. -/
structure Stays (pid : Int) (inst : Nat) (s t : Kernel) : Prop where
  old : inst < t.nextInst
  kept : ∀ q p, t.processTable q = some p → p.inst = inst → q = pid ∧ ¬p.Live
  queues : ∀ p, t.processTable pid = some p → p.inst = inst →
    ∀ id, pid ∈ (t.sems id).sem.blockedQueue → pid ∈ (s.sems id).sem.blockedQueue

namespace Stays

variable {u : Kernel} {inst : Nat}

theorem update (h : Stays pid inst s t) (hlives : SameLives t u) (hnext : t.nextInst ≤ u.nextInst)
    (hqueue : ∀ id q, q ∈ (u.sems id).sem.blockedQueue → q ∈ (t.sems id).sem.blockedQueue ∨
      ∃ p, t.processTable q = some p ∧ p.Live) : Stays pid inst s u := by
  refine ⟨Nat.lt_of_lt_of_le h.old hnext, fun q p hp hinst ↦ ?_, fun p hp hinst id hmem ↦ ?_⟩
  · obtain ⟨p₀, hp₀, heq, hiff⟩ := hlives.eq_some hp
    obtain ⟨hq, hdead⟩ := h.kept q p₀ hp₀ (heq.trans hinst)
    exact ⟨hq, mt hiff.mpr hdead⟩
  · obtain ⟨p₀, hp₀, heq, hiff⟩ := hlives.eq_some hp
    rcases hqueue id pid hmem with hmem | ⟨p₁, hp₁, hlive⟩
    · exact h.queues p₀ hp₀ (heq.trans hinst) id hmem
    · obtain rfl := Option.some.inj (hp₀.symm.trans hp₁)
      exact absurd hlive (h.kept pid p₀ hp₀ (heq.trans hinst)).2

theorem setSem (h : Stays pid inst s t) {r : SemRec}
    (hr : ∀ q ∈ r.sem.blockedQueue, q ∈ (t.sems id).sem.blockedQueue ∨
      ∃ p, t.processTable q = some p ∧ p.Live) : Stays pid inst s (t.setSem id r) := by
  refine h.update (fun _ ↦ rfl) (Nat.le_refl _) fun j q hq ↦ ?_
  by_cases hj : j = id
  · subst hj
    rw [setSem_self] at hq
    exact hr q hq
  · rw [setSem_other _ _ _ hj] at hq
    exact .inl hq

theorem dispatch (h : Stays pid inst s t) (hinv : ZombieInv t) (hu : t.dispatch = some u) :
    Stays pid inst s u := by
  obtain ⟨next, p, rest, hnext, hp, rfl⟩ := dispatch_cases hu
  refine h.update (.modify (s := t) fun p' hp' ↦ ?_) (Nat.le_refl _) fun _ _ hq ↦ .inl hq
  obtain rfl := Option.some.inj (hp.symm.trans hp')
  exact ⟨rfl, by simpa [ProcessCDT.Live] using hinv.next_live hnext hp⟩

theorem wake (h : Stays pid inst s t) (hp : t.processTable q = some p) (hlive : p.Live) :
    Stays pid inst s (t.wake q) :=
  h.update (.wake hp hlive) (Nat.le_refl _) fun _ _ hq ↦ .inl hq

theorem frame (h : Stays pid inst s t) (hsame : SameCore t u) : Stays pid inst s u :=
  h.update (.sameCore hsame) (Nat.le_of_eq hsame.nextInst.symm)
    fun _ _ hq ↦ .inl (hsame.sems ▸ hq)

theorem setCont (h : Stays pid inst s t) (cur : Int) (c : Cont) :
    Stays pid inst s (t.setCont cur c) :=
  h.update (.setCont c) (Nat.le_refl _) fun _ _ hq ↦ .inl hq

theorem schedule (h : Stays pid inst s t) (hinv : ZombieInv t) (hu : t.schedule = some u) :
    Stays pid inst s u := by
  refine (CoreRule.schedule_induction (I := fun t ↦ ZombieInv t ∧ Stays pid inst s t) id
    (fun h hsame ↦ ⟨h.1.frame hsame, h.2.frame hsame⟩) (fun h hcur hrun ↦ ?_)
    (fun h _ _ ht ↦ ⟨h.1.dispatch ht, h.2.dispatch h.1 ht⟩) ⟨hinv, h⟩ hu).2
  have hp := (current_eq_some.mp hcur).2
  exact ⟨h.1.wake hp (live_of_state hrun (by simp)), h.2.wake hp (live_of_state hrun (by simp))⟩

theorem post (h : Stays pid inst s t) (id : SemId) : Stays pid inst s (t.post id) :=
  h.update (.post id) (Nat.le_of_eq (post_nextInst _ _).symm) fun _ _ hq ↦ .inl (post_queue hq)

theorem returnFrom (h : Stays pid inst s t) (id : SemId) (cur : Int) :
    Stays pid inst s (t.returnFrom id cur) := h.setSem fun _ hq ↦ .inl hq

theorem blockOn (h : Stays pid inst s t) (hcur : t.current = some (cur, p)) (hlive : p.Live)
    (id : SemId) (c : Cont) : Stays pid inst s (t.blockOn id cur c) := by
  obtain ⟨-, hp⟩ := current_eq_some.mp hcur
  have hlives : SameLives t (t.modify cur fun p ↦ { p with state := .BLOCKED, cont := c }) :=
    .modify fun p' hp' ↦ by
      obtain rfl := Option.some.inj (hp.symm.trans hp')
      exact ⟨rfl, by simpa [ProcessCDT.Live] using hlive⟩
  have hmodify := h.update hlives (Nat.le_refl _) fun _ _ hq ↦ .inl hq
  refine hmodify.setSem fun q hq ↦ ?_
  simp only [enqueue] at hq
  split at hq
  · rcases List.mem_append.mp hq with hq | hq
    · exact .inl hq
    · obtain ⟨p', hp', -, hiff⟩ := hlives.eq_some' hp
      rw [List.mem_singleton.mp hq]
      exact .inr ⟨p', hp', hiff.mpr hlive⟩
  · exact .inl hq

theorem zombify (h : Stays pid inst s t) (q : Int) (i parent : Nat) :
    Stays pid inst s ((t.zombify q i parent).post (.terminated i)) := by
  have hmid : Stays pid inst s (t.zombify q i parent) := by
    refine ⟨h.old, fun q' p' hp' hinst ↦ ?_, fun p' hp' hinst ↦ ?_⟩
    · obtain ⟨p₀, hp₀, rfl⟩ := modify_eq_some.mp hp'
      split at hinst
      next hq =>
          obtain ⟨heq, -⟩ := h.kept q' p₀ hp₀ hinst
          rw [if_pos hq]
          exact ⟨heq, fun hlive ↦ hlive rfl⟩
      next hq =>
          rw [if_neg hq]
          exact h.kept q' p₀ hp₀ hinst
    · obtain ⟨p₀, hp₀, rfl⟩ := modify_eq_some.mp hp'
      refine h.queues p₀ hp₀ ?_
      split at hinst
      · exact hinst
      · exact hinst
  exact hmid.post _

theorem free (h : Stays pid inst s t) (q : Int) (expected : Option Nat) :
    Stays pid inst s (t.freed q p expected) := by
  have htable : ∀ q' p', (t.freed q p expected).processTable q' = some p' →
      t.processTable q' = some p' := by
    intro q' p' hp'
    simp only [freed] at hp'
    split at hp'
    · cases hp'
    · exact hp'
  exact ⟨h.old, fun q' p' hp' ↦ h.kept q' p' (htable q' p' hp'),
    fun p' hp' ↦ h.queues p' (htable pid p' hp')⟩

theorem start (h : Stays pid inst s t) (q ppid : Int) :
    Stays pid inst s (t.started 1 q ppid) := by
  have htable : ∀ q' p', (t.started 1 q ppid).processTable q' = some p' → p'.inst = inst →
      t.processTable q' = some p' := by
    intro q' p' hp' hinst
    simp only [started, enqueueReady] at hp'
    split at hp'
    · rw [← Option.some.inj hp'] at hinst
      exact absurd hinst.symm (Nat.ne_of_lt h.old)
    · exact hp'
  exact ⟨Nat.lt_succ_of_lt h.old, fun q' p' hp' hinst ↦ h.kept q' p' (htable q' p' hp' hinst) hinst,
    fun p' hp' hinst ↦ h.queues p' (htable pid p' hp' hinst) hinst⟩

end Stays

/-- A dead process stays dead. -/
theorem staysRule (pid : Int) (inst : Nat) (s : Kernel) :
    CoreRule (fun k e ↦ e.SparesZombies k) fun t ↦ ZombieInv t ∧ Stays pid inst s t where
  frame h hsame := ⟨h.1.frame hsame, h.2.frame hsame⟩
  post _ h hid := ⟨h.1.post hid, h.2.post _⟩
  take _ h hpos := ⟨zombieRule.take _ h.1 hpos, h.2.setSem fun _ hq ↦ .inl hq⟩
  semOpen value h := ⟨h.1.semOpen value,
    (h.2.setSem fun _ hq ↦ absurd hq List.not_mem_nil).update (fun _ ↦ rfl) (Nat.le_refl _)
      fun _ _ hq ↦ .inl hq⟩
  heap nodes h hok := ⟨zombieRule.heap nodes h.1 hok,
    h.2.update (fun _ ↦ rfl) (Nat.le_refl _) fun _ _ hq ↦ .inl hq⟩
  setBlocked h _ _ hp ht := by
    obtain ⟨hlives, hinv⟩ := h.1.setBlocked hp ht
    refine ⟨hinv, h.2.update hlives ?_ ?_⟩
    · rcases ht with ⟨-, rfl⟩ | ⟨-, rfl⟩ <;> exact Nat.le_refl _
    · rcases ht with ⟨-, rfl⟩ | ⟨-, rfl⟩ <;> exact fun _ _ hq ↦ .inl hq
  unblock h _ _ hp hblocked := ⟨h.1.wake hp (live_of_state hblocked (by simp)),
    h.2.wake hp (live_of_state hblocked (by simp))⟩
  exit h _ _ _ := ⟨h.1.setCont _ _, h.2.setCont _ _⟩
  waited h _ _ _ _ := ⟨h.1.setCont _ _, h.2.setCont _ _⟩
  polled h _ _ _ := ⟨h.1.setCont _ _, h.2.setCont _ _⟩
  returned h _ _ _ _ := ⟨(h.1.returnFrom _ _).setCont _ _, (h.2.returnFrom _ _).setCont _ _⟩
  block h hok hwaits hcur _ _ hle ht := by
    have hlive := hok.2 _ hwaits.waitsFor hle _ hcur
    exact ⟨(h.1.blockOn hcur hlive _ _).schedule ht,
      (h.2.blockOn hcur hlive _ _).schedule (h.1.blockOn hcur hlive _ _) ht⟩
  preempt h hcur hrun := ⟨zombieRule.preempt h.1 hcur hrun,
    h.2.wake (current_eq_some.mp hcur).2 (live_of_state hrun (by simp))⟩
  dispatch h _ _ ht := ⟨h.1.dispatch ht, h.2.dispatch h.1 ht⟩
  zombify h hok hpid hkillable hp hp' hinst hlive :=
    ⟨zombieRule.zombify h.1 hok hpid hkillable hp hp' hinst hlive, h.2.zombify _ _ _⟩
  free h _ _ _ := ⟨h.1.free _, h.2.free _ _⟩
  start h hok hsame hfree := ⟨zombieRule.start h.1 hok hsame hfree, h.2.start _ _⟩

theorem zombieInv_init : ZombieInv initializeScheduler := by
  refine ⟨fun q q' p p' hp hp' hinst ↦ ?_, fun q p hp ↦ ?_, fun inst _ ↦ ⟨rfl, rfl⟩,
    fun q p hp _ ↦ ⟨rfl, rfl⟩, fun q p hp hdead ↦ ?_, fun p hp ↦ ?_⟩
  · rcases init_eq_some hp with ⟨rfl, rfl⟩ | ⟨rfl, rfl⟩
    · rcases init_eq_some hp' with ⟨rfl, rfl⟩ | ⟨rfl, rfl⟩
      · rfl
      · cases hinst
    · rcases init_eq_some hp' with ⟨rfl, rfl⟩ | ⟨rfl, rfl⟩
      · cases hinst
      · rfl
  · rcases init_eq_some hp with ⟨rfl, rfl⟩ | ⟨rfl, rfl⟩ <;> decide
  · rcases init_eq_some hp with ⟨rfl, rfl⟩ | ⟨rfl, rfl⟩ <;> exact absurd (by decide) hdead
  · rcases init_eq_some hp with ⟨-, rfl⟩ | ⟨-, rfl⟩ <;> decide

theorem zombieInv_reach (h : Reach step (fun k e ↦ e.SparesZombies k) initializeScheduler s) :
    ZombieInv s :=
  h.invariant zombieInv_init fun _ _ _ hu hok hv ↦ zombieRule.step hu hok hv

/-! ## What a parent is told -/

/-- The heap has a node for the entry of a death in the queue of the parent. -/
def Event.EntersDeath (k : Kernel) (e : Event) : Prop :=
  ∀ pid ∈ e.terminates k, ¬isUnkillable pid → k.processTable pid ≠ none →
    k.nodes .terminatedChildren = true

instance (k : Kernel) (e : Event) : Decidable (e.EntersDeath k) :=
  inferInstanceAs (Decidable (∀ pid ∈ e.terminates k, _))

/-- Every notice that was begun has come to its end, and is complete. -/
structure NoticeInv (k : Kernel) : Prop where
  begun : k.log.notices.map (fun n ↦ (n.process, n.parent)) = k.log.notified
  complete : ∀ n ∈ k.log.notices, n.Complete

/-- The entry is one more in the queue of the parent. -/
theorem entries_enqueueTerminated (hp : s.processTable q = some p)
    (hnodes : s.nodes .terminatedChildren = true) :
    (s.enqueueTerminated q pid).entries q pid = s.entries q pid + 1 := by
  simp only [entries, enqueueTerminated, enqueue, if_pos hnodes, modify_self, hp, Option.map_some,
    Option.getD_some, List.count_append, List.count_singleton_self]

/-- **`notifyTermination`** makes a complete notice. -/
theorem notifyTermination_notices (process : ProcessCDT) {parent : ProcessCDT} (pid : Int)
    (hparent : s.processTable q = some parent) (hnodes : s.nodes .terminatedChildren = true) :
    (s.notifyTermination process parent q pid).log.notices =
      s.log.notices ++ [⟨process.inst, parent.inst, 1, 1, 1⟩] := by
  let u : Kernel := ((s.zombify pid process.inst parent.inst).post (.terminated process.inst)).post
    (.childTerminated parent.inst)
  have hposts : ∀ id, (u.sems id).posts = (s.sems id).posts +
      (if id = .terminated process.inst then 1 else 0) +
        if id = .childTerminated parent.inst then 1 else 0 := by
    intro id
    show (((s.zombify pid process.inst parent.inst).post _).post _ |>.sems id).posts = _
    rw [post_posts, post_posts]
    rfl
  have hqueue : (u.processTable q).map ProcessCDT.terminatedChildren =
      (s.processTable q).map ProcessCDT.terminatedChildren := by
    show ((((s.zombify pid process.inst parent.inst).post _).post _).processTable q).map _ = _
    rw [post_map (fun _ _ ↦ rfl), post_map (fun _ _ ↦ rfl)]
    exact modify_map (f := fun p ↦ { p with state := .ZOMBIE }) (fun _ ↦ rfl) q
  have hentries : u.entries q pid = s.entries q pid := by
    have hcount := congrArg (fun o : Option (List Int) ↦ (o.map (List.count pid)).getD 0) hqueue
    rw [Option.map_map, Option.map_map] at hcount
    exact hcount
  rw [hparent, Option.map_some] at hqueue
  obtain ⟨w, hw, -⟩ := Option.map_eq_some_iff.mp hqueue
  have hroom : u.nodes .terminatedChildren = true := by
    show (((s.zombify pid process.inst parent.inst).post _).post _).nodes _ = true
    rw [post_nodes, post_nodes]
    exact hnodes
  have hnotices : u.log.notices = s.log.notices := by
    show (((s.zombify pid process.inst parent.inst).post _).post _).log.notices = _
    rw [post_notices, post_notices]
    rfl
  show u.log.notices ++ [(⟨process.inst, parent.inst,
      (u.sems (.terminated process.inst)).posts - (s.sems (.terminated process.inst)).posts,
      (u.sems (.childTerminated parent.inst)).posts - (s.sems (.childTerminated parent.inst)).posts,
      (u.enqueueTerminated q pid).entries q pid - s.entries q pid⟩ : NoticeRecord)] = _
  rw [hnotices, hposts, hposts, entries_enqueueTerminated hw hroom, hentries]
  simp [Nat.add_sub_cancel_left]

/-- Nobody is told of anything. -/
def SameNotices (s t : Kernel) : Prop :=
  t.log.notices = s.log.notices ∧ t.log.notified = s.log.notified

namespace SameNotices

theorem refl (s : Kernel) : SameNotices s s := ⟨rfl, rfl⟩

theorem trans {u : Kernel} (h : SameNotices s t) (h' : SameNotices t u) : SameNotices s u :=
  ⟨h'.1.trans h.1, h'.2.trans h.2⟩

theorem post (s : Kernel) (id : SemId) : SameNotices s (s.post id) :=
  ⟨post_notices s id, post_notified s id⟩

theorem dispatch (ht : s.dispatch = some t) : SameNotices s t := by
  obtain ⟨next, p, rest, -, -, rfl⟩ := dispatch_cases ht
  exact ⟨rfl, rfl⟩

theorem schedule (ht : s.schedule = some t) : SameNotices s t := by
  rcases schedule_cases ht with ⟨-, rfl⟩ | ⟨-,
    ⟨cur, p, -, -, -, rfl⟩ | ⟨cur, p, -, -, -, hdispatch⟩ | ⟨-, hdispatch⟩⟩
  · exact .refl _
  · exact ⟨rfl, rfl⟩
  · exact dispatch (s := s.wake cur) hdispatch
  · exact dispatch hdispatch

theorem reapProcess (s : Kernel) (pid : Int) (expected : Option Nat) :
    SameNotices s (s.reapProcess pid expected) := by
  rcases reapProcess_cases s pid expected with ⟨-, heq⟩ | ⟨p, -, -, heq⟩
  · rw [heq]
    exact .refl s
  · rw [heq]
    exact ⟨rfl, rfl⟩

theorem tryWait (s : Kernel) (id : SemId) : SameNotices s (s.tryWait id).1 := by
  rcases tryWait_cases s id with ⟨-, heq⟩ | ⟨-, heq⟩
  · rw [heq]
    exact ⟨rfl, rfl⟩
  · rw [heq]
    exact .refl s

theorem afterTerminated {inst : Nat} {parent : Option (Int × Nat)}
    (ht : s.afterTerminated pid inst parent = some t) : SameNotices s t := by
  unfold Kernel.afterTerminated at ht
  split at ht
  · rw [← Option.some.inj ht]
    exact reapProcess s pid _
  · split at ht
    · cases ht
    split at ht
    · cases ht
    rw [← Option.some.inj ht]
    exact (tryWait s _).trans (SameNotices.trans ⟨rfl, rfl⟩ (reapProcess _ pid _))

theorem pollAndReap (s : Kernel) (cur : Int) (p : ProcessCDT) :
    SameNotices s (s.pollAndReap cur p) := by
  have hpolled : SameNotices s (s.pollTerminatedChildren cur p).2 := by
    unfold pollTerminatedChildren
    split
    · exact ⟨rfl, rfl⟩
    · exact ⟨rfl, rfl⟩
  unfold Kernel.pollAndReap
  dsimp only
  split
  · exact hpolled
  · exact hpolled.trans (SameNotices.trans ⟨rfl, rfl⟩ (reapProcess _ _ none))

theorem transferOrphan (s : Kernel) (initProc : Nat) (childPid : Int) :
    SameNotices s (s.transferOrphan initProc childPid) := by
  unfold Kernel.transferOrphan
  split
  · exact .refl s
  split
  · exact .refl s
  · dsimp only
    split
    · exact SameNotices.trans ⟨rfl, rfl⟩ (post _ _)
    · exact ⟨rfl, rfl⟩

theorem transferOrphanChildren (s : Kernel) (pid : Int) :
    SameNotices s (s.transferOrphanChildren pid) := by
  have hloop : ∀ (queue : List Int) (s : Kernel) (initProc : Nat),
      SameNotices s (queue.foldl (Kernel.transferOrphan initProc) s) := by
    intro queue
    induction queue with
    | nil => exact fun s _ ↦ .refl s
    | cons childPid queue ih =>
        exact fun s initProc ↦ (transferOrphan s initProc childPid).trans (ih _ _)
  unfold Kernel.transferOrphanChildren
  split
  · exact (hloop _ _ _).trans ⟨rfl, rfl⟩
  · exact .refl s

end SameNotices

theorem NoticeInv.congr (h : NoticeInv s) (hsame : SameNotices s t) : NoticeInv t where
  begun := by
    rw [hsame.1, hsame.2]
    exact h.begun
  complete := by
    rw [hsame.1]
    exact h.complete

/-- Every notice is complete, if there is a node for its entry. -/
theorem noticeRule : StepRule (fun k e ↦ e.EntersDeath k) NoticeInv where
  frame h hcore hkin := h.congr ⟨hkin.notices, hcore.notified⟩
  schedule h ht := h.congr (.schedule ht)
  post _ h := h.congr (.post _ _)
  take _ h _ _ := h.congr ⟨rfl, rfl⟩
  semOpen _ h := h.congr ⟨rfl, rfl⟩
  heap _ h _ := h.congr ⟨rfl, rfl⟩
  setBlocked h _ _ _ ht := by
    rcases ht with ⟨-, rfl⟩ | ⟨-, rfl⟩
    · exact h.congr ⟨rfl, rfl⟩
    · exact h.congr ⟨rfl, rfl⟩
  unblock h _ _ _ _ := h.congr ⟨rfl, rfl⟩
  exit h _ _ _ := h.congr ⟨rfl, rfl⟩
  waited h _ _ _ _ _ := h.congr ⟨rfl, rfl⟩
  returned h _ _ _ _ := h.congr ⟨rfl, rfl⟩
  block {s} {_} {_} {cur} {_} {id} {c} h _ _ _ _ _ _ ht := by
    have hblocked : NoticeInv (s.blockOn id cur c) := h.congr ⟨rfl, rfl⟩
    exact hblocked.congr (.schedule ht)
  terminate {k} {s} {_} {pid} {_} {process} {parent} h hok hpid hkillable hp _ _ _ _ hparent
      hnodes := by
    refine NoticeInv.congr (s := s.notifyTermination process parent process.ppid pid) ?_
      (.transferOrphanChildren _ _)
    have hroom : s.nodes .terminatedChildren = true := by
      rw [hnodes]
      exact hok pid hpid hkillable (by simp [hp])
    have hnotices := notifyTermination_notices process pid hparent hroom
    have hnotified : (s.notifyTermination process parent process.ppid pid).log.notified =
        s.log.notified ++ [(process.inst, parent.inst)] := by
      show (((s.zombify pid process.inst parent.inst).post _).post _).log.notified = _
      rw [post_notified, post_notified]
      rfl
    refine ⟨?_, fun n hn ↦ ?_⟩
    · rw [hnotices, hnotified, List.map_append, h.begun]
      rfl
    · rw [hnotices] at hn
      rcases List.mem_append.mp hn with hn | hn
      · exact h.complete n hn
      · rw [List.mem_singleton.mp hn]
        exact ⟨rfl, rfl, rfl⟩
  afterTerminated h _ _ ht := h.congr (.afterTerminated ht)
  polled h _ _ _ := h.congr (SameNotices.trans ⟨rfl, rfl⟩ (.pollAndReap _ _ _))
  reapRound h _ _ _ _ _ _ _ := h.congr (SameNotices.trans ⟨rfl, rfl⟩ (.pollAndReap _ _ _))
  start {s} {_} {_} {pid} h _ _ _ _ := by
    have hregistered : SameNotices s (s.registered pid).2 := by
      unfold registered
      split
      · split
        · exact ⟨rfl, rfl⟩
        · exact .refl s
      · exact .refl s
    exact h.congr (hregistered.trans ⟨rfl, rfl⟩)

/-- Nobody terminates a dead process, no dead process calls a `semWait` that blocks, and there is a
node for the entry of every death. -/
def Event.TerminatesOnce (k : Kernel) (e : Event) : Prop := e.SparesZombies k ∧ e.EntersDeath k

instance (k : Kernel) (e : Event) : Decidable (e.TerminatesOnce k) :=
  inferInstanceAs (Decidable (_ ∧ _))

/-- The dead process `p` is not ready, and its parent was told once: by one call of
`notifyTermination`, which has posted `terminated` of the process and `childTerminated` of the
parent and made an entry in its queue. -/
structure Announced (k : Kernel) (pid : Int) (p : ProcessCDT) : Prop where
  not_ready : pid ∉ k.readyQueue
  posted : (k.sems (.terminated p.inst)).posts = 1
  notified : ∃ parent, (k.log.notices.filter fun n ↦ n.process = p.inst) =
    [⟨p.inst, parent, 1, 1, 1⟩]

/-- The dead have been announced. -/
theorem announced_of_dead (h : ZombieInv s) (hn : NoticeInv s) (hp : s.processTable pid = some p)
    (hdead : ¬p.Live) : s.Announced pid p := by
  obtain ⟨hready, hposts, hannounced⟩ := h.dead pid p hp hdead
  have hlength : (s.log.notices.filter fun n ↦ n.process = p.inst).length = 1 := by
    rw [← List.countP_eq_length_filter, ← hannounced, announced, ← hn.begun, List.countP_map]
    rfl
  obtain ⟨n, hone⟩ := List.length_eq_one_iff.mp hlength
  have hmem : n ∈ s.log.notices.filter fun n ↦ n.process = p.inst := by
    rw [hone]
    exact List.mem_singleton_self n
  obtain ⟨hn', hprocess⟩ := List.mem_filter.mp hmem
  obtain ⟨hterminated, hchild, hentries⟩ := hn.complete n hn'
  obtain ⟨process, parent, terminated, childTerminated, entries⟩ := n
  refine ⟨hready, hposts, parent, ?_⟩
  obtain rfl : process = p.inst := by simpa using hprocess
  obtain rfl : terminated = 1 := hterminated
  obtain rfl : childTerminated = 1 := hchild
  obtain rfl : entries = 1 := hentries
  exact hone

/-- Whoever is dead in the state `s` was announced once; and wherever the run goes on to,
unless it was reaped it is in its slot, dead, announced once, and queued nowhere where it
was not queued before. -/
def ZombiesFinal (ok : Kernel → Event → Prop) (s : Kernel) : Prop :=
  ∀ pid p, s.processTable pid = some p → p.state = .ZOMBIE → s.Announced pid p ∧
    ∀ t, Reach step ok s t → ∀ q p', t.processTable q = some p' → p'.inst = p.inst →
      q = pid ∧ p'.state = .ZOMBIE ∧ t.Announced pid p' ∧
        ∀ id, pid ∈ (t.sems id).sem.blockedQueue → pid ∈ (s.sems id).sem.blockedQueue

theorem noticeInv_reach (h : Reach step (fun k e ↦ e.TerminatesOnce k) initializeScheduler s) :
    NoticeInv s :=
  h.invariant ⟨rfl, fun _ hn ↦ absurd hn List.not_mem_nil⟩
    fun _ _ _ hu hok hv ↦ noticeRule.step hu hok.2 hv

/-- **A dead process stays dead**, and its parent is told of its death once, in every run in which
nobody terminates a dead process, no dead process calls a `semWait` that blocks, and there is a
node for the entry of every death. -/
theorem zombies_final
    (h : Reach step (fun k e ↦ e.TerminatesOnce k) initializeScheduler s) :
    ZombiesFinal (fun k e ↦ e.TerminatesOnce k) s := by
  intro pid p hp hstate
  have hinv := zombieInv_reach (h.mono fun _ _ hok ↦ hok.1)
  have hdead : ¬p.Live := fun hlive ↦ hlive hstate
  refine ⟨announced_of_dead hinv (noticeInv_reach h) hp hdead, fun t ht q p' hp' hinst ↦ ?_⟩
  have hstart : Stays pid p.inst s s := by
    refine ⟨hinv.fresh pid p hp, fun q p' hp' hinst ↦ ?_, fun _ _ _ _ hq ↦ hq⟩
    obtain rfl := hinv.unique q pid p' p hp' hp hinst
    obtain rfl := Option.some.inj (hp.symm.trans hp')
    exact ⟨rfl, hdead⟩
  obtain ⟨hinv', hstays⟩ := ht.invariant (I := fun t ↦ ZombieInv t ∧ Stays pid p.inst s t)
    ⟨hinv, hstart⟩ fun _ _ _ hu hok hv ↦ (staysRule pid p.inst s).step hu hok.1 hv
  obtain ⟨rfl, hdead'⟩ := hstays.kept q p' hp' hinst
  exact ⟨rfl, not_not.mp hdead', announced_of_dead hinv' (noticeInv_reach (h.trans ht)) hp' hdead',
    hstays.queues p' hp' hinst⟩

/-- The shell creates a process and kills it. -/
theorem zombies_final_killed : ∃ s : Kernel,
    (s.stateOf 3 = some .ZOMBIE ∧ s.currentProcess = some (2, 2)) ∧
      ZombiesFinal (fun k e ↦ e.TerminatesOnce k) s := by
  let es : List Event := bootEvents ++ [.create, .kill 3 []]
  have hrun : (run step initializeScheduler es).map (fun s ↦
      decide (s.stateOf 3 = some .ZOMBIE ∧ s.currentProcess = some (2, 2))) = some true := by
    decide +kernel
  have hguard : Guarded step (fun k e ↦ e.TerminatesOnce k) initializeScheduler es := by
    decide +kernel
  obtain ⟨s, hrun, hobs⟩ := Option.map_eq_some_iff.mp hrun
  exact ⟨s, of_decide_eq_true hobs, zombies_final (.of_run hrun hguard)⟩

/-- Ctrl+C kills the running process, which then waits for a semaphore before the next
tick: it is blocked, and no longer dead. -/
theorem zombie_blocks : ¬∀ s : Kernel, Reach step (fun _ _ ↦ True) initializeScheduler s →
    ZombiesFinal (fun _ _ ↦ True) s := by
  intro hclaim
  let es : List Event := bootEvents ++ [.foreground 2, .semOpen 0, .ctrlC 2 []]
  have hrun : (run step initializeScheduler es).map (fun s ↦
      ((s.processTable 2).map fun p ↦ (p.inst, p.state),
        ((run step s [.semWait 0]).bind fun t ↦ t.processTable 2).map fun p ↦ (p.inst, p.state))) =
      some (some (2, .ZOMBIE), some (2, .BLOCKED)) := by decide +kernel
  obtain ⟨s, hrun, hobs⟩ := Option.map_eq_some_iff.mp hrun
  obtain ⟨hdead, hblocked⟩ := Prod.mk.inj hobs
  obtain ⟨p, hp, heq⟩ := Option.map_eq_some_iff.mp hdead
  obtain ⟨hinst, hstate⟩ := Prod.mk.inj heq
  obtain ⟨p', hp', heq'⟩ := Option.map_eq_some_iff.mp hblocked
  obtain ⟨hinst', hstate'⟩ := Prod.mk.inj heq'
  obtain ⟨t, ht, hp'⟩ := Option.bind_eq_some_iff.mp hp'
  obtain ⟨-, hfinal⟩ := hclaim s (.of_run hrun (.of_true _ _)) 2 p hp hstate
  obtain ⟨-, hzombie, -⟩ :=
    hfinal t (.of_run ht (.of_true _ _)) 2 p' hp' (hinst'.trans hinst.symm)
  rw [hstate'] at hzombie
  cases hzombie

end BareBones.Process.Kernel
