import BareBones.Process.KernelRule

/-!
# Processes that wait for a semaphore

A process that comes back from a `semWait` in which it was blocked does not look at the
semaphore again: it takes it for granted that a `semPost` has woken it.  The scheduler does
not know what a process is blocked for.  `sys_unblock` wakes a process that waits for a
token as well as any other, a process that is in the ready queue when it blocks is
dispatched without being woken, and so is one in the slot of the idle process; and the
queue of a semaphore holds pids, which may have passed to another process by the time they
are popped.

This module is about the semaphores `W`: all of them, or only some that matter.  As long as
nobody wakes or dispatches a process that waits for one of them before a post does
(`Event.WakesWaiters` and `Event.WaitsAlone`), such a process was woken by a post or is
asleep: `WaitInv`.  If, moreover, no pid is left in their queues when its process blocks
elsewhere (`Event.BlocksUnlisted`), whoever is blocked and in one of these queues waits
there: `ListedInv`.
-/

namespace BareBones.Process

open BareBones.Lib BareBones.Semaphores

theorem ProcessCDT.waitsOn_congr {p p' : ProcessCDT} (hinst : p'.inst = p.inst)
    (hcont : p'.cont = p.cont) : p'.waitsOn = p.waitsOn := by
  unfold ProcessCDT.waitsOn
  rw [hinst, hcont]

namespace Kernel

variable {k s t : Kernel} {e : Event} {pid q cur : Int} {p p' : ProcessCDT} {id : SemId}
  {W : SemId → Prop}

/-! ## Waiting processes -/

/-- The semaphores that exist. -/
def semIds (k : Kernel) : List SemId :=
  (List.range k.nextInst).map .terminated ++ (List.range k.nextInst).map .childTerminated ++
    (List.range k.nextSem).map .user

theorem mem_semIds : id ∈ k.semIds ↔
    match id with
    | .terminated inst | .childTerminated inst => inst < k.nextInst
    | .user n => n < k.nextSem := by
  cases id with
  | terminated inst => simp [semIds]
  | childTerminated inst => simp [semIds]
  | user n => simp [semIds]

theorem semIds_mono (hinst : s.nextInst ≤ t.nextInst) (hsem : s.nextSem ≤ t.nextSem)
    (h : id ∈ s.semIds) : id ∈ t.semIds := by
  rw [mem_semIds] at h ⊢
  cases id with
  | terminated inst => exact Nat.lt_of_lt_of_le h hinst
  | childTerminated inst => exact Nat.lt_of_lt_of_le h hinst
  | user n => exact Nat.lt_of_lt_of_le h hsem

/-- A pid is in the queue of a semaphore among `W`. -/
def Enlisted (W : SemId → Prop) (k : Kernel) (pid : Int) : Prop :=
  ∃ id ∈ k.semIds, W id ∧ pid ∈ (k.sems id).sem.blockedQueue

instance [DecidablePred W] (k : Kernel) (pid : Int) : Decidable (k.Enlisted W pid) :=
  inferInstanceAs (Decidable (∃ _ ∈ _, _))

/-- A post has woken the waiter in a slot. -/
def Woken (k : Kernel) (q : Int) (id : SemId) : Prop :=
  q ∈ (k.sems id).pending ∧ q ∉ (k.sems id).sem.blockedQueue

instance (k : Kernel) (q : Int) (id : SemId) : Decidable (k.Woken q id) :=
  inferInstanceAs (Decidable (_ ∧ _))

/-- The process in a slot does not run and is not going to until a post of the semaphore
`id` wakes it. -/
structure Asleep (k : Kernel) (q : Int) (p : ProcessCDT) (id : SemId) : Prop where
  not_ready : p.state ≠ .READY
  not_running : p.state ≠ .RUNNING
  not_queued : q ∉ k.readyQueue
  not_idle : q ≠ IDLE_PID
  not_current : k.currentProcess ≠ some (q, p.inst)
  only : ∀ j, q ∈ (k.sems j).sem.blockedQueue → j = id

/-- If the process in a slot is inside a `semWait` of a semaphore among `W`, it was woken or
is asleep. -/
def Placed (W : SemId → Prop) (k : Kernel) (q : Int) (p : ProcessCDT) : Prop :=
  ∀ id, W id → p.waitsOn = some id → k.Woken q id ∨ k.Asleep q p id

/-- The invariant of those who wait for a semaphore among `W`. -/
structure WaitInv (W : SemId → Prop) (k : Kernel) : Prop where
  enabled : k.currentProcess ≠ none → k.schedulerEnabled = true
  fresh : ∀ q p, k.processTable q = some p → p.inst < k.nextInst
  exist : ∀ id q, q ∈ (k.sems id).sem.blockedQueue ∨ q ∈ (k.sems id).pending → id ∈ k.semIds
  nodup : ∀ id, W id → (k.sems id).sem.blockedQueue.Nodup
  placed : ∀ q p, k.processTable q = some p → k.Placed W q p

namespace WaitInv

/-- The running process was woken if it is inside a `semWait`. -/
theorem woken_current (h : WaitInv W s) (hcur : s.current = some (cur, p)) (hW : W id)
    (hid : p.waitsOn = some id) : s.Woken cur id := by
  obtain ⟨hcurrent, hp⟩ := current_eq_some.mp hcur
  rcases h.placed cur p hp id hW hid with hwoken | hasleep
  · exact hwoken
  · exact absurd hcurrent hasleep.not_current

theorem notMem_queue (h : WaitInv W s) {V : SemId → Prop} (hpid : ¬s.Enlisted V pid) (hid : V id) :
    pid ∉ (s.sems id).sem.blockedQueue :=
  fun hmem ↦ hpid ⟨id, h.exist id pid (.inl hmem), hid, hmem⟩

/-- The semaphores stay as they are, and whoever is in the table has its place there. -/
theorem seats (h : WaitInv W s) (hsems : t.sems = s.sems) (hinst : s.nextInst ≤ t.nextInst)
    (hsem : s.nextSem ≤ t.nextSem)
    (henabled : t.currentProcess ≠ none → t.schedulerEnabled = true)
    (hplaced : ∀ q p, t.processTable q = some p → p.inst < t.nextInst ∧ t.Placed W q p) :
    WaitInv W t where
  enabled := henabled
  fresh q p hp := (hplaced q p hp).1
  exist id q hq := by
    rw [hsems] at hq
    exact semIds_mono hinst hsem (h.exist id q hq)
  nodup id hid := by
    rw [hsems]
    exact h.nodup id hid
  placed q p hp := (hplaced q p hp).2

/-- A process keeps its place if neither it nor the semaphores change, it does not join the
ready queue and it does not become the running one. -/
theorem keeps (h : WaitInv W s) (hp : s.processTable q = some p) (hinst : p'.inst = p.inst)
    (hcont : p'.cont = p.cont) (hstate : p'.state = p.state) (hsems : t.sems = s.sems)
    (hready : q ∈ t.readyQueue → q ∈ s.readyQueue)
    (hcur : t.currentProcess = some (q, p.inst) → s.currentProcess = some (q, p.inst)) :
    t.Placed W q p' := by
  intro id hW hid
  rw [ProcessCDT.waitsOn_congr hinst hcont] at hid
  rcases h.placed q p hp id hW hid with hwoken | hasleep
  · left
    unfold Woken
    rwa [hsems]
  · right
    refine ⟨?_, ?_, fun hq ↦ hasleep.not_queued (hready hq), hasleep.not_idle, fun heq ↦ ?_,
      fun j hj ↦ hasleep.only j (hsems ▸ hj)⟩
    · rw [hstate]
      exact hasleep.not_ready
    · rw [hstate]
      exact hasleep.not_running
    · rw [hinst] at heq
      exact hasleep.not_current (hcur heq)

theorem frame (h : WaitInv W s) (hsame : SameCore s t) : WaitInv W t := by
  refine h.seats hsame.sems (Nat.le_of_eq hsame.nextInst.symm) (Nat.le_of_eq hsame.nextSem.symm)
    (fun hcur ↦ ?_) fun q p' hp' ↦ ?_
  · rw [hsame.currentProcess] at hcur
    exact hsame.enabled (h.enabled hcur)
  · obtain ⟨p, hp, hinst, hstate, hcont⟩ := hsame.eq_some hp'
    refine ⟨?_, h.keeps hp hinst.symm hcont.symm hstate.symm hsame.sems ?_ ?_⟩
    · rw [← hinst, hsame.nextInst]
      exact h.fresh q p hp
    · rw [hsame.readyQueue]
      exact fun hq ↦ hq
    · rw [hsame.currentProcess]
      exact fun hcur ↦ hcur

/-- What is not in the core does not matter. -/
theorem congr (h : WaitInv W s) (htable : t.processTable = s.processTable)
    (hready : t.readyQueue = s.readyQueue) (hcur : t.currentProcess = s.currentProcess)
    (henabled : t.schedulerEnabled = s.schedulerEnabled) (hsems : t.sems = s.sems)
    (hinst : s.nextInst = t.nextInst) (hsem : s.nextSem ≤ t.nextSem) : WaitInv W t := by
  refine h.seats hsems (Nat.le_of_eq hinst) hsem (fun hne ↦ ?_) fun q p hp ↦ ?_
  · rw [henabled]
    exact h.enabled (hcur ▸ hne)
  · rw [htable] at hp
    refine ⟨hinst ▸ h.fresh q p hp, h.keeps hp rfl rfl rfl hsems ?_ ?_⟩
    · rw [hready]
      exact fun hq ↦ hq
    · rw [hcur]
      exact fun heq ↦ heq

/-- One process changes, and others do not join the ready queue. -/
theorem change (h : WaitInv W s) (pid : Int) (f : ProcessCDT → ProcessCDT) (queue : List Int)
    (hinst : ∀ p, (f p).inst = p.inst) (hqueue : ∀ q ∈ queue, q ≠ pid → q ∈ s.readyQueue)
    (hplaced : ∀ p, s.processTable pid = some p →
      ({ s.modify pid f with readyQueue := queue } : Kernel).Placed W pid (f p)) :
    WaitInv W { s.modify pid f with readyQueue := queue } := by
  refine h.seats rfl (Nat.le_refl _) (Nat.le_refl _) h.enabled fun q p' hp' ↦ ?_
  obtain ⟨p, hp, rfl⟩ := modify_eq_some.mp hp'
  by_cases hq : q = pid
  · subst hq
    rw [if_pos rfl, hinst]
    exact ⟨h.fresh q p hp, hplaced p hp⟩
  · rw [if_neg hq]
    exact ⟨h.fresh q p hp, h.keeps hp rfl rfl rfl rfl (fun hmem ↦ hqueue q hmem hq) fun hcur ↦ hcur⟩

/-! ### Semaphores -/

/-- A semaphore changes: it keeps the pids that it has woken, as long as their processes wait
for it, and whoever joins its queue waits for no other semaphore. -/
theorem setSem (h : WaitInv W s) {r : SemRec} (hnodup : W id → r.sem.blockedQueue.Nodup)
    (hqueue : ∀ q ∈ r.sem.blockedQueue, q ∈ (s.sems id).sem.blockedQueue ∨
      id ∈ s.semIds ∧ ∀ p, s.processTable q = some p → ∀ j, W j → p.waitsOn = some j →
        j = id ∧ s.Asleep q p id)
    (hpending : ∀ q ∈ r.pending, id ∈ s.semIds)
    (hwoken : W id → ∀ q p, s.processTable q = some p → p.waitsOn = some id →
      q ∈ (s.sems id).pending → q ∈ r.pending) : WaitInv W (s.setSem id r) where
  enabled := h.enabled
  fresh := h.fresh
  exist j q hq := by
    by_cases hj : j = id
    · subst hj
      rw [setSem_self] at hq
      rcases hq with hq | hq
      · rcases hqueue q hq with hold | ⟨hid, -⟩
        · exact h.exist j q (.inl hold)
        · exact hid
      · exact hpending q hq
    · rw [setSem_other _ _ _ hj] at hq
      exact h.exist j q hq
  nodup j hW := by
    by_cases hj : j = id
    · subst hj
      rw [setSem_self]
      exact hnodup hW
    · rw [setSem_other _ _ _ hj]
      exact h.nodup j hW
  placed q p hp j hW hwaits := by
    -- a process that sleeps for another semaphore does not join this one
    have hasleep : s.Asleep q p j → (s.setSem id r).Asleep q p j := fun hasleep ↦ by
      refine ⟨hasleep.1, hasleep.2, hasleep.3, hasleep.4, hasleep.5, fun j' hq ↦ ?_⟩
      by_cases hj : j' = id
      · subst hj
        rw [setSem_self] at hq
        rcases hqueue q hq with hold | ⟨-, hjoins⟩
        · exact hasleep.only j' hold
        · exact (hjoins p hp j hW hwaits).1.symm
      · rw [setSem_other _ _ _ hj] at hq
        exact hasleep.only j' hq
    rcases h.placed q p hp j hW hwaits with ⟨hmem, hnot⟩ | hsleeps
    · by_cases hj : j = id
      · subst hj
        by_cases hq : q ∈ r.sem.blockedQueue
        · rcases hqueue q hq with hold | ⟨-, hjoins⟩
          · exact absurd hold hnot
          · exact .inr (hasleep (hjoins p hp j hW hwaits).2)
        · refine .inl ⟨?_, ?_⟩
          · rw [setSem_self]
            exact hwoken hW q p hp hwaits hmem
          · rwa [setSem_self]
      · left
        unfold Woken
        rw [setSem_other _ _ _ hj]
        exact ⟨hmem, hnot⟩
    · exact .inr (hasleep hsleeps)

theorem take (h : WaitInv W s) (id : SemId) : WaitInv W (s.take id) :=
  h.setSem (h.nodup id) (fun _ hq ↦ .inl hq) (fun q hq ↦ h.exist id q (.inr hq))
    fun _ _ _ _ _ hq ↦ hq

/-- A post drops pids from the queue, and maybe takes the first one left off it. -/
theorem posted (h : WaitInv W s) {dead rest : List Int} (woken : Option (Int × ProcessCDT))
    (hqueue : (s.sems id).sem.blockedQueue = dead ++ (woken.map Prod.fst).toList ++ rest)
    (value : Int) : WaitInv W (s.posted id value rest woken) := by
  have hset : WaitInv W (s.setSem id { s.sems id with
      sem := ⟨value, rest⟩
      posts := (s.sems id).posts + 1
      grants := (s.sems id).grants + woken.toList.length
      pending := (s.sems id).pending ++ (woken.map Prod.fst).toList }) := by
    refine h.setSem (fun hW ↦ ?_) (fun q hq ↦ .inl ?_) (fun q hq ↦ ?_) fun _ q p _ _ hq ↦ ?_
    · have hnodup := h.nodup id hW
      rw [hqueue] at hnodup
      exact hnodup.sublist (List.sublist_append_right _ _)
    · rw [hqueue]
      exact List.mem_append_right _ hq
    · rcases List.mem_append.mp hq with hq | hq
      · exact h.exist id q (.inr hq)
      · refine h.exist id q (.inl ?_)
        rw [hqueue]
        exact List.mem_append_left _ (List.mem_append_right _ hq)
    · exact List.mem_append_left _ hq
  exact hset.congr rfl rfl rfl rfl rfl rfl (Nat.le_refl _)

/-- A process that is woken is not inside a `semWait` that no post has woken it from. -/
theorem wake (h : WaitInv W s) (hwoken : ∀ p id, s.processTable pid = some p → W id →
    p.waitsOn = some id → s.Woken pid id) : WaitInv W (s.wake pid) := by
  refine h.change pid _ _ (fun _ ↦ rfl) (fun q hq hne ↦ ?_) fun p hp id hW hid ↦
    .inl (hwoken p id hp hW hid)
  simp only [enqueueReady, enqueue] at hq
  split at hq
  · exact (List.mem_append.mp hq).resolve_right fun hq ↦ hne (List.mem_singleton.mp hq)
  · exact hq

theorem post (h : WaitInv W s) (id : SemId) : WaitInv W (s.post id) := by
  rcases post_cases s id with ⟨dead, rest, hqueue, -, -, hpost⟩ |
    ⟨dead, pid, rest, p, hqueue, -, -, hp, hblocked, -, hpost⟩
  · rw [hpost]
    exact h.posted none (by simpa using hqueue) _
  · rw [hpost]
    refine (h.posted (some (pid, p)) (by simpa using hqueue) _).wake fun p' j hp' hW hj ↦ ?_
    rcases h.placed pid p' hp' j hW hj with ⟨hmem, hnot⟩ | hasleep
    · by_cases hid : j = id
      · subst hid
        refine absurd ?_ hnot
        rw [hqueue]
        simp
      · unfold Woken
        rw [posted_other _ _ _ _ _ hid]
        exact ⟨hmem, hnot⟩
    · obtain rfl := hasleep.only id (by rw [hqueue]; simp)
      -- the queue had the pid once
      have hnodup := h.nodup id hW
      rw [hqueue, List.nodup_append] at hnodup
      refine ⟨?_, ?_⟩
      · rw [posted_self]
        simp
      · rw [posted_self]
        exact (List.nodup_cons.mp hnodup.2.1).1

theorem semOpen (h : WaitInv W s) (value : Int) :
    WaitInv W { s.setSem (.user s.nextSem) (.new value) with nextSem := s.nextSem + 1 } := by
  have hset : WaitInv W (s.setSem (.user s.nextSem) (.new value)) := by
    refine h.setSem (fun _ ↦ List.nodup_nil) (fun q hq ↦ ?_) (fun q hq ↦ ?_) fun _ q p _ _ hq ↦ ?_
    · cases hq
    · cases hq
    · exact absurd (mem_semIds.mp (h.exist _ q (.inr hq))) (Nat.lt_irrefl _)
  exact hset.congr rfl rfl rfl rfl rfl rfl (Nat.le_succ _)

/-! ### Processes -/

/-- A process moves on to a place where it does not wait. -/
theorem setCont (h : WaitInv W s) {c : Cont}
    (hc : ∀ p : ProcessCDT, ({ p with cont := c } : ProcessCDT).waitsOn = none) (cur : Int) :
    WaitInv W (s.setCont cur c) := by
  refine h.change cur (fun p ↦ { p with cont := c }) s.readyQueue
    (fun _ ↦ rfl) (fun q hq _ ↦ hq) fun p' _ id _ hid ↦ ?_
  cases (hc p').symm.trans hid

/-- A process returns from its `semWait`. -/
theorem returned (h : WaitInv W s) {c : Cont}
    (hc : ∀ p : ProcessCDT, ({ p with cont := c } : ProcessCDT).waitsOn = none) (id : SemId)
    (cur : Int) : WaitInv W ((s.returnFrom id cur).setCont cur c) := by
  have hmoved : WaitInv W (s.setCont cur c) := h.setCont hc cur
  refine hmoved.setSem (h.nodup id) (fun q hq ↦ .inl hq)
    (fun q hq ↦ h.exist id q (.inr (List.mem_of_mem_erase hq))) fun _ q p' hp' hwaits hq ↦ ?_
  have hne : q ≠ cur := by
    rintro rfl
    obtain ⟨p₀, -, rfl⟩ := modify_eq_some.mp hp'
    rw [if_pos rfl] at hwaits
    cases (hc p₀).symm.trans hwaits
  exact (List.mem_erase_of_ne hne).mpr hq

/-- The process that is dispatched was in the ready queue, or it is the idle process. -/
theorem dispatched (h : WaitInv W s) (hon : s.schedulerEnabled = true) {next : Int}
    {rest : List Int} (hp : s.processTable next = some p)
    (hnext : s.readyQueue = next :: rest ∨ s.readyQueue = [] ∧ next = IDLE_PID ∧ rest = []) :
    WaitInv W (s.dispatched next p.inst rest) := by
  have hsub : ∀ q ∈ rest, q ∈ s.readyQueue := by
    rcases hnext with hqueue | ⟨-, -, rfl⟩
    · rw [hqueue]
      exact fun q hq ↦ List.mem_cons_of_mem _ hq
    · exact fun q hq ↦ absurd hq List.not_mem_nil
  refine h.seats rfl (Nat.le_refl _) (Nat.le_refl _) (fun _ ↦ hon) fun q p' hp' ↦ ?_
  obtain ⟨p₀, hp₀, rfl⟩ := modify_eq_some.mp hp'
  by_cases hq : q = next
  · subst hq
    rw [if_pos rfl]
    refine ⟨h.fresh q p₀ hp₀, fun id hW hid ↦ .inl ?_⟩
    rcases h.placed q p₀ hp₀ id hW hid with hwoken | hasleep
    · exact hwoken
    · rcases hnext with hqueue | ⟨-, hidle, -⟩
      · exact absurd (by rw [hqueue]; exact List.mem_cons_self) hasleep.not_queued
      · exact absurd hidle hasleep.not_idle
  · rw [if_neg hq]
    refine ⟨h.fresh q p₀ hp₀, h.keeps hp₀ rfl rfl rfl rfl (hsub q) fun hcur ↦ ?_⟩
    obtain ⟨heq, -⟩ := Prod.mk.inj (Option.some.inj hcur)
    exact absurd heq.symm hq

theorem dispatch (h : WaitInv W s) (hon : s.schedulerEnabled = true) (ht : s.dispatch = some t) :
    WaitInv W t := by
  obtain ⟨next, p, rest, hnext, hp, rfl⟩ := dispatch_cases ht
  exact h.dispatched hon hp hnext

/-- The running process blocks, and another one is dispatched: in between, nobody runs. -/
theorem block (h : WaitInv W s) {c : Cont} (hcur : s.current = some (cur, p))
    (hid : id ∈ s.semIds) (hc : ({ p with cont := c } : ProcessCDT).waitsOn = some id)
    (halone : W id → ¬s.Enlisted (fun _ ↦ True) cur ∧ cur ∉ s.readyQueue ∧ cur ≠ IDLE_PID)
    (ht : (s.blockOn id cur c).schedule = some t) : WaitInv W t := by
  obtain ⟨hcurrent, hp⟩ := current_eq_some.mp hcur
  have hon : s.schedulerEnabled = true := h.enabled (by simp [hcurrent])
  have hnowhere : W id → ∀ j, cur ∉ (s.sems j).sem.blockedQueue := fun hW j ↦
    h.notMem_queue (halone hW).1 trivial
  let u : Kernel := { s.modify cur fun p ↦ { p with state := .BLOCKED, cont := c } with
    currentProcess := none }
  have hself : ∀ p', u.processTable cur = some p' → p'.state = .BLOCKED ∧ p'.waitsOn = some id := by
    intro p' hp'
    obtain ⟨p₀, hp₀, rfl⟩ := modify_eq_some.mp hp'
    obtain rfl := Option.some.inj (hp.symm.trans hp₀)
    rw [if_pos rfl]
    exact ⟨rfl, hc⟩
  have hasleep : ∀ p', u.processTable cur = some p' → W id → u.Asleep cur p' id := by
    intro p' hp' hW
    obtain ⟨hblocked, -⟩ := hself p' hp'
    obtain ⟨-, hready, hidle⟩ := halone hW
    exact ⟨by simp [hblocked], by simp [hblocked], hready, hidle, by simp [u],
      fun j hj ↦ absurd hj (hnowhere hW j)⟩
  have hblocked : WaitInv W u := by
    refine h.seats rfl (Nat.le_refl _) (Nat.le_refl _) (fun hne ↦ absurd rfl hne) fun q p' hp' ↦ ?_
    obtain ⟨p₀, hp₀, heq⟩ := modify_eq_some.mp hp'
    by_cases hq : q = cur
    · subst hq
      refine ⟨?_, fun j hW hj ↦ .inr ?_⟩
      · rw [heq, if_pos rfl]
        exact h.fresh q p₀ hp₀
      · obtain rfl := Option.some.inj ((hself p' hp').2.symm.trans hj)
        exact hasleep p' hp' hW
    · rw [if_neg hq] at heq
      subst heq
      refine ⟨h.fresh q p' hp₀, h.keeps hp₀ rfl rfl rfl rfl (fun hq ↦ hq) fun hcur ↦ ?_⟩
      cases hcur
  have hqueued : WaitInv W (u.setSem id { s.sems id with
      sem := ⟨(s.sems id).sem.value - 1,
        s.enqueue .blockedQueue (s.sems id).sem.blockedQueue cur⟩ }) := by
    refine hblocked.setSem (fun hW ↦ ?_) (fun q hq ↦ ?_) (fun q hq ↦ h.exist id q (.inr hq))
      fun _ _ _ _ _ hq ↦ hq
    · unfold enqueue
      split
      · refine List.nodup_append.mpr ⟨h.nodup id hW, List.nodup_singleton _,
          fun q hq q' hq' heq ↦ ?_⟩
        rw [List.mem_singleton.mp hq'] at heq
        exact hnowhere hW id (heq ▸ hq)
      · exact h.nodup id hW
    · unfold enqueue at hq
      split at hq
      · rcases List.mem_append.mp hq with hq | hq
        · exact .inl hq
        · rw [List.mem_singleton.mp hq]
          refine .inr ⟨hid, fun p' hp' j hW hj ↦ ?_⟩
          obtain rfl := Option.some.inj ((hself p' hp').2.symm.trans hj)
          exact ⟨rfl, hasleep p' hp' hW⟩
      · exact .inl hq
  -- the scheduler finds the running process blocked
  have hstopped : ∀ cur' p', (s.blockOn id cur c).current = some (cur', p') →
    p'.state ≠ .RUNNING := by
    intro cur' p' hcur'
    obtain ⟨hcurrent', hp'⟩ := current_eq_some.mp hcur'
    obtain ⟨rfl, -⟩ := Prod.mk.inj (Option.some.inj (hcurrent.symm.trans hcurrent'))
    simp [(hself p' hp').1]
  rcases schedule_cases ht with ⟨hoff, -⟩ | ⟨-, ⟨cur', p', hcur', hrun, -⟩ |
    ⟨cur', p', hcur', hrun, -⟩ | ⟨-, hdispatch⟩⟩
  · cases hon.symm.trans hoff
  · exact absurd hrun (hstopped cur' p' hcur')
  · exact absurd hrun (hstopped cur' p' hcur')
  · obtain ⟨next, p', rest, hnext, hp', rfl⟩ := dispatch_cases hdispatch
    exact hqueued.dispatched hon hp' hnext

theorem setBlocked (h : WaitInv W s) (hp : s.processTable pid = some p)
    (hst : p.state ≠ .BLOCKED ∧ p.state ≠ .ZOMBIE) {queue : List Int}
    (hqueue : ∀ q ∈ queue, q ∈ s.readyQueue) :
    WaitInv W { s.setState pid .BLOCKED with readyQueue := queue } := by
  refine h.change _ _ _ (fun _ ↦ rfl) (fun q hq _ ↦ hqueue q hq) fun p' hp' id hW hid ↦ .inl ?_
  obtain rfl := Option.some.inj (hp.symm.trans hp')
  rcases h.placed pid p hp id hW hid with hwoken | hasleep
  · exact hwoken
  · -- a process that sleeps is blocked or dead already
    cases hstate : p.state with
    | READY => exact absurd hstate hasleep.not_ready
    | RUNNING => exact absurd hstate hasleep.not_running
    | BLOCKED => exact absurd hstate hst.1
    | ZOMBIE => exact absurd hstate hst.2

theorem zombify (h : WaitInv W s) (pid : Int) (inst parent : Nat) :
    WaitInv W (s.zombify pid inst parent) := by
  have hdead : WaitInv W { s.setState pid .ZOMBIE with
      readyQueue := s.readyQueue.filter (· ≠ pid) } := by
    refine h.change _ _ _ (fun _ ↦ rfl) (fun q hq _ ↦ List.mem_of_mem_filter hq)
      fun p hp id hW hid ↦ ?_
    refine (h.placed pid p hp id hW hid).imp_right fun hasleep ↦ ?_
    exact ⟨by simp, by simp, fun hq ↦ hasleep.not_queued (List.mem_of_mem_filter hq),
      hasleep.not_idle, hasleep.not_current, hasleep.only⟩
  exact hdead.congr rfl rfl rfl rfl rfl rfl (Nat.le_refl _)

theorem free (h : WaitInv W s) (pid : Int) (p : ProcessCDT) (expected : Option Nat) :
    WaitInv W (s.freed pid p expected) := by
  refine h.seats rfl (Nat.le_refl _) (Nat.le_refl _) h.enabled fun q p' hp' ↦ ?_
  simp only [freed] at hp'
  split at hp'
  · cases hp'
  · exact ⟨h.fresh q p' hp', h.keeps hp' rfl rfl rfl rfl (fun hq ↦ hq) fun hcur ↦ hcur⟩

theorem start (h : WaitInv W s) (pid ppid : Int) : WaitInv W (s.started 1 pid ppid) := by
  refine h.seats rfl (Nat.le_succ _) (Nat.le_refl _) h.enabled fun q p' hp' ↦ ?_
  simp only [started, enqueueReady] at hp'
  split at hp'
  · rw [← Option.some.inj hp']
    refine ⟨Nat.lt_succ_self _, fun id _ hid ↦ ?_⟩
    cases hid
  next hq =>
      refine ⟨Nat.lt_succ_of_lt (h.fresh q p' hp'), h.keeps hp' rfl rfl rfl rfl (fun hmem ↦ ?_)
        fun hcur ↦ hcur⟩
      simp only [started, enqueueReady, enqueue] at hmem
      split at hmem
      · exact (List.mem_append.mp hmem).resolve_right fun heq ↦ hq (List.mem_singleton.mp heq)
      · exact hmem

end WaitInv

/-! ## Waking -/

/-- Nobody unblocks a process inside a `semWait` of `W` before a post has woken it. -/
def Event.WakesWaiters (W : SemId → Prop) (k : Kernel) (e : Event) : Prop :=
  ∀ pid ∈ e.unblocks, ∀ p ∈ k.processTable pid, p.state = .BLOCKED →
    ∀ id ∈ p.waitsOn, W id → k.Woken pid id

/-- Whoever blocks in a `semWait` of `W` is in the queue of no semaphore under its pid, nor
in the ready queue, nor in the slot of the idle process. -/
def Event.WaitsAlone (W : SemId → Prop) (k : Kernel) (e : Event) : Prop :=
  ∀ id ∈ e.waitsFor k, W id → (k.sems id).sem.value ≤ 0 → ∀ c ∈ k.current,
    ¬k.Enlisted (fun _ ↦ True) c.1 ∧ c.1 ∉ k.readyQueue ∧ c.1 ≠ IDLE_PID

instance [DecidablePred W] (k : Kernel) (e : Event) : Decidable (e.WakesWaiters W k) :=
  inferInstanceAs (Decidable (∀ _ ∈ _, _))

instance [DecidablePred W] (k : Kernel) (e : Event) : Decidable (e.WaitsAlone W k) :=
  inferInstanceAs (Decidable (∀ _ ∈ _, _))

theorem Event.Waits.mem_semIds {c : Cont} (h : e.Waits k id c)
    (hfresh : ∀ q p, k.processTable q = some p → p.inst < k.nextInst) : id ∈ k.semIds := by
  cases h with
  | semWait n hn => exact Kernel.mem_semIds.mpr hn
  | waitPid hp _ _ => exact Kernel.mem_semIds.mpr (hfresh _ _ hp)
  | waitAny hcur => exact Kernel.mem_semIds.mpr (hfresh _ _ (current_eq_some.mp hcur).2)

/-- Whoever blocks in the event waits for the semaphore. -/
theorem Event.Waits.waitsOn {c : Cont} (h : e.Waits k id c) (hcur : k.current = some (cur, p)) :
    ({ p with cont := c } : ProcessCDT).waitsOn = some id := by
  cases h with
  | semWait n hn => rfl
  | waitPid hp _ _ => rfl
  | waitAny hcur' =>
      obtain ⟨-, rfl⟩ := Prod.mk.inj (Option.some.inj (hcur.symm.trans hcur'))
      rfl

/-- Every update keeps the waiters in their places. -/
theorem waitRule (W : SemId → Prop) :
    CoreRule (fun k e ↦ e.WakesWaiters W k ∧ e.WaitsAlone W k) (WaitInv W) where
  frame := WaitInv.frame
  post id h _ := h.post id
  take id h _ := h.take id
  semOpen value h := h.semOpen value
  heap _ h _ := h.congr rfl rfl rfl rfl rfl rfl (Nat.le_refl _)
  setBlocked h _ _ hp ht := by
    rcases ht with ⟨hst, rfl⟩ | ⟨hst, rfl⟩
    · exact h.setBlocked hp (by simp [hst]) fun _ hq ↦ hq
    · exact h.setBlocked hp (by simp [hst]) fun _ hq ↦ List.mem_of_mem_filter hq
  unblock h hok _ hp hblocked := by
    refine h.wake fun p' id hp' hW hid ↦ ?_
    obtain rfl := Option.some.inj (hp.symm.trans hp')
    exact hok.1 _ rfl _ hp hblocked id hid hW
  exit h _ _ _ := h.setCont (fun _ ↦ rfl) _
  waited h _ _ _ _ := h.setCont (fun _ ↦ rfl) _
  polled h _ _ _ := h.setCont (fun _ ↦ rfl) _
  returned h _ _ _ hc := by
    rcases hc with rfl | ⟨-, rfl⟩
    · exact h.returned (fun _ ↦ rfl) _ _
    · exact h.returned (fun _ ↦ rfl) _ _
  block h hok hwaits hcur _ _ hle ht :=
    h.block hcur (hwaits.mem_semIds h.fresh) (hwaits.waitsOn hcur)
      (fun hW ↦ hok.2 _ hwaits.waitsFor hW hle _ hcur) ht
  preempt h hcur _ := by
    refine h.wake fun p' id hp' hW hid ↦ ?_
    obtain rfl := Option.some.inj ((current_eq_some.mp hcur).2.symm.trans hp')
    exact h.woken_current hcur hW hid
  dispatch h hon _ ht := h.dispatch hon ht
  zombify h _ _ _ _ _ _ _ := (h.zombify _ _ _).post _
  free h _ _ _ := h.free _ _ _
  start h _ _ _ := h.start _ _

theorem waitInv_init (W : SemId → Prop) : WaitInv W initializeScheduler where
  enabled hcur := absurd rfl hcur
  fresh q p hp := by
    rcases init_eq_some hp with ⟨-, rfl⟩ | ⟨-, rfl⟩ <;> decide
  exist id q hq := by
    rw [init_sems] at hq
    rcases hq with hq | hq <;> cases hq
  nodup id _ := List.nodup_nil
  placed q p hp id _ hid := by
    rcases init_eq_some hp with ⟨-, rfl⟩ | ⟨-, rfl⟩ <;> cases hid

/-! ## Queues -/

/-- Whoever is blocked and in the queue of a semaphore among `W` waits there. -/
def ListedInv (W : SemId → Prop) (k : Kernel) : Prop :=
  ∀ id, W id → ∀ q p, q ∈ (k.sems id).sem.blockedQueue → k.processTable q = some p →
    p.state = .BLOCKED → p.waitsOn = some id

namespace ListedInv

/-- The queues do not grow, and nobody becomes blocked. -/
theorem update (h : ListedInv W s)
    (hqueue : ∀ id q, q ∈ (t.sems id).sem.blockedQueue → q ∈ (s.sems id).sem.blockedQueue)
    (htable : ∀ q p', t.processTable q = some p' → p'.state = .BLOCKED →
      ∃ p, s.processTable q = some p ∧ p.state = .BLOCKED ∧ p'.waitsOn = p.waitsOn) :
    ListedInv W t := by
  intro id hW q p' hq hp' hblocked
  obtain ⟨p, hp, hst, hwaits⟩ := htable q p' hp' hblocked
  rw [hwaits]
  exact h id hW q p (hqueue id q hq) hp hst

theorem setSem (h : ListedInv W s) {r : SemRec}
    (hr : ∀ q ∈ r.sem.blockedQueue, q ∈ (s.sems id).sem.blockedQueue) :
    ListedInv W (s.setSem id r) := by
  refine h.update (fun j q hq ↦ ?_) fun q p hp hst ↦ ⟨p, hp, hst, rfl⟩
  by_cases hj : j = id
  · subst hj
    rw [setSem_self] at hq
    exact hr q hq
  · rwa [setSem_other _ _ _ hj] at hq

/-- One process changes and is not blocked afterwards. -/
theorem modify (h : ListedInv W s) {f : ProcessCDT → ProcessCDT}
    (hf : ∀ p, (f p).state = .BLOCKED → p.state = .BLOCKED ∧ (f p).waitsOn = p.waitsOn)
    (pid : Int) : ListedInv W (s.modify pid f) := by
  refine h.update (fun _ _ hq ↦ hq) fun q p' hp' hst ↦ ?_
  obtain ⟨p, hp, rfl⟩ := modify_eq_some.mp hp'
  by_cases hq : q = pid
  · rw [if_pos hq] at hst ⊢
    exact ⟨p, hp, hf p hst⟩
  · rw [if_neg hq] at hst ⊢
    exact ⟨p, hp, hst, rfl⟩

theorem congr (h : ListedInv W s) (hsems : t.sems = s.sems)
    (htable : t.processTable = s.processTable) : ListedInv W t := by
  refine h.update (fun id q hq ↦ ?_) fun q p hp hst ↦ ⟨p, ?_, hst, rfl⟩
  · rwa [hsems] at hq
  · rwa [htable] at hp

theorem frame (h : ListedInv W s) (hsame : SameCore s t) : ListedInv W t := by
  refine h.update (fun id q hq ↦ ?_) fun q p' hp' hst ↦ ?_
  · rwa [hsame.sems] at hq
  · obtain ⟨p, hp, hinst, hstate, hcont⟩ := hsame.eq_some hp'
    exact ⟨p, hp, hstate.trans hst, ProcessCDT.waitsOn_congr hinst.symm hcont.symm⟩

theorem wake (h : ListedInv W s) (pid : Int) : ListedInv W (s.wake pid) := by
  refine (h.modify (f := fun p ↦ { p with state := .READY }) (fun p hst ↦ ?_) pid).congr rfl rfl
  cases hst

theorem post (h : ListedInv W s) (id : SemId) : ListedInv W (s.post id) := by
  refine h.update (fun j q hq ↦ post_queue hq) fun q p' hp' hst ↦ ?_
  obtain ⟨p, hp, rfl | ⟨-, rfl⟩⟩ := post_table hp'
  · exact ⟨p', hp, hst, rfl⟩
  · cases hst

theorem semOpen (h : ListedInv W s) (value : Int) :
    ListedInv W { s.setSem (.user s.nextSem) (.new value) with nextSem := s.nextSem + 1 } := by
  refine ListedInv.congr ?_ rfl rfl (s := s.setSem (.user s.nextSem) (.new value))
  exact h.setSem fun q hq ↦ absurd hq List.not_mem_nil

/-- A process that waits nowhere moves on to a place where it does not wait. -/
theorem setCont (h : ListedInv W s) {c : Cont} (hp : s.processTable cur = some p)
    (hfree : ∀ id, W id → p.waitsOn = some id → cur ∉ (s.sems id).sem.blockedQueue) :
    ListedInv W (s.setCont cur c) := by
  intro id hW q p' hq hp' hst
  obtain ⟨p₀, hp₀, rfl⟩ := modify_eq_some.mp hp'
  by_cases heq : q = cur
  · subst heq
    obtain rfl := Option.some.inj (hp.symm.trans hp₀)
    rw [if_pos rfl] at hst
    exact absurd hq (hfree id hW (h id hW q p hq hp hst))
  · rw [if_neg heq] at hst ⊢
    exact h id hW q p₀ hq hp₀ hst

theorem dispatch (h : ListedInv W s) (ht : s.dispatch = some t) : ListedInv W t := by
  obtain ⟨next, p, rest, -, hp, rfl⟩ := dispatch_cases ht
  refine (h.modify (f := fun p ↦ { p with
    state := .RUNNING, remainingQuantums := p.priorityLevel - 1 }) (fun p hst ↦ ?_) next).congr
      rfl rfl
  cases hst

theorem schedule (h : ListedInv W s) (ht : s.schedule = some t) : ListedInv W t :=
  CoreRule.schedule_induction id frame (fun h _ _ ↦ h.wake _) (fun h _ _ ht ↦ h.dispatch ht) h ht

/-- A process that is in no queue of `W` becomes blocked. -/
theorem setBlocked (h : ListedInv W s) (hfree : ∀ id, W id → pid ∉ (s.sems id).sem.blockedQueue) :
    ListedInv W (s.setState pid .BLOCKED) := by
  intro id hW q p' hq hp' hst
  obtain ⟨p₀, hp₀, rfl⟩ := modify_eq_some.mp hp'
  by_cases heq : q = pid
  · subst heq
    exact absurd hq (hfree id hW)
  · rw [if_neg heq] at hst ⊢
    exact h id hW q p₀ hq hp₀ hst

theorem blockOn (h : ListedInv W s) {c : Cont} (hp : s.processTable cur = some p)
    (hc : ({ p with cont := c } : ProcessCDT).waitsOn = some id)
    (hfree : ∀ j, W j → cur ∉ (s.sems j).sem.blockedQueue) :
    ListedInv W (s.blockOn id cur c) := by
  intro j hW q p' hq hp' hst
  have hmem : q ∈ (s.sems j).sem.blockedQueue ∨ q = cur ∧ j = id := by
    by_cases hj : j = id
    · subst hj
      simp only [Kernel.blockOn, setSem_self, enqueue] at hq
      split at hq
      · rcases List.mem_append.mp hq with hq | hq
        · exact .inl hq
        · exact .inr ⟨List.mem_singleton.mp hq, rfl⟩
      · exact .inl hq
    · rw [Kernel.blockOn, setSem_other _ _ _ hj] at hq
      exact .inl hq
  obtain ⟨p₀, hp₀, rfl⟩ := modify_eq_some.mp hp'
  by_cases heq : q = cur
  · subst heq
    obtain rfl := Option.some.inj (hp.symm.trans hp₀)
    rw [if_pos rfl]
    rcases hmem with hold | ⟨-, rfl⟩
    · exact absurd hold (hfree j hW)
    · exact hc
  · rw [if_neg heq] at hst ⊢
    exact h j hW q p₀ (hmem.resolve_right fun hnew ↦ heq hnew.1) hp₀ hst

theorem zombify (h : ListedInv W s) (pid : Int) (inst parent : Nat) :
    ListedInv W (s.zombify pid inst parent) := by
  refine (h.modify (f := fun p ↦ { p with state := .ZOMBIE }) (fun p hst ↦ ?_) pid).congr rfl rfl
  cases hst

theorem free (h : ListedInv W s) (pid : Int) (p : ProcessCDT) (expected : Option Nat) :
    ListedInv W (s.freed pid p expected) := by
  refine h.update (fun _ _ hq ↦ hq) fun q p' hp' hst ↦ ?_
  simp only [freed] at hp'
  split at hp'
  · cases hp'
  · exact ⟨p', hp', hst, rfl⟩

theorem start (h : ListedInv W s) (pid ppid : Int) : ListedInv W (s.started 1 pid ppid) := by
  refine h.update (fun _ _ hq ↦ hq) fun q p' hp' hst ↦ ?_
  simp only [started, enqueueReady] at hp'
  split at hp'
  · rw [← Option.some.inj hp'] at hst
    cases hst
  · exact ⟨p', hp', hst, rfl⟩

end ListedInv

/-- Whoever becomes blocked, by `sys_block` or a `semWait`, is in no queue of `W` under its
pid. -/
def Event.BlocksUnlisted (W : SemId → Prop) (k : Kernel) (e : Event) : Prop :=
  (∀ pid ∈ e.blocks, ∀ p ∈ k.processTable pid, p.state = .RUNNING ∨ p.state = .READY →
      ¬k.Enlisted W pid) ∧
    ∀ id ∈ e.waitsFor k, (k.sems id).sem.value ≤ 0 → ∀ c ∈ k.current, ¬k.Enlisted W c.1

instance [DecidablePred W] (k : Kernel) (e : Event) : Decidable (e.BlocksUnlisted W k) :=
  inferInstanceAs (Decidable (_ ∧ _))

/-- The posts of the semaphores `W` wake those who wait for them, and nobody and nothing else
does. -/
def Event.KeepsWaiters (W : SemId → Prop) (k : Kernel) (e : Event) : Prop :=
  (e.WakesWaiters W k ∧ e.WaitsAlone W k) ∧ e.BlocksUnlisted W k

instance [DecidablePred W] (k : Kernel) (e : Event) : Decidable (e.KeepsWaiters W k) :=
  inferInstanceAs (Decidable (_ ∧ _))

/-- Every update keeps the waiters in their places and the queues in order. -/
theorem listedRule (W : SemId → Prop) :
    CoreRule (fun k e ↦ e.KeepsWaiters W k) fun k ↦ WaitInv W k ∧ ListedInv W k where
  frame h hsame := ⟨h.1.frame hsame, h.2.frame hsame⟩
  post id h _ := ⟨h.1.post id, h.2.post id⟩
  take id h _ := ⟨h.1.take id, h.2.setSem fun _ hq ↦ hq⟩
  semOpen value h := ⟨h.1.semOpen value, h.2.semOpen value⟩
  heap nodes h hok := ⟨(waitRule W).heap nodes h.1 hok.1, h.2.congr rfl rfl⟩
  setBlocked h hok hkillable hp ht := by
    refine ⟨(waitRule W).setBlocked h.1 hok.1 hkillable hp ht, ?_⟩
    rcases ht with ⟨hst, rfl⟩ | ⟨hst, rfl⟩
    · exact h.2.setBlocked fun id hW ↦ h.1.notMem_queue (hok.2.1 _ rfl _ hp (.inl hst)) hW
    · refine (h.2.setBlocked fun id hW ↦ ?_).congr rfl rfl
      exact h.1.notMem_queue (hok.2.1 _ rfl _ hp (.inr hst)) hW
  unblock h hok hkillable hp hblocked :=
    ⟨(waitRule W).unblock h.1 hok.1 hkillable hp hblocked, h.2.wake _⟩
  exit h hcur hcont hinst := by
    refine ⟨(waitRule W).exit h.1 hcur hcont hinst, ?_⟩
    refine h.2.setCont (current_eq_some.mp hcur).2 fun id _ hid ↦ ?_
    simp [ProcessCDT.waitsOn, hcont] at hid
  waited h hok hcur hcont hinst := by
    refine ⟨(waitRule W).waited h.1 hok.1 hcur hcont hinst, ?_⟩
    refine h.2.setCont (current_eq_some.mp hcur).2 fun id _ hid ↦ ?_
    simp [ProcessCDT.waitsOn, hcont] at hid
  polled h hok hcur hcont := by
    refine ⟨(waitRule W).polled h.1 hok.1 hcur hcont, ?_⟩
    refine h.2.setCont (current_eq_some.mp hcur).2 fun id _ hid ↦ ?_
    simp [ProcessCDT.waitsOn, hcont] at hid
  returned {s} {cur} {p} {id} {c} h hok hcur hid hc := by
    refine ⟨(waitRule W).returned h.1 hok.1 hcur hid hc, ?_⟩
    have hreturned : ListedInv W (s.returnFrom id cur) := h.2.setSem fun _ hq ↦ hq
    refine hreturned.setCont (current_eq_some.mp hcur).2 fun j hW hj hq ↦
      (h.1.woken_current hcur hW hj).2 ?_
    by_cases hid : j = id
    · subst hid
      rwa [Kernel.returnFrom, setSem_self] at hq
    · rwa [Kernel.returnFrom, setSem_other _ _ _ hid] at hq
  block h hok hwaits hcur hcont hinst hle ht := by
    refine ⟨(waitRule W).block h.1 hok.1 hwaits hcur hcont hinst hle ht, ?_⟩
    refine (h.2.blockOn (current_eq_some.mp hcur).2 (hwaits.waitsOn hcur) fun j hW ↦ ?_).schedule ht
    exact h.1.notMem_queue (hok.2.2 _ hwaits.waitsFor hle _ hcur) hW
  preempt h hcur hrun := ⟨(waitRule W).preempt h.1 hcur hrun, h.2.wake _⟩
  dispatch h hon hrun ht := ⟨(waitRule W).dispatch h.1 hon hrun ht, h.2.dispatch ht⟩
  zombify h _ _ _ _ _ _ _ := ⟨(h.1.zombify _ _ _).post _, (h.2.zombify _ _ _).post _⟩
  free h _ _ _ := ⟨h.1.free _ _ _, h.2.free _ _ _⟩
  start h _ _ _ := ⟨h.1.start _ _, h.2.start _ _⟩

theorem listedInv_init (W : SemId → Prop) : ListedInv W initializeScheduler := by
  intro id _ q p hq
  rw [init_sems] at hq
  cases hq

end Kernel

end BareBones.Process
