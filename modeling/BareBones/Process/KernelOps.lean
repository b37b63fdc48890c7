import BareBones.Process.Kernel
import Mathlib.Tactic.SplitIfs

/-!
# What the operations of the kernel do

Specifications of the operations of `BareBones.Process.Kernel` as explicit updates of the
state: the updates first, with their effect on every field, and then one theorem for each
of `semPost`, `semWait`, `semTryWait` and `schedule`.
-/

namespace BareBones.Process.Kernel

open BareBones.Lib BareBones.Semaphores

variable {k t : Kernel} {pid q cur : Int} {p p' : ProcessCDT} {id j : SemId} {n : Nat}

/-! ## Updates -/

section Modify

variable (k : Kernel) (pid : Int) (f : ProcessCDT → ProcessCDT)

@[simp] theorem modify_foregroundSet : (k.modify pid f).foregroundSet = k.foregroundSet := rfl
@[simp] theorem modify_currentProcess : (k.modify pid f).currentProcess = k.currentProcess := rfl
@[simp] theorem modify_readyQueue : (k.modify pid f).readyQueue = k.readyQueue := rfl
@[simp] theorem modify_schedulerEnabled :
    (k.modify pid f).schedulerEnabled = k.schedulerEnabled := rfl
@[simp] theorem modify_sems : (k.modify pid f).sems = k.sems := rfl
@[simp] theorem modify_nodes : (k.modify pid f).nodes = k.nodes := rfl
@[simp] theorem modify_nextInst : (k.modify pid f).nextInst = k.nextInst := rfl
@[simp] theorem modify_nextSem : (k.modify pid f).nextSem = k.nextSem := rfl
@[simp] theorem modify_log : (k.modify pid f).log = k.log := rfl

@[simp] theorem modify_self : (k.modify pid f).processTable pid = (k.processTable pid).map f := by
  simp [modify]

variable {pid}

theorem modify_other (h : q ≠ pid) : (k.modify pid f).processTable q = k.processTable q := by
  simp [modify, h]

variable {k f}

/-- Whatever is in the table after an update was there before. -/
theorem modify_eq_some : (k.modify pid f).processTable q = some p' ↔
    ∃ p, k.processTable q = some p ∧ p' = if q = pid then f p else p := by
  by_cases hq : q = pid
  · subst hq
    rw [modify_self, Option.map_eq_some_iff]
    simp only [if_true, eq_comm]
  · rw [modify_other _ _ hq]
    simp [hq, eq_comm]

theorem modify_eq_none : (k.modify pid f).processTable q = none ↔ k.processTable q = none := by
  by_cases hq : q = pid
  · subst hq
    rw [modify_self, Option.map_eq_none_iff]
  · rw [modify_other _ _ hq]

/-- What an update leaves alone. -/
theorem modify_map {α : Type*} {g : ProcessCDT → α} (hg : ∀ p, g (f p) = g p) (q : Int) :
    ((k.modify pid f).processTable q).map g = (k.processTable q).map g := by
  by_cases hq : q = pid
  · subst hq
    rw [modify_self, Option.map_map]
    exact congrFun (congrArg Option.map (funext hg)) _
  · rw [modify_other _ _ hq]

theorem addChild_map {α : Type*} {g : ProcessCDT → α}
    (hg : ∀ p queue, g { p with children := queue } = g p) (parent childPid q : Int) :
    ((k.addChild parent childPid).processTable q).map g = (k.processTable q).map g :=
  modify_map (fun p ↦ hg p _) q

theorem enqueueTerminated_map {α : Type*} {g : ProcessCDT → α}
    (hg : ∀ p queue, g { p with terminatedChildren := queue } = g p) (parent childPid q : Int) :
    ((k.enqueueTerminated parent childPid).processTable q).map g = (k.processTable q).map g :=
  modify_map (fun p ↦ hg p _) q

theorem modify_comm {g : ProcessCDT → ProcessCDT} (hfg : ∀ p, g (f p) = f (g p)) (q : Int) :
    (k.modify pid f).modify q g = (k.modify q g).modify pid f := by
  simp only [modify]
  congr 1
  funext r
  split_ifs
  · rw [Option.map_map, Option.map_map]
    exact congrFun (congrArg Option.map (funext hfg)) _
  · rfl
  · rfl
  · rfl

end Modify

section SetSem

variable (k : Kernel) (id : SemId) (r : SemRec)

@[simp] theorem setSem_processTable : (k.setSem id r).processTable = k.processTable := rfl
@[simp] theorem setSem_foregroundSet : (k.setSem id r).foregroundSet = k.foregroundSet := rfl
@[simp] theorem setSem_currentProcess : (k.setSem id r).currentProcess = k.currentProcess := rfl
@[simp] theorem setSem_readyQueue : (k.setSem id r).readyQueue = k.readyQueue := rfl
@[simp] theorem setSem_schedulerEnabled :
    (k.setSem id r).schedulerEnabled = k.schedulerEnabled := rfl
@[simp] theorem setSem_nodes : (k.setSem id r).nodes = k.nodes := rfl
@[simp] theorem setSem_nextInst : (k.setSem id r).nextInst = k.nextInst := rfl
@[simp] theorem setSem_nextSem : (k.setSem id r).nextSem = k.nextSem := rfl
@[simp] theorem setSem_log : (k.setSem id r).log = k.log := rfl

@[simp] theorem setSem_self : (k.setSem id r).sems id = r := by simp [setSem]

theorem setSem_other {j : SemId} (h : j ≠ id) : (k.setSem id r).sems j = k.sems j := by
  simp [setSem, h]

end SetSem

/-- A blocked process becomes `READY` and joins the ready queue. -/
def wake (k : Kernel) (pid : Int) : Kernel := (k.enqueueReady pid).setState pid .READY

/-- A post has dropped the pids in front of `rest` from the queue and woken the process
`woken`, if any. -/
def posted (k : Kernel) (id : SemId) (value : Int) (rest : List Int)
    (woken : Option (Int × ProcessCDT)) : Kernel :=
  let r := k.sems id
  { k.setSem id { r with
      sem := ⟨value, rest⟩
      posts := r.posts + 1
      grants := r.grants + woken.toList.length
      pending := r.pending ++ (woken.map Prod.fst).toList } with
    log := { k.log with posts := k.log.posts ++ [⟨id, woken⟩] } }

section Updates

variable (k : Kernel) (pid : Int) (id : SemId) (value : Int) (rest : List Int)
  (woken : Option (Int × ProcessCDT))

@[simp] theorem posted_processTable :
    (k.posted id value rest woken).processTable = k.processTable := rfl
@[simp] theorem posted_foregroundSet :
    (k.posted id value rest woken).foregroundSet = k.foregroundSet := rfl
@[simp] theorem posted_currentProcess :
    (k.posted id value rest woken).currentProcess = k.currentProcess := rfl
@[simp] theorem posted_readyQueue :
    (k.posted id value rest woken).readyQueue = k.readyQueue := rfl
@[simp] theorem posted_schedulerEnabled :
    (k.posted id value rest woken).schedulerEnabled = k.schedulerEnabled := rfl
@[simp] theorem posted_nodes : (k.posted id value rest woken).nodes = k.nodes := rfl
@[simp] theorem posted_nextInst : (k.posted id value rest woken).nextInst = k.nextInst := rfl
@[simp] theorem posted_nextSem : (k.posted id value rest woken).nextSem = k.nextSem := rfl
@[simp] theorem posted_notified :
    (k.posted id value rest woken).log.notified = k.log.notified := rfl
@[simp] theorem posted_notices :
    (k.posted id value rest woken).log.notices = k.log.notices := rfl
@[simp] theorem posted_reaps : (k.posted id value rest woken).log.reaps = k.log.reaps := rfl
@[simp] theorem posted_emptyPolls :
    (k.posted id value rest woken).log.emptyPolls = k.log.emptyPolls := rfl

theorem posted_other (h : j ≠ id) : (k.posted id value rest woken).sems j = k.sems j :=
  setSem_other _ _ _ h

theorem posted_self : (k.posted id value rest woken).sems id = { k.sems id with
    sem := ⟨value, rest⟩
    posts := (k.sems id).posts + 1
    grants := (k.sems id).grants + woken.toList.length
    pending := (k.sems id).pending ++ (woken.map Prod.fst).toList } :=
  setSem_self _ _ _

@[simp] theorem wake_foregroundSet : (k.wake pid).foregroundSet = k.foregroundSet := rfl
@[simp] theorem wake_currentProcess : (k.wake pid).currentProcess = k.currentProcess := rfl
@[simp] theorem wake_schedulerEnabled :
    (k.wake pid).schedulerEnabled = k.schedulerEnabled := rfl
@[simp] theorem wake_sems : (k.wake pid).sems = k.sems := rfl
@[simp] theorem wake_nodes : (k.wake pid).nodes = k.nodes := rfl
@[simp] theorem wake_nextInst : (k.wake pid).nextInst = k.nextInst := rfl
@[simp] theorem wake_nextSem : (k.wake pid).nextSem = k.nextSem := rfl
@[simp] theorem wake_log : (k.wake pid).log = k.log := rfl
@[simp] theorem wake_readyQueue :
    (k.wake pid).readyQueue = k.enqueue .readyQueue k.readyQueue pid := rfl

@[simp] theorem wake_self : (k.wake pid).processTable pid =
    (k.processTable pid).map fun p ↦ { p with state := .READY } := modify_self _ _ _

variable {pid}

theorem wake_other (h : q ≠ pid) : (k.wake pid).processTable q = k.processTable q :=
  modify_other _ _ h

end Updates

/-! ## States -/

theorem setReady_eq_some (h : k.setReady pid = some t) :
    ¬invalidPID pid ∧ (∃ p, k.processTable pid = some p ∧ p.state = .BLOCKED) ∧ t = k.wake pid := by
  unfold setReady at h
  split at h
  · cases h
  next hvalid =>
      split at h
      · cases h
      next p hp =>
          split at h
          · cases h
          next hstate => exact ⟨hvalid, ⟨p, hp, not_not.mp hstate⟩, (Option.some.inj h).symm⟩

theorem setReady_eq_none (hvalid : ¬invalidPID pid) (h : k.setReady pid = none)
    (hp : k.processTable pid = some p) : p.state ≠ .BLOCKED := by
  intro hstate
  simp only [setReady, if_neg hvalid, hp] at h
  simp [hstate] at h

/-- **`setBlocked`** blocks a process that runs or is ready. -/
theorem setBlocked_eq_some (h : k.setBlocked pid = some t) :
    ¬isUnkillable pid ∧ ∃ p, k.processTable pid = some p ∧
      (p.state = .RUNNING ∧ t = k.setState pid .BLOCKED ∨ p.state = .READY ∧
        t = { k with readyQueue := k.readyQueue.filter (· ≠ pid) }.setState pid .BLOCKED) := by
  unfold setBlocked at h
  split at h
  · cases h
  split at h
  · cases h
  next p hp =>
  split at h
  · cases h
  next hkillable =>
  split at h
  · cases h
  next hstate =>
  refine ⟨hkillable, p, hp, ?_⟩
  split at h
  next hready => exact .inr ⟨hready, (Option.some.inj h).symm⟩
  next hready =>
      have hrun : p.state = .RUNNING := by
        by_contra hrun
        exact hstate ⟨hrun, hready⟩
      exact .inl ⟨hrun, (Option.some.inj h).symm⟩

/-- **`sys_unblock`** wakes a process that is blocked. -/
theorem sysUnblock_eq_some (h : k.sysUnblock pid = some t) :
    ¬isUnkillable pid ∧ ∃ p, k.processTable pid = some p ∧ p.state = .BLOCKED ∧ t = k.wake pid := by
  unfold sysUnblock at h
  split at h
  · cases h
  next hkillable =>
      obtain ⟨-, ⟨p, hp, hblocked⟩, heq⟩ := setReady_eq_some h
      exact ⟨hkillable, p, hp, hblocked, heq⟩

/-- **`setPriorityOnPID`** gives a process a priority that is not 0, and as many quanta. -/
theorem setPriorityOnPID_eq_some {priority : UInt8} (h : k.setPriorityOnPID pid priority = some t) :
    priority ≠ 0 ∧ t = k.modify pid fun p ↦
      { p with priorityLevel := priority.toNat, remainingQuantums := priority.toNat } := by
  unfold setPriorityOnPID at h
  split at h
  · cases h
  split at h
  · cases h
  next hvalid => exact ⟨fun hzero ↦ hvalid (.inr hzero), (Option.some.inj h).symm⟩

/-- **`addToFG`** puts a process into the foreground. -/
theorem addToFG_eq_some (h : k.addToFG pid = some t) : k.processTable pid ≠ none ∧
    t = { k with foregroundSet := fun q ↦ if q = pid then true else k.foregroundSet q } := by
  unfold addToFG at h
  split at h
  · cases h
  split at h
  · cases h
  next hvalid => exact ⟨fun hnone ↦ hvalid (.inl hnone), (Option.some.inj h).symm⟩

/-! ## Semaphores -/

/-- **`semPost`.**  It drops the pids that `setReady` refuses from the front of the queue,
as long as the counter is short of tokens, and wakes the first process that it accepts. -/
theorem post_cases (k : Kernel) (id : SemId) :
    (∃ dead rest, (k.sems id).sem.blockedQueue = dead ++ rest ∧
        (∀ d ∈ dead, k.setReady d = none) ∧
        (rest ≠ [] → 0 < (k.sems id).sem.value + 1 + dead.length) ∧
        k.post id = k.posted id ((k.sems id).sem.value + 1 + dead.length) rest none) ∨
      (∃ dead pid rest p, (k.sems id).sem.blockedQueue = dead ++ pid :: rest ∧
        (∀ d ∈ dead, k.setReady d = none) ∧ ¬invalidPID pid ∧
        k.processTable pid = some p ∧ p.state = .BLOCKED ∧
        (k.sems id).sem.value + 1 + dead.length ≤ 0 ∧
        k.post id =
          (k.wake pid).posted id ((k.sems id).sem.value + 1 + dead.length) rest
            (some (pid, p))) := by
  rcases semPost_cases (k.sems id).sem k with
    ⟨dead, rest, hqueue, hdead, hrest, hpost⟩ |
      ⟨dead, pid, rest, k', hqueue, hdead, hle, hready, hpost⟩
  · refine .inl ⟨dead, rest, hqueue, hdead, hrest, ?_⟩
    have hfind : (k.sems id).sem.blockedQueue.find?
        (fun pid ↦ decide (k.stateOf pid ≠ k.stateOf pid)) = none := by simp
    simp only [post, hpost, hfind]
    rfl
  · obtain ⟨hvalid, ⟨p, hp, hstate⟩, rfl⟩ := setReady_eq_some hready
    refine .inr ⟨dead, pid, rest, p, hqueue, hdead, hvalid, hp, hstate, hle, ?_⟩
    have hchange : ∀ q, decide ((k.wake pid).stateOf q ≠ k.stateOf q) = decide (q = pid) := by
      intro q
      by_cases hq : q = pid
      · subst hq
        simp [stateOf, hp, hstate]
      · simp [stateOf, wake_other _ hq, hq]
    have hpdead : pid ∉ dead := by
      intro hmem
      cases (hdead pid hmem).symm.trans hready
    have hfind : (k.sems id).sem.blockedQueue.find?
        (fun q ↦ decide ((k.wake pid).stateOf q ≠ k.stateOf q)) = some pid := by
      rw [hqueue, List.find?_append, List.find?_eq_none.mpr]
      · simp [hchange]
      · intro q hq
        rw [hchange]
        simp only [decide_eq_true_eq]
        rintro rfl
        exact hpdead hq
    simp only [post, hpost, hfind, Option.bind_some, hp]
    rfl

/-- What is in the table after a post was there before, maybe blocked. -/
theorem post_table (hp' : (k.post id).processTable q = some p') :
    ∃ p, k.processTable q = some p ∧
      (p' = p ∨ p.state = .BLOCKED ∧ p' = { p with state := .READY }) := by
  rcases post_cases k id with ⟨dead, rest, -, -, -, hpost⟩ |
    ⟨dead, pid, rest, p, -, -, -, hp, hst, -, hpost⟩
  · rw [hpost] at hp'
    exact ⟨p', hp', .inl rfl⟩
  · rw [hpost, posted_processTable] at hp'
    by_cases hq : q = pid
    · subst hq
      rw [wake_self, hp] at hp'
      exact ⟨p, hp, .inr ⟨hst, (Option.some.inj hp').symm⟩⟩
    · rw [wake_other _ hq] at hp'
      exact ⟨p', hp', .inl rfl⟩

theorem post_eq_none : (k.post id).processTable q = none ↔ k.processTable q = none := by
  rcases post_cases k id with ⟨dead, rest, -, -, -, hpost⟩ |
    ⟨dead, pid, rest, p, -, -, -, hp, hst, -, hpost⟩
  · rw [hpost, posted_processTable]
  · rw [hpost, posted_processTable]
    exact modify_eq_none

/-- A post counts itself. -/
theorem post_posts (k : Kernel) (id j : SemId) :
    ((k.post id).sems j).posts = (k.sems j).posts + if j = id then 1 else 0 := by
  have hposted : ∀ (u : Kernel) value rest woken, u.sems = k.sems →
      ((u.posted id value rest woken).sems j).posts =
        (k.sems j).posts + if j = id then 1 else 0 := by
    intro u value rest woken hu
    by_cases hj : j = id
    · subst hj
      rw [posted_self, hu, if_pos rfl]
    · rw [posted_other _ _ _ _ _ hj, hu, if_neg hj, Nat.add_zero]
  rcases post_cases k id with ⟨_, _, -, -, -, h⟩ | ⟨_, _, _, _, -, -, -, -, -, -, h⟩
  · rw [h]
    exact hposted _ _ _ _ rfl
  · rw [h]
    exact hposted _ _ _ _ rfl

/-- A post only shortens queues. -/
theorem post_queue (h : q ∈ ((k.post id).sems j).sem.blockedQueue) :
    q ∈ (k.sems j).sem.blockedQueue := by
  rcases post_cases k id with ⟨dead, rest, hqueue, -, -, hpost⟩ |
    ⟨dead, pid, rest, p, hqueue, -, -, -, -, -, hpost⟩
  · rw [hpost] at h
    by_cases hj : j = id
    · subst hj
      rw [posted_self] at h
      rw [hqueue]
      exact List.mem_append_right _ h
    · rwa [posted_other _ _ _ _ _ hj] at h
  · rw [hpost] at h
    by_cases hj : j = id
    · subst hj
      rw [posted_self] at h
      rw [hqueue]
      exact List.mem_append_right _ (List.mem_cons_of_mem _ h)
    · rwa [posted_other _ _ _ _ _ hj] at h

/-- Whoever joins the ready queue by a post was blocked. -/
theorem post_readyQueue (h : q ∈ (k.post id).readyQueue) :
    q ∈ k.readyQueue ∨ ∃ p, k.processTable q = some p ∧ p.state = .BLOCKED := by
  rcases post_cases k id with ⟨_, _, -, -, -, hpost⟩ | ⟨_, pid, _, p, -, -, -, hp, hst, -, hpost⟩
  · rw [hpost] at h
    exact .inl h
  · rw [hpost, posted_readyQueue, wake_readyQueue, enqueue] at h
    split at h
    · rcases List.mem_append.mp h with h | h
      · exact .inl h
      · rw [List.mem_singleton.mp h]
        exact .inr ⟨p, hp, hst⟩
    · exact .inl h

/-- A post changes nothing of a process but its state. -/
theorem post_map {α : Type*} {g : ProcessCDT → α} (hg : ∀ p st, g { p with state := st } = g p)
    (k : Kernel) (id : SemId) (q : Int) :
    ((k.post id).processTable q).map g = (k.processTable q).map g := by
  rcases post_cases k id with ⟨_, _, -, -, -, hpost⟩ | ⟨_, pid, _, _, -, -, -, -, -, -, hpost⟩
  · rw [hpost, posted_processTable]
  · rw [hpost, posted_processTable]
    exact modify_map (fun p ↦ hg p .READY) q

/-- A post changes one semaphore. -/
theorem post_sems_other (h : j ≠ id) : (k.post id).sems j = k.sems j := by
  rcases post_cases k id with ⟨_, _, -, -, -, hpost⟩ | ⟨_, _, _, _, -, -, -, -, -, -, hpost⟩
  · rw [hpost, posted_other _ _ _ _ _ h]
  · rw [hpost, posted_other _ _ _ _ _ h, wake_sems]

@[simp] theorem post_nextInst (k : Kernel) (id : SemId) : (k.post id).nextInst = k.nextInst := by
  rcases post_cases k id with ⟨_, _, -, -, -, h⟩ | ⟨_, _, _, _, -, -, -, -, -, -, h⟩ <;> rw [h] <;>
    rfl

@[simp] theorem post_nextSem (k : Kernel) (id : SemId) : (k.post id).nextSem = k.nextSem := by
  rcases post_cases k id with ⟨_, _, -, -, -, h⟩ | ⟨_, _, _, _, -, -, -, -, -, -, h⟩ <;> rw [h] <;>
    rfl

@[simp] theorem post_notified (k : Kernel) (id : SemId) :
    (k.post id).log.notified = k.log.notified := by
  rcases post_cases k id with ⟨_, _, -, -, -, h⟩ | ⟨_, _, _, _, -, -, -, -, -, -, h⟩ <;> rw [h] <;>
    rfl

@[simp] theorem post_notices (k : Kernel) (id : SemId) :
    (k.post id).log.notices = k.log.notices := by
  rcases post_cases k id with ⟨_, _, -, -, -, h⟩ | ⟨_, _, _, _, -, -, -, -, -, -, h⟩ <;> rw [h] <;>
    rfl

@[simp] theorem post_reaps (k : Kernel) (id : SemId) : (k.post id).log.reaps = k.log.reaps := by
  rcases post_cases k id with ⟨_, _, -, -, -, h⟩ | ⟨_, _, _, _, -, -, -, -, -, -, h⟩ <;> rw [h] <;>
    rfl

@[simp] theorem post_emptyPolls (k : Kernel) (id : SemId) :
    (k.post id).log.emptyPolls = k.log.emptyPolls := by
  rcases post_cases k id with ⟨_, _, -, -, -, h⟩ | ⟨_, _, _, _, -, -, -, -, -, -, h⟩ <;> rw [h] <;>
    rfl

@[simp] theorem post_currentProcess (k : Kernel) (id : SemId) :
    (k.post id).currentProcess = k.currentProcess := by
  rcases post_cases k id with ⟨_, _, -, -, -, h⟩ | ⟨_, _, _, _, -, -, -, -, -, -, h⟩ <;> rw [h] <;>
    rfl

@[simp] theorem post_nodes (k : Kernel) (id : SemId) : (k.post id).nodes = k.nodes := by
  rcases post_cases k id with ⟨_, _, -, -, -, h⟩ | ⟨_, _, _, _, -, -, -, -, -, -, h⟩ <;> rw [h] <;>
    rfl

@[simp] theorem post_schedulerEnabled (k : Kernel) (id : SemId) :
    (k.post id).schedulerEnabled = k.schedulerEnabled := by
  rcases post_cases k id with ⟨_, _, -, -, -, h⟩ | ⟨_, _, _, _, -, -, -, -, -, -, h⟩ <;> rw [h] <;>
    rfl

/-- A token is taken. -/
def take (k : Kernel) (id : SemId) : Kernel :=
  let r := k.sems id
  k.setSem id { r with
    sem := ⟨r.sem.value - 1, r.sem.blockedQueue⟩
    grants := r.grants + 1
    returned := r.returned + 1 }

/-- The running process `cur` stops in a `semWait`. -/
def blockOn (k : Kernel) (id : SemId) (cur : Int) (c : Cont) : Kernel :=
  let r := k.sems id
  (k.modify cur fun p ↦ { p with state := .BLOCKED, cont := c }).setSem id { r with
    sem := ⟨r.sem.value - 1, k.enqueue .blockedQueue r.sem.blockedQueue cur⟩ }

section BlockOn

variable {c : Cont}

theorem blockOn_eq_some : (k.blockOn id cur c).processTable q = some p' ↔
    ∃ p, k.processTable q = some p ∧
      p' = if q = cur then { p with state := .BLOCKED, cont := c } else p := modify_eq_some

theorem blockOn_sems_self : (k.blockOn id cur c).sems id = { k.sems id with
    sem := ⟨(k.sems id).sem.value - 1,
      k.enqueue .blockedQueue (k.sems id).sem.blockedQueue cur⟩ } := setSem_self _ _ _

theorem blockOn_sems_other (h : j ≠ id) : (k.blockOn id cur c).sems j = k.sems j :=
  setSem_other _ _ _ h

theorem blockOn_pending : ((k.blockOn id cur c).sems j).pending = (k.sems j).pending := by
  by_cases hj : j = id
  · rw [hj, blockOn_sems_self]
  · rw [blockOn_sems_other hj]

/-- Only the process that blocks joins a queue. -/
theorem mem_blockOn (h : q ∈ ((k.blockOn id cur c).sems j).sem.blockedQueue) :
    q ∈ (k.sems j).sem.blockedQueue ∨ j = id ∧ q = cur := by
  by_cases hj : j = id
  · subst hj
    rw [blockOn_sems_self] at h
    simp only [enqueue] at h
    split at h
    · exact (List.mem_append.mp h).imp_right fun h ↦ ⟨rfl, List.mem_singleton.mp h⟩
    · exact .inl h
  · rw [blockOn_sems_other hj] at h
    exact .inl h

end BlockOn

theorem modify_modify (k : Kernel) (pid : Int) (f g : ProcessCDT → ProcessCDT) :
    (k.modify pid f).modify pid g = k.modify pid fun p ↦ g (f p) := by
  simp only [modify]
  congr 1
  funext q
  split
  · rw [Option.map_map]
    rfl
  · rfl

/-- **`semWait`** takes a token, or blocks the running process, which leaves `c` behind. -/
theorem wait_cases (hcur : k.currentProcess = some (cur, n)) (id : SemId) :
    (0 < (k.sems id).sem.value ∧ k.wait id = (k.take id, false)) ∨
      ((k.sems id).sem.value ≤ 0 ∧ (k.wait id).2 = true ∧
        ∀ c, (k.wait id).1.setCont cur c = k.blockOn id cur c) := by
  have hpid : k.getCurrentPID = cur := by rw [getCurrentPID, hcur]
  by_cases hpos : 0 < (k.sems id).sem.value
  · refine .inl ⟨hpos, ?_⟩
    have hlt : ¬(k.sems id).sem.value - 1 < 0 := by omega
    simp only [wait, semWait, if_neg hlt, Bool.false_eq_true, if_false]
    rfl
  · have hlt : (k.sems id).sem.value - 1 < 0 := by omega
    have hwait : k.wait id = ((k.setState cur .BLOCKED).setSem id { k.sems id with
        sem := ⟨(k.sems id).sem.value - 1,
          k.enqueue .blockedQueue (k.sems id).sem.blockedQueue cur⟩ }, true) := by
      simp only [wait, semWait, if_pos hlt, if_true, hpid, Scheduler.setCurrentBlocked,
        setCurrentBlocked, hcur, Scheduler.getCurrentPID, Scheduler.hasNode, enqueue]
    refine .inr ⟨by omega, by rw [hwait], fun c ↦ ?_⟩
    rw [hwait]
    exact congrArg (fun k' : Kernel ↦ k'.setSem id _) (modify_modify k cur _ _)

/-- **`semTryWait`** takes a token if there is one. -/
theorem tryWait_cases (k : Kernel) (id : SemId) :
    (0 < (k.sems id).sem.value ∧ k.tryWait id = (k.take id, true)) ∨
      ((k.sems id).sem.value ≤ 0 ∧ k.tryWait id = (k, false)) := by
  by_cases hpos : 0 < (k.sems id).sem.value
  · refine .inl ⟨hpos, ?_⟩
    simp only [tryWait, semTryWait, gt_iff_lt, if_pos hpos, if_true]
    rfl
  · refine .inr ⟨by omega, ?_⟩
    simp only [tryWait, semTryWait, gt_iff_lt, if_neg hpos, Bool.false_eq_true, if_false]

/-! ## The scheduler -/

theorem current_eq_some : k.current = some (cur, p) ↔
    k.currentProcess = some (cur, p.inst) ∧ k.processTable cur = some p := by
  unfold current
  constructor
  · intro h
    split at h
    · cases h
    next pid inst hcur =>
        split at h
        · cases h
        next p' hp' =>
            split at h
            next hinst =>
                obtain ⟨rfl, rfl⟩ := Prod.mk.injEq .. ▸ Option.some.inj h
                exact ⟨by rw [hcur, hinst], hp'⟩
            · cases h
  · rintro ⟨hcur, hp⟩
    simp [hcur, hp]

/-- The process `next` runs, on a fresh quantum. -/
def dispatched (k : Kernel) (next : Int) (inst : Nat) (rest : List Int) : Kernel :=
  { k.modify next fun p ↦
      { p with state := .RUNNING, remainingQuantums := p.priorityLevel - 1 } with
    readyQueue := rest
    currentProcess := some (next, inst) }

/-- The next process is the head of the ready queue, or the idle process. -/
theorem dispatch_cases (h : k.dispatch = some t) :
    ∃ next p rest, (k.readyQueue = next :: rest ∨
        k.readyQueue = [] ∧ next = IDLE_PID ∧ rest = []) ∧
      k.processTable next = some p ∧ t = k.dispatched next p.inst rest := by
  unfold dispatch getNextPID at h
  cases hq : k.readyQueue with
  | nil =>
      simp only [hq] at h
      split at h
      · cases h
      next p hp =>
          refine ⟨IDLE_PID, p, [], .inr ⟨rfl, rfl, rfl⟩, hp, ?_⟩
          rw [← Option.some.inj h, dispatched, ← hq]
          rfl
  | cons next rest =>
      simp only [hq] at h
      split at h
      · cases h
      next p hp => exact ⟨next, p, rest, .inl rfl, hp, (Option.some.inj h).symm⟩

/-- **`schedule`** lets the running process go on, or preempts it and dispatches the next
one, or only dispatches the next one if nobody was running. -/
theorem schedule_cases (h : k.schedule = some t) :
    (k.schedulerEnabled = false ∧ t = k) ∨
      k.schedulerEnabled = true ∧
      ((∃ cur p, k.current = some (cur, p) ∧ p.state = .RUNNING ∧ 0 < p.remainingQuantums ∧
          t = k.modify cur fun p ↦ { p with remainingQuantums := p.remainingQuantums - 1 }) ∨
        (∃ cur p, k.current = some (cur, p) ∧ p.state = .RUNNING ∧ p.remainingQuantums = 0 ∧
          (k.wake cur).dispatch = some t) ∨
        ((k.currentProcess = none ∨ ∃ cur p, k.current = some (cur, p) ∧ p.state ≠ .RUNNING) ∧
          k.dispatch = some t)) := by
  unfold schedule at h
  split at h
  next hoff => exact .inl ⟨by simpa using hoff, (Option.some.inj h).symm⟩
  next hon =>
      refine .inr ⟨by simpa using hon, ?_⟩
      split at h
      next hnone => exact .inr (.inr ⟨.inl hnone, h⟩)
      next =>
          split at h
          · cases h
          next cur p hcur =>
              split at h
              next hrun =>
                  split at h
                  next hpos => exact .inl ⟨cur, p, hcur, hrun, hpos, (Option.some.inj h).symm⟩
                  next hzero => exact .inr (.inl ⟨cur, p, hcur, hrun, by omega, h⟩)
              next hrun => exact .inr (.inr ⟨.inr ⟨cur, p, hcur, hrun⟩, h⟩)

/-! ## Creation and reaping -/

theorem findFreePid_eq_some (h : k.findFreePid = some pid) :
    ¬invalidPID pid ∧ k.processTable pid = none := by
  have hmem := List.mem_of_find?_eq_some h
  have hfree := List.find?_some h
  obtain ⟨n, hn, rfl⟩ := List.mem_map.mp hmem
  rw [List.mem_range] at hn
  refine ⟨?_, Option.isNone_iff_eq_none.mp hfree⟩
  simp only [invalidPID, MAX_PROCESSES, Int.ofNat_eq_natCast] at hn ⊢
  omega

/-- The control block of a new process. -/
def newCDT (k : Kernel) (priorityLevel : Nat) (ppid : Int) : ProcessCDT :=
  ⟨k.nextInst, ppid, .READY, priorityLevel, priorityLevel, [], [], .user⟩

/-- A new process is put into a free slot. -/
def started (k : Kernel) (priorityLevel : Nat) (pid ppid : Int) : Kernel :=
  { k with
    nextInst := k.nextInst + 1
    processTable := fun q ↦
      if q = pid then some (k.newCDT priorityLevel ppid) else k.processTable q
    }.enqueueReady pid

/-- The parent of a new process, and the state in which it is registered there. -/
def registered (k : Kernel) (pid : Int) : Int × Kernel :=
  match k.currentProcess with
  | some (cur, _) => if cur ≠ IDLE_PID then (cur, k.addChild cur pid) else (INIT_PID, k)
  | none => (INIT_PID, k)

theorem startNewProcess_cases (priorityLevel : Nat) (k : Kernel) :
    k.startNewProcess priorityLevel = none ∨
      ∃ pid, k.findFreePid = some pid ∧ k.startNewProcess priorityLevel =
        some ((k.registered pid).2.started priorityLevel pid (k.registered pid).1) := by
  unfold startNewProcess
  cases hfree : k.findFreePid with
  | none => exact .inl rfl
  | some pid =>
      obtain ⟨hvalid, hnone⟩ := findFreePid_eq_some hfree
      by_cases hroom : k.nodes .process = true
      · refine .inr ⟨pid, rfl, ?_⟩
        simp only [startNewProcessWithPid, newProcess, if_neg hvalid, hnone, ne_eq, not_true,
          if_false, if_pos hroom]
        cases hcur : k.currentProcess with
        | none =>
            simp only [registered, started, newCDT, hcur]
        | some c =>
            by_cases hidle : c.1 = IDLE_PID
            · simp only [registered, started, newCDT, hcur, ne_eq, hidle, not_true, if_false]
            · simp only [registered, started, newCDT, addChild, modify, hcur, ne_eq, hidle,
                not_false_iff, if_true]
      · refine .inl ?_
        simp only [startNewProcessWithPid, newProcess, if_neg hvalid, hnone, ne_eq, not_true,
          if_false, if_neg hroom]

/-- **`sys_create_process`** starts a new process, or fails. -/
theorem sysCreateProcess_eq_some (h : k.sysCreateProcess = some t) :
    t = (k.startNewProcess 1).getD k := by
  unfold sysCreateProcess at h
  split at h
  next hnone =>
      rw [hnone]
      exact (Option.some.inj h).symm
  next k' hk' =>
      split at h
      · rw [hk']
        exact (Option.some.inj h).symm
      · cases h

/-- A slot is emptied. -/
def freed (k : Kernel) (pid : Int) (p : ProcessCDT) (expected : Option Nat) : Kernel :=
  { k with
    processTable := fun q ↦ if q = pid then none else k.processTable q
    foregroundSet := fun q ↦ if q = pid then false else k.foregroundSet q
    log := { k.log with reaps := k.log.reaps ++ [⟨pid, p,
      k.currentProcess = some (pid, p.inst), pid ∈ k.readyQueue, expected,
      k.waiters (.terminated p.inst)⟩] } }

theorem reapProcess_cases (k : Kernel) (pid : Int) (expected : Option Nat) :
    (k.processTable pid = none ∨ invalidPID pid) ∧ k.reapProcess pid expected = k ∨
      ∃ p, ¬invalidPID pid ∧ k.processTable pid = some p ∧
        k.reapProcess pid expected = k.freed pid p expected := by
  unfold reapProcess
  split
  next hinv => exact .inl ⟨.inr hinv, rfl⟩
  next hvalid =>
      split
      next hnone => exact .inl ⟨.inl hnone, rfl⟩
      next p hp => exact .inr ⟨p, hvalid, hp, rfl⟩

/-! ## The first state -/

/-- The slots after `initializeScheduler`: the idle process and `init`. -/
theorem init_table (q : Int) : initializeScheduler.processTable q =
    if q = INIT_PID then some ⟨1, INIT_PID, .READY, 1, 1, [], [], .user⟩
    else if q = IDLE_PID then some ⟨0, INIT_PID, .READY, 1, 1, [], [], .user⟩
    else none := rfl

theorem init_eq_some (hp : initializeScheduler.processTable q = some p) :
    q = INIT_PID ∧ p = ⟨1, INIT_PID, .READY, 1, 1, [], [], .user⟩ ∨
      q = IDLE_PID ∧ p = ⟨0, INIT_PID, .READY, 1, 1, [], [], .user⟩ := by
  rw [init_table] at hp
  split at hp
  next hq => exact .inl ⟨hq, (Option.some.inj hp).symm⟩
  next =>
      split at hp
      next hq => exact .inr ⟨hq, (Option.some.inj hp).symm⟩
      · cases hp

theorem init_readyQueue : initializeScheduler.readyQueue = [IDLE_PID, INIT_PID] := rfl

theorem init_sems (id : SemId) : initializeScheduler.sems id = .new 0 := rfl

end BareBones.Process.Kernel
