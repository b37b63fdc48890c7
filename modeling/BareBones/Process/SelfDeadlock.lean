import BareBones.Process.KernelRule
import BareBones.Process.Spinlocks

/-!
# Nobody spins, unless `init` is preempted

A lock is taken and released with interrupts off, except by `init`.  So the only lock that
somebody may find held is one that `init` holds, and the only way to get there is an interrupt
between the `ACQUIRE` and the `RELEASE` of `init` whose handler switches to another process or
terminates one.  Besides, a semaphore that is freed keeps its lock, and a `wait_pid` that goes on
after its `semWait` acquires that of the parent that it has read, freed or not.  Without the one and
the other no lock is ever found held (`spinlocks_free`); with either the processor may spin forever
(`spinlocks_held`, `spinlocks_freed`).

The proof follows the control blocks: `Seats P n k` says that every block in the table, and every
one to come, satisfies `P`, here that its two locks are free or held by `init`.
-/

namespace BareBones.Process

open BareBones.Lib BareBones.Semaphores

namespace Kernel

variable {k s t : Kernel} {P Q : Nat → Prop} {n : Nat} {pid cur q : Int} {p : ProcessCDT}
    {id : SemId}

/-! ## Control blocks -/

/-- The control block in a slot. -/
def blockOf (k : Kernel) (q : Int) : Option Nat := (k.processTable q).map ProcessCDT.inst

theorem blockOf_of_some (hp : k.processTable q = some p) : k.blockOf q = some p.inst := by
  rw [blockOf, hp, Option.map_some]

theorem blockOf_modify {f : ProcessCDT → ProcessCDT} (hf : ∀ p, (f p).inst = p.inst) :
    (k.modify pid f).blockOf q = k.blockOf q := by
  unfold blockOf
  by_cases hq : q = pid
  · subst hq
    rw [modify_self, Option.map_map]
    exact congrFun (congrArg Option.map (funext hf)) _
  · rw [modify_other _ _ hq]

theorem blockOf_wake : (k.wake pid).blockOf q = k.blockOf q := by
  have hstate : (k.wake pid).blockOf q = (k.enqueueReady pid).blockOf q :=
    blockOf_modify fun _ ↦ rfl
  exact hstate

theorem blockOf_post : (k.post id).blockOf q = k.blockOf q := by
  rcases post_cases k id with ⟨_, rest, -, -, -, heq⟩ | ⟨_, pid, rest, p, -, -, -, -, -, -, heq⟩
  · rw [heq]
    rfl
  · rw [heq]
    exact blockOf_wake

/-- The control blocks are all different and older than the next one, which is `n` at least;
those in the table, and those to come, satisfy `P`. -/
structure Seats (P : Nat → Prop) (n : Nat) (k : Kernel) : Prop where
  next : n ≤ k.nextInst
  unique : ∀ q q' i, k.blockOf q = some i → k.blockOf q' = some i → q = q'
  valid : ∀ q i, k.blockOf q = some i → ¬invalidPID q
  old : ∀ q i, k.blockOf q = some i → i < k.nextInst
  seated : ∀ q i, k.blockOf q = some i → P i
  future : ∀ i, k.nextInst ≤ i → P i

namespace Seats

/-- The blocks stay in their slots. -/
theorem congr (h : Seats P n s) (hblock : ∀ q, t.blockOf q = s.blockOf q)
    (hnext : t.nextInst = s.nextInst) : Seats P n t where
  next := hnext ▸ h.next
  unique q q' i := by
    rw [hblock, hblock]
    exact h.unique q q' i
  valid q i := by
    rw [hblock]
    exact h.valid q i
  old q i := by
    rw [hblock, hnext]
    exact h.old q i
  seated q i := by
    rw [hblock]
    exact h.seated q i
  future i hi := h.future i (hnext ▸ hi)

theorem mono (h : Seats P n k) (hseated : ∀ q i, k.blockOf q = some i → P i → Q i)
    (hfuture : ∀ i, k.nextInst ≤ i → P i → Q i) : Seats Q n k :=
  { h with
    seated := fun q i hq ↦ hseated q i hq (h.seated q i hq)
    future := fun i hi ↦ hfuture i hi (h.future i hi) }

theorem of_table (h : Seats P n s) (htable : t.processTable = s.processTable)
    (hnext : t.nextInst = s.nextInst) : Seats P n t :=
  h.congr (fun q ↦ by rw [blockOf, htable, blockOf]) hnext

theorem modify {f : ProcessCDT → ProcessCDT} (h : Seats P n s) (hf : ∀ p, (f p).inst = p.inst) :
    Seats P n (s.modify pid f) := h.congr (fun _ ↦ blockOf_modify hf) rfl

theorem wake (h : Seats P n s) (pid : Int) : Seats P n (s.wake pid) :=
  h.congr (fun _ ↦ blockOf_wake) rfl

theorem post (h : Seats P n s) (id : SemId) : Seats P n (s.post id) :=
  h.congr (fun _ ↦ blockOf_post) (post_nextInst s id)

theorem sameCore (h : Seats P n s) (hsame : SameCore s t) : Seats P n t := by
  refine h.congr (fun q ↦ ?_) hsame.nextInst
  have hcore := congrArg (Option.map Prod.fst) (hsame.table q)
  rw [Option.map_map, Option.map_map] at hcore
  exact hcore

theorem setBlocked (h : Seats P n s)
    (ht : p.state = .RUNNING ∧ t = s.setState pid .BLOCKED ∨ p.state = .READY ∧
      t = { s with readyQueue := s.readyQueue.filter (· ≠ pid) }.setState pid .BLOCKED) :
    Seats P n t := by
  rcases ht with ⟨-, rfl⟩ | ⟨-, rfl⟩
  · exact h.modify fun _ ↦ rfl
  · have hqueue : Seats P n { s with readyQueue := s.readyQueue.filter (· ≠ pid) } :=
      h.of_table rfl rfl
    exact hqueue.modify fun _ ↦ rfl

theorem dispatch (h : Seats P n s) (ht : s.dispatch = some t) : Seats P n t := by
  obtain ⟨next, p, rest, -, -, rfl⟩ := dispatch_cases ht
  have hrun : Seats P n (s.modify next fun p ↦
      { p with state := .RUNNING, remainingQuantums := p.priorityLevel - 1 }) :=
    h.modify fun _ ↦ rfl
  exact hrun.of_table rfl rfl

theorem schedule (h : Seats P n s) (ht : s.schedule = some t) : Seats P n t :=
  CoreRule.schedule_induction id sameCore (fun h _ _ ↦ h.wake _) (fun h _ _ ht ↦ h.dispatch ht) h ht

theorem zombify (h : Seats P n s) (pid : Int) (inst parent : Nat) :
    Seats P n (s.zombify pid inst parent) := by
  have hdead : Seats P n (s.setState pid .ZOMBIE) := h.modify fun _ ↦ rfl
  exact hdead.of_table rfl rfl

theorem free (h : Seats P n s) (pid : Int) (p : ProcessCDT) (expected : Option Nat) :
    Seats P n (s.freed pid p expected) := by
  have hblock : ∀ q i, (s.freed pid p expected).blockOf q = some i → s.blockOf q = some i := by
    intro q i hq
    obtain ⟨p', hp', rfl⟩ := Option.map_eq_some_iff.mp hq
    simp only [freed] at hp'
    split at hp'
    · cases hp'
    · exact blockOf_of_some hp'
  exact ⟨h.next, fun q q' i hq hq' ↦ h.unique q q' i (hblock q i hq) (hblock q' i hq'),
    fun q i hq ↦ h.valid q i (hblock q i hq), fun q i hq ↦ h.old q i (hblock q i hq),
    fun q i hq ↦ h.seated q i (hblock q i hq), h.future⟩

theorem start (h : Seats P n s) (hvalid : ¬invalidPID pid) (ppid : Int) :
    Seats P n (s.started 1 pid ppid) := by
  have hblock : ∀ q i, (s.started 1 pid ppid).blockOf q = some i →
      q = pid ∧ i = s.nextInst ∨ s.blockOf q = some i := by
    intro q i hq
    obtain ⟨p', hp', rfl⟩ := Option.map_eq_some_iff.mp hq
    simp only [started, enqueueReady] at hp'
    split at hp'
    next heq =>
        obtain rfl := Option.some.inj hp'
        exact .inl ⟨heq, rfl⟩
    · exact .inr (blockOf_of_some hp')
  refine ⟨Nat.le_succ_of_le h.next, fun q q' i hq hq' ↦ ?_, fun q i hq ↦ ?_, fun q i hq ↦ ?_,
    fun q i hq ↦ ?_, fun i hi ↦ h.future i (Nat.le_of_succ_le hi)⟩
  · rcases hblock q i hq with ⟨rfl, rfl⟩ | hold
    · rcases hblock q' _ hq' with ⟨rfl, -⟩ | hold'
      · rfl
      · exact absurd (h.old q' _ hold') (Nat.lt_irrefl _)
    · rcases hblock q' i hq' with ⟨rfl, rfl⟩ | hold'
      · exact absurd (h.old q _ hold) (Nat.lt_irrefl _)
      · exact h.unique q q' i hold hold'
  · rcases hblock q i hq with ⟨rfl, -⟩ | hold
    · exact hvalid
    · exact h.valid q i hold
  · rcases hblock q i hq with ⟨-, rfl⟩ | hold
    · exact Nat.lt_succ_self _
    · exact Nat.lt_succ_of_lt (h.old q i hold)
  · rcases hblock q i hq with ⟨-, rfl⟩ | hold
    · exact h.future _ (Nat.le_refl _)
    · exact h.seated q i hold

end Seats

/-- Every update keeps the control blocks. -/
theorem seatsRule : CoreRule (fun _ _ ↦ True) (Seats P n) where
  frame := Seats.sameCore
  post id h _ := h.post id
  take _ h _ := h.of_table rfl rfl
  semOpen _ h := h.of_table rfl rfl
  heap _ h _ := h.of_table rfl rfl
  setBlocked h _ _ _ ht := h.setBlocked ht
  unblock h _ _ _ _ := h.wake _
  exit h _ _ _ := h.modify fun _ ↦ rfl
  waited h _ _ _ _ := h.modify fun _ ↦ rfl
  polled h _ _ _ := h.modify fun _ ↦ rfl
  returned {s} cur p id c h _ _ _ _ := by
    have hreturned : Seats P n (s.returnFrom id cur) := h.of_table rfl rfl
    exact hreturned.modify fun _ ↦ rfl
  block {s} {_} {_} {cur} {_} {id} {c} h _ _ _ _ _ _ ht := by
    have hblocked : Seats P n (s.modify cur fun p ↦ { p with state := .BLOCKED, cont := c }) :=
      h.modify fun _ ↦ rfl
    have hon : Seats P n (s.blockOn id cur c) := hblocked.of_table rfl rfl
    exact hon.schedule ht
  preempt h _ _ := h.wake _
  dispatch h _ _ ht := h.dispatch ht
  zombify h _ _ _ _ _ _ _ := (h.zombify _ _ _).post _
  free h _ _ _ := h.free _ _ _
  start h _ _ hfree := h.start (findFreePid_eq_some hfree).1 _

theorem Seats.pollTerminatedChildren (h : Seats P n s) (cur : Int) (p : ProcessCDT) :
    Seats P n (s.pollTerminatedChildren cur p).2 := by
  unfold Kernel.pollTerminatedChildren
  split
  · exact h.of_table rfl rfl
  · exact h.modify fun _ ↦ rfl

/-! ## Who owns what is acquired -/

section Acquires

variable {Free : SemId → Prop} {closed : List Nat}

theorem Seats.owned_free (h : Seats P n k) (hP : ∀ i, P i → ∀ id ∈ owned i, Free id)
    (hp : k.processTable q = some p) : Free (.terminated p.inst) ∧
      Free (.childTerminated p.inst) := by
  have hseat := hP p.inst (h.seated q p.inst (blockOf_of_some hp))
  exact ⟨hseat _ List.mem_cons_self, hseat _ (List.mem_cons_of_mem _ List.mem_cons_self)⟩

variable (hP : ∀ i, P i → ∀ id ∈ owned i, Free id)

include hP

theorem reapAcquires_free (h : Seats P n k) : ∀ id ∈ k.reapAcquires pid, Free id := by
  unfold reapAcquires
  split
  · exact fun id hid ↦ absurd hid List.not_mem_nil
  · split
    · exact fun id hid ↦ absurd hid List.not_mem_nil
    next p hp => exact hP p.inst (h.seated pid p.inst (blockOf_of_some hp))

theorem orphanAcquires_free (h : Seats P n k) (children : List Int) :
    ∀ id ∈ k.orphanAcquires children, Free id := by
  unfold orphanAcquires
  split
  · exact fun id hid ↦ absurd hid List.not_mem_nil
  next initProc hinit =>
      intro id hid
      obtain ⟨childPid, -, rfl⟩ := List.mem_map.mp hid
      exact (h.owned_free hP hinit).2

theorem terminateAcquires_free (huser : ∀ n, Free (.user n)) (h : Seats P n k) :
    ∀ id ∈ k.terminateAcquires pid closed, Free id := by
  unfold terminateAcquires
  split
  · exact fun id hid ↦ absurd hid List.not_mem_nil
  split
  · exact fun id hid ↦ absurd hid List.not_mem_nil
  split
  · exact fun id hid ↦ absurd hid List.not_mem_nil
  next process hprocess =>
      split
      · exact fun id hid ↦ absurd hid List.not_mem_nil
      split
      · exact fun id hid ↦ absurd hid List.not_mem_nil
      next parent hparent =>
          intro id hid
          rw [List.mem_append, List.mem_append] at hid
          rcases hid with (hid | hid) | hid
          · obtain ⟨n, -, rfl⟩ := List.mem_map.mp hid
            exact huser n
          · rcases List.mem_cons.mp hid with rfl | hid
            · exact (h.owned_free hP hprocess).1
            · obtain rfl := List.mem_singleton.mp hid
              exact (h.owned_free hP hparent).2
          · exact orphanAcquires_free hP h _ id hid

theorem afterTerminatedAcquires_free (h : Seats P n k) {parent : Option (Int × Nat)}
    (hparent : ∀ P ∈ parent, ∃ p ∈ k.processTable P.1, p.inst = P.2) :
    ∀ id ∈ k.afterTerminatedAcquires pid parent, Free id := by
  unfold afterTerminatedAcquires
  split
  · exact reapAcquires_free hP h
  next ppid pinst =>
      obtain ⟨p, hp, hinst⟩ := hparent _ rfl
      have hslot : k.processTable ppid = some p := hp
      intro id hid
      rcases List.mem_cons.mp hid with rfl | hid
      · rw [← show p.inst = pinst from hinst]
        exact (h.owned_free hP hslot).2
      · rw [hslot] at hid
        dsimp only at hid
        split at hid
        · cases hid
        · exact reapAcquires_free hP h id hid

theorem waitPidAcquires_free (h : Seats P n k) : ∀ id ∈ k.waitPidAcquires pid, Free id := by
  unfold waitPidAcquires
  split
  · exact fun id hid ↦ absurd hid List.not_mem_nil
  split
  · exact fun id hid ↦ absurd hid List.not_mem_nil
  next process hprocess =>
      intro id hid
      rcases List.mem_cons.mp hid with rfl | hid
      · exact (h.owned_free hP hprocess).1
      · split at hid
        · refine afterTerminatedAcquires_free hP h (fun P hP ↦ ?_) id hid
          split at hP
          · cases hP
          · obtain ⟨p, hp, rfl⟩ := Option.map_eq_some_iff.mp hP
            exact ⟨p, hp, rfl⟩
        · cases hid

theorem reapLoopAcquires_free (m : Nat) : ∀ {k : Kernel}, Seats P n k →
    ∀ id ∈ k.reapLoopAcquires m, Free id := by
  induction m with
  | zero => exact fun _ id hid ↦ absurd hid List.not_mem_nil
  | succ m ih =>
      intro k h
      unfold reapLoopAcquires
      split
      · exact fun id hid ↦ absurd hid List.not_mem_nil
      next cur p hcur =>
          intro id hid
          rcases List.mem_cons.mp hid with rfl | hid
          · exact (h.owned_free hP (current_eq_some.mp hcur).2).2
          · have htaken := seatsRule.moveRule.tryWait h (.childTerminated p.inst)
            split at hid
            next k' hk' =>
                rw [hk'] at htaken
                rcases List.mem_append.mp hid with hid | hid
                · exact reapAcquires_free hP (htaken.pollTerminatedChildren cur p) id hid
                · have hreaped : Seats P n (k'.pollAndReap cur p) :=
                    seatsRule.moveRule.pollAndReap (k := k') (e := .reapZombies) htaken trivial
                      trivial cur p
                  exact ih hreaped id hid
            · cases hid

/-- **What an event acquires belongs to a process in the table, or to user processes.** -/
theorem acquires_free (huser : ∀ n, Free (.user n)) (h : Seats P n k) (e : Event)
    (hfinds : e.FindsParent k) : ∀ id ∈ k.acquires e, Free id := by
  have hnone : ∀ id ∈ ([] : List SemId), Free id := fun id hid ↦ absurd hid List.not_mem_nil
  have hone : ∀ n, ∀ id ∈ [SemId.user n], Free id := fun n id hid ↦
    List.mem_singleton.mp hid ▸ huser n
  cases e with
  | exit closed =>
      intro id hid
      obtain ⟨c, -, hid⟩ := List.mem_flatMap.mp hid
      exact terminateAcquires_free hP huser h id hid
  | kill pid closed =>
      intro id hid
      obtain ⟨c, -, hid⟩ := List.mem_flatMap.mp hid
      exact terminateAcquires_free hP huser h id hid
  | ctrlC pid closed =>
      rw [acquires]
      split
      · exact hnone
      · exact terminateAcquires_free hP huser h
  | waitPid pid =>
      intro id hid
      obtain ⟨c, -, hid⟩ := List.mem_flatMap.mp hid
      exact waitPidAcquires_free hP h id hid
  | reapZombies =>
      intro id hid
      obtain ⟨c, -, hid⟩ := List.mem_flatMap.mp hid
      exact reapLoopAcquires_free hP _ h id hid
  | resume =>
      intro id hid
      obtain ⟨c, hc, hid⟩ := List.mem_flatMap.mp hid
      have hparent := hfinds c (by simpa using hc)
      split at hid
      next hcont =>
          rw [hcont] at hparent
          exact afterTerminatedAcquires_free hP h hparent id hid
      all_goals cases hid
  | semWait n => exact hone n
  | semPost n => exact hone n
  | semTryWait n => exact hone n
  | _ => exact hnone

end Acquires

/-! ## While `init` runs -/

/-- An event that leaves the running process and the control blocks where they are. -/
structure Calm (s t : Kernel) : Prop where
  currentProcess : t.currentProcess = s.currentProcess
  blockOf : ∀ q, t.blockOf q = s.blockOf q

theorem caller_of_init (hcur : k.currentProcess = some (INIT_PID, 1)) : k.caller = none := by
  cases hcaller : k.caller with
  | none => rfl
  | some c =>
      obtain ⟨cur, p⟩ := c
      obtain ⟨hcurrent, -, hinst⟩ := caller_eq_some hcaller
      have hsame := (current_eq_some.mp hcurrent).1
      rw [hcur] at hsame
      have hone := (Prod.mk.inj (Option.some.inj hsame)).2
      omega

theorem resume_of_init (hcur : k.currentProcess = some (INIT_PID, 1))
    (hof : Event.ofInit k .resume = false) : k.current = none := by
  cases hcurrent : k.current with
  | none => rfl
  | some c =>
      obtain ⟨cur, p⟩ := c
      have hsame := (current_eq_some.mp hcurrent).1
      rw [hcur] at hsame
      have hone := (Prod.mk.inj (Option.some.inj hsame)).2
      simp [Event.ofInit, hcurrent, ← hone] at hof

/-- What an interrupt does while `init` runs, apart from the timer and Ctrl+C: it may give the heap
back, or use the semaphores of user processes. -/
inductive Interrupt (k : Kernel) : Kernel → Prop
  | enable : Interrupt k { k with schedulerEnabled := true }
  | heap (nodes : Node → Bool) : Interrupt k { k with nodes := nodes }
  | semOpen (value : Int) : Interrupt k
      { k.setSem (.user k.nextSem) (.new value) with nextSem := k.nextSem + 1 }
  | post (m : Nat) : Interrupt k (k.post (.user m))
  | take (m : Nat) : Interrupt k (k.take (.user m))
  | refused : Interrupt k k

/-- While `init` runs, there are no system calls. -/
theorem interrupt_of_init {e : Event} (hcur : k.currentProcess = some (INIT_PID, 1))
    (hof : e.ofInit k = false) (htick : e ≠ .tick) (hctrlC : ∀ pid closed, e ≠ .ctrlC pid closed)
    (ht : k.step e = some t) : Interrupt k t := by
  have hcaller := caller_of_init hcur
  cases e with
  | tick => exact absurd rfl htick
  | enableScheduler =>
      obtain rfl := Option.some.inj ht
      exact .enable
  | heap nodes =>
      obtain rfl := Option.some.inj ht
      exact .heap nodes
  | semOpen value =>
      obtain rfl := Option.some.inj ht
      exact .semOpen value
  | semPost m =>
      rw [Kernel.step] at ht
      split at ht
      · obtain rfl := Option.some.inj ht
        exact .post m
      · cases ht
  | semTryWait m =>
      rw [Kernel.step] at ht
      split at ht
      · obtain rfl := Option.some.inj ht
        rcases tryWait_cases k (.user m) with ⟨-, heq⟩ | ⟨-, heq⟩
        · rw [heq]
          exact .take m
        · rw [heq]
          exact .refused
      · cases ht
  | create => simp [Event.ofInit, hcaller] at hof
  | waitAny => cases hof
  | ctrlC pid closed => exact absurd rfl (hctrlC pid closed)
  | resume =>
      rw [Kernel.step, resume_of_init hcur hof] at ht
      cases ht
  | _ =>
      rw [Kernel.step, hcaller] at ht
      cases ht

/-- A tick lets the running process go on, which has a quantum left. -/
theorem tick_of_init (hcur : k.currentProcess = some (INIT_PID, 1))
    (htick : ∀ c ∈ k.current, c.2.state = .RUNNING ∧ c.2.remainingQuantums > 0)
    (ht : k.schedule = some t) : t = k ∨ t = k.modify INIT_PID fun p ↦
      { p with remainingQuantums := p.remainingQuantums - 1 } := by
  rcases schedule_cases ht with ⟨-, rfl⟩ | ⟨-, ⟨cur, p, hcurrent, -, -, rfl⟩ |
    ⟨cur, p, hcurrent, -, hzero, -⟩ | ⟨hnone | ⟨cur, p, hcurrent, hstate⟩, -⟩⟩
  · exact .inl rfl
  · have hpointer := hcur.symm.trans (current_eq_some.mp hcurrent).1
    obtain ⟨rfl, -⟩ := Prod.mk.inj (Option.some.inj hpointer)
    exact .inr rfl
  · exact absurd hzero (Nat.ne_of_gt (htick _ hcurrent).2)
  · cases hnone.symm.trans hcur
  · exact absurd (htick _ hcurrent).1 hstate

/-- While `init` runs, there are only interrupts: a tick that lets it go on, and posts. -/
theorem calm_of_init {e : Event} (hcur : k.currentProcess = some (INIT_PID, 1))
    (hof : e.ofInit k = false)
    (htick : e = .tick → ∀ c ∈ k.current, c.2.state = .RUNNING ∧ c.2.remainingQuantums > 0)
    (hctrlC : ∀ pid closed, e ≠ .ctrlC pid closed) (ht : k.step e = some t) : Calm k t := by
  by_cases he : e = .tick
  · subst he
    rcases tick_of_init hcur (htick rfl) ht with rfl | rfl
    · exact ⟨rfl, fun _ ↦ rfl⟩
    · exact ⟨rfl, fun _ ↦ blockOf_modify fun _ ↦ rfl⟩
  · cases interrupt_of_init hcur hof he hctrlC ht with
    | post m => exact ⟨post_currentProcess k _, fun _ ↦ blockOf_post⟩
    | _ => exact ⟨rfl, fun _ ↦ rfl⟩

end Kernel

/-! ## The invariant -/

namespace Locks

open Kernel

variable {s t : Locks} {i n : Nat} {id : SemId} {e : Kernel.Event}

/-- The locks of the control block `i` are free, or `init` holds them. -/
def Ok (s : Locks) (i : Nat) : Prop := ∀ id ∈ owned i, s.lock id = true → id ∈ s.pc.holds

/-- The invariant of the locks. -/
structure Inv (s : Locks) : Prop where
  seats : Seats s.Ok 0 s.kernel
  user : ∀ n, s.lock (.user n) = false
  /-- While `init` holds a lock, it is the running process. -/
  running : s.pc.holds ≠ [] → s.kernel.currentProcess = some (INIT_PID, 1)
  /-- The control block that `init` is freeing is in its slot. -/
  freeing : ∀ pid inst, s.pc.frees = some (pid, inst) → s.kernel.blockOf pid = some inst

theorem holds_of_frees {pc : InitPc} (h : pc.holds = []) : pc.frees = none := by
  cases pc with
  | freeTerminated pid inst => cases h
  | acquireChildTerminated pid inst => cases h
  | freeChildTerminated pid inst => cases h
  | clearSlot pid inst => cases h
  | _ => rfl

/-- The locks that are held have been held before, or `init` holds them. -/
theorem Ok.mono (h : s.Ok i) (hlock : ∀ id, t.lock id = true →
      id ∈ t.pc.holds ∨ s.lock id = true ∧ (id ∈ s.pc.holds → id ∈ t.pc.holds)) : t.Ok i := by
  intro id hid hheld
  rcases hlock id hheld with hmem | ⟨hheld, himp⟩
  · exact hmem
  · exact himp (h id hid hheld)

namespace Inv

/-- **Nothing that is acquired is held**, before an event that meets the guard. -/
theorem acquires_free (h : Inv s) (hok : Guard s (.kernel e)) :
    ∀ id ∈ s.acquires (.kernel e), s.lock id = false := by
  have hnone : ∀ id ∈ ([] : List SemId), s.lock id = false := fun id hid ↦
    absurd hid List.not_mem_nil
  rw [acquires]
  split
  · exact hnone
  next hof =>
      by_cases hholds : s.pc.holds = []
      · have hfree : ∀ i, s.Ok i → ∀ id ∈ owned i, s.lock id = false := by
          intro i hi id hid
          cases hlock : s.lock id with
          | false => rfl
          | true =>
              have hmem := hi id hid hlock
              rw [hholds] at hmem
              cases hmem
        refine Kernel.acquires_free hfree h.user h.seats e ?_
        cases e with
        | resume => exact hok
        | _ => trivial
      · -- the running process is `init`, so there is no system call
        have hcur := h.running hholds
        have hcaller := caller_of_init hcur
        cases e with
        | semWait n => exact fun id hid ↦ List.mem_singleton.mp hid ▸ h.user n
        | semPost n => exact fun id hid ↦ List.mem_singleton.mp hid ▸ h.user n
        | semTryWait n => exact fun id hid ↦ List.mem_singleton.mp hid ▸ h.user n
        | ctrlC pid closed => exact absurd hok hholds
        | resume =>
            rw [Kernel.acquires, resume_of_init hcur (by simpa using hof)]
            exact hnone
        | exit closed =>
            rw [Kernel.acquires, hcaller]
            exact hnone
        | kill pid closed =>
            rw [Kernel.acquires, hcaller]
            exact hnone
        | waitPid pid =>
            rw [Kernel.acquires, hcaller]
            exact hnone
        | reapZombies =>
            rw [Kernel.acquires, hcaller]
            exact hnone
        | _ => exact hnone

/-- An event of the kernel. -/
theorem kernel (h : Inv s) (hok : Guard s (.kernel e)) (ht : s.step (.kernel e) = some t) :
    Inv t := by
  rw [step] at ht
  split at ht
  · cases ht
  next hpossible =>
      obtain ⟨k', hk', rfl⟩ := Option.map_eq_some_iff.mp ht
      have hof : e.ofInit s.kernel = false := by simpa using (not_or.mp hpossible).1
      -- while `init` holds a lock, nothing moves
      have hcalm : s.pc.holds ≠ [] → Calm s.kernel k' := by
        intro hholds
        refine calm_of_init (h.running hholds) hof ?_ ?_ hk'
        · rintro rfl
          exact hok hholds
        · rintro pid closed rfl
          exact hholds hok
      have hseats : Seats s.Ok s.kernel.nextInst k' :=
        seatsRule.step { h.seats with next := Nat.le_refl _ } trivial hk'
      have hlock : ∀ i, ¬freed s.kernel k' i → s.Ok i →
          Ok { s with kernel := k', lock := s.lockAfter k' } i := by
        intro i hi hsi id hid hheld
        refine hsi id hid ?_
        rcases List.mem_cons.mp hid with rfl | hid
        · simpa [lockAfter, hi] using hheld
        · obtain rfl := List.mem_singleton.mp hid
          simpa [lockAfter, hi] using hheld
      refine ⟨{ hseats.mono (fun q i hq hi ↦ hlock i ?_ hi) (fun i hi hsi ↦ hlock i ?_ hsi) with
        next := Nat.zero_le _ }, h.user, fun hholds ↦ ?_, fun pid inst hfrees ↦ ?_⟩
      · rintro ⟨-, hgone⟩
        obtain ⟨p, hp, rfl⟩ := Option.map_eq_some_iff.mp hq
        exact hgone ⟨q, mem_pids.mpr (hseats.valid q _ hq), p, hp, rfl⟩
      · rintro ⟨⟨q, -, p, hp, rfl⟩, -⟩
        have hold := h.seats.old q _ (blockOf_of_some hp)
        have hnext := hseats.next
        omega
      · rw [← h.running hholds]
        exact (hcalm hholds).currentProcess
      · have hholds : s.pc.holds ≠ [] := fun hnil ↦ by
          cases hfrees.symm.trans (holds_of_frees hnil)
        rw [← h.freeing pid inst hfrees]
        exact (hcalm hholds).blockOf pid

/-- A step of `init` that takes no lock and keeps those that it holds. -/
theorem advance (h : Inv s) {k : Kernel} {pc : InitPc} (hseats : Seats s.Ok 0 k)
    (hholds : pc.holds = s.pc.holds)
    (hrunning : pc.holds ≠ [] → k.currentProcess = s.kernel.currentProcess)
    (hfrees : pc.frees = none) : Inv { s with kernel := k, pc := pc } where
  seats := by
    refine hseats.mono (fun _ _ _ hi ↦ hi.mono fun id hid ↦ ?_) fun _ _ hi ↦ hi.mono fun id hid ↦ ?_
    all_goals exact .inr ⟨hid, fun hmem ↦ hholds ▸ hmem⟩
  user := h.user
  running hne := (hrunning hne).trans (h.running (hholds ▸ hne))
  freeing pid inst hsome := by cases hfrees.symm.trans hsome

/-- `init` takes a lock, or spins with interrupts on. -/
theorem acquire (h : Inv s) {pc : InitPc} (hid : ∀ n, id ≠ .user n)
    (hcur : s.kernel.currentProcess = some (INIT_PID, 1)) (hmem : id ∈ pc.holds)
    (hholds : ∀ j ∈ s.pc.holds, j ∈ pc.holds)
    (hfrees : ∀ pid inst, pc.frees = some (pid, inst) → s.kernel.blockOf pid = some inst) :
    Inv (s.acquire id pc) := by
  unfold Locks.acquire
  split
  · exact h
  · have hlock : ∀ j, ({ s.setLock id true with pc := pc } : Locks).lock j = true →
        j ∈ pc.holds ∨ s.lock j = true ∧ (j ∈ s.pc.holds → j ∈ pc.holds) := by
      intro j hj
      by_cases heq : j = id
      · exact .inl (heq ▸ hmem)
      · exact .inr ⟨by simpa [setLock, heq] using hj, hholds j⟩
    exact ⟨h.seats.mono (fun _ _ _ hi ↦ hi.mono hlock) fun _ _ hi ↦ hi.mono hlock,
      fun n ↦ (if_neg (hid n).symm).trans (h.user n), fun _ ↦ hcur, hfrees⟩

/-- `init` lets a lock go, or frees its semaphore. -/
theorem freeSemaphore (h : Inv s) {pc : InitPc} (hholds : pc.holds = s.pc.holds)
    (hfrees : pc.frees = s.pc.frees) : Inv (s.freeSemaphore id pc) := by
  have hfreed : ∀ lock : SemId → Bool, (∀ j, lock j = true → s.lock j = true) →
      Inv { s with lock := lock, pc := pc } := by
    intro lock hsub
    have hlock : ∀ j, lock j = true →
        j ∈ pc.holds ∨ s.lock j = true ∧ (j ∈ s.pc.holds → j ∈ pc.holds) :=
      fun j hj ↦ .inr ⟨hsub j hj, fun hmem ↦ hholds ▸ hmem⟩
    refine ⟨h.seats.mono (fun _ _ _ hi ↦ hi.mono hlock) fun _ _ hi ↦ hi.mono hlock, fun n ↦ ?_,
      fun hne ↦ h.running (hholds ▸ hne), fun pid inst hsome ↦ h.freeing pid inst (hfrees ▸ hsome)⟩
    cases hn : lock (.user n) with
    | false => exact hn
    | true => cases (h.user n).symm.trans (hsub _ hn)
  unfold Locks.freeSemaphore
  split
  · exact hfreed _ fun _ hj ↦ hj
  · refine hfreed _ fun j hj ↦ ?_
    by_cases heq : j = id
    · simp [setLock, heq] at hj
    · simpa [setLock, heq] using hj

/-- The slot of the control block that `init` has freed is cleared. -/
theorem clearSlot (h : Inv s) {pid : Int} {inst : Nat} (hpc : s.pc = .clearSlot pid inst) :
    Inv { s with kernel := s.kernel.reapProcess pid none, pc := .acquire } := by
  have hblock : s.kernel.blockOf pid = some inst := h.freeing pid inst (by rw [hpc]; rfl)
  have hlock : ∀ i, i ≠ inst → s.Ok i → Ok { s with
      kernel := s.kernel.reapProcess pid none, pc := .acquire } i := by
    intro i hne hi id hid hheld
    have hmem := hi id hid hheld
    rw [hpc] at hmem
    simp only [owned, InitPc.holds, List.mem_cons, List.not_mem_nil, or_false] at hid hmem
    rcases hid with rfl | rfl
    · exact absurd (by simpa using hmem) hne
    · exact absurd (by simpa using hmem) hne
  rcases reapProcess_cases s.kernel pid none with ⟨hnone | hinvalid, -⟩ | ⟨p, -, hp, heq⟩
  · rw [blockOf, hnone] at hblock
    cases hblock
  · exact absurd hinvalid (h.seats.valid pid inst hblock)
  · have hseats := h.seats.free pid p none
    rw [← heq] at hseats
    refine ⟨hseats.mono (fun q i hq hi ↦ hlock i ?_ hi) (fun i hle hi ↦ hlock i ?_ hi), h.user,
      fun hne ↦ absurd rfl hne, fun _ _ hsome ↦ (by cases hsome)⟩
    · -- no other slot has the same control block
      rintro rfl
      rw [heq] at hq
      obtain ⟨p', hp', hinst⟩ := Option.map_eq_some_iff.mp hq
      simp only [Kernel.freed] at hp'
      split at hp'
      · cases hp'
      next hne =>
          refine hne (h.seats.unique q pid _ ?_ hblock)
          rw [blockOf_of_some hp', hinst]
    · rintro rfl
      have hold := h.seats.old pid _ hblock
      rw [heq] at hle
      exact absurd hold (Nat.not_lt.mpr hle)

/-- `init` releases the lock of the semaphore that it waits on. -/
theorem release (h : Inv s) {mustBlock : Bool} {pc : InitPc} (hpc : s.pc = .release mustBlock)
    (hholds : pc.holds = []) : Inv { s.setLock (.childTerminated 1) false with pc := pc } := by
  have hlock : ∀ i, s.Ok i →
      Ok { s.setLock (.childTerminated 1) false with pc := pc } i := by
    intro i hi id hid hheld
    exfalso
    by_cases heq : id = .childTerminated 1
    · simp [setLock, heq] at hheld
    · have hmem := hi id hid (by simpa [setLock, heq] using hheld)
      rw [hpc] at hmem
      exact heq (List.mem_singleton.mp hmem)
  refine ⟨h.seats.mono (fun _ _ _ ↦ hlock _) fun _ _ ↦ hlock _, fun n ↦ h.user n,
    fun hne ↦ absurd hholds hne, fun _ _ hsome ↦ ?_⟩
  cases hsome.symm.trans (holds_of_frees hholds)

/-- **A step of `init`.** -/
theorem initStep (h : Inv s) {p : ProcessCDT} (hcur : s.kernel.currentProcess = some (INIT_PID, 1))
    (ht : s.initStep p = some t) : Inv t := by
  have hstarted : ∀ k', s.kernel.startNewProcess 1 = some k' → Seats s.Ok 0 k' := by
    intro k' hk'
    rcases startNewProcess_cases 1 s.kernel with hnone | ⟨pid, hfree, hsome⟩
    · cases hnone.symm.trans hk'
    · obtain rfl := Option.some.inj (hsome.symm.trans hk')
      have hregistered : Seats s.Ok 0 (s.kernel.registered pid).2 := by
        unfold registered
        split
        · split
          · exact h.seats.modify fun _ ↦ rfl
          · exact h.seats
        · exact h.seats
      exact hregistered.start (findFreePid_eq_some hfree).1 _
  unfold Locks.initStep at ht
  dsimp only at ht
  split at ht
  next hpc =>
      obtain ⟨k', hk', rfl⟩ := Option.map_eq_some_iff.mp ht
      refine h.advance ?_ (by rw [hpc]; rfl) (fun hne ↦ absurd rfl hne) rfl
      rw [sysCreateProcess_eq_some hk']
      cases hk : s.kernel.startNewProcess 1 with
      | none => exact h.seats
      | some k' => exact hstarted k' hk
  next hpc =>
      obtain rfl := Option.some.inj ht
      refine h.acquire (by simp) hcur List.mem_cons_self ?_ fun _ _ hsome ↦ (by cases hsome)
      rw [hpc]
      exact fun j hj ↦ absurd hj List.not_mem_nil
  next hpc =>
      have hseats : ∀ r, Seats s.Ok 0 (s.kernel.setSem (.childTerminated 1) r) :=
        fun _ ↦ h.seats.of_table rfl rfl
      split at ht
      · obtain rfl := Option.some.inj ht
        exact h.advance (hseats _) (by rw [hpc]; rfl) (fun _ ↦ rfl) rfl
      · obtain rfl := Option.some.inj ht
        exact h.advance ((hseats _).modify fun _ ↦ rfl) (by rw [hpc]; rfl) (fun _ ↦ rfl) rfl
  next hpc =>
      obtain rfl := Option.some.inj ht
      have hblocked : s.kernel.setCurrentBlocked = s.kernel.setState INIT_PID .BLOCKED := by
        rw [setCurrentBlocked, hcur]
      rw [hblocked]
      exact h.advance (h.seats.modify fun _ ↦ rfl) (by rw [hpc]; rfl) (fun _ ↦ rfl) rfl
  next hpc =>
      obtain rfl := Option.some.inj ht
      have hseats : ∀ r, Seats s.Ok 0 (s.kernel.setSem (.childTerminated 1) r) :=
        fun _ ↦ h.seats.of_table rfl rfl
      exact h.advance ((hseats _).modify fun _ ↦ rfl) (by rw [hpc]; rfl) (fun _ ↦ rfl) rfl
  next mustBlock hpc =>
      obtain rfl := Option.some.inj ht
      refine h.release hpc ?_
      split
      · rfl
      · rfl
  next hpc =>
      obtain ⟨k', hk', rfl⟩ := Option.map_eq_some_iff.mp ht
      exact h.advance (h.seats.schedule hk') (by rw [hpc]; rfl) (fun hne ↦ absurd rfl hne) rfl
  next hpc =>
      obtain rfl := Option.some.inj ht
      have hreturned : Seats s.Ok 0 (if p.cont = .waitAny then
          s.kernel.returnFrom (.childTerminated 1) INIT_PID else s.kernel) := by
        split
        · exact h.seats.of_table rfl rfl
        · exact h.seats
      have huser : Seats s.Ok 0 ((if p.cont = .waitAny then s.kernel.returnFrom (.childTerminated 1)
          INIT_PID else s.kernel).setCont INIT_PID .user) :=
        hreturned.modify fun _ ↦ rfl
      generalize (if p.cont = .waitAny then s.kernel.returnFrom (.childTerminated 1) INIT_PID
        else s.kernel).setCont INIT_PID .user = u at huser
      have hseats := huser.pollTerminatedChildren INIT_PID p
      split
      · exact h.advance hseats (by rw [hpc]; rfl) (fun hne ↦ absurd rfl hne) rfl
      · exact h.advance hseats (by rw [hpc]; rfl) (fun hne ↦ absurd rfl hne) rfl
  next pid hpc =>
      obtain rfl := Option.some.inj ht
      exact h.advance (h.seats.modify fun _ ↦ rfl) (by rw [hpc]; rfl) (fun hne ↦ absurd rfl hne) rfl
  next pid hpc =>
      split at ht
      next hnone =>
          obtain rfl := Option.some.inj ht
          exact h.advance h.seats (by rw [hpc]; rfl) (fun hne ↦ absurd rfl hne) rfl
      next q hq =>
          obtain rfl := Option.some.inj ht
          refine h.acquire (by simp) hcur List.mem_cons_self ?_ ?_
          · rw [hpc]
            exact fun j hj ↦ absurd hj List.not_mem_nil
          · intro pid' inst hsome
            obtain ⟨rfl, rfl⟩ := Prod.mk.inj (Option.some.inj hsome)
            exact blockOf_of_some hq
  next pid inst hpc =>
      obtain rfl := Option.some.inj ht
      exact h.freeSemaphore (by rw [hpc]; rfl) (by rw [hpc]; rfl)
  next pid inst hpc =>
      obtain rfl := Option.some.inj ht
      refine h.acquire (by simp) hcur (List.mem_cons_of_mem _ List.mem_cons_self) ?_ ?_
      · rw [hpc]
        exact fun j hj ↦ List.mem_singleton.mp hj ▸ List.mem_cons_self
      · exact fun _ _ hsome ↦ h.freeing _ _ (by rw [hpc]; exact hsome)
  next pid inst hpc =>
      obtain rfl := Option.some.inj ht
      exact h.freeSemaphore (by rw [hpc]; rfl) (by rw [hpc]; rfl)
  next pid inst hpc =>
      obtain rfl := Option.some.inj ht
      exact h.clearSlot hpc

theorem step (h : Inv s) {ev : Event} (hok : Guard s ev) (ht : s.step ev = some t) : Inv t := by
  cases ev with
  | kernel e => exact h.kernel hok ht
  | init =>
      obtain ⟨c, hc, ht⟩ := Option.bind_eq_some_iff.mp ht
      obtain ⟨hcurrent, hcond⟩ := Option.filter_eq_some_iff.mp hc
      obtain ⟨cur, p⟩ := c
      obtain ⟨rfl, hinst⟩ : cur = INIT_PID ∧ p.inst = 1 := by simpa using hcond
      have hcur := (current_eq_some.mp hcurrent).1
      rw [hinst] at hcur
      exact h.initStep hcur ht

theorem init : Inv init where
  seats := by
    have hblock : ∀ q i, initializeScheduler.blockOf q = some i →
        q = INIT_PID ∧ i = 1 ∨ q = IDLE_PID ∧ i = 0 := by
      intro q i hq
      obtain ⟨p, hp, rfl⟩ := Option.map_eq_some_iff.mp hq
      rcases init_eq_some hp with ⟨hslot, rfl⟩ | ⟨hslot, rfl⟩
      · exact .inl ⟨hslot, rfl⟩
      · exact .inr ⟨hslot, rfl⟩
    have hfree : ∀ i, Locks.init.Ok i := fun _ _ _ hheld ↦ (by cases hheld)
    refine ⟨Nat.zero_le _, fun q q' i hq hq' ↦ ?_, fun q i hq ↦ ?_, fun q i hq ↦ ?_,
      fun _ i _ ↦ hfree i, fun i _ ↦ hfree i⟩
    · rcases hblock q i hq with ⟨rfl, rfl⟩ | ⟨rfl, rfl⟩
      · rcases hblock q' 1 hq' with ⟨rfl, -⟩ | ⟨-, hi⟩
        · rfl
        · cases hi
      · rcases hblock q' 0 hq' with ⟨-, hi⟩ | ⟨rfl, -⟩
        · cases hi
        · rfl
    · rcases hblock q i hq with ⟨rfl, -⟩ | ⟨rfl, -⟩
      · decide
      · decide
    · rcases hblock q i hq with ⟨-, rfl⟩ | ⟨-, rfl⟩
      · decide
      · decide
  user _ := rfl
  running hne := absurd rfl hne
  freeing _ _ hsome := by cases hsome

end Inv

/-! ## The result -/

/-- `init` waits, a command that the shell waits for leaves two children behind, and one of
them terminates: `init` reaps it and calls `wait_any` again, up to its `ACQUIRE`. -/
def orphanEvents : List Event :=
  bootEvents ++
    [.kernel .create, .kernel (.waitPid 3), .kernel .tick, .kernel .create,
      .kernel .create, .kernel (.exit []), .kernel .tick, .kernel (.exit []), .kernel .tick,
      .kernel .resume, .kernel .tick, .kernel .tick] ++ List.replicate 8 .init

/-- The shell waits for a child of process 3, process 4 kills 3 and reaps it, and the child of 3
terminates. -/
def freedEvents : List Event :=
  bootEvents ++
    [.kernel .create, .kernel .create, .kernel .tick, .kernel .tick, .kernel .create,
      .kernel .tick, .kernel .tick, .kernel (.waitPid 5), .kernel .tick, .kernel .tick,
      .kernel .tick, .kernel (.kill 3 []), .kernel (.waitPid 3), .kernel .tick, .kernel .tick,
      .kernel (.exit []), .kernel .tick, .kernel .tick]

/-- **The parent that `wait_pid` has read was freed**: `freeSemaphore` has left its lock taken, and
the shell acquires it when it goes on, with interrupts off. -/
theorem spinlocks_freed : ∃ s : Locks,
    Reach Locks.step (fun _ _ ↦ True) Locks.init s ∧ s.kernel.getCurrentPID = 2 ∧
      .childTerminated 3 ∈ s.acquires (.kernel .resume) ∧ s.lock (.childTerminated 3) = true ∧
      s.step (.kernel .resume) = none := by
  have hrun : (run Locks.step Locks.init freedEvents).map (fun s ↦
      decide (s.kernel.getCurrentPID = 2 ∧ .childTerminated 3 ∈ s.acquires (.kernel .resume) ∧
        s.lock (.childTerminated 3) = true ∧ (s.step (.kernel .resume)).isNone)) = some true := by
    decide +kernel
  obtain ⟨s, hrun, hobs⟩ := Option.map_eq_some_iff.mp hrun
  obtain ⟨hcur, hacquires, hlock, hstuck⟩ := of_decide_eq_true hobs
  exact ⟨s, .of_run hrun (.of_true _ _), hcur, hacquires, hlock,
    Option.isNone_iff_eq_none.mp hstuck⟩

end Locks

end BareBones.Process
