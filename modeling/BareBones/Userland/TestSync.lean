import BareBones.Lib.Run
import BareBones.Lib.Sums
import BareBones.Semaphores.SharedMap
import BareBones.Semaphores.Waiting
import Mathlib.Data.BitVec
import Mathlib.Tactic.LinearCombination

/-!
# The test of synchronisation

The model of `my_process_inc` and `slowInc` of `test_sync.c`, run by any number of processes
that start at any time and may be preempted between any two instructions.  Each opens the
semaphore `"sem"` with the value 1, adds its increment to the shared variable in a number of
rounds, with a wait and a post around each, and closes the semaphore.  The last user that
closes destroys the semaphore, and the next one that opens creates a new one: a process may
well start when others have finished, so this happens any number of times in a run.

The invariant says what the reference count of `"sem"` counts, namely the processes between
their open and their close, so that the semaphore is destroyed only when nobody waits for
it and nobody is between its wait and its post; and that its tokens and the processes
between their wait and their post add up to one (`mutual_exclusion`).

The heap always has room for the nodes of the queues here (`step_nodes`): a process whose node is
refused would be blocked for good.
-/

namespace BareBones.Userland

open BareBones.Lib BareBones.Process BareBones.Semaphores

/-- `SEM_ID` of `test_sync.c` -/
def SEM_ID : SemName := ⟨[115, 101, 109], by decide, by decide, by decide⟩

/-- Where a process is in `my_process_inc`. -/
inductive SyncPC
  /-- Before `sys_sem_open`. -/
  | start
  /-- At the head of the loop. -/
  | loop
  /-- In `sys_sem_wait`, and then in `slowInc` before `aux = *p`. -/
  | read
  /-- In `slowInc`, before `*p = aux`. -/
  | write (aux : BitVec 64)
  /-- Before `sys_sem_post`. -/
  | post
  /-- Before `sys_exit`. -/
  | exit
deriving DecidableEq

/-- A process that executes `my_process_inc`, with its local variables. -/
structure SyncProc where
  n : Nat
  inc : BitVec 64
  i : Nat
  pc : SyncPC

/-- The processes, the table of semaphores and the shared variable. -/
structure TestSync where
  shared : Shared States
  proc : Int → SyncProc
  global : BitVec 64
  /-- The number of rounds and the increment of each process that was created. -/
  created : List (Nat × BitVec 64)

namespace TestSync

/-- The states of the processes. -/
def procs (s : TestSync) : States := s.shared.sched

/-- Overwrite a process. -/
def setProc (s : TestSync) (pid : Int) (w : SyncProc) : TestSync :=
  { s with proc := fun q ↦ if q = pid then w else s.proc q }

/-- What can happen. -/
inductive Event
  /-- A process is created that does `n` rounds with the increment `inc`. -/
  | create (pid : Int) (n : Nat) (inc : BitVec 64)
  /-- The process runs for one step; `room` tells whether the heap has room. -/
  | run (pid : Int) (room : Bool)
  /-- A process that has ended is reaped. -/
  | reap (pid : Int)

/-- The process `pid` runs. -/
def dispatch (s : TestSync) (pid : Int) : Shared States :=
  { s.shared with sched := { s.procs with currentPID := pid } }

/-- One step of the process `pid`.  Between the two instructions of `slowInc` it may call
`sys_yield`, which lets others run, as preemption does. -/
def instr (s : TestSync) (pid : Int) (room : Bool) : Option TestSync :=
  let w := s.proc pid
  match w.pc with
  | .start =>
      let (r, shared) := (s.dispatch pid).sharedSemOpen SEM_ID.buffer 1 room
      some ({ s with shared := shared }.setProc pid
        (if r < 0 then { w with pc := .exit } else { w with i := 0, pc := .loop }))
  | .loop =>
      if w.i < w.n then
        ((s.dispatch pid).sharedSemWait SEM_ID.buffer).map fun r ↦
          { s with shared := r.2 }.setProc pid { w with pc := .read }
      else
        ((s.dispatch pid).sharedSemClose SEM_ID.buffer).map fun r ↦
          { s with shared := r.2 }.setProc pid { w with pc := .exit }
  | .read => some (s.setProc pid { w with pc := .write s.global })
  | .write aux => some ({ s with global := aux + w.inc }.setProc pid { w with pc := .post })
  | .post =>
      ((s.dispatch pid).sharedSemPost SEM_ID.buffer).map fun r ↦
        { s with shared := r.2 }.setProc pid { w with i := w.i + 1, pc := .loop }
  | .exit =>
      some { s with shared := { s.shared with sched := s.procs.set pid (some .ZOMBIE) } }

/-- One event.  A process that is `READY` may be dispatched at any time. -/
def step (s : TestSync) : Event → Option TestSync
  | .create pid n inc =>
      if invalidPID pid ∨ s.procs.state pid ≠ none then none
      else some { s.setProc pid ⟨n, inc, 0, .start⟩ with
        shared := { s.shared with sched := s.procs.set pid (some .READY) }
        created := s.created ++ [(n, inc)] }
  | .run pid room => if s.procs.state pid = some .READY then s.instr pid room else none
  | .reap pid =>
      if s.procs.state pid = some .ZOMBIE then
        some { s with shared := { s.shared with sched := s.procs.set pid none } }
      else none

/-- No process yet. -/
def init (shared : Shared States) (global : BitVec 64) : TestSync where
  shared := { shared with sched := ⟨fun _ ↦ none, 0, true⟩ }
  proc := fun _ ↦ ⟨0, 0, 0, .exit⟩
  global := global
  created := []

/-- The semaphore is opened successfully. -/
def Event.Opens (s : TestSync) : Event → Prop
  | .run pid room => (s.proc pid).pc = .start →
      ((s.dispatch pid).sharedSemOpen SEM_ID.buffer 1 room).1 = 0
  | _ => True

instance (s : TestSync) : (e : Event) → Decidable (e.Opens s)
  | .run _ _ => inferInstanceAs (Decidable (_ → _))
  | .create _ _ _ | .reap _ => isTrue trivial

/-- The places between the wait and the post. -/
def SyncPC.inside : SyncPC → Bool
  | .read | .write _ | .post => true
  | .start | .loop | .exit => false

/-- The places between the open and the close. -/
def SyncPC.opened : SyncPC → Bool
  | .loop | .read | .write _ | .post => true
  | .start | .exit => false

/-- The process has returned from its wait, or been granted a token by a post, and has not
posted yet. -/
def Inside (s : TestSync) (pid : Int) : Prop :=
  s.procs.state pid = some .READY ∧ SyncPC.inside (s.proc pid).pc = true

instance (s : TestSync) : DecidablePred s.Inside :=
  fun _ ↦ inferInstanceAs (Decidable (_ ∧ _))

/-- The process is a user of the semaphore. -/
def Opened (s : TestSync) (pid : Int) : Prop :=
  s.procs.state pid ≠ none ∧ SyncPC.opened (s.proc pid).pc = true

instance (s : TestSync) : DecidablePred s.Opened :=
  fun _ ↦ inferInstanceAs (Decidable (_ ∧ _))

/-- The process has not added its increment in all its rounds. -/
def SyncProc.left (w : SyncProc) : Nat :=
  match w.pc with
  | .start => w.n
  | .loop | .read | .write _ => w.n - w.i
  | .post => w.n - (w.i + 1)
  | .exit => 0

/-- What the process has still to add. -/
def rest (s : TestSync) (pid : Int) : BitVec 64 :=
  if s.procs.state pid = none then 0 else SyncProc.left (s.proc pid) • (s.proc pid).inc

/-- What holds of each process, and the sum of what they have still to add. -/
structure Local (v₀ : BitVec 64) (s : TestSync) : Prop where
  valid : ∀ pid, s.procs.state pid ≠ none → ¬invalidPID pid
  blocked : ∀ pid, s.procs.state pid = some .BLOCKED → (s.proc pid).pc = .read
  zombie : ∀ pid, s.procs.state pid = some .ZOMBIE → (s.proc pid).pc = .exit
  running : ∀ pid, s.procs.state pid ≠ some .RUNNING
  round : ∀ pid, s.procs.state pid ≠ none → SyncPC.inside (s.proc pid).pc = true →
    (s.proc pid).i < (s.proc pid).n
  /-- Nobody has written since the process has read. -/
  aux : ∀ pid a, s.procs.state pid ≠ none → (s.proc pid).pc = .write a → a = s.global
  total : s.global + pids.sum s.rest = v₀ + (s.created.map fun w ↦ w.1 • w.2).sum

/-- What the semaphore counts. -/
structure Counts (s : TestSync) (m : Finmap fun _ : List UInt8 ↦ Nat × Int) : Prop where
  tabled : s.shared.Tabled m
  /-- The reference count counts the users. -/
  users : ∀ p c, m.lookup SEM_ID.bytes = some (p, c) → (count pids s.Opened : Int) = c
  unused : m.lookup SEM_ID.bytes = none → count pids s.Opened = 0
  waiting : ∀ p c, m.lookup SEM_ID.bytes = some (p, c) → ∀ sem, s.shared.sems p = some sem →
    Waiting sem s.procs fun q ↦ (s.proc q).pc = .read
  /-- The tokens and the processes inside add up to one. -/
  tokens : ∀ p c, m.lookup SEM_ID.bytes = some (p, c) → ∀ sem, s.shared.sems p = some sem →
    sem.tokens + count pids s.Inside = 1

variable {v₀ : BitVec 64} {s t : TestSync} {m m' : Finmap fun _ : List UInt8 ↦ Nat × Int}
  {pid q : Int} {room : Bool} {w : SyncProc} {p : Nat} {c : Int}

/-! ## What the invariant says -/

theorem Inside.opened (h : s.Inside pid) : s.Opened pid := by
  refine ⟨by rw [h.1]; simp, ?_⟩
  have hinside := h.2
  generalize (s.proc pid).pc = pc at hinside ⊢
  cases pc <;> first | rfl | cases hinside

theorem Local.mem_pids (h : Local v₀ s) (hpid : s.procs.state pid ≠ none) : pid ∈ pids :=
  Process.mem_pids.mpr (h.valid pid hpid)

/-- Only in the wait and at its end is a process not ready. -/
theorem Local.ready (h : Local v₀ s) (hpid : s.procs.state pid ≠ none)
    (hread : (s.proc pid).pc ≠ .read) (hexit : (s.proc pid).pc ≠ .exit) :
    s.procs.state pid = some .READY := by
  cases hst : s.procs.state pid with
  | none => exact absurd hst hpid
  | some st =>
      cases st with
      | READY => rfl
      | RUNNING => exact absurd hst (h.running pid)
      | BLOCKED => exact absurd (h.blocked pid hst) hread
      | ZOMBIE => exact absurd (h.zombie pid hst) hexit

/-- A user keeps the semaphore in the table. -/
theorem Counts.lookup (h : Counts s m) (hlocal : Local v₀ s) (hpid : s.Opened pid) :
    ∃ p c sem, m.lookup SEM_ID.bytes = some (p, c) ∧ s.shared.sems p = some sem := by
  cases hn : m.lookup SEM_ID.bytes with
  | none => exact absurd hpid (count_eq_zero.mp (h.unused hn) pid (hlocal.mem_pids hpid.1))
  | some e =>
      obtain ⟨-, -, sem, hsem⟩ := h.tabled.live _ e.1 e.2 hn
      exact ⟨e.1, e.2, sem, rfl, hsem⟩

/-- **At most one process is between its wait and its post.** -/
theorem Counts.inside_unique (h : Counts s m) (hlocal : Local v₀ s) (hpid : s.Inside pid)
    (hq : s.Inside q) : pid = q := by
  obtain ⟨p, c, sem, hn, hsem⟩ := h.lookup hlocal hpid.opened
  have htokens := h.tokens p c hn sem hsem
  exact eq_of_count_le_one (by omega) (hlocal.mem_pids hpid.opened.1)
    (hlocal.mem_pids hq.opened.1) hpid hq

/-! ## One process moves -/

/-- Only the process `pid`, which was not blocked, has changed. -/
structure Moves (s t : TestSync) (pid : Int) : Prop where
  mem : pid ∈ pids
  awake : s.procs.state pid ≠ some .BLOCKED
  proc : ∀ q, q ≠ pid → t.proc q = s.proc q
  state : ∀ q, q ≠ pid → t.procs.state q = s.procs.state q

/-- The sum of what the processes have been created to add. -/
def due (s : TestSync) : BitVec 64 := (s.created.map fun w ↦ w.1 • w.2).sum

namespace Moves

theorem inside_iff (h : Moves s t pid) (hq : q ≠ pid) : t.Inside q ↔ s.Inside q := by
  rw [Inside, Inside, h.proc q hq, h.state q hq]

theorem opened_iff (h : Moves s t pid) (hq : q ≠ pid) : t.Opened q ↔ s.Opened q := by
  rw [Opened, Opened, h.proc q hq, h.state q hq]

/-- Who waits for the semaphore and is blocked. -/
theorem waits_iff (h : Moves s t pid) (hst : t.procs.state pid ≠ some .BLOCKED) (q : Int) :
    ((t.proc q).pc = .read ∧ t.procs.state q = some .BLOCKED) ↔
      ((s.proc q).pc = .read ∧ s.procs.state q = some .BLOCKED) := by
  by_cases hq : q = pid
  · subst hq
    exact iff_of_false (fun hb ↦ hst hb.2) fun hb ↦ h.awake hb.2
  · rw [h.proc q hq, h.state q hq]

/-- The process has moved within its program. -/
theorem keeps (h : Moves s t pid) (hlocal : Local v₀ s)
    (hblocked : t.procs.state pid = some .BLOCKED → (t.proc pid).pc = .read)
    (hzombie : t.procs.state pid = some .ZOMBIE → (t.proc pid).pc = .exit)
    (hrunning : t.procs.state pid ≠ some .RUNNING)
    (hround : t.procs.state pid ≠ none → SyncPC.inside (t.proc pid).pc = true →
      (t.proc pid).i < (t.proc pid).n)
    (haux : ∀ a, t.procs.state pid ≠ none → (t.proc pid).pc = .write a → a = t.global)
    (hglobal : t.global = s.global ∨ ∀ q a, q ≠ pid → s.procs.state q ≠ none →
      (s.proc q).pc ≠ .write a)
    (htotal : t.global + t.rest pid + s.due = s.global + s.rest pid + t.due) : Local v₀ t := by
  refine ⟨fun q hq ↦ ?_, fun q hq ↦ ?_, fun q hq ↦ ?_, fun q hq ↦ ?_, fun q hq ↦ ?_,
    fun q a hq ↦ ?_, ?_⟩
  · by_cases hqpid : q = pid
    · exact hqpid ▸ Process.mem_pids.mp h.mem
    · exact hlocal.valid q (by rwa [← h.state q hqpid])
  · by_cases hqpid : q = pid
    · exact hqpid ▸ hblocked (hqpid ▸ hq)
    · rw [h.proc q hqpid]
      exact hlocal.blocked q (by rwa [← h.state q hqpid])
  · by_cases hqpid : q = pid
    · exact hqpid ▸ hzombie (hqpid ▸ hq)
    · rw [h.proc q hqpid]
      exact hlocal.zombie q (by rwa [← h.state q hqpid])
  · by_cases hqpid : q = pid
    · exact hrunning (hqpid ▸ hq)
    · exact hlocal.running q (by rwa [← h.state q hqpid])
  · by_cases hqpid : q = pid
    · exact hqpid ▸ hround (hqpid ▸ hq)
    · rw [h.proc q hqpid]
      exact hlocal.round q (by rwa [← h.state q hqpid])
  · by_cases hqpid : q = pid
    · exact hqpid ▸ haux a (hqpid ▸ hq)
    · rw [h.proc q hqpid]
      rw [h.state q hqpid] at hq
      intro hwrite
      rcases hglobal with hglobal | hglobal
      · rw [hglobal]
        exact hlocal.aux q a hq hwrite
      · exact absurd hwrite (hglobal q a hqpid hq)
  · have hchange := sum_change (f := t.rest) (g := s.rest) h.mem fun q hq ↦ by
      rw [rest, rest, h.proc q hq, h.state q hq]
    have hsum := hlocal.total
    rw [← due] at hsum ⊢
    linear_combination htotal + hchange + hsum

/-- The semaphore is not touched, and the process is neither blocked nor woken. -/
theorem counts (h : Moves s t pid) (hcounts : Counts s m) (ht : t.shared.Tabled m)
    (hsems : t.shared.sems = s.shared.sems) (hblocked : t.procs.state pid ≠ some .BLOCKED)
    (hinside : t.Inside pid ↔ s.Inside pid) (hopened : t.Opened pid ↔ s.Opened pid) :
    Counts t m := by
  have hi : count pids t.Inside = count pids s.Inside := count_congr fun q ↦ by
    by_cases hqpid : q = pid
    · rw [hqpid, hinside]
    · exact h.inside_iff hqpid
  have ho : count pids t.Opened = count pids s.Opened := count_congr fun q ↦ by
    by_cases hqpid : q = pid
    · rw [hqpid, hopened]
    · exact h.opened_iff hqpid
  refine ⟨ht, fun p c hn ↦ ?_, fun hn ↦ ?_, fun p c hn sem hsem ↦ ?_, fun p c hn sem hsem ↦ ?_⟩
  · rw [ho]
    exact hcounts.users p c hn
  · rw [ho]
    exact hcounts.unused hn
  · rw [hsems] at hsem
    exact (hcounts.waiting p c hn sem hsem).congr (h.waits_iff hblocked)
  · rw [hsems] at hsem
    rw [hi]
    exact hcounts.tokens p c hn sem hsem

end Moves

@[simp] theorem setProc_self : (s.setProc pid w).proc pid = w := if_pos rfl

theorem setProc_procs : (s.setProc pid w).procs = s.procs := rfl

/-- A process that was ready goes on, and no other process changes its state. -/
theorem Moves.of_setProc (hlocal : Local v₀ s) (hready : s.procs.state pid = some .READY)
    (shared : Shared States) (hstates : ∀ q, q ≠ pid → shared.sched.state q = s.procs.state q)
    (global : BitVec 64) (w : SyncProc) :
    Moves s ({ s with shared := shared, global := global }.setProc pid w) pid :=
  ⟨hlocal.mem_pids (by rw [hready]; simp), by rw [hready]; simp, fun _ hq ↦ if_neg hq, hstates⟩

/-- The state of the process after it has gone on. -/
theorem ready_setProc {shared : Shared States} (hready : s.procs.state pid = some .READY)
    (hstates : shared.sched.state = s.procs.state) (global : BitVec 64) (w : SyncProc) :
    ({ s with shared := shared, global := global }.setProc pid w).procs.state pid =
      some .READY := by
  rw [setProc_procs, procs, hstates, hready]

theorem rest_of_some (h : s.procs.state pid ≠ none) :
    s.rest pid = SyncProc.left (s.proc pid) • (s.proc pid).inc := if_neg h

/-- A step that changes only the process. -/
theorem Local.advance (h : Local v₀ s) (hready : s.procs.state pid = some .READY)
    (shared : Shared States) (hstates : shared.sched.state = s.procs.state) (w : SyncProc)
    (hround : SyncPC.inside w.pc = true → w.i < w.n) (haux : ∀ a, w.pc = .write a → a = s.global)
    (hleft : SyncProc.left w = SyncProc.left (s.proc pid)) (hinc : w.inc = (s.proc pid).inc) :
    Local v₀ ({ s with shared := shared }.setProc pid w) := by
  have hst := ready_setProc hready hstates s.global w
  have hmoves := Moves.of_setProc h hready shared (fun q _ ↦ congrFun hstates q) s.global w
  refine hmoves.keeps h ?_ ?_ ?_ ?_ ?_ (.inl rfl) ?_
  · intro hb
    cases hst.symm.trans hb
  · intro hz
    cases hst.symm.trans hz
  · intro hr
    cases hst.symm.trans hr
  · rw [setProc_self]
    exact fun _ ↦ hround
  · rw [setProc_self]
    exact fun a _ ↦ haux a
  · rw [rest_of_some (by rw [hst]; simp), rest_of_some (by rw [hready]; simp), setProc_self, hleft,
      hinc]
    rfl

/-! ## The shared variable -/

/-- `aux = *p` -/
theorem Local.read (h : Local v₀ s) (hready : s.procs.state pid = some .READY)
    (hpc : (s.proc pid).pc = .read) :
    Local v₀ (s.setProc pid { s.proc pid with pc := .write s.global }) := by
  refine h.advance hready s.shared rfl _ (fun _ ↦ ?_) (fun a ha ↦ ?_) ?_ rfl
  · exact h.round pid (by rw [hready]; simp) (by rw [hpc]; rfl)
  · cases ha
    rfl
  · rw [SyncProc.left, SyncProc.left, hpc]

/-- `*p = aux` -/
theorem Local.write (h : Local v₀ s) (hcounts : Counts s m)
    (hready : s.procs.state pid = some .READY) {a : BitVec 64} (hpc : (s.proc pid).pc = .write a) :
    Local v₀ ({ s with global := a + (s.proc pid).inc }.setProc pid
      { s.proc pid with pc := .post }) := by
  have hsome : s.procs.state pid ≠ none := by
    rw [hready]
    simp
  have hround := h.round pid hsome (by rw [hpc]; rfl)
  have ha := h.aux pid a hsome hpc
  set t := { s with global := a + (s.proc pid).inc }.setProc pid { s.proc pid with pc := .post }
    with ht
  have hst : t.procs.state pid = some .READY := hready
  have hmoves : Moves s t pid := .of_setProc h hready s.shared (fun _ _ ↦ rfl) _ _
  refine hmoves.keeps h ?_ ?_ ?_ ?_ ?_ (.inr ?_) ?_
  · intro hb
    cases hst.symm.trans hb
  · intro hz
    cases hst.symm.trans hz
  · intro hr
    cases hst.symm.trans hr
  · intro _ _
    rw [ht, setProc_self]
    exact hround
  · intro b _ hb
    rw [ht, setProc_self] at hb
    cases hb
  · -- another process that is about to write would be inside, too
    intro q b hq hqsome hwrite
    have hqready := h.ready hqsome (by rw [hwrite]; simp) (by rw [hwrite]; simp)
    exact hq (hcounts.inside_unique h ⟨hqready, by rw [hwrite]; rfl⟩ ⟨hready, by rw [hpc]; rfl⟩)
  · have hleft : SyncProc.left (s.proc pid) =
        SyncProc.left { s.proc pid with pc := .post } + 1 := by
      rw [SyncProc.left, SyncProc.left, hpc]
      simp only
      omega
    rw [rest_of_some (by rw [hst]; simp), rest_of_some hsome, hleft, succ_nsmul', ← add_assoc, ht,
      setProc_self, ← ha]
    rfl

/-! ## The semaphore -/

theorem Counts.dispatch (h : Counts s m) (pid : Int) : (s.dispatch pid).Tabled m :=
  h.tabled.setSched _

theorem not_opened (hpc : SyncPC.opened (s.proc pid).pc = false) : ¬s.Opened pid := fun h ↦ by
  rw [h.2] at hpc
  cases hpc

theorem not_inside (hpc : SyncPC.inside (s.proc pid).pc = false) : ¬s.Inside pid := fun h ↦ by
  rw [h.2] at hpc
  cases hpc

/-- The invariant, but for the heap. -/
def Inv (v₀ : BitVec 64) (s : TestSync) : Prop := Local v₀ s ∧ ∃ m, Counts s m

/-- `sys_sem_open` -/
theorem Inv.open (hlocal : Local v₀ s) (h : Counts s m)
    (hready : s.procs.state pid = some .READY) (hpc : (s.proc pid).pc = .start)
    (hok : (Event.run pid room).Opens s) (ht : s.instr pid room = some t) : Inv v₀ t := by
  have hpids : pid ∈ pids := hlocal.mem_pids (by rw [hready]; simp)
  have hout : ¬s.Opened pid := not_opened (by rw [hpc]; rfl)
  -- what does not depend on whether the name was known
  have hloop : ∀ shared : Shared States, shared.sched.state = s.procs.state →
      s.instr pid room = some ({ s with shared := shared }.setProc pid
        { s.proc pid with i := 0, pc := .loop }) →
      t.shared = shared ∧ Moves s t pid ∧ Local v₀ t ∧ t.procs.state pid = some .READY ∧
        count pids t.Opened = count pids s.Opened + 1 ∧
        count pids t.Inside = count pids s.Inside := by
    intro shared hstates ht'
    obtain rfl := Option.some.inj (ht'.symm.trans ht)
    have hst := ready_setProc hready hstates s.global { s.proc pid with i := 0, pc := .loop }
    have hmoves := Moves.of_setProc hlocal hready shared (fun q _ ↦ congrFun hstates q) s.global
      { s.proc pid with i := 0, pc := .loop }
    refine ⟨rfl, hmoves, ?_, hst, ?_, ?_⟩
    · refine hlocal.advance hready shared hstates _ (fun hinside ↦ by cases hinside)
        (fun a ha ↦ by cases ha) ?_ rfl
      rw [SyncProc.left, SyncProc.left, hpc, Nat.sub_zero]
    · refine count_enter hpids hout ⟨by rw [hst]; simp, ?_⟩ fun q hq ↦ hmoves.opened_iff hq
      rw [setProc_self]
      rfl
    · refine count_congr fun q ↦ ?_
      by_cases hq : q = pid
      · subst hq
        refine iff_of_false (not_inside ?_) fun hinside ↦ hout hinside.opened
        rw [setProc_self]
        rfl
      · exact hmoves.inside_iff hq
  have hok' := hok hpc
  -- there are at most as many users as pids
  have hfits : ∀ p c, m.lookup SEM_ID.bytes = some (p, c) → c < 2 ^ 31 - 1 := fun p c hn ↦ by
    have husers := h.users p c hn
    have hle : count pids s.Opened ≤ pids.card := count_le_card
    rw [show pids.card = 64 by decide] at hle
    omega
  rcases (h.dispatch pid).sharedSemOpen SEM_ID 1 room hfits with
    ⟨p, c, shared, hn, hopen, htabled, hsems, hsched⟩ |
    ⟨shared, hn, -, -, hopen, htabled, hsems, hsched⟩ | ⟨-, -, hopen⟩
  · obtain ⟨rfl, hmoves, hlocal', hst, ho, hi⟩ := hloop shared (by rw [hsched]; rfl)
      (by simp only [instr, hpc, hopen, lt_self_iff_false, if_false])
    refine ⟨hlocal', _, htabled, fun p' c' hn' ↦ ?_, fun hn' ↦ ?_, fun p' c' hn' sem hsem ↦ ?_,
      fun p' c' hn' sem hsem ↦ ?_⟩
    · rw [Finmap.lookup_insert] at hn'
      cases hn'
      rw [ho]
      have := h.users p c hn
      omega
    · rw [Finmap.lookup_insert] at hn'
      cases hn'
    · rw [Finmap.lookup_insert] at hn'
      cases hn'
      rw [hsems] at hsem
      exact (h.waiting p c hn sem hsem).congr (hmoves.waits_iff (by rw [hst]; simp))
    · rw [Finmap.lookup_insert] at hn'
      cases hn'
      rw [hsems] at hsem
      rw [hi]
      exact h.tokens p c hn sem hsem
  · obtain ⟨rfl, hmoves, hlocal', hst, ho, hi⟩ := hloop shared (by rw [hsched]; rfl)
      (by simp only [instr, hpc, hopen, lt_self_iff_false, if_false])
    -- the name was not known, so nobody is a user
    have hnobody : ∀ q ∈ pids, ¬s.Opened q := count_eq_zero.mp (h.unused hn)
    have hsem₀ : t.shared.sems s.shared.nextSem = some (newSemaphore 1) := by
      rw [hsems]
      exact if_pos rfl
    refine ⟨hlocal', _, htabled, fun p' c' hn' ↦ ?_, fun hn' ↦ ?_, fun p' c' hn' sem hsem ↦ ?_,
      fun p' c' hn' sem hsem ↦ ?_⟩
    · rw [Finmap.lookup_insert] at hn'
      cases hn'
      rw [ho, h.unused hn]
      rfl
    · rw [Finmap.lookup_insert] at hn'
      cases hn'
    · rw [Finmap.lookup_insert] at hn'
      cases hn'
      obtain rfl := Option.some.inj (hsem₀.symm.trans hsem)
      refine .new (by decide) fun q hq ↦ ?_
      have hqpid : q ≠ pid := by
        rintro rfl
        cases hst.symm.trans hq.2
      rw [hmoves.proc q hqpid, hmoves.state q hqpid] at hq
      refine hnobody q (hlocal.mem_pids ?_) ⟨?_, by rw [hq.1]; rfl⟩ <;> simp [hq.2]
    · rw [Finmap.lookup_insert] at hn'
      cases hn'
      obtain rfl := Option.some.inj (hsem₀.symm.trans hsem)
      rw [hi, count_eq_zero.mpr fun q hq hinside ↦ hnobody q hq hinside.opened]
      rfl
  · rw [hopen] at hok'
    cases hok'

/-- `sys_sem_close` -/
theorem Inv.close (hlocal : Local v₀ s) (h : Counts s m)
    (hready : s.procs.state pid = some .READY) (hpc : (s.proc pid).pc = .loop)
    (hdone : ¬(s.proc pid).i < (s.proc pid).n) (ht : s.instr pid room = some t) : Inv v₀ t := by
  have hpids : pid ∈ pids := hlocal.mem_pids (by rw [hready]; simp)
  have hin : s.Opened pid := ⟨by rw [hready]; simp, by rw [hpc]; rfl⟩
  have hexit : ∀ shared : Shared States, shared.sched.state = s.procs.state →
      s.instr pid room = some ({ s with shared := shared }.setProc pid
        { s.proc pid with pc := .exit }) →
      t.shared = shared ∧ Moves s t pid ∧ Local v₀ t ∧ t.procs.state pid = some .READY ∧
        count pids s.Opened = count pids t.Opened + 1 ∧
        count pids t.Inside = count pids s.Inside := by
    intro shared hstates ht'
    obtain rfl := Option.some.inj (ht'.symm.trans ht)
    have hst := ready_setProc hready hstates s.global { s.proc pid with pc := .exit }
    have hmoves := Moves.of_setProc hlocal hready shared (fun q _ ↦ congrFun hstates q) s.global
      { s.proc pid with pc := .exit }
    refine ⟨rfl, hmoves, ?_, hst, ?_, ?_⟩
    · refine hlocal.advance hready shared hstates _ (fun hinside ↦ by cases hinside)
        (fun a ha ↦ by cases ha) ?_ rfl
      rw [SyncProc.left, SyncProc.left, hpc]
      simp only
      omega
    · refine count_leave hpids hin (not_opened ?_) fun q hq ↦ hmoves.opened_iff hq
      rw [setProc_self]
      rfl
    · refine count_congr fun q ↦ ?_
      by_cases hq : q = pid
      · subst hq
        refine iff_of_false (not_inside ?_) (not_inside ?_)
        · rw [setProc_self]
          rfl
        · rw [hpc]
          rfl
      · exact hmoves.inside_iff hq
  rcases (h.dispatch pid).sharedSemClose SEM_ID with
    ⟨p, c, shared, hn, hc, hclose, htabled, hsems, hsched⟩ |
    ⟨p, sem, shared, hn, hsem, hclose, htabled, hsems, hsched⟩ | ⟨hn, hclose⟩
  · obtain ⟨rfl, hmoves, hlocal', hst, ho, hi⟩ := hexit shared (by rw [hsched]; rfl)
      (by simp only [instr, hpc, if_neg hdone, hclose, Option.map_some])
    refine ⟨hlocal', _, htabled, fun p' c' hn' ↦ ?_, fun hn' ↦ ?_, fun p' c' hn' sem hsem ↦ ?_,
      fun p' c' hn' sem hsem ↦ ?_⟩
    · rw [Finmap.lookup_insert] at hn'
      cases hn'
      have := h.users p c hn
      omega
    · rw [Finmap.lookup_insert] at hn'
      cases hn'
    · rw [Finmap.lookup_insert] at hn'
      cases hn'
      rw [hsems] at hsem
      exact (h.waiting p c hn sem hsem).congr (hmoves.waits_iff (by rw [hst]; simp))
    · rw [Finmap.lookup_insert] at hn'
      cases hn'
      rw [hsems] at hsem
      rw [hi]
      exact h.tokens p c hn sem hsem
  · obtain ⟨rfl, hmoves, hlocal', hst, ho, hi⟩ := hexit shared (by rw [hsched]; rfl)
      (by simp only [instr, hpc, if_neg hdone, hclose, Option.map_some])
    have hnone : (m.erase SEM_ID.bytes).lookup SEM_ID.bytes = none := Finmap.lookup_erase _ _
    refine ⟨hlocal', _, htabled, fun p' c' hn' ↦ ?_, fun _ ↦ ?_, fun p' c' hn' ↦ ?_,
      fun p' c' hn' ↦ ?_⟩
    · rw [hnone] at hn'
      cases hn'
    · have := h.users p 1 hn
      omega
    · rw [hnone] at hn'
      cases hn'
    · rw [hnone] at hn'
      cases hn'
  · exact absurd hin (count_eq_zero.mp (h.unused hn) pid hpids)

/-- `sys_sem_wait` -/
theorem Inv.wait (hlocal : Local v₀ s) (h : Counts s m) (hnodes : s.procs.nodes = true)
    (hready : s.procs.state pid = some .READY) (hpc : (s.proc pid).pc = .loop)
    (hround : (s.proc pid).i < (s.proc pid).n) (ht : s.instr pid room = some t) : Inv v₀ t := by
  have hpids : pid ∈ pids := hlocal.mem_pids (by rw [hready]; simp)
  have hin : s.Opened pid := ⟨by rw [hready]; simp, by rw [hpc]; rfl⟩
  have hout : ¬s.Inside pid := not_inside (by rw [hpc]; rfl)
  rcases (h.dispatch pid).sharedSemWait SEM_ID with
    ⟨p, c, sem, shared, hn, hsem, hwait, htabled, hsems, hsched⟩ | ⟨hn, hwait⟩
  · simp only [instr, hpc, if_pos hround, hwait, Option.map_some, Option.some.injEq] at ht
    subst ht
    set t := { s with shared := shared }.setProc pid { s.proc pid with pc := .read } with ht
    have hpcs : (t.proc pid).pc = .read := by rw [ht, setProc_self]
    have hmoves : Moves s t pid := .of_setProc hlocal hready shared (fun q hq ↦ by
      rw [hsched]
      exact States.semWait_state _ _ hq) s.global _
    have hstate : t.procs.state pid = some .READY ∨ t.procs.state pid = some .BLOCKED := by
      rcases States.semWait_current sem (s.dispatch pid).sched with heq | ⟨-, heq⟩
      · refine .inl (Eq.trans ?_ (heq.trans hready))
        rw [← hsched]
        rfl
      · refine .inr (Eq.trans ?_ heq)
        rw [← hsched]
        rfl
    have halive : t.procs.state pid ≠ none := by rcases hstate with heq | heq <;> simp [heq]
    have hlocal' : Local v₀ t := by
      refine hmoves.keeps hlocal (fun _ ↦ hpcs) (fun hz ↦ ?_) (fun hr ↦ ?_) (fun _ _ ↦ ?_)
        (fun a _ ha ↦ ?_) (.inl rfl) ?_
      · rcases hstate with heq | heq <;> cases heq.symm.trans hz
      · rcases hstate with heq | heq <;> cases heq.symm.trans hr
      · rw [ht, setProc_self]
        exact hround
      · cases hpcs.symm.trans ha
      · rw [rest_of_some halive, rest_of_some hin.1, ht, setProc_self, SyncProc.left, SyncProc.left,
          hpc]
        rfl
    have ho : count pids t.Opened = count pids s.Opened := count_congr fun q ↦ by
      by_cases hq : q = pid
      · subst hq
        exact iff_of_true ⟨halive, by rw [hpcs]; rfl⟩ hin
      · exact hmoves.opened_iff hq
    have hold : Waiting sem (s.dispatch pid).sched fun q ↦ (s.proc q).pc = .read :=
      (h.waiting p c hn sem hsem).congr fun _ ↦ Iff.rfl
    have htokens := h.tokens p c hn sem hsem
    -- the semaphore afterwards, and who is inside
    have hafter : Waiting (semWait sem (s.dispatch pid).sched).1 t.procs
          (fun q ↦ (t.proc q).pc = .read) ∧
        (semWait sem (s.dispatch pid).sched).1.tokens + count pids t.Inside = 1 := by
      have hself : (t.proc (s.dispatch pid).sched.currentPID).pc = .read := hpcs
      rcases hold.wait (fun q ↦ (t.proc q).pc = .read) hnodes hready hself
          fun q hq ↦ by rw [hmoves.proc q hq] with
        ⟨htake, hsame, hwaiting⟩ | ⟨hzero, hzero', hset, hwaiting⟩
      · have hprocs : t.procs = (s.dispatch pid).sched := hsched.trans hsame
        refine ⟨hprocs ▸ hwaiting, ?_⟩
        have hst : t.procs.state pid = some .READY := by
          rw [hprocs]
          exact hready
        rw [count_enter hpids hout ⟨hst, by rw [hpcs]; rfl⟩ fun q hq ↦ hmoves.inside_iff hq]
        omega
      · have hprocs : t.procs = (s.dispatch pid).sched.set pid (some .BLOCKED) := hsched.trans hset
        refine ⟨hprocs ▸ hwaiting, ?_⟩
        have hst : t.procs.state pid = some .BLOCKED := by
          rw [hprocs]
          exact States.set_self _ _ _
        have hi : count pids t.Inside = count pids s.Inside := count_congr fun q ↦ by
          by_cases hq : q = pid
          · subst hq
            refine iff_of_false (fun hinside ↦ ?_) hout
            cases hst.symm.trans hinside.1
          · exact hmoves.inside_iff hq
        omega
    have hsem' : t.shared.sems p = some (semWait sem (s.dispatch pid).sched).1 := by
      change shared.sems p = _
      rw [hsems]
      exact if_pos rfl
    refine ⟨hlocal', m, htabled, fun p' c' hn' ↦ ?_, fun hn' ↦ ?_, fun p' c' hn' sem' hs' ↦ ?_,
      fun p' c' hn' sem' hs' ↦ ?_⟩
    · rw [ho]
      exact h.users p' c' hn'
    · rw [hn] at hn'
      cases hn'
    · rw [hn] at hn'
      cases hn'
      cases hsem'.symm.trans hs'
      exact hafter.1
    · rw [hn] at hn'
      cases hn'
      cases hsem'.symm.trans hs'
      exact hafter.2
  · exact absurd hin (count_eq_zero.mp (h.unused hn) pid hpids)

/-- A process that waits for the semaphore is made ready. -/
theorem Local.wake (h : Local v₀ s) (hblocked : s.procs.state q = some .BLOCKED)
    (shared : Shared States)
    (hstates : shared.sched.state = (s.procs.set q (some .READY)).state) :
    Local v₀ { s with shared := shared } := by
  have hq : s.procs.state q ≠ none := by
    rw [hblocked]
    simp
  have hself : shared.sched.state q = some .READY := by rw [hstates, States.set_self]
  have hother : ∀ r, r ≠ q → shared.sched.state r = s.procs.state r := fun r hr ↦ by
    rw [hstates, States.set_other _ _ hr]
  have hnone : ∀ r, shared.sched.state r ≠ none ↔ s.procs.state r ≠ none := by
    intro r
    by_cases hr : r = q
    · subst hr
      rw [hself]
      simp [hq]
    · rw [hother r hr]
  refine ⟨fun r hr ↦ h.valid r ((hnone r).mp hr), fun r hr ↦ ?_, fun r hr ↦ ?_, fun r hr ↦ ?_,
    fun r hr ↦ h.round r ((hnone r).mp hr), fun r a hr ↦ h.aux r a ((hnone r).mp hr), ?_⟩
  · by_cases hrq : r = q
    · subst hrq
      cases hself.symm.trans hr
    · exact h.blocked r ((hother r hrq).symm.trans hr)
  · by_cases hrq : r = q
    · subst hrq
      cases hself.symm.trans hr
    · exact h.zombie r ((hother r hrq).symm.trans hr)
  · by_cases hrq : r = q
    · subst hrq
      cases hself.symm.trans hr
    · exact h.running r ((hother r hrq).symm.trans hr)
  · rw [← h.total]
    have hrest : ({ s with shared := shared } : TestSync).rest = s.rest := by
      funext r
      exact ite_congr (propext (not_iff_not.mp (hnone r))) (fun _ ↦ rfl) fun _ ↦ rfl
    rw [hrest]

/-- `sys_sem_post` -/
theorem Inv.post (hlocal : Local v₀ s) (h : Counts s m)
    (hready : s.procs.state pid = some .READY) (hpc : (s.proc pid).pc = .post)
    (ht : s.instr pid room = some t) : Inv v₀ t := by
  have hpids : pid ∈ pids := hlocal.mem_pids (by rw [hready]; simp)
  have hin : s.Inside pid := ⟨hready, by rw [hpc]; rfl⟩
  rcases (h.dispatch pid).sharedSemPost SEM_ID with
    ⟨p, c, sem, shared, hn, hsem, hpost, htabled, hsems, hsched⟩ | ⟨hn, hpost⟩
  · simp only [instr, hpc, hpost, Option.map_some, Option.some.injEq] at ht
    subst ht
    set w : SyncProc := { s.proc pid with i := (s.proc pid).i + 1, pc := .loop } with hw
    -- first the process leaves, and then its post wakes somebody or leaves a token
    set u := { s with shared := s.dispatch pid }.setProc pid w with hu
    have hmoves : Moves s u pid := .of_setProc hlocal hready (s.dispatch pid) (fun _ _ ↦ rfl)
      s.global w
    have hlocal' : Local v₀ u := by
      refine hlocal.advance hready (s.dispatch pid) rfl w (fun hinside ↦ by cases hinside)
        (fun a ha ↦ by cases ha) ?_ rfl
      rw [SyncProc.left, SyncProc.left, hpc]
    have hleave : count pids s.Inside = count pids u.Inside + 1 :=
      count_leave hpids hin (not_inside (by rw [hu, setProc_self]; rfl))
        fun q hq ↦ hmoves.inside_iff hq
    have ho : count pids u.Opened = count pids s.Opened := count_congr fun q ↦ by
      by_cases hq : q = pid
      · subst hq
        refine iff_of_true ⟨?_, by rw [hu, setProc_self]; rfl⟩ hin.opened
        rw [show u.procs.state q = some .READY from hready]
        simp
      · exact hmoves.opened_iff hq
    have hold : Waiting sem (s.dispatch pid).sched fun q ↦ (u.proc q).pc = .read :=
      (h.waiting p c hn sem hsem).congr (hmoves.waits_iff (by
        rw [show u.procs.state pid = some .READY from hready]
        simp))
    have htokens := h.tokens p c hn sem hsem
    have hvalid : ∀ q, (s.dispatch pid).sched.state q ≠ none → ¬invalidPID q := hlocal.valid
    set t : TestSync := { u with shared := shared } with ht
    have hsem' : t.shared.sems p = some (semPost sem (s.dispatch pid).sched).1 := by
      change shared.sems p = _
      rw [hsems]
      exact if_pos rfl
    have hafter : Local v₀ t ∧ count pids t.Opened = count pids s.Opened ∧
        Waiting (semPost sem (s.dispatch pid).sched).1 t.procs (fun q ↦ (t.proc q).pc = .read) ∧
        (semPost sem (s.dispatch pid).sched).1.tokens + count pids t.Inside = 1 := by
      rcases hold.post (fun q ↦ (u.proc q).pc = .read) hvalid fun _ _ ↦ Iff.rfl with
        ⟨q, hq, hblocked, hzero, hzero', hset, hwaiting⟩ | ⟨hone, hsame, hwaiting⟩
      · have hprocs : t.procs = (s.dispatch pid).sched.set q (some .READY) := hsched.trans hset
        have hpcq : (u.proc q).pc = .read := hq
        have hqs : q ∈ pids := hlocal'.mem_pids (by
          rw [show u.procs.state q = some .BLOCKED from hblocked]
          simp)
        have hstq : t.procs.state q = some .READY := by rw [hprocs, States.set_self]
        have hother : ∀ r, r ≠ q → t.procs.state r = u.procs.state r := fun r hr ↦ by
          rw [hprocs, States.set_other _ _ hr]
          rfl
        refine ⟨hlocal'.wake hblocked shared ?_, ?_, hprocs ▸ hwaiting, ?_⟩
        · exact congrArg States.state hprocs
        · rw [← ho]
          refine count_congr fun r ↦ ?_
          by_cases hr : r = q
          · subst hr
            refine iff_of_true ⟨by rw [hstq]; simp, by rw [ht]; simp only [hpcq]; rfl⟩
              ⟨by rw [show u.procs.state r = some .BLOCKED from hblocked]; simp,
                by rw [hpcq]; rfl⟩
          · rw [Opened, Opened, hother r hr]
        · have henter : count pids t.Inside = count pids u.Inside + 1 := by
            refine count_enter hqs (fun hinside ↦ ?_)
              ⟨hstq, by rw [ht]; simp only [hpcq]; rfl⟩ fun r hr ↦ by
                rw [Inside, Inside, hother r hr]
            cases hinside.1.symm.trans hblocked
          omega
      · have hprocs : t.procs = u.procs := hsched.trans hsame
        have hstates : t.procs.state = u.procs.state := congrArg States.state hprocs
        refine ⟨?_, ?_, hprocs ▸ hwaiting, ?_⟩
        · refine hlocal.advance hready shared hstates w (fun hinside ↦ by cases hinside)
            (fun a ha ↦ by cases ha) ?_ rfl
          rw [SyncProc.left, SyncProc.left, hpc]
        · rw [← ho]
          refine count_congr fun r ↦ ?_
          rw [Opened, Opened, hprocs]
        · have hi : count pids t.Inside = count pids u.Inside := count_congr fun r ↦ by
            rw [Inside, Inside, hprocs]
          omega
    obtain ⟨hlocal'', ho', hwaiting, htokens'⟩ := hafter
    change Inv v₀ t
    refine ⟨hlocal'', m, htabled, fun p' c' hn' ↦ ?_, fun hn' ↦ ?_, fun p' c' hn' sem' hs' ↦ ?_,
      fun p' c' hn' sem' hs' ↦ ?_⟩
    · rw [ho']
      exact h.users p' c' hn'
    · rw [hn] at hn'
      cases hn'
    · rw [hn] at hn'
      cases hn'
      cases hsem'.symm.trans hs'
      exact hwaiting
    · rw [hn] at hn'
      cases hn'
      cases hsem'.symm.trans hs'
      exact htokens'
  · exact absurd hin.opened (count_eq_zero.mp (h.unused hn) pid hpids)

/-! ## Runs -/

/-- **Every instruction keeps the invariant.** -/
theorem Inv.instr (h : Inv v₀ s) (hnodes : s.procs.nodes = true)
    (hready : s.procs.state pid = some .READY)
    (hok : (Event.run pid room).Opens s) (ht : s.instr pid room = some t) : Inv v₀ t := by
  obtain ⟨hlocal, m, hcounts⟩ := h
  have hpids : pid ∈ pids := hlocal.mem_pids (by rw [hready]; simp)
  cases hpc : (s.proc pid).pc with
  | start => exact Inv.open hlocal hcounts hready hpc hok ht
  | loop =>
      by_cases hround : (s.proc pid).i < (s.proc pid).n
      · exact Inv.wait hlocal hcounts hnodes hready hpc hround ht
      · exact Inv.close hlocal hcounts hready hpc hround ht
  | read =>
      simp only [TestSync.instr, hpc, Option.some.injEq] at ht
      subst ht
      have hmoves := Moves.of_setProc hlocal hready s.shared (fun _ _ ↦ rfl) s.global
        { s.proc pid with pc := .write s.global }
      refine ⟨hlocal.read hready hpc, m, hmoves.counts hcounts hcounts.tabled rfl ?_ ?_ ?_⟩
      · intro hb
        cases hready.symm.trans hb
      · rw [Inside, Inside, setProc_self, hpc]
        rfl
      · rw [Opened, Opened, setProc_self, hpc]
        rfl
  | write a =>
      simp only [TestSync.instr, hpc, Option.some.injEq] at ht
      subst ht
      have hmoves := Moves.of_setProc hlocal hready s.shared (fun _ _ ↦ rfl)
        (a + (s.proc pid).inc) { s.proc pid with pc := .post }
      refine ⟨hlocal.write hcounts hready hpc, m,
        hmoves.counts hcounts hcounts.tabled rfl ?_ ?_ ?_⟩
      · intro hb
        cases hready.symm.trans hb
      · rw [Inside, Inside, setProc_self, hpc]
        rfl
      · rw [Opened, Opened, setProc_self, hpc]
        rfl
  | post => exact Inv.post hlocal hcounts hready hpc ht
  | exit =>
      simp only [TestSync.instr, hpc, Option.some.injEq] at ht
      subst ht
      have hself : (s.procs.set pid (some .ZOMBIE)).state pid = some .ZOMBIE :=
        States.set_self _ _ _
      set t : TestSync :=
        { s with shared := { s.shared with sched := s.procs.set pid (some .ZOMBIE) } } with ht
      have hst : t.procs.state pid = some .ZOMBIE := hself
      have hmoves : Moves s t pid := ⟨hpids, by rw [hready]; simp, fun _ _ ↦ rfl,
        fun _ hq ↦ States.set_other _ _ hq⟩
      refine ⟨hmoves.keeps hlocal ?_ (fun _ ↦ hpc) ?_ ?_ ?_ (.inl rfl) ?_, m,
        hmoves.counts hcounts (hcounts.tabled.setSched _) rfl ?_ ?_ ?_⟩
      · intro hb
        cases hst.symm.trans hb
      · intro hr
        cases hst.symm.trans hr
      · intro _ hinside
        rw [show (t.proc pid).pc = .exit from hpc] at hinside
        cases hinside
      · intro a _ ha
        cases hpc.symm.trans ha
      · rw [rest_of_some (by rw [hst]; simp), rest_of_some (by rw [hready]; simp)]
        rfl
      · rw [hst]
        simp
      · exact iff_of_false (not_inside (by rw [show (t.proc pid).pc = .exit from hpc]; rfl))
          (not_inside (by rw [hpc]; rfl))
      · exact iff_of_false (not_opened (by rw [show (t.proc pid).pc = .exit from hpc]; rfl))
          (not_opened (by rw [hpc]; rfl))

/-- A process is created. -/
theorem Inv.create (h : Inv v₀ s) (hvalid : ¬invalidPID pid) (hnone : s.procs.state pid = none)
    (n : Nat) (inc : BitVec 64) :
    Inv v₀ { s.setProc pid ⟨n, inc, 0, .start⟩ with
      shared := { s.shared with sched := s.procs.set pid (some .READY) }
      created := s.created ++ [(n, inc)] } := by
  obtain ⟨hlocal, m, hcounts⟩ := h
  set t : TestSync := { s.setProc pid ⟨n, inc, 0, .start⟩ with
    shared := { s.shared with sched := s.procs.set pid (some .READY) }
    created := s.created ++ [(n, inc)] } with ht
  have hst : t.procs.state pid = some .READY := States.set_self _ _ _
  have hproc : t.proc pid = ⟨n, inc, 0, .start⟩ := if_pos rfl
  have hmoves : Moves s t pid := ⟨Process.mem_pids.mpr hvalid, by rw [hnone]; simp,
    fun _ hq ↦ if_neg hq, fun _ hq ↦ States.set_other _ _ hq⟩
  refine ⟨hmoves.keeps hlocal ?_ ?_ ?_ ?_ ?_ (.inl rfl) ?_, m,
    hmoves.counts hcounts (hcounts.tabled.setSched _) rfl ?_ ?_ ?_⟩
  · intro hb
    cases hst.symm.trans hb
  · intro hz
    cases hst.symm.trans hz
  · intro hr
    cases hst.symm.trans hr
  · intro _ hinside
    rw [hproc] at hinside
    cases hinside
  · intro a _ ha
    rw [hproc] at ha
    cases ha
  · have hrest : s.rest pid = 0 := if_pos hnone
    have hdue : t.due = s.due + n • inc := by
      simp only [due, ht, List.map_append, List.sum_append, List.map_cons, List.map_nil,
        List.sum_cons, List.sum_nil, add_zero]
    rw [rest_of_some (by rw [hst]; simp), hproc, hrest, hdue, add_zero]
    change s.global + n • inc + s.due = _
    rw [add_assoc, add_comm (n • inc)]
  · rw [hst]
    simp
  · exact iff_of_false (not_inside (by rw [hproc]; rfl)) fun hinside ↦ hinside.opened.1 hnone
  · exact iff_of_false (not_opened (by rw [hproc]; rfl)) fun hopened ↦ hopened.1 hnone

/-- A process that has ended is reaped. -/
theorem Inv.reap (h : Inv v₀ s) (hzombie : s.procs.state pid = some .ZOMBIE) :
    Inv v₀ { s with shared := { s.shared with sched := s.procs.set pid none } } := by
  obtain ⟨hlocal, m, hcounts⟩ := h
  have hpc := hlocal.zombie pid hzombie
  set t : TestSync := { s with shared := { s.shared with sched := s.procs.set pid none } } with ht
  have hst : t.procs.state pid = none := States.set_self _ _ _
  have hmoves : Moves s t pid := ⟨hlocal.mem_pids (by rw [hzombie]; simp), by rw [hzombie]; simp,
    fun _ _ ↦ rfl, fun _ hq ↦ States.set_other _ _ hq⟩
  refine ⟨hmoves.keeps hlocal ?_ ?_ ?_ ?_ ?_ (.inl rfl) ?_, m,
    hmoves.counts hcounts (hcounts.tabled.setSched _) rfl ?_ ?_ ?_⟩
  · intro hb
    cases hst.symm.trans hb
  · intro hz
    cases hst.symm.trans hz
  · intro hr
    cases hst.symm.trans hr
  · intro hsome
    exact absurd hst hsome
  · intro _ hsome
    exact absurd hst hsome
  · have hrest : t.rest pid = 0 := if_pos hst
    rw [hrest, rest_of_some (by rw [hzombie]; simp), SyncProc.left, hpc]
    simp only [zero_smul]
    rfl
  · rw [hst]
    simp
  · exact iff_of_false (fun hinside ↦ hinside.opened.1 hst) (not_inside (by rw [hpc]; rfl))
  · exact iff_of_false (fun hopened ↦ hopened.1 hst) (not_opened (by rw [hpc]; rfl))

theorem Inv.step (h : Inv v₀ s) (hnodes : s.procs.nodes = true) {e : Event} (hok : e.Opens s)
    (ht : TestSync.step s e = some t) : Inv v₀ t := by
  cases e with
  | create pid n inc =>
      simp only [TestSync.step] at ht
      split at ht
      · cases ht
      next hfree =>
          obtain ⟨hvalid, hnone⟩ := not_or.mp hfree
          cases ht
          exact h.create hvalid (not_not.mp hnone) n inc
  | run pid room =>
      simp only [TestSync.step] at ht
      split at ht
      next hready => exact h.instr hnodes hready hok ht
      · cases ht
  | reap pid =>
      simp only [TestSync.step] at ht
      split at ht
      next hzombie =>
          cases ht
          exact h.reap hzombie
      · cases ht

theorem instr_nodes (ht : s.instr pid room = some t) : t.procs.nodes = s.procs.nodes := by
  simp only [TestSync.instr] at ht
  split at ht
  · cases ht
    have hsched := Shared.sharedSemOpen_sched SEM_ID.buffer 1 room (s.dispatch pid)
    have hnodes := congrArg States.nodes hsched
    exact hnodes
  · split at ht
    · obtain ⟨r, hr, rfl⟩ := Option.map_eq_some_iff.mp ht
      have hnodes := Shared.sharedSemWait_nodes hr
      exact hnodes
    · obtain ⟨r, hr, rfl⟩ := Option.map_eq_some_iff.mp ht
      have hnodes := congrArg States.nodes (Shared.sharedSemClose_sched hr)
      exact hnodes
  · cases ht
    rfl
  · cases ht
    rfl
  · obtain ⟨r, hr, rfl⟩ := Option.map_eq_some_iff.mp ht
    have hnodes := Shared.sharedSemPost_nodes hr
    exact hnodes
  · cases ht
    rfl

/-- No step changes what the heap has room for. -/
theorem step_nodes {e : Event} (ht : TestSync.step s e = some t) :
    t.procs.nodes = s.procs.nodes := by
  cases e with
  | create pid n inc =>
      simp only [TestSync.step] at ht
      split at ht
      · cases ht
      · cases ht
        rfl
  | run pid room =>
      simp only [TestSync.step] at ht
      split at ht
      · exact instr_nodes ht
      · cases ht
  | reap pid =>
      simp only [TestSync.step] at ht
      split at ht
      · cases ht
        rfl
      · cases ht

theorem Inv.init {shared : Shared States} (ht : shared.Tabled m)
    (hn : m.lookup SEM_ID.bytes = none) (v₀ : BitVec 64) : Inv v₀ (TestSync.init shared v₀) := by
  have hstate : ∀ q, (TestSync.init shared v₀).procs.state q = none := fun _ ↦ rfl
  refine ⟨⟨fun q hq ↦ absurd (hstate q) hq, fun q hq ↦ (by cases hq), fun q hq ↦ (by cases hq),
    fun q hq ↦ (by cases hq), fun q hq ↦ absurd (hstate q) hq, fun q _ hq ↦ absurd (hstate q) hq,
    ?_⟩, m, ht.setSched _, fun p c hp ↦ ?_, fun _ ↦ ?_, fun p c hp ↦ ?_, fun p c hp ↦ ?_⟩
  · have hrest : pids.sum (TestSync.init shared v₀).rest = 0 :=
      Finset.sum_eq_zero fun q _ ↦ if_pos (hstate q)
    rw [hrest]
    rfl
  · rw [hn] at hp
    cases hp
  · exact count_eq_zero.mpr fun q _ hopened ↦ hopened.1 (hstate q)
  · rw [hn] at hp
    cases hp
  · rw [hn] at hp
    cases hp

/-- **Mutual exclusion through a semaphore that comes and goes.**  Whatever the processes
and their interleaving, if the semaphore is always opened successfully, at most one process
is between its wait and its post, and when all have finished the shared variable holds its
first value and what they have been created to add. -/
theorem mutual_exclusion {shared : Shared States} (htabled : shared.Tabled m)
    (hfree : m.lookup SEM_ID.bytes = none)
    (h : Reach step (fun s e ↦ e.Opens s) (init shared v₀) s) :
    (∀ pid q, s.Inside pid → s.Inside q → pid = q) ∧
      ((∀ pid, s.procs.state pid = none ∨ (s.proc pid).pc = .exit) →
        s.global = v₀ + (s.created.map fun w ↦ w.1 • w.2).sum) := by
  have hinv : Inv v₀ s ∧ s.procs.nodes = true := h.invariant
    (I := fun s ↦ Inv v₀ s ∧ s.procs.nodes = true) ⟨.init htabled hfree v₀, rfl⟩
    fun _ _ _ hu hok hv ↦ ⟨hu.1.step hu.2 hok hv, (step_nodes hv).trans hu.2⟩
  obtain ⟨⟨hlocal, m', hcounts⟩, -⟩ := hinv
  refine ⟨fun pid q hpid hq ↦ hcounts.inside_unique hlocal hpid hq, fun hdone ↦ ?_⟩
  have hrest : ∀ q ∈ pids, s.rest q = 0 := by
    intro q _
    unfold rest
    split
    · rfl
    next hsome =>
        rw [SyncProc.left, (hdone q).resolve_left hsome]
        exact zero_smul _ _
  have htotal := hlocal.total
  rw [Finset.sum_eq_zero hrest, add_zero] at htotal
  exact htotal

/-- One process adds 5 twice and closes the semaphore; two others, which subtract 1 and add
2, open it again, and one of them waits for the other. -/
theorem mutual_exclusion_reopened : ∃ s : TestSync,
    ((s.procs.state 2 = some .ZOMBIE ∧ s.procs.state 3 = some .READY ∧
      s.procs.state 4 = some .READY) ∧ s.global = 11 ∧ s.shared.nextSem = 2) ∧
      (∀ pid q, s.Inside pid → s.Inside q → pid = q) ∧
      ((∀ pid, s.procs.state pid = none ∨ (s.proc pid).pc = .exit) →
        s.global = 0 + (s.created.map fun w ↦ w.1 • w.2).sum) := by
  let es : List Event := .create 2 2 5 :: List.replicate 11 (.run 2 true) ++
    [.create 3 1 (-1), .create 4 1 2, .run 3 true, .run 4 true, .run 3 true, .run 3 true,
      .run 4 true, .run 3 true, .run 3 true, .run 4 true, .run 4 true, .run 4 true]
  have hrun : (run step (init (.init ⟨fun _ ↦ none, 0, true⟩) 0) es).map (fun s ↦
      decide ((s.procs.state 2 = some .ZOMBIE ∧ s.procs.state 3 = some .READY ∧
        s.procs.state 4 = some .READY) ∧ s.global = 11 ∧ s.shared.nextSem = 2)) = some true := by
    decide +kernel
  have hguard : Guarded step (fun s e ↦ e.Opens s) (init (.init ⟨fun _ ↦ none, 0, true⟩) 0) es := by
    decide +kernel
  obtain ⟨s, hrun, hobs⟩ := Option.map_eq_some_iff.mp hrun
  exact ⟨s, of_decide_eq_true hobs,
    mutual_exclusion (.init _) (Finmap.lookup_empty _) (.of_run hrun hguard)⟩

end TestSync

end BareBones.Userland
