import BareBones.Lib.Run
import BareBones.Lib.Sums
import BareBones.Semaphores.SharedMap
import BareBones.Semaphores.Waiting

/-!
# The shared variable of one slot

The model of `mvar.c`: `mvarCommand` closes and opens three semaphores and creates any
number of producers and consumers, which hand values over in one slot.

    producer: wait(libre) → wait(excl) → write → post(excl) → post(lleno)
    consumer: wait(lleno) → wait(excl) → read  → post(excl) → post(libre)

Both are the same worker up to the semaphore they take first, the one they give last, and
what they do with the slot.  The tokens of `mv_libre` and `mv_lleno` and the workers between
their first wait and their last post make up one baton, and whether the slot is full
depends on where the baton is.  This gives the hand-off (`hand_off`).

`mvarCommand` does not look at the results of `sys_sem_open`.  If a semaphore cannot be
created, every wait for it returns at once, and values are lost (`value_lost`).

The heap always has room for the nodes of the queues here (`step_nodes`): a worker whose node is
refused would be blocked for good.
-/

namespace BareBones.Userland

open BareBones.Lib BareBones.Process BareBones.Semaphores

/-- The semaphores of `mvar.c`. -/
inductive MSem
  /-- `SEM_EXCL` -/
  | excl
  /-- `SEM_SLOT_LIBRE` -/
  | libre
  /-- `SEM_SLOT_LLENO` -/
  | lleno
deriving DecidableEq

/-- `"mv_excl"`, `"mv_libre"` and `"mv_lleno"`. -/
def MSem.name : MSem → SemName
  | excl => ⟨[109, 118, 95, 101, 120, 99, 108], by decide, by decide, by decide⟩
  | libre => ⟨[109, 118, 95, 108, 105, 98, 114, 101], by decide, by decide, by decide⟩
  | lleno => ⟨[109, 118, 95, 108, 108, 101, 110, 111], by decide, by decide, by decide⟩

/-- What `mvarCommand` opens the semaphores with. -/
def MSem.initialValue : MSem → Int
  | excl => 1
  | libre => 1
  | lleno => 0

/-- What a worker does. -/
inductive Role
  /-- `producerEntry`, with the letter of the process. -/
  | producer (ch : UInt8)
  /-- `consumerEntry` -/
  | consumer
deriving DecidableEq

/-- The semaphore that the worker waits for first. -/
def Role.takes : Role → MSem
  | producer _ => .libre
  | consumer => .lleno

/-- The semaphore that it posts last. -/
def Role.gives : Role → MSem
  | producer _ => .lleno
  | consumer => .libre

theorem MSem.bytes_inj {x y : MSem} (h : x.name.bytes = y.name.bytes) : x = y := by
  cases x <;> cases y <;> first | rfl | cases h

theorem Role.takes_ne (role : Role) : role.takes ≠ .excl := by
  cases role <;> intro h <;> cases h

theorem Role.gives_ne (role : Role) : role.gives ≠ .excl := by
  cases role <;> intro h <;> cases h

/-- Where a worker is in its loop. -/
inductive WorkerPC
  /-- Before the first wait. -/
  | delay
  /-- In the first wait, and then before the wait for `mv_excl`. -/
  | taken
  /-- In the wait for `mv_excl`, and then before the access to `slotValue`. -/
  | access
  /-- Before `sys_sem_post(SEM_EXCL)`. -/
  | leave
  /-- Before the last post. -/
  | give
deriving DecidableEq

/-- A process. -/
inductive MProc
  /-- `mvarCommand`, before its step `i`. -/
  | command (i : Nat)
  | worker (role : Role) (pc : WorkerPC)
deriving DecidableEq

/-- The processes, the table of semaphores and the slot. -/
structure MVar where
  shared : Shared States
  proc : Int → MProc
  slotValue : UInt8
  /-- The values that the producers have written. -/
  written : List UInt8
  /-- The values that the consumers have read. -/
  read : List UInt8

namespace MVar

/-- The states of the processes. -/
def procs (s : MVar) : States := s.shared.sched

/-- Overwrite a process. -/
def setProc (s : MVar) (pid : Int) (p : MProc) : MVar :=
  { s with proc := fun q ↦ if q = pid then p else s.proc q }

/-- The process `pid` runs. -/
def dispatch (s : MVar) (pid : Int) : Shared States :=
  { s.shared with sched := { s.procs with currentPID := pid } }

/-- `sys_sem_wait`, whose result nobody looks at. -/
def sysSemWait (s : MVar) (pid : Int) (x : MSem) : Option MVar :=
  ((s.dispatch pid).sharedSemWait x.name.buffer).map fun r ↦ { s with shared := r.2 }

/-- `sys_sem_post` -/
def sysSemPost (s : MVar) (pid : Int) (x : MSem) : Option MVar :=
  ((s.dispatch pid).sharedSemPost x.name.buffer).map fun r ↦ { s with shared := r.2 }

/-- `sys_sem_close` -/
def sysSemClose (s : MVar) (pid : Int) (x : MSem) : Option MVar :=
  ((s.dispatch pid).sharedSemClose x.name.buffer).map fun r ↦ { s with shared := r.2 }

/-- `sys_sem_open`, whose result nobody looks at either. -/
def sysSemOpen (s : MVar) (pid : Int) (x : MSem) (room : Bool) : MVar :=
  { s with shared := ((s.dispatch pid).sharedSemOpen x.name.buffer x.initialValue room).2 }

/-- `sys_create_process` with the pid `child`, if it is free. -/
def create (s : MVar) (child : Int) (role : Role) : MVar :=
  if invalidPID child ∨ s.procs.state child ≠ none then s
  else { s.setProc child (.worker role .delay) with
    shared := { s.shared with sched := s.procs.set child (some .READY) } }

/-- Step `i` of `mvarCommand` with `nw` writers and `nr` readers. -/
def mvarCommand (nw nr : Nat) (s : MVar) (pid : Int) (room : Bool) (child : Int) :
    Nat → Option MVar
  | 0 => s.sysSemClose pid .excl
  | 1 => s.sysSemClose pid .libre
  | 2 => s.sysSemClose pid .lleno
  | 3 => some (s.sysSemOpen pid .excl room)
  | 4 => some (s.sysSemOpen pid .libre room)
  | 5 => some (s.sysSemOpen pid .lleno room)
  | j + 6 =>
      if j < nw then some (s.create child (.producer (65 + UInt8.ofNat (j % 26))))
      else if j < nw + nr then some (s.create child .consumer)
      else some s

/-- The access to the slot. -/
def access (s : MVar) : Role → MVar
  | .producer ch => { s with slotValue := ch, written := s.written ++ [ch] }
  | .consumer => { s with read := s.read ++ [s.slotValue] }

/-- One step of `producerEntry` or `consumerEntry`, and where it leads. -/
def workerEntry (s : MVar) (pid : Int) (role : Role) : WorkerPC → Option (MVar × WorkerPC)
  | .delay => (s.sysSemWait pid role.takes).map fun s ↦ (s, .taken)
  | .taken => (s.sysSemWait pid .excl).map fun s ↦ (s, .access)
  | .access => some (s.access role, .leave)
  | .leave => (s.sysSemPost pid .excl).map fun s ↦ (s, .give)
  | .give => (s.sysSemPost pid role.gives).map fun s ↦ (s, .delay)

/-- The process `pid` runs for one step; `room` tells whether the heap has room for a
semaphore, and `child` is the pid that `sys_create_process` finds. -/
structure Event where
  pid : Int
  room : Bool
  child : Int

/-- One event.  A process that is `READY` may be dispatched at any time. -/
def step (nw nr : Nat) (s : MVar) (e : Event) : Option MVar :=
  if s.procs.state e.pid = some .READY then
    match s.proc e.pid with
    | .command i => (s.mvarCommand nw nr e.pid e.room e.child i).map fun s ↦
        s.setProc e.pid (.command (i + 1))
    | .worker role pc => (s.workerEntry e.pid role pc).map fun r ↦
        r.1.setProc e.pid (.worker role r.2)
  else none

/-- `mvarCommand` is started by the process `cmd`. -/
def init (shared : Shared States) (cmd : Int) : MVar where
  shared := { shared with
    sched := ⟨fun pid ↦ if pid = cmd then some .READY else none, cmd, true⟩ }
  proc := fun _ ↦ .command 0
  slotValue := 0
  written := []
  read := []

/-- **The hand-off**: the values that have been read are the first ones of those that have
been written, and at most one value has been written and not read. -/
structure HandOff (s : MVar) : Prop where
  order : s.read <+: s.written
  once : s.written.length ≤ s.read.length + 1

/-- The semaphore that a step of `mvarCommand` opens. -/
def MProc.opens : MProc → Option MSem
  | .command 3 => some .excl
  | .command 4 => some .libre
  | .command 5 => some .lleno
  | _ => none

/-- Each `sys_sem_open` of `mvarCommand` creates a semaphore: the name is not in the table,
and the call succeeds. -/
def Event.Creates (s : MVar) (e : Event) : Prop :=
  ∀ x ∈ MProc.opens (s.proc e.pid), s.shared.findByName x.name.buffer = none ∧
    ((s.dispatch e.pid).sharedSemOpen x.name.buffer x.initialValue e.room).1 = 0

instance (s : MVar) (e : Event) : Decidable (e.Creates s) :=
  inferInstanceAs (Decidable (∀ _ ∈ _, _))

/-! ## The baton -/

/-- The places between the first wait and the last post. -/
def MProc.holding : MProc → Bool
  | .worker _ .taken | .worker _ .access | .worker _ .leave | .worker _ .give => true
  | .worker _ .delay | .command _ => false

/-- The places between the wait for `mv_excl` and the post. -/
def MProc.inExcl : MProc → Bool
  | .worker _ .access | .worker _ .leave => true
  | .worker _ .delay | .worker _ .taken | .worker _ .give | .command _ => false

/-- Whether the slot is full, when the process has the baton. -/
def MProc.full : MProc → Bool
  | .worker (.producer _) .leave | .worker (.producer _) .give => true
  | .worker .consumer .taken | .worker .consumer .access => true
  | _ => false

/-- The semaphore that the process waits for, if it is blocked: nobody is ever blocked on
`mv_excl`. -/
def MProc.waitsFor (x : MSem) : MProc → Prop
  | .worker role .taken => role.takes = x
  | _ => False

/-- The process has the baton. -/
def Holding (s : MVar) (pid : Int) : Prop :=
  s.procs.state pid = some .READY ∧ MProc.holding (s.proc pid) = true

instance (s : MVar) : DecidablePred s.Holding := fun _ ↦ inferInstanceAs (Decidable (_ ∧ _))

/-- The process has `mv_excl`. -/
def InExcl (s : MVar) (pid : Int) : Prop :=
  s.procs.state pid = some .READY ∧ MProc.inExcl (s.proc pid) = true

instance (s : MVar) : DecidablePred s.InExcl := fun _ ↦ inferInstanceAs (Decidable (_ ∧ _))

/-- What has been written has been read, except for the slot if it is full. -/
def Content (s : MVar) (full : Bool) : Prop :=
  s.written = s.read ++ if full then [s.slotValue] else []

/-- Where the baton is. -/
structure Baton (s : MVar) (sem : MSem → Sem) : Prop where
  valid : ∀ pid, s.procs.state pid ≠ none → ¬invalidPID pid
  /-- The semaphores have been opened. -/
  opened : ∀ pid i, s.procs.state pid ≠ none → s.proc pid = .command i → 6 ≤ i
  waiting : ∀ x, Waiting (sem x) s.procs fun q ↦ MProc.waitsFor x (s.proc q)
  excl : (sem .excl).tokens + count pids s.InExcl = 1
  baton : (sem .libre).tokens + (sem .lleno).tokens + count pids s.Holding = 1
  libre : 0 < (sem .libre).tokens → s.Content false
  lleno : 0 < (sem .lleno).tokens → s.Content true
  holder : ∀ pid, s.Holding pid → s.Content (MProc.full (s.proc pid))

variable {s t : MVar} {sem sem' : MSem → Sem} {m : Finmap fun _ : List UInt8 ↦ Nat × Int}
  {pid q : Int} {role : Role} {p : MProc} {x : MSem}

theorem Baton.mem_pids (h : Baton s sem) (hpid : s.procs.state pid ≠ none) : pid ∈ pids :=
  Process.mem_pids.mpr (h.valid pid hpid)

theorem Baton.mem_of_holding (h : Baton s sem) (hpid : s.Holding pid) : pid ∈ pids :=
  h.mem_pids (by rw [hpid.1]; simp)

/-- **There is one baton.** -/
theorem Baton.holder_unique (h : Baton s sem) (hpid : s.Holding pid) (hq : s.Holding q) :
    pid = q := by
  have hbaton := h.baton
  exact eq_of_count_le_one (by omega) (h.mem_of_holding hpid) (h.mem_of_holding hq) hpid hq

/-- Whoever has `mv_excl` has the baton. -/
theorem InExcl.holding (h : s.InExcl pid) : s.Holding pid := by
  refine ⟨h.1, ?_⟩
  have hexcl := h.2
  generalize s.proc pid = p at hexcl ⊢
  cases p with
  | command i => cases hexcl
  | worker role pc => cases pc <;> first | rfl | cases hexcl

theorem Baton.no_tokens (h : Baton s sem) (hpid : s.Holding pid) :
    (sem .libre).tokens = 0 ∧ (sem .lleno).tokens = 0 ∧ count pids s.Holding = 1 := by
  have hpos : count pids s.Holding ≠ 0 := fun hzero ↦
    count_eq_zero.mp hzero pid (h.mem_of_holding hpid) hpid
  have hbaton := h.baton
  omega

/-- **The hand-off**, from the baton. -/
theorem Baton.handOff (h : Baton s sem) : HandOff s := by
  have hcontent : ∃ full, s.Content full := by
    by_cases hnone : ∃ pid, s.Holding pid
    · obtain ⟨pid, hpid⟩ := hnone
      exact ⟨_, h.holder pid hpid⟩
    · have hzero : count pids s.Holding = 0 :=
        count_eq_zero.mpr fun pid _ hpid ↦ hnone ⟨pid, hpid⟩
      have hbaton := h.baton
      by_cases hlibre : 0 < (sem .libre).tokens
      · exact ⟨false, h.libre hlibre⟩
      · exact ⟨true, h.lleno (by omega)⟩
  obtain ⟨full, hcontent⟩ := hcontent
  rw [Content] at hcontent
  constructor
  · exact ⟨_, hcontent.symm⟩
  · rw [hcontent, List.length_append]
    cases full <;> simp

/-! ## One process moves -/

/-- Only the process `pid`, which was ready, has changed. -/
structure Moves (s t : MVar) (pid : Int) : Prop where
  awake : s.procs.state pid ≠ some .BLOCKED
  proc : ∀ q, q ≠ pid → t.proc q = s.proc q
  state : ∀ q, q ≠ pid → t.procs.state q = s.procs.state q

namespace Moves

theorem holding_iff (h : Moves s t pid) (hq : q ≠ pid) : t.Holding q ↔ s.Holding q := by
  rw [Holding, Holding, h.proc q hq, h.state q hq]

theorem inExcl_iff (h : Moves s t pid) (hq : q ≠ pid) : t.InExcl q ↔ s.InExcl q := by
  rw [InExcl, InExcl, h.proc q hq, h.state q hq]

/-- Who is blocked on a semaphore that the process does not wait for. -/
theorem waits_iff (h : Moves s t pid)
    (hx : ¬(MProc.waitsFor x (t.proc pid) ∧ t.procs.state pid = some .BLOCKED)) (q : Int) :
    (MProc.waitsFor x (t.proc q) ∧ t.procs.state q = some .BLOCKED) ↔
      (MProc.waitsFor x (s.proc q) ∧ s.procs.state q = some .BLOCKED) := by
  by_cases hq : q = pid
  · subst hq
    exact iff_of_false hx fun hb ↦ h.awake hb.2
  · rw [h.proc q hq, h.state q hq]

/-- **What a step has to keep**: the tokens and the process together make up what they made
up before, and whoever gets the baton finds the slot as he expects. -/
theorem baton (h : Moves s t pid) (hbaton : Baton s sem) (hvalid : ¬invalidPID pid)
    (hopened : ∀ i, t.proc pid = .command i → 6 ≤ i)
    (hwaiting : ∀ x, Waiting (sem' x) t.procs fun q ↦ MProc.waitsFor x (t.proc q))
    (hexcl : (sem' .excl).tokens + (if t.InExcl pid then 1 else 0) =
      (sem .excl).tokens + if s.InExcl pid then 1 else 0)
    (htokens : (sem' .libre).tokens + (sem' .lleno).tokens + (if t.Holding pid then 1 else 0) =
      (sem .libre).tokens + (sem .lleno).tokens + if s.Holding pid then 1 else 0)
    (hslot : (∀ full, s.Content full → t.Content full) ∨ s.Holding pid)
    (hlibre : 0 < (sem' .libre).tokens → t.Content false)
    (hlleno : 0 < (sem' .lleno).tokens → t.Content true)
    (hholder : t.Holding pid → t.Content (MProc.full (t.proc pid))) : Baton t sem' := by
  have hpids : pid ∈ pids := Process.mem_pids.mpr hvalid
  have hi : count pids t.InExcl + (if s.InExcl pid then 1 else 0) =
      count pids s.InExcl + if t.InExcl pid then 1 else 0 :=
    count_change hpids fun q hq ↦ h.inExcl_iff hq
  have hh : count pids t.Holding + (if s.Holding pid then 1 else 0) =
      count pids s.Holding + if t.Holding pid then 1 else 0 :=
    count_change hpids fun q hq ↦ h.holding_iff hq
  have hexcl₀ := hbaton.excl
  have hbaton₀ := hbaton.baton
  refine ⟨fun q hq ↦ ?_, fun q i hq hp ↦ ?_, hwaiting, by omega, by omega, hlibre, hlleno,
    fun q hq ↦ ?_⟩
  · by_cases hqpid : q = pid
    · rwa [hqpid]
    · exact hbaton.valid q (by rwa [← h.state q hqpid])
  · by_cases hqpid : q = pid
    · exact hopened i (hqpid ▸ hp)
    · rw [h.state q hqpid] at hq
      rw [h.proc q hqpid] at hp
      exact hbaton.opened q i hq hp
  · by_cases hqpid : q = pid
    · exact hqpid ▸ hholder (hqpid ▸ hq)
    · have hqs := (h.holding_iff hqpid).mp hq
      rw [h.proc q hqpid]
      rcases hslot with hslot | hpid
      · exact hslot _ (hbaton.holder q hqs)
      · exact absurd (hbaton.holder_unique hqs hpid) hqpid

/-- The process moves outside the protocol. -/
theorem outside (h : Moves s t pid) (hbaton : Baton s sem) (hvalid : ¬invalidPID pid)
    (hopened : ∀ i, t.proc pid = .command i → 6 ≤ i) (hready : t.procs.state pid = some .READY)
    (hout : ¬s.Holding pid) (hout' : ¬t.Holding pid)
    (hslot : ∀ full, s.Content full → t.Content full) : Baton t sem := by
  refine h.baton hbaton hvalid hopened
    (fun x ↦ (hbaton.waiting x).congr (h.waits_iff fun hb ↦ ?_)) ?_ ?_ (.inl hslot)
    (fun hpos ↦ hslot _ (hbaton.libre hpos)) (fun hpos ↦ hslot _ (hbaton.lleno hpos))
    fun hin ↦ absurd hin hout'
  · cases hready.symm.trans hb.2
  · rw [if_neg fun hin ↦ hout' hin.holding, if_neg fun hin ↦ hout hin.holding]
  · rw [if_neg hout, if_neg hout']

end Moves

/-! ## The three semaphores -/

/-- The table has the three names. -/
structure Named (shared : Shared States) (m : Finmap fun _ : List UInt8 ↦ Nat × Int)
    (sem : MSem → Sem) : Prop where
  tabled : shared.Tabled m
  sems : ∀ x, ∃ p c, m.lookup x.name.bytes = some (p, c) ∧ shared.sems p = some (sem x)

namespace Named

variable {shared shared' : Shared States}

theorem setSched (h : Named shared m sem) (sched : States) :
    Named { shared with sched := sched } m sem := ⟨h.tabled.setSched sched, h.sems⟩

theorem dispatch (h : Named s.shared m sem) (pid : Int) : Named (s.dispatch pid) m sem :=
  h.setSched _

/-- One of the semaphores is changed. -/
theorem setSem (h : Named shared m sem) {p : Nat} {c : Int} {new : Sem}
    (hp : m.lookup x.name.bytes = some (p, c)) (htabled : shared'.Tabled m)
    (hsems : shared'.sems = (shared.setSem p (some new)).sems) :
    Named shared' m (Function.update sem x new) := by
  refine ⟨htabled, fun y ↦ ?_⟩
  obtain ⟨q, d, hq, hsem⟩ := h.sems y
  refine ⟨q, d, hq, ?_⟩
  rw [hsems]
  change (if q = p then some new else shared.sems q) = _
  by_cases hyx : y = x
  · subst hyx
    obtain ⟨rfl, -⟩ := Prod.mk.inj (Option.some.inj (hp.symm.trans hq))
    rw [if_pos rfl, Function.update_self]
  · have hqp : q ≠ p := by
      rintro rfl
      exact hyx (MSem.bytes_inj (h.tabled.unshared _ _ _ _ _ hq hp))
    rw [if_neg hqp, Function.update_of_ne hyx]
    exact hsem

theorem wait (h : Named shared m sem) (x : MSem) : ∃ shared',
    shared.sharedSemWait x.name.buffer = some (0, shared') ∧
      Named shared' m (Function.update sem x (semWait (sem x) shared.sched).1) ∧
      shared'.sched = (semWait (sem x) shared.sched).2.1 := by
  obtain ⟨p, c, hp, hsem⟩ := h.sems x
  rcases h.tabled.sharedSemWait x.name with
    ⟨q, d, sem', shared', hq, hsem', hwait, htabled, hsems, hsched⟩ | ⟨hnone, -⟩
  · obtain ⟨rfl, -⟩ := Prod.mk.inj (Option.some.inj (hp.symm.trans hq))
    obtain rfl := Option.some.inj (hsem.symm.trans hsem')
    exact ⟨shared', hwait, h.setSem hp htabled hsems, hsched⟩
  · rw [hp] at hnone
    cases hnone

theorem post (h : Named shared m sem) (x : MSem) : ∃ shared',
    shared.sharedSemPost x.name.buffer = some (0, shared') ∧
      Named shared' m (Function.update sem x (semPost (sem x) shared.sched).1) ∧
      shared'.sched = (semPost (sem x) shared.sched).2 := by
  obtain ⟨p, c, hp, hsem⟩ := h.sems x
  rcases h.tabled.sharedSemPost x.name with
    ⟨q, d, sem', shared', hq, hsem', hpost, htabled, hsems, hsched⟩ | ⟨hnone, -⟩
  · obtain ⟨rfl, -⟩ := Prod.mk.inj (Option.some.inj (hp.symm.trans hq))
    obtain rfl := Option.some.inj (hsem.symm.trans hsem')
    exact ⟨shared', hpost, h.setSem hp htabled hsems, hsched⟩
  · rw [hp] at hnone
    cases hnone

end Named

/-! ## The workers -/

/-- The invariant once the semaphores are open. -/
def Open (s : MVar) : Prop := ∃ m sem, Named s.shared m sem ∧ Baton s sem

theorem holding_of_ready (hready : s.procs.state pid = some .READY) (hp : s.proc pid = p) :
    s.Holding pid ↔ MProc.holding p = true := by
  rw [Holding, hp, hready]
  exact and_iff_right rfl

theorem inExcl_of_ready (hready : s.procs.state pid = some .READY) (hp : s.proc pid = p) :
    s.InExcl pid ↔ MProc.inExcl p = true := by
  rw [InExcl, hp, hready]
  exact and_iff_right rfl

theorem not_holding_of_blocked (hblocked : s.procs.state pid = some .BLOCKED) : ¬s.Holding pid :=
  fun h ↦ by cases hblocked.symm.trans h.1

theorem not_inExcl_of_blocked (hblocked : s.procs.state pid = some .BLOCKED) : ¬s.InExcl pid :=
  fun h ↦ not_holding_of_blocked hblocked h.holding

/-- Nobody waits for `mv_excl` in vain. -/
theorem not_waitsFor_excl : ¬MProc.waitsFor .excl p := by
  cases p with
  | command i => exact id
  | worker role pc =>
      cases pc with
      | taken => exact role.takes_ne
      | delay | access | leave | give => exact id

theorem not_waitsFor_of_inExcl (h : MProc.inExcl p = true) : ¬MProc.waitsFor x p := by
  cases p with
  | command i => exact id
  | worker role pc =>
      cases pc with
      | taken => cases h
      | delay | access | leave | give => exact id

/-- The tokens of `mv_libre` and `mv_lleno` after one of them has changed. -/
theorem tokens_update (sem : MSem → Sem) (hx : x ≠ .excl) (new : Sem) :
    (Function.update sem x new .excl).tokens = (sem .excl).tokens ∧
      (Function.update sem x new .libre).tokens + (Function.update sem x new .lleno).tokens +
        (sem x).tokens = (sem .libre).tokens + (sem .lleno).tokens + new.tokens := by
  refine ⟨by rw [Function.update_of_ne hx.symm], ?_⟩
  cases x with
  | excl => exact absurd rfl hx
  | libre =>
      rw [Function.update_self, Function.update_of_ne (by decide)]
      omega
  | lleno =>
      rw [Function.update_self, Function.update_of_ne (by decide)]
      omega

theorem tokens_update_le {new : Sem} (hle : new.tokens ≤ (sem x).tokens) (y : MSem) :
    (Function.update sem x new y).tokens ≤ (sem y).tokens := by
  by_cases hy : y = x
  · subst hy
    rwa [Function.update_self]
  · rw [Function.update_of_ne hy]

/-- The other semaphores. -/
theorem Moves.waiting (h : Moves s t pid) (hbaton : Baton s sem) {new : Sem}
    (hx : Waiting new t.procs fun q ↦ MProc.waitsFor x (t.proc q))
    (hpid : ∀ y, y ≠ x → ¬(MProc.waitsFor y (t.proc pid) ∧ t.procs.state pid = some .BLOCKED))
    (y : MSem) : Waiting (Function.update sem x new y) t.procs fun q ↦
      MProc.waitsFor y (t.proc q) := by
  by_cases hy : y = x
  · subst hy
    rwa [Function.update_self]
  · rw [Function.update_of_ne hy]
    exact (hbaton.waiting y).congr (h.waits_iff (hpid y hy))

/-- There is at most one token. -/
theorem tokens_le_one (h : Baton s sem) (hx : x ≠ .excl) : (sem x).tokens ≤ 1 := by
  have hbaton := h.baton
  cases x with
  | excl => exact absurd rfl hx
  | libre => omega
  | lleno => omega

/-- `sys_sem_wait(SEM_SLOT_LIBRE)` of a producer, `sys_sem_wait(SEM_SLOT_LLENO)` of a
consumer. -/
theorem Open.delay (h : s.Open) (hnodes : s.procs.nodes = true)
    (hready : s.procs.state pid = some .READY)
    (hp : s.proc pid = .worker role .delay)
    (ht : s.sysSemWait pid role.takes = some t) : (t.setProc pid (.worker role .taken)).Open := by
  obtain ⟨m, sem, hnamed, hbaton⟩ := h
  obtain ⟨shared, hwait, hnamed', hsched⟩ :=
    (hnamed.dispatch pid).wait role.takes
  rw [sysSemWait, hwait] at ht
  obtain rfl := Option.some.inj ht
  set u : MVar := { s with shared := shared }.setProc pid (.worker role .taken) with hu
  have hproc : u.proc pid = .worker role .taken := if_pos rfl
  have hother : ∀ q, q ≠ pid → u.proc q = s.proc q := fun q hq ↦ if_neg hq
  have hvalid := hbaton.valid pid (by rw [hready]; simp)
  have hout : ¬s.Holding pid := by
    rw [holding_of_ready hready hp]
    simp [MProc.holding]
  have hout' : ¬s.InExcl pid := fun hin ↦ hout hin.holding
  have hold : Waiting (sem role.takes) (s.dispatch pid).sched fun q ↦
      MProc.waitsFor role.takes (s.proc q) := (hbaton.waiting role.takes).congr fun _ ↦ Iff.rfl
  obtain ⟨hexcl, htokens⟩ := tokens_update sem role.takes_ne
    (semWait (sem role.takes) (s.dispatch pid).sched).1
  refine ⟨m, _, hnamed', ?_⟩
  rcases hold.wait (fun q ↦ MProc.waitsFor role.takes (u.proc q)) hnodes hready
      (by change MProc.waitsFor _ (u.proc pid); rw [hproc]; exact rfl)
      (fun q hq ↦ by rw [hother q hq]) with
    ⟨htake, hsame, hw⟩ | ⟨hzero, hzero', hset, hw⟩
  · -- the token becomes the baton of the process
    have hstates : u.procs.state = s.procs.state := by
      change shared.sched.state = _
      rw [hsched, hsame]
      rfl
    have hready' : u.procs.state pid = some .READY := by rw [hstates, hready]
    have hmoves : Moves s u pid := ⟨by rw [hready]; simp, hother, fun q _ ↦ congrFun hstates q⟩
    have hin : u.Holding pid := (holding_of_ready hready' hproc).mpr rfl
    have hbaton₀ := hbaton.baton
    have hnone : (Function.update sem role.takes
        (semWait (sem role.takes) (s.dispatch pid).sched).1 .libre).tokens = 0 ∧
        (Function.update sem role.takes
          (semWait (sem role.takes) (s.dispatch pid).sched).1 .lleno).tokens = 0 := by
      have hle := tokens_le_one hbaton role.takes_ne
      omega
    refine hmoves.baton hbaton hvalid (fun i hi ↦ by cases hproc.symm.trans hi)
      (hmoves.waiting hbaton (hw.congr fun q ↦ by rw [hstates]; exact Iff.rfl) fun y _ hb ↦ ?_)
      ?_ ?_ (.inl fun _ ↦ id) ?_ ?_ ?_
    · cases hready'.symm.trans hb.2
    · rw [hexcl, if_neg hout', if_neg]
      rw [inExcl_of_ready hready' hproc]
      simp [MProc.inExcl]
    · rw [if_neg hout, if_pos hin]
      omega
    · omega
    · omega
    · intro _
      have hpos : 0 < (sem role.takes).tokens := by omega
      rw [hproc]
      cases role with
      | producer ch => exact hbaton.libre hpos
      | consumer => exact hbaton.lleno hpos
  · -- the process is blocked
    have hblocked : u.procs.state pid = some .BLOCKED := by
      change shared.sched.state pid = _
      rw [hsched, hset]
      exact States.set_self _ _ _
    have hmoves : Moves s u pid := by
      refine ⟨by rw [hready]; simp, hother, fun q hq ↦ ?_⟩
      change shared.sched.state q = _
      rw [hsched, hset]
      exact States.set_other _ _ hq
    have hle := tokens_update_le (x := role.takes) (hzero'.le.trans hzero.ge)
    refine hmoves.baton hbaton hvalid (fun i hi ↦ by cases hproc.symm.trans hi)
      (hmoves.waiting hbaton (hw.congr fun q ↦ ?_) fun y hy hb ↦ ?_) ?_ ?_
      (.inl fun _ ↦ id) (fun hpos ↦ hbaton.libre (hpos.trans_le (hle .libre)))
      (fun hpos ↦ hbaton.lleno (hpos.trans_le (hle .lleno)))
      (fun hin ↦ absurd hin (not_holding_of_blocked hblocked))
    · change _ ∧ shared.sched.state q = _ ↔ _
      rw [hsched, hset]
    · rw [hproc] at hb
      exact hy hb.1.symm
    · rw [hexcl, if_neg hout', if_neg (not_inExcl_of_blocked hblocked)]
    · rw [if_neg hout, if_neg (not_holding_of_blocked hblocked)]
      omega

/-- `sys_sem_wait(SEM_EXCL)`: whoever has the baton finds the token. -/
theorem Open.taken (h : s.Open) (hready : s.procs.state pid = some .READY)
    (hp : s.proc pid = .worker role .taken)
    (ht : s.sysSemWait pid .excl = some t) : (t.setProc pid (.worker role .access)).Open := by
  obtain ⟨m, sem, hnamed, hbaton⟩ := h
  obtain ⟨shared, hwait, hnamed', hsched⟩ :=
    (hnamed.dispatch pid).wait .excl
  rw [sysSemWait, hwait] at ht
  obtain rfl := Option.some.inj ht
  set u : MVar := { s with shared := shared }.setProc pid (.worker role .access) with hu
  have hproc : u.proc pid = .worker role .access := if_pos rfl
  have hvalid := hbaton.valid pid (by rw [hready]; simp)
  have hin : s.Holding pid := (holding_of_ready hready hp).mpr rfl
  have hout : ¬s.InExcl pid := by
    rw [inExcl_of_ready hready hp]
    simp [MProc.inExcl]
  have htoken : (sem .excl).tokens = 1 := by
    have hzero : count pids s.InExcl = 0 := count_eq_zero.mpr fun q _ hq ↦
      hout (hbaton.holder_unique hin hq.holding ▸ hq)
    have hexcl := hbaton.excl
    omega
  have hold : Waiting (sem .excl) (s.dispatch pid).sched fun q ↦ MProc.waitsFor .excl (s.proc q) :=
    (hbaton.waiting .excl).congr fun _ ↦ Iff.rfl
  obtain ⟨htake, hsame, hw⟩ := hold.take (fun q ↦ MProc.waitsFor .excl (u.proc q)) (by omega)
    fun q hb ↦ by
      have hq : q ≠ pid := by
        rintro rfl
        cases hready.symm.trans hb
      rw [show u.proc q = s.proc q from if_neg hq]
  have hstates : u.procs.state = s.procs.state := by
    change shared.sched.state = _
    rw [hsched, hsame]
    rfl
  have hready' : u.procs.state pid = some .READY := by rw [hstates, hready]
  have hmoves : Moves s u pid :=
    ⟨by rw [hready]; simp, fun q hq ↦ if_neg hq, fun q _ ↦ congrFun hstates q⟩
  obtain ⟨hlibre, hlleno, -⟩ := hbaton.no_tokens hin
  have hin' : u.Holding pid := (holding_of_ready hready' hproc).mpr rfl
  refine ⟨m, _, hnamed', hmoves.baton hbaton hvalid (fun i hi ↦ by cases hproc.symm.trans hi)
    (hmoves.waiting hbaton (hw.congr fun q ↦ by rw [hstates]; exact Iff.rfl) fun y _ hb ↦ ?_)
    ?_ ?_ (.inl fun _ ↦ id) ?_ ?_ ?_⟩
  · cases hready'.symm.trans hb.2
  · rw [Function.update_self, if_neg hout, if_pos ((inExcl_of_ready hready' hproc).mpr rfl)]
    omega
  · rw [if_pos hin, if_pos hin']
    rfl
  · intro hpos
    exact absurd hpos (by simp [hlibre])
  · intro hpos
    exact absurd hpos (by simp [hlleno])
  · intro _
    have hcontent := hbaton.holder pid hin
    rw [hp] at hcontent
    rw [hproc]
    cases role <;> exact hcontent

/-- The access to the slot. -/
theorem Open.access (h : s.Open) (hready : s.procs.state pid = some .READY)
    (hp : s.proc pid = .worker role .access) :
    ((s.access role).setProc pid (.worker role .leave)).Open := by
  obtain ⟨m, sem, hnamed, hbaton⟩ := h
  set u : MVar := (s.access role).setProc pid (.worker role .leave) with hu
  have hshared : u.shared = s.shared := by
    cases role <;> rfl
  have hstates : u.procs = s.procs := congrArg Shared.sched hshared
  have hproc : u.proc pid = .worker role .leave := if_pos rfl
  have hother : ∀ q, q ≠ pid → u.proc q = s.proc q := fun q hq ↦
    (if_neg hq).trans (by cases role <;> rfl)
  have hready' : u.procs.state pid = some .READY := by rw [hstates, hready]
  have hmoves : Moves s u pid := ⟨by rw [hready]; simp, hother, fun q _ ↦ by rw [hstates]⟩
  have hvalid := hbaton.valid pid (by rw [hready]; simp)
  have hin : s.Holding pid := (holding_of_ready hready hp).mpr rfl
  obtain ⟨hlibre, hlleno, -⟩ := hbaton.no_tokens hin
  refine ⟨m, sem, hshared ▸ hnamed, hmoves.baton hbaton hvalid
    (fun i hi ↦ by cases hproc.symm.trans hi)
    (fun x ↦ (hbaton.waiting x).congr (hmoves.waits_iff fun hb ↦ ?_)) ?_ ?_ (.inr hin) ?_ ?_ ?_⟩
  · cases hready'.symm.trans hb.2
  · rw [if_pos ((inExcl_of_ready hready hp).mpr rfl),
      if_pos ((inExcl_of_ready hready' hproc).mpr rfl)]
  · rw [if_pos hin, if_pos ((holding_of_ready hready' hproc).mpr rfl)]
  · intro hpos
    omega
  · intro hpos
    omega
  · intro _
    have hcontent := hbaton.holder pid hin
    rw [hp] at hcontent
    rw [hproc]
    cases role with
    | producer ch =>
        -- the slot was empty, and holds the letter now
        have hwritten : s.written = s.read := Eq.trans hcontent (List.append_nil _)
        change s.written ++ [ch] = s.read ++ [ch]
        rw [hwritten]
    | consumer =>
        have hwritten : s.written = s.read ++ [s.slotValue] := hcontent
        exact hwritten.trans (List.append_nil _).symm

/-- `sys_sem_post(SEM_EXCL)`: nobody waits for it. -/
theorem Open.leave (h : s.Open) (hready : s.procs.state pid = some .READY)
    (hp : s.proc pid = .worker role .leave)
    (ht : s.sysSemPost pid .excl = some t) : (t.setProc pid (.worker role .give)).Open := by
  obtain ⟨m, sem, hnamed, hbaton⟩ := h
  obtain ⟨shared, hpost, hnamed', hsched⟩ :=
    (hnamed.dispatch pid).post .excl
  rw [sysSemPost, hpost] at ht
  obtain rfl := Option.some.inj ht
  set u : MVar := { s with shared := shared }.setProc pid (.worker role .give) with hu
  have hproc : u.proc pid = .worker role .give := if_pos rfl
  have hvalid := hbaton.valid pid (by rw [hready]; simp)
  have hin : s.Holding pid := (holding_of_ready hready hp).mpr rfl
  have hold : Waiting (sem .excl) (s.dispatch pid).sched fun q ↦ MProc.waitsFor .excl (s.proc q) :=
    (hbaton.waiting .excl).congr fun _ ↦ Iff.rfl
  rcases hold.post (fun q ↦ MProc.waitsFor .excl (u.proc q)) hbaton.valid fun q hb ↦ by
      have hq : q ≠ pid := by
        rintro rfl
        cases hready.symm.trans hb
      rw [show u.proc q = s.proc q from if_neg hq] with
    ⟨q, hq, -⟩ | ⟨hone, hsame, hw⟩
  · exact absurd hq not_waitsFor_excl
  · have hstates : u.procs.state = s.procs.state := by
      change shared.sched.state = _
      rw [hsched, hsame]
      rfl
    have hready' : u.procs.state pid = some .READY := by rw [hstates, hready]
    have hmoves : Moves s u pid :=
      ⟨by rw [hready]; simp, fun q hq ↦ if_neg hq, fun q _ ↦ congrFun hstates q⟩
    obtain ⟨hlibre, hlleno, -⟩ := hbaton.no_tokens hin
    have hout : ¬u.InExcl pid := by
      rw [inExcl_of_ready hready' hproc]
      simp [MProc.inExcl]
    refine ⟨m, _, hnamed', hmoves.baton hbaton hvalid (fun i hi ↦ by cases hproc.symm.trans hi)
      (hmoves.waiting hbaton (hw.congr fun q ↦ by rw [hstates]; exact Iff.rfl) fun y _ hb ↦ ?_)
      ?_ ?_ (.inl fun _ ↦ id) ?_ ?_ ?_⟩
    · cases hready'.symm.trans hb.2
    · rw [Function.update_self, if_pos ((inExcl_of_ready hready hp).mpr rfl), if_neg hout]
      omega
    · rw [if_pos hin, if_pos ((holding_of_ready hready' hproc).mpr rfl)]
      rfl
    · intro hpos
      exact absurd hpos (by simp [hlibre])
    · intro hpos
      exact absurd hpos (by simp [hlleno])
    · intro _
      have hcontent := hbaton.holder pid hin
      rw [hp] at hcontent
      rw [hproc]
      cases role <;> exact hcontent

/-- A process that waits, waits for one semaphore. -/
theorem waitsFor_inj {y : MSem} (hx : MProc.waitsFor x p) (hy : MProc.waitsFor y p) : x = y := by
  cases p with
  | command i => exact hx.elim
  | worker role pc =>
      cases pc with
      | taken => exact Eq.trans (Eq.symm hx) hy
      | delay | access | leave | give => exact hx.elim

/-- Whoever is granted the token of a worker gets the baton. -/
theorem waitsFor_gives (h : MProc.waitsFor role.gives p) : MProc.holding p = true ∧
    MProc.full p = MProc.full (.worker role .give) ∧ ∀ i, p ≠ .command i := by
  cases p with
  | command i => exact h.elim
  | worker role' pc =>
      cases pc with
      | taken =>
          refine ⟨rfl, ?_, fun i hi ↦ by cases hi⟩
          cases role <;> cases role' <;> first | rfl | cases h
      | delay | access | leave | give => exact h.elim

/-- The token of the last post wakes a worker of the other kind. -/
theorem Baton.wake (hbaton : Baton s sem) (hready : s.procs.state pid = some .READY)
    (hp : s.proc pid = .worker role .give) (hq : MProc.waitsFor role.gives (s.proc q))
    (hblocked : s.procs.state q = some .BLOCKED) {new : Sem}
    (hproc : t.proc = (s.setProc pid (.worker role .delay)).proc)
    (hstate : t.procs.state = (s.procs.set q (some .READY)).state)
    (hslot : ∀ full, s.Content full → t.Content full) (hnew : new.tokens = 0)
    (hw : Waiting new t.procs fun r ↦ MProc.waitsFor role.gives (t.proc r)) :
    Baton t (Function.update sem role.gives new) := by
  have hqpid : q ≠ pid := by
    rintro rfl
    cases hready.symm.trans hblocked
  have hprocq : t.proc q = s.proc q := by
    rw [hproc]
    exact if_neg hqpid
  have hprocpid : t.proc pid = .worker role .delay := by
    rw [hproc]
    exact if_pos rfl
  have hready' : t.procs.state q = some .READY := by
    rw [hstate]
    exact States.set_self _ _ _
  have hin : s.Holding pid := (holding_of_ready hready hp).mpr rfl
  have hin' : t.Holding q := (holding_of_ready hready' hprocq).mpr (waitsFor_gives hq).1
  have hout : ¬t.Holding pid := fun h ↦ by
    have hhold := h.2
    rw [hprocpid] at hhold
    cases hhold
  have hrest : ∀ r, r ≠ pid → r ≠ q → t.proc r = s.proc r ∧ t.procs.state r = s.procs.state r := by
    intro r hrpid hrq
    rw [hproc, hstate]
    exact ⟨if_neg hrpid, States.set_other _ _ hrq⟩
  obtain ⟨hlibre, hlleno, -⟩ := hbaton.no_tokens hin
  obtain ⟨hexcl, htokens⟩ := tokens_update sem role.gives_ne new
  have hzero : (sem role.gives).tokens = 0 := by
    cases role with
    | producer ch => exact hlleno
    | consumer => exact hlibre
  -- the baton goes from `pid` to `q`
  have hholders : ∀ r, t.Holding r → r = q := by
    intro r hr
    by_contra hrq
    have hrpid : r ≠ pid := by
      rintro rfl
      exact hout hr
    obtain ⟨hrp, hrs⟩ := hrest r hrpid hrq
    rw [Holding, hrp, hrs] at hr
    exact hrpid (hbaton.holder_unique hr hin)
  have hcount : count pids t.Holding = 1 := by
    have hpids : q ∈ pids := hbaton.mem_pids (by rw [hblocked]; simp)
    have henter : count pids t.Holding = count pids (fun _ : Int ↦ False) + 1 :=
      count_enter hpids not_false hin' fun r hr ↦ iff_of_false (fun h ↦ hr (hholders r h)) not_false
    rw [henter, count_eq_zero.mpr fun _ _ ↦ not_false]
  have hinExcl : count pids t.InExcl = count pids s.InExcl := by
    refine (count_eq_zero.mpr fun r _ hr ↦ ?_).trans (count_eq_zero.mpr fun r _ hr ↦ ?_).symm
    · obtain rfl := hholders r hr.holding
      have hexcl := hr.2
      rw [hprocq] at hexcl
      exact absurd hq (not_waitsFor_of_inExcl hexcl)
    · obtain rfl := hbaton.holder_unique hr.holding hin
      have hexcl := hr.2
      rw [hp] at hexcl
      cases hexcl
  refine ⟨fun r hr ↦ ?_, fun r i hr hi ↦ ?_, fun y ↦ ?_, ?_, ?_, fun hpos ↦ ?_, fun hpos ↦ ?_,
    fun r hr ↦ ?_⟩
  · by_cases hrq : r = q
    · exact hrq ▸ hbaton.valid q (by rw [hblocked]; simp)
    · rw [hstate, States.set_other _ _ hrq] at hr
      exact hbaton.valid r hr
  · by_cases hrpid : r = pid
    · subst hrpid
      cases hprocpid.symm.trans hi
    · have hrs : t.proc r = s.proc r := by
        rw [hproc]
        exact if_neg hrpid
      by_cases hrq : r = q
      · subst hrq
        exact absurd (hrs.symm.trans hi) ((waitsFor_gives hq).2.2 i)
      · rw [(hrest r hrpid hrq).2] at hr
        exact hbaton.opened r i hr (hrs.symm.trans hi)
  · by_cases hy : y = role.gives
    · subst hy
      rwa [Function.update_self]
    · rw [Function.update_of_ne hy]
      refine (hbaton.waiting y).congr fun r ↦ ?_
      by_cases hrpid : r = pid
      · subst hrpid
        rw [hprocpid]
        exact iff_of_false (fun hb ↦ hb.1) fun hb ↦ by cases hready.symm.trans hb.2
      · by_cases hrq : r = q
        · subst hrq
          refine iff_of_false (fun hb ↦ ?_) fun hb ↦ hy (waitsFor_inj hb.1 hq)
          cases hready'.symm.trans hb.2
        · obtain ⟨hrp, hrs⟩ := hrest r hrpid hrq
          rw [hrp, hrs]
  · rw [hexcl, hinExcl]
    exact hbaton.excl
  · omega
  · omega
  · omega
  · obtain rfl := hholders r hr
    have hcontent := hbaton.holder pid hin
    rw [hp] at hcontent
    rw [hprocq, (waitsFor_gives hq).2.1]
    exact hslot _ hcontent

/-- `sys_sem_post(SEM_SLOT_LLENO)` of a producer, `sys_sem_post(SEM_SLOT_LIBRE)` of a
consumer. -/
theorem Open.give (h : s.Open) (hready : s.procs.state pid = some .READY)
    (hp : s.proc pid = .worker role .give)
    (ht : s.sysSemPost pid role.gives = some t) : (t.setProc pid (.worker role .delay)).Open := by
  obtain ⟨m, sem, hnamed, hbaton⟩ := h
  obtain ⟨shared, hpost, hnamed', hsched⟩ :=
    (hnamed.dispatch pid).post role.gives
  rw [sysSemPost, hpost] at ht
  obtain rfl := Option.some.inj ht
  set u : MVar := { s with shared := shared }.setProc pid (.worker role .delay) with hu
  have hproc : u.proc pid = .worker role .delay := if_pos rfl
  have hvalid := hbaton.valid pid (by rw [hready]; simp)
  have hin : s.Holding pid := (holding_of_ready hready hp).mpr rfl
  have hold : Waiting (sem role.gives) (s.dispatch pid).sched fun q ↦
      MProc.waitsFor role.gives (s.proc q) := (hbaton.waiting role.gives).congr fun _ ↦ Iff.rfl
  have hwaits : ∀ q, (s.dispatch pid).sched.state q = some .BLOCKED →
      (MProc.waitsFor role.gives (u.proc q) ↔ MProc.waitsFor role.gives (s.proc q)) := by
    intro q hb
    have hq : q ≠ pid := by
      rintro rfl
      cases hready.symm.trans hb
    rw [show u.proc q = s.proc q from if_neg hq]
  refine ⟨m, _, hnamed', ?_⟩
  rcases hold.post (fun q ↦ MProc.waitsFor role.gives (u.proc q)) hbaton.valid hwaits with
    ⟨q, hq, hblocked, -, hzero, hset, hw⟩ | ⟨hone, hsame, hw⟩
  · have hstate : u.procs.state = (s.procs.set q (some .READY)).state := by
      change shared.sched.state = _
      rw [hsched, hset]
      rfl
    refine hbaton.wake hready hp hq hblocked rfl hstate (fun _ ↦ id) hzero (hw.congr fun r ↦ ?_)
    rw [hstate]
    exact Iff.rfl
  · have hstates : u.procs.state = s.procs.state := by
      change shared.sched.state = _
      rw [hsched, hsame]
      rfl
    have hready' : u.procs.state pid = some .READY := by rw [hstates, hready]
    have hmoves : Moves s u pid :=
      ⟨by rw [hready]; simp, fun q hq ↦ if_neg hq, fun q _ ↦ congrFun hstates q⟩
    obtain ⟨hlibre, hlleno, -⟩ := hbaton.no_tokens hin
    obtain ⟨hexcl, htokens⟩ := tokens_update sem role.gives_ne
      (semPost (sem role.gives) (s.dispatch pid).sched).1
    have hout : ¬u.Holding pid := by
      rw [holding_of_ready hready' hproc]
      simp [MProc.holding]
    have hout' : ¬s.InExcl pid := by
      rw [inExcl_of_ready hready hp]
      simp [MProc.inExcl]
    have hcontent := hbaton.holder pid hin
    rw [hp] at hcontent
    refine hmoves.baton hbaton hvalid (fun i hi ↦ by cases hproc.symm.trans hi)
      (hmoves.waiting hbaton (hw.congr fun q ↦ by rw [hstates]; exact Iff.rfl) fun y _ hb ↦ ?_)
      ?_ ?_ (.inl fun _ ↦ id) ?_ ?_ fun hholding ↦ absurd hholding hout
    · cases hready'.symm.trans hb.2
    · rw [hexcl, if_neg hout', if_neg fun hexcl ↦ hout hexcl.holding]
    · rw [if_pos hin, if_neg hout]
      omega
    · cases role with
      | producer ch =>
          intro hpos
          rw [Function.update_of_ne (by intro h; cases h), hlibre] at hpos
          cases hpos
      | consumer => exact fun _ ↦ hcontent
    · cases role with
      | producer ch => exact fun _ ↦ hcontent
      | consumer =>
          intro hpos
          rw [Function.update_of_ne (by intro h; cases h), hlleno] at hpos
          cases hpos

/-! ## The creation of the workers -/

/-- `sys_create_process` -/
theorem Open.create (h : s.Open) (child : Int) (role : Role) : (s.create child role).Open := by
  obtain ⟨m, sem, hnamed, hbaton⟩ := h
  rw [MVar.create]
  split
  · exact ⟨m, sem, hnamed, hbaton⟩
  next hfree =>
      obtain ⟨hvalid, hnone⟩ := not_or.mp hfree
      replace hnone := not_not.mp hnone
      set u : MVar := { s.setProc child (.worker role .delay) with
        shared := { s.shared with sched := s.procs.set child (some .READY) } } with hu
      have hready : u.procs.state child = some .READY := States.set_self _ _ _
      have hproc : u.proc child = .worker role .delay := if_pos rfl
      have hmoves : Moves s u child := ⟨by rw [hnone]; simp, fun q hq ↦ if_neg hq,
        fun q hq ↦ States.set_other _ _ hq⟩
      have hout : ¬s.Holding child := fun hin ↦ by cases hnone.symm.trans hin.1
      have hout' : ¬u.Holding child := by
        rw [holding_of_ready hready hproc]
        simp [MProc.holding]
      exact ⟨m, sem, hnamed.setSched _, hmoves.outside hbaton hvalid
        (fun i hi ↦ by cases hproc.symm.trans hi) hready hout hout' fun _ ↦ id⟩

/-- `mvarCommand` goes on. -/
theorem Open.next (h : s.Open) (hready : s.procs.state pid = some .READY) {i : Nat}
    (hp : s.proc pid = .command i) : (s.setProc pid (.command (i + 1))).Open := by
  obtain ⟨m, sem, hnamed, hbaton⟩ := h
  have hsix := hbaton.opened pid i (by rw [hready]; simp) hp
  set u : MVar := s.setProc pid (.command (i + 1)) with hu
  have hready' : u.procs.state pid = some .READY := hready
  have hproc : u.proc pid = .command (i + 1) := if_pos rfl
  have hmoves : Moves s u pid := ⟨by rw [hready]; simp, fun q hq ↦ if_neg hq, fun _ _ ↦ rfl⟩
  have hout : ¬s.Holding pid := by
    rw [holding_of_ready hready hp]
    simp [MProc.holding]
  have hout' : ¬u.Holding pid := by
    rw [holding_of_ready hready' hproc]
    simp [MProc.holding]
  refine ⟨m, sem, hnamed, hmoves.outside hbaton (hbaton.valid pid (by rw [hready]; simp))
    (fun j hj ↦ ?_) hready' hout hout' fun _ ↦ id⟩
  obtain rfl := (MProc.command.inj (hproc.symm.trans hj)).symm
  omega

theorem create_other (hpid : s.procs.state pid ≠ none) (child : Int) (role : Role) :
    (s.create child role).procs.state pid = s.procs.state pid ∧
      (s.create child role).proc pid = s.proc pid := by
  rw [MVar.create]
  split
  · exact ⟨rfl, rfl⟩
  next hfree =>
      have hne : pid ≠ child := by
        rintro rfl
        exact hfree (.inr hpid)
      exact ⟨States.set_other _ _ hne, if_neg hne⟩

/-- `mvarCommand` after it has opened the semaphores. -/
theorem Open.command (h : s.Open) (hready : s.procs.state pid = some .READY) {nw nr i : Nat}
    (hp : s.proc pid = .command i) {room : Bool} {child : Int}
    (ht : s.mvarCommand nw nr pid room child i = some t) :
    (t.setProc pid (.command (i + 1))).Open := by
  have hsome : s.procs.state pid ≠ none := by
    rw [hready]
    simp
  have hsix : 6 ≤ i := by
    obtain ⟨m, sem, -, hbaton⟩ := h
    exact hbaton.opened pid i hsome hp
  obtain ⟨j, rfl⟩ := Nat.exists_eq_add_of_le' hsix
  have hcreate : ∀ role, ((s.create child role).setProc pid (.command (j + 6 + 1))).Open := by
    intro role
    obtain ⟨hstate, hproc⟩ := create_other hsome child role
    exact (h.create child role).next (hstate.trans hready) (hproc.trans hp)
  simp only [mvarCommand] at ht
  split at ht
  · obtain rfl := Option.some.inj ht
    exact hcreate _
  · split at ht
    · obtain rfl := Option.some.inj ht
      exact hcreate _
    · obtain rfl := Option.some.inj ht
      exact h.next hready hp

/-! ## Runs -/

/-- The step of `mvarCommand` that opens the semaphore. -/
def MSem.opening : MSem → Nat
  | .excl => 3
  | .libre => 4
  | .lleno => 5

/-- `mvarCommand` before its step `i`, when there are no workers yet. -/
structure Early (cmd : Int) (s : MVar) (i : Nat)
    (m : Finmap fun _ : List UInt8 ↦ Nat × Int) : Prop where
  valid : ¬invalidPID cmd
  alone : ∀ q, q ≠ cmd → s.procs.state q = none
  ready : s.procs.state cmd = some .READY
  command : s.proc cmd = .command i
  blank : s.written = [] ∧ s.read = []
  tabled : s.shared.Tabled m
  opened : ∀ x, MSem.opening x < i → ∃ p c, m.lookup x.name.bytes = some (p, c) ∧
    s.shared.sems p = some (newSemaphore x.initialValue)

variable {cmd : Int} {i : Nat}

namespace Early

theorem eq_cmd (h : Early cmd s i m) (hready : s.procs.state q = some .READY) : q = cmd := by
  by_contra hq
  cases (h.alone q hq).symm.trans hready

/-- The next step of `mvarCommand`. -/
theorem next (h : Early cmd s i m) {shared : Shared States}
    {m' : Finmap fun _ : List UInt8 ↦ Nat × Int} (htabled : shared.Tabled m')
    (hsched : shared.sched = (s.dispatch cmd).sched)
    (hopened : ∀ x, MSem.opening x < i + 1 → ∃ p c, m'.lookup x.name.bytes = some (p, c) ∧
      shared.sems p = some (newSemaphore x.initialValue)) :
    Early cmd ({ s with shared := shared }.setProc cmd (.command (i + 1))) (i + 1) m' := by
  have hstate : ∀ q, shared.sched.state q = s.procs.state q := fun q ↦ by
    rw [hsched]
    rfl
  exact ⟨h.valid, fun q hq ↦ (hstate q).trans (h.alone q hq), (hstate cmd).trans h.ready,
    if_pos rfl, h.blank, htabled, hopened⟩

/-- The semaphores are open. -/
theorem complete (h : Early cmd s 6 m) : s.Open := by
  have hsix : ∀ x, MSem.opening x < 6 := fun x ↦ by
    cases x <;> simp [MSem.opening]
  have hstate : ∀ q, s.procs.state q ≠ none → q = cmd := fun q hq ↦ by
    by_contra hne
    exact hq (h.alone q hne)
  have hout : ∀ q, ¬s.Holding q := fun q hq ↦ by
    obtain rfl := h.eq_cmd hq.1
    have hhold := hq.2
    rw [h.command] at hhold
    cases hhold
  have hnobody : count pids s.Holding = 0 := count_eq_zero.mpr fun q _ ↦ hout q
  have hnobody' : count pids s.InExcl = 0 := count_eq_zero.mpr fun q _ hq ↦ hout q hq.holding
  refine ⟨m, fun x ↦ newSemaphore x.initialValue, ⟨h.tabled, fun x ↦ h.opened x (hsix x)⟩,
    fun q hq ↦ ?_, fun q i hq hi ↦ ?_, fun x ↦ .new ?_ fun q hq ↦ ?_, ?_, ?_, fun _ ↦ ?_,
    fun hpos ↦ ?_, fun q hq ↦ absurd hq (hout q)⟩
  · rw [hstate q hq]
    exact h.valid
  · obtain rfl := hstate q hq
    obtain rfl := MProc.command.inj (h.command.symm.trans hi)
    exact le_rfl
  · cases x <;> decide
  · obtain rfl := hstate q (by rw [hq.2]; simp)
    cases h.ready.symm.trans hq.2
  · rw [hnobody']
    rfl
  · rw [hnobody]
    rfl
  · rw [Content, h.blank.1, h.blank.2]
    rfl
  · cases hpos

/-- `sys_sem_close` -/
theorem close (h : Early cmd s i m) (hi : i < 3) {x : MSem} (ht : s.sysSemClose cmd x = some t) :
    ∃ m', Early cmd (t.setProc cmd (.command (i + 1))) (i + 1) m' := by
  have hnone : ∀ y, ¬MSem.opening y < i + 1 := fun y hy ↦ by
    cases y <;> simp only [MSem.opening] at hy <;> omega
  have hdispatch : (s.dispatch cmd).Tabled m := h.tabled.setSched _
  rw [sysSemClose] at ht
  rcases hdispatch.sharedSemClose x.name with
    ⟨p, c, shared, -, -, hclose, htabled, -, hsched⟩ |
    ⟨p, sem, shared, -, -, hclose, htabled, -, hsched⟩ | ⟨-, hclose⟩
  · rw [hclose] at ht
    obtain rfl := Option.some.inj ht
    exact ⟨_, h.next htabled hsched fun y hy ↦ absurd hy (hnone y)⟩
  · rw [hclose] at ht
    obtain rfl := Option.some.inj ht
    exact ⟨_, h.next htabled hsched fun y hy ↦ absurd hy (hnone y)⟩
  · rw [hclose] at ht
    obtain rfl := Option.some.inj ht
    exact ⟨_, h.next hdispatch rfl fun y hy ↦ absurd hy (hnone y)⟩

/-- `sys_sem_open`, if it creates the semaphore. -/
theorem sysSemOpen (h : Early cmd s i m) {x : MSem} (hx : MSem.opening x = i) {room : Bool}
    (hok : s.shared.findByName x.name.buffer = none ∧
      ((s.dispatch cmd).sharedSemOpen x.name.buffer x.initialValue room).1 = 0) :
    ∃ m', Early cmd ((s.sysSemOpen cmd x room).setProc cmd (.command (i + 1))) (i + 1) m' := by
  have hdispatch : (s.dispatch cmd).Tabled m := h.tabled.setSched _
  rw [MVar.sysSemOpen]
  have hnone : m.lookup x.name.bytes = none := by
    rcases h.tabled.findByName x.name with ⟨j, q, d, hfind, -⟩ | ⟨-, hnone⟩
    · cases hok.1.symm.trans hfind
    · exact hnone
  have hfits : ∀ p c, m.lookup x.name.bytes = some (p, c) → c < 2 ^ 31 - 1 := fun p c hp ↦ by
    cases hnone.symm.trans hp
  rcases hdispatch.sharedSemOpen x.name x.initialValue room hfits with
    ⟨p, c, shared, hp, -⟩ | ⟨shared, -, -, -, hopen, htabled, hsems, hsched⟩ | ⟨-, -, hopen⟩
  · cases hnone.symm.trans hp
  · rw [hopen]
    refine ⟨_, h.next htabled hsched fun y hy ↦ ?_⟩
    rw [hsems]
    change ∃ p c, _ ∧ (if p = s.shared.nextSem then _ else s.shared.sems p) = _
    by_cases hyx : y = x
    · subst hyx
      exact ⟨_, _, Finmap.lookup_insert _, if_pos rfl⟩
    · have hlt : MSem.opening y < i := by
        have hne : MSem.opening y ≠ MSem.opening x := fun heq ↦ hyx (by
          cases y <;> cases x <;> first | rfl | cases heq)
        omega
      obtain ⟨p, c, hlookup, hsem⟩ := h.opened y hlt
      obtain ⟨-, hp, -⟩ := h.tabled.live _ _ _ hlookup
      refine ⟨p, c, ?_, (if_neg hp.ne).trans hsem⟩
      rw [Finmap.lookup_insert_of_ne _ fun heq ↦ hyx (MSem.bytes_inj heq)]
      exact hlookup
  · rw [hopen] at hok
    cases hok.2

end Early

/-- How far the run is. -/
def Phase (cmd : Int) (s : MVar) : Prop := (∃ i < 6, ∃ m, Early cmd s i m) ∨ s.Open

/-- The invariant. -/
structure Inv (cmd : Int) (s : MVar) : Prop where
  phase : Phase cmd s
  nodes : s.procs.nodes = true

theorem Phase.of_early {m : Finmap fun _ : List UInt8 ↦ Nat × Int} (hi : i ≤ 6)
    (h : Early cmd s i m) : Phase cmd s := by
  rcases Nat.lt_or_eq_of_le hi with hlt | rfl
  · exact .inl ⟨i, hlt, m, h⟩
  · exact .inr h.complete

theorem Inv.handOff (h : Inv cmd s) : HandOff s := by
  rcases h.phase with ⟨i, -, m, h⟩ | ⟨m, sem, -, hbaton⟩
  · refine ⟨?_, ?_⟩
    · rw [h.blank.1, h.blank.2]
    · rw [h.blank.1, h.blank.2]
      exact Nat.zero_le _
  · exact hbaton.handOff

/-- One step of a worker. -/
theorem Open.workerEntry (h : s.Open) (hnodes : s.procs.nodes = true)
    (hready : s.procs.state pid = some .READY) {pc : WorkerPC}
    (hp : s.proc pid = .worker role pc) {r : MVar × WorkerPC}
    (ht : s.workerEntry pid role pc = some r) : (r.1.setProc pid (.worker role r.2)).Open := by
  cases pc with
  | delay =>
      obtain ⟨t, hcall, rfl⟩ := Option.map_eq_some_iff.mp ht
      exact h.delay hnodes hready hp hcall
  | taken =>
      obtain ⟨t, hcall, rfl⟩ := Option.map_eq_some_iff.mp ht
      exact h.taken hready hp hcall
  | access =>
      obtain rfl := Option.some.inj ht
      exact h.access hready hp
  | leave =>
      obtain ⟨t, hcall, rfl⟩ := Option.map_eq_some_iff.mp ht
      exact h.leave hready hp hcall
  | give =>
      obtain ⟨t, hcall, rfl⟩ := Option.map_eq_some_iff.mp ht
      exact h.give hready hp hcall

theorem create_nodes (s : MVar) (child : Int) (role : Role) :
    (s.create child role).procs.nodes = s.procs.nodes := by
  rw [MVar.create]
  split <;> rfl

theorem sysSemWait_nodes (ht : s.sysSemWait pid x = some t) : t.procs.nodes = s.procs.nodes := by
  obtain ⟨r, hr, rfl⟩ := Option.map_eq_some_iff.mp ht
  have hnodes := Shared.sharedSemWait_nodes hr
  exact hnodes

theorem sysSemPost_nodes (ht : s.sysSemPost pid x = some t) : t.procs.nodes = s.procs.nodes := by
  obtain ⟨r, hr, rfl⟩ := Option.map_eq_some_iff.mp ht
  have hnodes := Shared.sharedSemPost_nodes hr
  exact hnodes

theorem sysSemClose_nodes (ht : s.sysSemClose pid x = some t) :
    t.procs.nodes = s.procs.nodes := by
  obtain ⟨r, hr, rfl⟩ := Option.map_eq_some_iff.mp ht
  have hnodes := congrArg States.nodes (Shared.sharedSemClose_sched hr)
  exact hnodes

theorem sysSemOpen_nodes (s : MVar) (pid : Int) (x : MSem) (room : Bool) :
    (s.sysSemOpen pid x room).procs.nodes = s.procs.nodes := by
  have hsched := Shared.sharedSemOpen_sched x.name.buffer x.initialValue room (s.dispatch pid)
  have hnodes := congrArg States.nodes hsched
  exact hnodes

theorem mvarCommand_nodes {nw nr i : Nat} {room : Bool} {child : Int}
    (ht : s.mvarCommand nw nr pid room child i = some t) : t.procs.nodes = s.procs.nodes := by
  rcases i with _ | _ | _ | _ | _ | _ | j
  · exact sysSemClose_nodes ht
  · exact sysSemClose_nodes ht
  · exact sysSemClose_nodes ht
  · cases ht
    exact sysSemOpen_nodes _ _ _ _
  · cases ht
    exact sysSemOpen_nodes _ _ _ _
  · cases ht
    exact sysSemOpen_nodes _ _ _ _
  · simp only [mvarCommand] at ht
    split at ht
    · cases ht
      exact create_nodes _ _ _
    · split at ht
      · cases ht
        exact create_nodes _ _ _
      · cases ht
        rfl

theorem workerEntry_nodes {pc : WorkerPC} {r : MVar × WorkerPC}
    (ht : s.workerEntry pid role pc = some r) : r.1.procs.nodes = s.procs.nodes := by
  cases pc with
  | access =>
      cases ht
      cases role <;> rfl
  | delay | taken =>
      obtain ⟨t, hcall, rfl⟩ := Option.map_eq_some_iff.mp ht
      exact sysSemWait_nodes hcall
  | leave | give =>
      obtain ⟨t, hcall, rfl⟩ := Option.map_eq_some_iff.mp ht
      exact sysSemPost_nodes hcall

/-- No step changes what the heap has room for. -/
theorem step_nodes {nw nr : Nat} {e : Event} (ht : MVar.step nw nr s e = some t) :
    t.procs.nodes = s.procs.nodes := by
  simp only [MVar.step] at ht
  split at ht
  · split at ht
    · obtain ⟨u, hu, rfl⟩ := Option.map_eq_some_iff.mp ht
      have hnodes := mvarCommand_nodes hu
      exact hnodes
    · obtain ⟨r, hr, rfl⟩ := Option.map_eq_some_iff.mp ht
      have hnodes := workerEntry_nodes hr
      exact hnodes
  · cases ht

theorem Inv.step (h : Inv cmd s) {nw nr : Nat} {e : Event} (hok : e.Creates s)
    (ht : MVar.step nw nr s e = some t) : Inv cmd t := by
  obtain ⟨h, hnodes⟩ := h
  refine ⟨?_, (step_nodes ht).trans hnodes⟩
  simp only [MVar.step] at ht
  split at ht
  next hready =>
      rcases h with ⟨i, hi, m, h⟩ | h
      · obtain hpid := h.eq_cmd hready
        have hp := h.command
        rw [Event.Creates, hpid, hp] at hok
        rw [hpid, hp] at ht
        obtain ⟨u, hu, rfl⟩ := Option.map_eq_some_iff.mp ht
        suffices hnext : ∃ m', Early cmd (u.setProc cmd (.command (i + 1))) (i + 1) m' by
          obtain ⟨m', hnext⟩ := hnext
          exact .of_early hi hnext
        rcases i with _ | _ | _ | _ | _ | _ | i
        · exact h.close (by omega) hu
        · exact h.close (by omega) hu
        · exact h.close (by omega) hu
        · obtain rfl := Option.some.inj hu
          exact h.sysSemOpen rfl (hok _ rfl)
        · obtain rfl := Option.some.inj hu
          exact h.sysSemOpen rfl (hok _ rfl)
        · obtain rfl := Option.some.inj hu
          exact h.sysSemOpen rfl (hok _ rfl)
        · omega
      · refine .inr ?_
        cases hp : s.proc e.pid with
        | command i =>
            rw [hp] at ht
            obtain ⟨u, hu, rfl⟩ := Option.map_eq_some_iff.mp ht
            exact h.command hready hp hu
        | worker role pc =>
            rw [hp] at ht
            obtain ⟨r, hr, rfl⟩ := Option.map_eq_some_iff.mp ht
            exact h.workerEntry hnodes hready hp hr
  · cases ht

theorem Inv.init {shared : Shared States} (htabled : shared.Tabled m) (hcmd : ¬invalidPID cmd) :
    Inv cmd (MVar.init shared cmd) :=
  ⟨.inl ⟨0, by omega, m, hcmd, fun _ hq ↦ if_neg hq, if_pos rfl, rfl, ⟨rfl, rfl⟩,
    htabled.setSched _, fun _ hx ↦ absurd hx (Nat.not_lt_zero _)⟩, rfl⟩

/-- **The hand-off.**  Whatever the table of semaphores, the numbers of writers and readers
and the interleaving, if `mvarCommand` creates its three semaphores, then no value is
overwritten before it has been read, and the values are read once each and in the order in
which they have been written. -/
theorem hand_off {shared : Shared States} (htabled : shared.Tabled m) (hcmd : ¬invalidPID cmd)
    (nw nr : Nat) (h : Reach (step nw nr) (fun s e ↦ e.Creates s) (init shared cmd) s) :
    HandOff s :=
  Inv.handOff (h.invariant (I := Inv cmd) (.init htabled hcmd) fun _ _ _ hu hok ht ↦
    hu.step hok ht)

/-- One writer and two readers: the second reader waits while the writer is about to write
for the second time. -/
theorem hand_off_second : ∃ s : MVar,
    (s.procs.state 3 = some .READY ∧ s.procs.state 5 = some .BLOCKED ∧ s.written = [65, 65] ∧
      s.read = [65]) ∧ HandOff s := by
  let es : List Event := List.replicate 7 ⟨2, true, 3⟩ ++ [⟨2, true, 4⟩, ⟨2, true, 5⟩] ++
    List.replicate 5 ⟨3, true, 0⟩ ++ [⟨4, true, 0⟩, ⟨5, true, 0⟩] ++
    List.replicate 4 ⟨4, true, 0⟩ ++ List.replicate 3 ⟨3, true, 0⟩
  have hrun : (run (step 1 2) (init (.init ⟨fun _ ↦ none, 0, true⟩) 2) es).map (fun s ↦
      decide (s.procs.state 3 = some .READY ∧ s.procs.state 5 = some .BLOCKED ∧
        s.written = [65, 65] ∧ s.read = [65])) = some true := by
    decide +kernel
  have hguard : Guarded (step 1 2) (fun s e ↦ e.Creates s)
      (init (.init ⟨fun _ ↦ none, 0, true⟩) 2) es := by
    decide +kernel
  obtain ⟨s, hrun, hobs⟩ := Option.map_eq_some_iff.mp hrun
  exact ⟨s, of_decide_eq_true hobs,
    hand_off (.init _) (by decide) 1 2 (.of_run hrun hguard)⟩

/-- The heap has no room for the semaphores, and the writer writes twice although nobody has
read. -/
theorem value_lost : ¬∀ (shared : Shared States) (cmd : Int) (nw nr : Nat) (s : MVar),
    (∃ m, shared.Tabled m) → ¬invalidPID cmd →
      Reach (step nw nr) (fun _ _ ↦ True) (init shared cmd) s → HandOff s := by
  intro hclaim
  let es : List Event := List.replicate 6 ⟨2, false, 0⟩ ++ [⟨2, true, 3⟩] ++
    List.replicate 8 ⟨3, true, 0⟩
  have hrun : (run (step 1 1) (init (.init ⟨fun _ ↦ none, 0, true⟩) 2) es).map (fun s ↦
      decide (s.written = [65, 65] ∧ s.read = [])) = some true := by
    decide +kernel
  obtain ⟨s, hrun, hobs⟩ := Option.map_eq_some_iff.mp hrun
  obtain ⟨hwritten, hread⟩ := of_decide_eq_true hobs
  have honce := (hclaim _ 2 1 1 s ⟨∅, .init _⟩ (by decide) (.of_run hrun (.of_true _ _))).once
  rw [hwritten, hread] at honce
  exact absurd honce (by decide)

end MVar

end BareBones.Userland
