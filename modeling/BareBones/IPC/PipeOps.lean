import BareBones.IPC.Pipe
import Mathlib.Tactic.SplitIfs

/-!
# What the operations of a pipe do

One specification for each operation of `BareBones.IPC.Pipe`, in terms of explicit
updates of the state.  The lock `readMutex` is only ever held between two blocking
points, so that `afterDataAvailable_eq` can remove it from the code; what is left of
`pipeReadBlocking` is one of three outcomes (`readLoop_spec`), and `writeLoop_spec`
is an induction rule for the loop of `pipeWrite`.
-/

namespace BareBones.IPC

open BareBones.Process BareBones.Semaphores

/-! ## The process table -/

namespace Procs

variable {ps : Procs} {pid q : Int} {pr : Proc}

@[simp] theorem set_self (ps : Procs) (pid : Int) (pr : Proc) :
    (ps.set pid pr).table pid = some pr := by simp [set]

theorem set_other (ps : Procs) (pr : Proc) (h : q ≠ pid) :
    (ps.set pid pr).table q = ps.table q := by simp [set, h]

@[simp] theorem set_currentPID (ps : Procs) (pid : Int) (pr : Proc) :
    (ps.set pid pr).currentPID = ps.currentPID := rfl

@[simp] theorem set_set (ps : Procs) (pid : Int) (pr pr' : Proc) :
    (ps.set pid pr).set pid pr' = ps.set pid pr' := by
  simp only [set]
  congr 1
  funext q
  split <;> rfl

theorem setState_of (h : ps.table pid = some pr) (st : State) :
    ps.setState pid st = ps.set pid { pr with state := st } := by simp [setState, h]

theorem setCont_of (h : ps.table pid = some pr) (c : Cont) :
    ps.setCont pid c = ps.set pid { pr with cont := c } := by simp [setCont, h]

@[simp] theorem setState_nodes (ps : Procs) (pid : Int) (st : State) :
    (ps.setState pid st).nodes = ps.nodes := by
  unfold setState
  split <;> rfl

/-- The process in the slot, if any, is blocked. -/
def Blocked (ps : Procs) (pid : Int) : Prop := ∃ pr, ps.table pid = some pr ∧ pr.state = .BLOCKED

/-- Processes have valid pids, and none is the idle process. -/
def Valid (ps : Procs) : Prop :=
  ∀ pid pr, ps.table pid = some pr → ¬invalidPID pid ∧ pid ≠ IDLE_PID

theorem Valid.set (h : ps.Valid) (hpid : ps.table pid = some pr) (pr' : Proc) :
    (ps.set pid pr').Valid := by
  intro q pr'' hq
  by_cases heq : q = pid
  · rw [heq]
    exact h pid pr hpid
  · rw [set_other _ _ heq] at hq
    exact h q pr'' hq

/-- `setReady` wakes exactly the blocked processes. -/
theorem setReady_eq_none (h : ps.Valid) :
    Scheduler.setReady pid ps = none ↔ ¬ps.Blocked pid := by
  simp only [Scheduler.setReady, Blocked]
  constructor
  · rintro hnone ⟨pr, hpid, hstate⟩
    rw [if_neg (h pid pr hpid).1, hpid] at hnone
    simp [hstate] at hnone
  · intro hnot
    by_cases hinv : invalidPID pid
    · rw [if_pos hinv]
    rw [if_neg hinv]
    cases hpid : ps.table pid with
    | none => rfl
    | some pr =>
        have hstate : pr.state ≠ .BLOCKED := fun hst ↦ hnot ⟨pr, hpid, hst⟩
        simp [hstate]

theorem setReady_eq_some {ps' : Procs} (h : Scheduler.setReady pid ps = some ps') :
    ∃ pr, ps.table pid = some pr ∧ pr.state = .BLOCKED ∧
      ps' = ps.set pid { pr with state := .READY } := by
  simp only [Scheduler.setReady] at h
  split at h
  · cases h
  · split at h
    · cases h
    next pr hpid =>
        split at h
        · cases h
        next hstate => exact ⟨pr, hpid, not_not.mp hstate, (Option.some.inj h).symm⟩

end Procs

namespace Sys

variable {s : Sys} {x y : PipeSem} {pr : Proc} {m : Sem} {cb : CircularBuffer} {count : Nat}

/-! ## Semaphores -/

@[simp] theorem setSem_self (s : Sys) (x : PipeSem) (m : Sem) : (s.setSem x m).pipe.sem x = m := by
  simp [setSem]

theorem setSem_other (s : Sys) (m : Sem) (h : y ≠ x) :
    (s.setSem x m).pipe.sem y = s.pipe.sem y := by simp [setSem, h]

@[simp] theorem setSem_procs (s : Sys) (x : PipeSem) (m : Sem) : (s.setSem x m).procs = s.procs :=
  rfl

@[simp] theorem setSem_buffer (s : Sys) (x : PipeSem) (m : Sem) :
    (s.setSem x m).pipe.buffer = s.pipe.buffer := rfl

@[simp] theorem setSem_writerCount (s : Sys) (x : PipeSem) (m : Sem) :
    (s.setSem x m).pipe.writerCount = s.pipe.writerCount := rfl

@[simp] theorem setSem_setSem (s : Sys) (x : PipeSem) (m m' : Sem) :
    (s.setSem x m).setSem x m' = s.setSem x m' := by
  simp only [setSem]
  congr 2
  funext y
  split <;> rfl

theorem setSem_eq_self (h : s.pipe.sem x = m) : s.setSem x m = s := by
  simp only [setSem, ← h]
  have hsem : (fun y ↦ if y = x then s.pipe.sem x else s.pipe.sem y) = s.pipe.sem := by
    funext y
    split
    next heq => rw [heq]
    next => rfl
  rw [hsem]

theorem setSem_comm (s : Sys) (m m' : Sem) (h : x ≠ y) :
    (s.setSem x m).setSem y m' = (s.setSem y m').setSem x m := by
  simp only [setSem]
  congr 2
  funext z
  by_cases hx : z = x
  · subst hx
    simp [h]
  · simp [hx]

@[simp] theorem post_buffer (s : Sys) (x : PipeSem) : (s.post x).pipe.buffer = s.pipe.buffer := rfl

@[simp] theorem post_writerCount (s : Sys) (x : PipeSem) :
    (s.post x).pipe.writerCount = s.pipe.writerCount := rfl

@[simp] theorem post_writeEnds (s : Sys) (x : PipeSem) : (s.post x).writeEnds = s.writeEnds := rfl

@[simp] theorem post_calls (s : Sys) (x : PipeSem) : (s.post x).calls = s.calls := rfl

@[simp] theorem post_stream (s : Sys) (x : PipeSem) : (s.post x).stream = s.stream := rfl

@[simp] theorem post_results (s : Sys) (x : PipeSem) : (s.post x).results = s.results := rfl

@[simp] theorem post_fullWrites (s : Sys) (x : PipeSem) : (s.post x).fullWrites = s.fullWrites :=
  rfl

theorem post_other (s : Sys) (h : y ≠ x) : (s.post x).pipe.sem y = s.pipe.sem y :=
  setSem_other _ _ h

theorem post_setSem_comm (s : Sys) (m : Sem) (h : y ≠ x) :
    (s.setSem y m).post x = (s.post x).setSem y m := by
  simp only [post, setSem_other s m (Ne.symm h), setSem_procs]
  exact setSem_comm { s with procs := (semPost (s.pipe.sem x) s.procs).2 } _ _ h

/-- A process wakes up. -/
def wake (s : Sys) (pid : Int) (pr : Proc) : Sys :=
  { s with procs := s.procs.set pid { pr with state := .READY } }

/-- **`semPost` on a pipe.**  It wakes the longest-waiting process that is still
blocked and drops the pids in front of it, or it leaves a token and no queue. -/
theorem post_spec (h : (s.pipe.sem x).Wf) (hv : s.procs.Valid) :
    (∃ dead pid rest pr, (s.pipe.sem x).blockedQueue = dead ++ pid :: rest ∧
        (∀ d ∈ dead, ¬s.procs.Blocked d) ∧ s.procs.table pid = some pr ∧ pr.state = .BLOCKED ∧
        s.post x = (s.wake pid pr).setSem x (Sem.waiting rest)) ∨
      ((∀ d ∈ (s.pipe.sem x).blockedQueue, ¬s.procs.Blocked d) ∧
        s.post x = s.setSem x ⟨(s.pipe.sem x).tokens + 1, []⟩) := by
  rcases semPost_spec (s := s.procs) h with
    ⟨dead, pid, rest, ps, hqueue, hdead, hready, hpost⟩ | ⟨hdead, hpost⟩
  · obtain ⟨pr, hpid, hstate, rfl⟩ := Procs.setReady_eq_some hready
    refine .inl ⟨dead, pid, rest, pr, hqueue, fun d hd ↦ ?_, hpid, hstate, ?_⟩
    · exact (Procs.setReady_eq_none hv).mp (hdead d hd)
    · rw [post, hpost]
      rfl
  · refine .inr ⟨fun d hd ↦ (Procs.setReady_eq_none hv).mp (hdead d hd), ?_⟩
    rw [post, hpost]

/-- The running process stops in `semWait` on `x`. -/
def blockOn (s : Sys) (x : PipeSem) (c : Cont) : Sys :=
  { s with procs := s.procs.set s.procs.currentPID ⟨.BLOCKED, c⟩ }.setSem x
    (Sem.waiting ((s.pipe.sem x).blockedQueue ++ [s.procs.currentPID]))

theorem blockOn_setSem (c : Cont) (hqueue : m.blockedQueue = (s.pipe.sem x).blockedQueue) :
    (s.setSem x m).blockOn x c = s.blockOn x c := by
  simp only [blockOn, setSem_self, setSem_procs, hqueue]
  exact setSem_setSem
    { s with procs := s.procs.set s.procs.currentPID ⟨.BLOCKED, c⟩ } x m _

/-- **`semWait` on a pipe**, with room for a node in the queue. -/
theorem wait_spec (h : (s.pipe.sem x).Wf) (hcur : s.procs.table s.procs.currentPID = some pr)
    (hnodes : s.procs.nodes = true) :
    (0 < (s.pipe.sem x).value ∧
        s.wait x = (s.setSem x ⟨(s.pipe.sem x).value - 1, []⟩, false)) ∨
      ((s.pipe.sem x).value ≤ 0 ∧
        ∃ s', s.wait x = (s', true) ∧ ∀ c, s'.suspend c = s.blockOn x c) := by
  rcases semWait_spec (s := s.procs) h (fun _ ↦ hnodes) with ⟨hpos, hwait⟩ | ⟨hneg, hwait⟩
  · refine .inl ⟨hpos, ?_⟩
    rw [wait, hwait]
  · refine .inr ⟨hneg, _, by rw [wait, hwait], fun c ↦ ?_⟩
    have hset : (Scheduler.setCurrentBlocked s.procs : Procs) =
        s.procs.set s.procs.currentPID { pr with state := .BLOCKED } :=
      Procs.setState_of hcur _
    simp only [suspend, setSem_procs, hset, Procs.set_currentPID]
    rw [Procs.setCont_of (Procs.set_self _ _ _), Procs.set_set]
    rfl

/-! ## Reading -/

theorem drainBuffer_setSem_comm (m : Sem) (h : y ≠ .freeSpaces) (count : Nat) (s : Sys) :
    drainBuffer count (s.setSem y m) =
      ((drainBuffer count s).1.setSem y m, (drainBuffer count s).2) := by
  induction count generalizing s with
  | zero => rfl
  | succ count ih =>
      have hstep : ((s.setSem y m).setBuffer (bufferRead s.pipe.buffer).1).post .freeSpaces =
          ((s.setBuffer (bufferRead s.pipe.buffer).1).post .freeSpaces).setSem y m :=
        post_setSem_comm (s.setBuffer (bufferRead s.pipe.buffer).1) m h
      by_cases hdata : bufferHasData s.pipe.buffer = true
      · simp only [drainBuffer, setSem_buffer, hdata, if_true, hstep, ih]
      · simp only [drainBuffer, setSem_buffer, hdata, if_false, Bool.false_eq_true]

theorem drainBuffer_sem (h : y ≠ .freeSpaces) (count : Nat) (s : Sys) :
    (drainBuffer count s).1.pipe.sem y = s.pipe.sem y := by
  induction count generalizing s with
  | zero => rfl
  | succ count ih =>
      simp only [drainBuffer]
      split
      next =>
          rw [ih]
          exact post_other _ h
      next => rfl

/-- The rest of a read that has found data: drain, hand the token on, return. -/
def drained (s : Sys) (count : Nat) : Sys :=
  let (s, bytes) := drainBuffer count s
  (if bufferHasData s.pipe.buffer then s.post .dataAvailable else s).returnRead count bytes

/-- **`readMutex` never blocks.**  It is free whenever a process reaches it, and free
again when the process leaves the processor. -/
theorem afterDataAvailable_eq (loop : Sys → Option Sys) (count : Nat)
    (h : s.pipe.sem .readMutex = ⟨1, []⟩) :
    afterDataAvailable loop count s =
      if bufferHasData s.pipe.buffer then some (s.drained count)
      else if s.pipe.writerCount ≤ 0 then some (s.returnRead count [])
      else loop s := by
  have hlocked : s.wait .readMutex = (s.setSem .readMutex ⟨0, []⟩, false) := by
    simp [wait, semWait, h]
  have hunlock : ∀ t : Sys, t.pipe.sem .readMutex = ⟨1, []⟩ →
      (t.setSem .readMutex ⟨0, []⟩).post .readMutex = t := fun t ht ↦ by
    simp only [post, setSem_self, semPost, wakeFirst, setSem_procs]
    exact (setSem_setSem t .readMutex _ _).trans (setSem_eq_self ht)
  have hdrain : (drainBuffer count s).1.pipe.sem .readMutex = ⟨1, []⟩ := by
    rw [drainBuffer_sem (by decide), h]
  simp only [afterDataAvailable, hlocked, Bool.false_eq_true, if_false, afterReadMutex,
    setSem_buffer, setSem_writerCount, drainBuffer_setSem_comm _ (y := .readMutex) (by decide),
    hunlock s h, drained]
  split
  next =>
      split
      next =>
          rw [post_setSem_comm _ _ (by decide : PipeSem.readMutex ≠ .dataAvailable), hunlock]
          rw [post_other _ (by decide), hdrain]
      next => rw [hunlock _ hdrain]
  next => rfl

/-- **The loop of a blocking read.**  With data and a token the read returns;
otherwise it ends up waiting, and any tokens that were left for an empty buffer are
gone. -/
theorem readLoop_spec (count fuel : Nat) (hfuel : (s.pipe.sem .dataAvailable).tokens < fuel)
    (h : (s.pipe.sem .dataAvailable).Wf) (hmutex : s.pipe.sem .readMutex = ⟨1, []⟩)
    (hcur : s.procs.table s.procs.currentPID = some pr) (hnodes : s.procs.nodes = true)
    (hgo : bufferHasData s.pipe.buffer = true ∨ ¬s.pipe.writerCount ≤ 0) :
    readLoop count fuel s = some (
      if bufferHasData s.pipe.buffer ∧ 0 < (s.pipe.sem .dataAvailable).value then
        (s.setSem .dataAvailable ⟨(s.pipe.sem .dataAvailable).value - 1, []⟩).drained count
      else s.blockOn .dataAvailable (.readData count)) := by
  induction fuel generalizing s with
  | zero => exact absurd hfuel (Nat.not_lt_zero _)
  | succ fuel ih =>
      rcases wait_spec h hcur hnodes with ⟨hpos, hwait⟩ | ⟨hneg, s', hwait, hblock⟩
      · have hmutex' : (s.setSem .dataAvailable
            ⟨(s.pipe.sem .dataAvailable).value - 1, []⟩).pipe.sem
            .readMutex = ⟨1, []⟩ := by rw [setSem_other _ _ (by decide), hmutex]
        simp only [readLoop, hwait, Bool.false_eq_true, if_false,
          afterDataAvailable_eq _ _ hmutex', setSem_buffer, setSem_writerCount]
        by_cases hdata : bufferHasData s.pipe.buffer = true
        · simp only [hdata, hpos, and_self, if_true]
        · have hwriters : ¬s.pipe.writerCount ≤ 0 := hgo.resolve_left hdata
          simp only [hdata, hwriters, false_and, if_false, Bool.false_eq_true]
          have hlow : ((⟨(s.pipe.sem .dataAvailable).value - 1, []⟩ : Sem)).tokens < fuel := by
            have htokens := h.tokens_eq (h.queue_eq_nil hpos)
            simp only [Sem.tokens] at hfuel htokens ⊢
            omega
          rw [ih (by simpa using hlow) (by simpa using Sem.Wf.take hpos) hmutex' hcur hnodes
            (.inr hwriters)]
          simp only [setSem_buffer, hdata, false_and, if_false, Bool.false_eq_true]
          rw [blockOn_setSem _ (h.queue_eq_nil hpos).symm]
      · simp only [readLoop, hwait, if_true, hblock]
        rw [if_neg (fun hboth ↦ absurd hboth.2 (by omega))]

/-! ## Writing -/

/-- The state after a byte was written: the reader of an empty buffer is told. -/
def written (s : Sys) (cb : CircularBuffer) (call : Nat) (c : UInt8) : Sys :=
  if !bufferHasData s.pipe.buffer then
    ({ s.setBuffer cb with stream := s.stream ++ [(call, c)] } : Sys).post .dataAvailable
  else { s.setBuffer cb with stream := s.stream ++ [(call, c)] }

theorem written_freeSpaces (s : Sys) (cb : CircularBuffer) (call : Nat) (c : UInt8) :
    (s.written cb call c).pipe.sem .freeSpaces = s.pipe.sem .freeSpaces := by
  unfold written
  split
  · exact post_other _ (by decide)
  · rfl

@[simp] theorem written_writerCount (s : Sys) (cb : CircularBuffer) (call : Nat) (c : UInt8) :
    (s.written cb call c).pipe.writerCount = s.pipe.writerCount := by
  unfold written
  split <;> rfl

@[simp] theorem written_results (s : Sys) (cb : CircularBuffer) (call : Nat) (c : UInt8) :
    (s.written cb call c).results = s.results := by
  unfold written
  split <;> rfl

/-- `afterFreeSpaces` either writes the next byte or finds the buffer full. -/
theorem afterFreeSpaces_eq (loop : Nat → Sys → Option Sys) (call : Nat) (buf : List UInt8) (n : Nat)
    (h : s.pipe.buffer.Wf) :
    afterFreeSpaces loop call buf n s =
      if s.pipe.buffer.count < s.pipe.buffer.maxSize then
        loop (n + 1) (s.written (bufferWrite s.pipe.buffer (buf.getD n 0)).1 call (buf.getD n 0))
      else loop n { s with fullWrites := s.fullWrites + 1 } := by
  by_cases hroom : s.pipe.buffer.count < s.pipe.buffer.maxSize
  · obtain ⟨cb', hwrite, -⟩ := h.write hroom (buf.getD n 0)
    simp only [afterFreeSpaces, hwrite, if_true, if_pos hroom, written]
  · have hfull : s.pipe.buffer.count = s.pipe.buffer.maxSize :=
      le_antisymm h.count_le (not_lt.mp hroom)
    simp only [afterFreeSpaces, CircularBuffer.write_full hfull, Bool.false_eq_true, if_false,
      if_neg hroom]

/-- **An induction rule for the loop of `pipeWrite`.**  `I n` is what holds when `n`
bytes have been written, `P` what is to hold when the process leaves the processor. -/
theorem writeLoop_spec {call : Nat} {buf : List UInt8} {I : Nat → Sys → Prop} {P : Sys → Prop}
    (hI : ∀ n s, I n s → (s.pipe.sem .freeSpaces).Wf ∧ s.pipe.buffer.Wf ∧
      s.procs.nodes = true ∧ ∃ pr, s.procs.table s.procs.currentPID = some pr)
    (hbyte : ∀ n s, I n s → n < buf.length → 0 < (s.pipe.sem .freeSpaces).value →
      let t := s.setSem .freeSpaces ⟨(s.pipe.sem .freeSpaces).value - 1, []⟩
      if s.pipe.buffer.count < s.pipe.buffer.maxSize then
        I (n + 1) (t.written (bufferWrite s.pipe.buffer (buf.getD n 0)).1 call (buf.getD n 0))
      else I n { t with fullWrites := t.fullWrites + 1 })
    (hblock : ∀ n s, I n s → n < buf.length → (s.pipe.sem .freeSpaces).value ≤ 0 →
      P (s.blockOn .freeSpaces (.writeSlot call buf n)))
    (hdone : ∀ n s, I n s → ¬n < buf.length → P (s.post .writeMutex))
    (fuel n : Nat) (hfuel : (s.pipe.sem .freeSpaces).tokens < fuel) (h : I n s) :
    ∃ s', writeLoop call buf fuel n s = some s' ∧ P s' := by
  induction fuel generalizing n s with
  | zero => exact absurd hfuel (Nat.not_lt_zero _)
  | succ fuel ih =>
      obtain ⟨hwf, hbuffer, hnodes, pr, hcur⟩ := hI n s h
      by_cases hn : n < buf.length
      · rcases wait_spec hwf hcur hnodes with ⟨hpos, hwait⟩ | ⟨hneg, s', hwait, hsusp⟩
        · have hlow : (⟨(s.pipe.sem .freeSpaces).value - 1, []⟩ : Sem).tokens < fuel := by
            have htokens := hwf.tokens_eq (hwf.queue_eq_nil hpos)
            simp only [Sem.tokens] at hfuel htokens ⊢
            omega
          have hnext := hbyte n s h hn hpos
          simp only [writeLoop, if_pos hn, hwait, Bool.false_eq_true, if_false]
          rw [afterFreeSpaces_eq _ _ _ _ (by simpa using hbuffer)]
          simp only [setSem_buffer]
          by_cases hroom : s.pipe.buffer.count < s.pipe.buffer.maxSize
          · simp only [hroom, if_true] at hnext ⊢
            refine ih (n + 1) ?_ hnext
            rw [written_freeSpaces, setSem_self]
            exact hlow
          · simp only [hroom, if_false] at hnext ⊢
            refine ih n ?_ hnext
            simpa using hlow
        · simp only [writeLoop, if_pos hn, hwait, if_true]
          exact ⟨_, rfl, hsusp _ ▸ hblock n s h hn hneg⟩
      · simp only [writeLoop, if_neg hn]
        exact ⟨_, rfl, hdone n s h hn⟩

end Sys

end BareBones.IPC
