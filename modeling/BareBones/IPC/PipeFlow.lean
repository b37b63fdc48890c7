import BareBones.IPC.PipeNonblocking

/-!
# The bytes of a pipe in any run

The accounts of `BareBones.IPC.PipeBytes` are lost when a process dies inside the pipe.  What is
left is kept by every event: the bytes that were read and those in the buffer are those that were
written (`Flow`), whether the calls block or not.  No event but a read returns bytes.
-/

namespace BareBones.IPC

open BareBones.Lib BareBones.Process BareBones.Semaphores

/-- How many bytes a process asked for that is inside a read. -/
def Cont.reads : Cont → Option Nat
  | readData count | readMutex count => some count
  | user | writeMutex _ _ | writeSlot _ _ _ => none

namespace Sys

variable {strict : Prop} {s t : Sys} {x : PipeSem} {pid : Int} {pr : Proc} {c : Cont}
  {cb : CircularBuffer} {call n fuel count : Nat} {buf : List UInt8} {rs : List ReadResult}

/-- What holds of the bytes of a pipe of which `rs` have been read, when all reads ask for
something. -/
structure Flow (rs : List ReadResult) (s : Sys) : Prop where
  results : s.results = rs
  bytes : s.Bytes
  asks : ∀ pid pr, s.procs.table pid = some pr → ∀ count ∈ pr.cont.reads, 0 < count

namespace Flow

theorem post (h : Flow rs s) (hgood : Good strict s) (x : PipeSem) : Flow rs (s.post x) := by
  refine ⟨h.results, h.bytes, fun pid pr hpr ↦ ?_⟩
  obtain ⟨pr', hpr', hcont, -⟩ := post_table hgood hpr
  rw [hcont]
  exact h.asks pid pr' hpr'

/-- A slot of the table changes. -/
theorem update (h : Flow rs s) (hbuffer : t.pipe.buffer = s.pipe.buffer)
    (hstream : t.stream = s.stream) (hresults : t.results = s.results)
    (hother : ∀ q, q ≠ pid → t.procs.table q = s.procs.table q)
    (hpid : ∀ pr, t.procs.table pid = some pr → ∀ count ∈ pr.cont.reads, 0 < count) :
    Flow rs t := by
  refine ⟨hresults.trans h.results, ?_, fun q pr hq ↦ ?_⟩
  · rw [Bytes, hresults, hbuffer, hstream]
    exact h.bytes
  · by_cases heq : q = pid
    · exact hpid pr (heq ▸ hq)
    · exact h.asks q pr ((hother q heq).symm.trans hq)

/-- A process gets a new state or a new place. -/
theorem set (h : Flow rs s) (pid : Int) (pr : Proc) (hpr : ∀ count ∈ pr.cont.reads, 0 < count)
    (q : Int) :
    Flow rs { s with procs := { s.procs.set pid pr with currentPID := q } } := by
  refine h.update rfl rfl rfl (fun r hr ↦ Procs.set_other _ _ hr) fun pr' hpr' ↦ ?_
  rw [← Option.some.inj ((Procs.set_self _ _ _).symm.trans hpr')]
  exact hpr

theorem blockOn (h : Flow rs s) (x : PipeSem) (hc : ∀ count ∈ c.reads, 0 < count) :
    Flow rs (s.blockOn x c) := by
  have hset := h.set s.procs.currentPID ⟨.BLOCKED, c⟩ hc s.procs.currentPID
  exact ⟨hset.results, hset.bytes, hset.asks⟩

/-- A process that goes on is in no call until it waits again. -/
theorem suspend (h : Flow rs s) (hpr : s.running = some pr) : Flow rs (s.suspend .user) := by
  rw [Sys.suspend, Procs.setCont_of (running_eq_some.1 hpr).1]
  refine h.set s.procs.currentPID { pr with cont := .user } ?_ s.procs.currentPID
  intro count hcount
  cases hcount

/-! ## Writes -/

/-- A byte is written. -/
theorem written (h : Flow rs s) (hinv : Inv strict s) (hcb : cb.Wf)
    (hsize : cb.maxSize = s.pipe.buffer.maxSize) {b : UInt8}
    (hcontents : cb.contents = s.pipe.buffer.contents ++ [b]) (call : Nat) :
    Flow rs (s.written cb call b) := by
  have hgood : Good strict ({ s.setBuffer cb with stream := s.stream ++ [(call, b)] } : Sys) :=
    (hinv.setBuffer hcb hsize).good.congr rfl rfl rfl
  have hflow : Flow rs ({ s.setBuffer cb with stream := s.stream ++ [(call, b)] } : Sys) :=
    ⟨h.results, h.bytes.append hcontents call, h.asks⟩
  unfold Sys.written
  split
  · exact hflow.post hgood _
  · exact hflow

/-- **Writes keep the bytes.** -/
theorem rule (rs : List ReadResult) (call : Nat) (buf : List UInt8) :
    WriteRule strict call buf (fun _ s ↦ Flow rs s) (Flow rs) where
  byte n s cb hinv hrun h hn hpos hroom hwf hcontents hsize :=
    written (s := s.setSem _ _) ⟨h.results, h.bytes, h.asks⟩ (hinv.take (by decide) hpos) hwf hsize
      hcontents call
  full n s hinv hrun h hn hpos hfull := ⟨h.results, h.bytes, h.asks⟩
  block n s hinv hrun h hn hneg := h.blockOn _ fun _ hcount ↦ absurd hcount (Option.not_mem_none _)
  done n s hinv hrun h hn := h.post hinv.good _

/-! ## Reads -/

/-- Draining changes where nobody is. -/
theorem drainBuffer_asks (h : Flow rs s) (hinv : Inv strict s) (count : Nat) (pid : Int) (pr : Proc)
    (hpr : (Sys.drainBuffer count s).1.procs.table pid = some pr) :
    ∀ count ∈ pr.cont.reads, 0 < count := by
  have hspec := (drainBuffer_spec (I := fun t ↦ Inv strict t ∧
    ∀ pid pr, t.procs.table pid = some pr → ∀ count ∈ pr.cont.reads, 0 < count)
    (fun t hI ↦ hI.1.good.buffer) (fun t cb b hI _ hwf _ hsize ↦ ?_) count ⟨hinv, h.asks⟩).1
  · exact hspec.2 pid pr hpr
  · have hset := hI.1.setBuffer hwf hsize
    refine ⟨hset.post (by decide), fun pid pr hpr ↦ ?_⟩
    obtain ⟨pr', hpr', hcont, -⟩ := post_table hset.good hpr
    rw [hcont]
    exact hI.2 pid pr' hpr'

/-- A read that has found data. -/
theorem drained (h : Flow rs s) (hinv : Inv strict s) (hrun : s.Running) (count : Nat) :
    Flow (s.drained count).results (s.drained count) := by
  obtain ⟨hinv', -, -⟩ := hinv.drainBuffer hrun count
  have hasks := h.drainBuffer_asks hinv count
  unfold Sys.drained
  dsimp only
  split
  · refine ⟨rfl, h.bytes.returnRead hinv hrun rfl rfl rfl, fun pid pr hpr ↦ ?_⟩
    obtain ⟨pr', hpr', hcont, -⟩ := post_table hinv'.good hpr
    rw [hcont]
    exact hasks pid pr' hpr'
  · exact ⟨rfl, h.bytes.returnRead hinv hrun rfl rfl rfl, hasks⟩

/-- **Reads keep the bytes.** -/
theorem read (h : Flow rs s) (hinv : Inv strict s) (hrun : s.Running) {woken : Bool}
    (hcount : 0 < count) (hout : ReadOutcome woken s count t) : Flow t.results t := by
  cases hout with
  | eof _ _ => exact ⟨rfl, h.bytes.returnNothing count, h.asks⟩
  | taken _ _ hpos =>
      have htaken : Flow rs (s.setSem .dataAvailable ⟨(s.pipe.sem .dataAvailable).value - 1, []⟩) :=
        ⟨h.results, h.bytes, h.asks⟩
      exact htaken.drained (hinv.take (x := .dataAvailable) (by decide) hpos) hrun count
  | granted _ _ => exact h.drained hinv hrun count
  | block _ _ =>
      have hblock := h.blockOn (c := .readData count) .dataAvailable fun n hn ↦ by
        cases hn
        exact hcount
      exact ⟨rfl, hblock.bytes, hblock.asks⟩

end Flow

/-! ## Nonblocking writes -/

/-- **A nonblocking write keeps what its rounds keep**, if the property also holds when it gives
up. -/
theorem WriteRule.nonblockingLoop {E : Nat → Sys → Prop} {Q : Sys → Prop}
    (rule : WriteRule strict call buf E Q)
    (hgive : ∀ n s, Inv strict s → s.Running → E n s → Q (s.post .writeMutex)) (fuel n : Nat)
    (hfuel : (s.pipe.sem .freeSpaces).tokens < fuel) (h : Inv strict s) (hrun : s.Running)
    (hholds : s.Holds s.procs.currentPID) (hE : E n s) :
    ∃ x, Nonblocking.writeLoop call buf fuel n s = some x ∧ Inv strict x.1 ∧ Q x.1 := by
  induction fuel generalizing s n with
  | zero => exact absurd hfuel (Nat.not_lt_zero _)
  | succ fuel ih =>
      rw [Nonblocking.writeLoop]
      by_cases hlt : n < buf.length
      · rw [if_pos hlt]
        by_cases hfull : bufferIsFull s.pipe.buffer = true
        · rw [if_pos hfull]
          exact ⟨_, rfl, h.post (by decide), hgive n s h hrun hE⟩
        · rw [if_neg hfull]
          rcases wait_spec (h.good.wf .freeSpaces) hrun h.good.nodes with
            ⟨hpos, hwait⟩ | ⟨hneg, s', hwait, hsusp⟩
          · have hroom : s.pipe.buffer.count < s.pipe.buffer.maxSize :=
              lt_of_le_of_ne h.good.buffer.count_le fun heq ↦
                hfull (CircularBuffer.isFull_iff.2 heq)
            obtain ⟨cb, hwrite, hwf, hcontents, hsize, -⟩ :=
              h.good.buffer.write hroom (buf.getD n 0)
            have htake := h.take (x := .freeSpaces) (by decide) hpos
            obtain ⟨hinv', hrun', hholds'⟩ :=
              htake.written_running hrun hholds hwf hsize call (buf.getD n 0)
            rw [hwait]
            simp only [Bool.false_eq_true, if_false]
            rw [Nonblocking.afterFreeSpaces_of_write _ (s := s.setSem _ _) hwrite]
            refine ih (n + 1) ?_ hinv' hrun' hholds'
              (rule.byte n s cb h hrun hE hlt hpos hroom hwf hcontents hsize)
            rw [written_freeSpaces, setSem_self]
            simp only [Sem.tokens] at hfuel ⊢
            omega
          · rw [hwait]
            simp only [if_true]
            refine ⟨_, rfl, ?_, ?_⟩
            · rw [hsusp]
              exact h.blockOn hrun (by decide) rfl fun _ ↦ hholds
            · rw [hsusp]
              exact rule.block n s h hrun hE hlt hneg
      · rw [if_neg hlt]
        exact ⟨_, rfl, h.post (by decide), rule.done n s h hrun hE hlt⟩

namespace Flow

/-- A nonblocking write keeps the bytes, -/
theorem nonblockingLoop (h : Flow rs s) (hinv : Inv strict s) (hrun : s.Running)
    (hholds : s.Holds s.procs.currentPID) (hfuel : (s.pipe.sem .freeSpaces).tokens < fuel)
    {x : Sys × Option Int} (hx : Nonblocking.writeLoop call buf fuel n s = some x) :
    Inv strict x.1 ∧ Flow rs x.1 := by
  obtain ⟨y, hy, hboth⟩ := (Flow.rule rs call buf).nonblockingLoop
    (fun n s hinv _ h ↦ h.post hinv.good _) fuel n hfuel hinv hrun hholds h
  cases hy.symm.trans hx
  exact hboth

/-- from its beginning -/
theorem nonblockingWrite (h : Flow rs s) (hinv : Inv strict s) (hrun : s.Running)
    (hholds : s.Holds s.procs.currentPID) {x : Sys × Option Int}
    (hx : Nonblocking.pipeWrite s buf = some x) : Inv strict x.1 ∧ Flow rs x.1 := by
  have hcalls := hinv.setCalls (s.calls ++ [buf])
  rcases Nonblocking.pipeWrite_outcome hinv hrun buf with ⟨hpos, hwrite⟩ | ⟨hneg, hwrite⟩
  · rw [hwrite] at hx
    refine nonblockingLoop ?_ (hcalls.take (x := .writeMutex) (by decide) hpos) hrun hholds ?_ hx
    · exact ⟨h.results, h.bytes, h.asks⟩
    · exact Nat.lt_succ_self _
  · cases hwrite.symm.trans hx
    have hflow : Flow rs ({ s with calls := s.calls ++ [buf] } : Sys) :=
      ⟨h.results, h.bytes, h.asks⟩
    exact ⟨hcalls.blockOn hrun (by decide) rfl fun _ ↦ hholds,
      hflow.blockOn _ fun _ hcount ↦ absurd hcount (Option.not_mem_none _)⟩

/-- and after a wait. -/
theorem nonblockingContinue (h : Flow rs s) (hinv : Inv strict s) (hpr : s.running = some pr)
    (hreads : pr.cont.reads = none) {x : Sys × Option Int}
    (hx : Nonblocking.continueAt (s.suspend .user) pr.cont = some x) :
    Inv strict x.1 ∧ Flow rs x.1 := by
  obtain ⟨hinv', hrun, hholds⟩ := hinv.resume hpr
  have hflow := h.suspend hpr
  cases hcont : pr.cont with
  | user =>
      rw [hcont] at hx
      cases hx
  | readData _ | readMutex _ =>
      rw [hcont] at hreads
      cases hreads
  | writeMutex call buf =>
      rw [hcont] at hx hholds
      exact hflow.nonblockingLoop hinv' hrun (hholds trivial) (Nat.lt_succ_self _) hx
  | writeSlot call buf n =>
      rw [hcont] at hx hholds
      rw [Nonblocking.continueAt] at hx
      by_cases hroom : (s.suspend .user).pipe.buffer.count < (s.suspend .user).pipe.buffer.maxSize
      · obtain ⟨cb, hwrite, hwf, hcontents, hsize, -⟩ :=
          hinv'.good.buffer.write hroom (buf.getD n 0)
        obtain ⟨hinv'', hrun', hholds'⟩ :=
          hinv'.written_running hrun (hholds trivial) hwf hsize call (buf.getD n 0)
        rw [Nonblocking.afterFreeSpaces_of_write _ hwrite] at hx
        refine nonblockingLoop (hflow.written hinv' hwf hsize hcontents call) hinv'' hrun' hholds'
          ?_ hx
        rw [written_freeSpaces]
        exact Nat.lt_succ_self _
      · -- Another byte has taken the slot, and the loop begins its round again.
        have hfull := le_antisymm hinv'.good.buffer.count_le (not_lt.1 hroom)
        simp only [Nonblocking.afterFreeSpaces, CircularBuffer.write_full hfull, Bool.false_eq_true,
          if_false] at hx
        refine nonblockingLoop ?_ (hinv'.setFullWrites ((s.suspend .user).fullWrites + 1)) hrun
          (hholds trivial) ?_ hx
        · exact ⟨hflow.results, hflow.bytes, hflow.asks⟩
        · exact Nat.lt_succ_self _

/-- A nonblocking read keeps the bytes. -/
theorem nonblockingRead (h : Flow rs s) (hinv : Inv strict s) (hrun : s.Running)
    (hcount : 0 < count) :
    Inv strict (Nonblocking.pipeRead s count).1 ∧
      Flow (Nonblocking.pipeRead s count).1.results (Nonblocking.pipeRead s count).1 := by
  obtain ⟨hinv', -, -⟩ := hinv.drainBuffer hrun count
  rw [Nonblocking.pipeRead, if_neg hcount.ne', Nonblocking.pipeReadNonblocking_eq hinv.good.mutex]
  exact ⟨hinv'.returnRead _ _, rfl, h.bytes.returnRead hinv hrun rfl rfl rfl,
    h.drainBuffer_asks hinv count⟩

end Flow

/-! ## Events -/

/-- Not a read, and not the rest of one. -/
def Event.NoRead (s : Sys) : Event → Prop
  | .read _ => False
  | .resume => ∀ pr, s.running = some pr → pr.cont.reads = none
  | _ => True

namespace Flow

/-- The end of the last writer. -/
theorem removePipeWriter (h : Good strict s ∧ Flow rs s) :
    Good strict (Sys.removePipeWriter s) ∧ Flow rs (Sys.removePipeWriter s) :=
  removePipeWriter_rule (I := fun u ↦ Good strict u ∧ Flow rs u)
    (fun _ hu ↦ ⟨hu.1.post (by decide), hu.2.post hu.1 _⟩)
    ⟨h.1.congr rfl rfl rfl, h.2.results, h.2.bytes, h.2.asks⟩

theorem closeAllFDs (h : Good strict s ∧ Flow rs s) (kept es : List (List Int)) :
    Good strict (Sys.closeAllFDs pid kept es s) ∧ Flow rs (Sys.closeAllFDs pid kept es s) :=
  closeAllFDs_rule (I := fun u ↦ Good strict u ∧ Flow rs u)
    (fun _ _ hu ↦ ⟨hu.1.congr rfl rfl rfl, hu.2.results, hu.2.bytes, hu.2.asks⟩)
    (fun _ hu ↦ removePipeWriter hu) kept es h

theorem preempt (h : Flow rs s) : Flow rs s.preempt := by
  unfold Sys.preempt
  split
  next hsome =>
    obtain ⟨pr, hpr⟩ := Option.isSome_iff_exists.1 hsome
    have hcur := (running_eq_some.1 hpr).1
    rw [Procs.setState_of hcur]
    exact h.set _ { pr with state := .READY } (h.asks _ pr hcur) s.procs.currentPID
  next => exact h

/-- **Every event but a read keeps the bytes**, and returns none. -/
theorem step {e : Event} (h : Flow rs s) (hinv : Inv strict s) (hread : e.NoRead s)
    (ht : Sys.step s e = some t) : Flow rs t := by
  cases hinv.step_outcome ht with
  | @dispatch pid pr hpr hready =>
      exact h.preempt.set pid { pr with state := .RUNNING } (h.preempt.asks pid pr hpr) pid
  | readNothing _ | read _ _ _ => exact hread.elim
  | write hrun hholds hw =>
      have hcalls : ∀ calls, Flow rs ({ s with calls := calls } : Sys) := fun calls ↦
        ⟨h.results, h.bytes, h.asks⟩
      refine ((Flow.rule rs _ _).write hinv hrun hholds hw (fun hpos ↦ ?_) fun hneg ↦ ?_).2
      · exact ⟨h.results, h.bytes, h.asks⟩
      · exact (hcalls _).blockOn _ fun _ hcount ↦ absurd hcount (Option.not_mem_none _)
  | resumeRead hpr hcont hout =>
      have hreads := hread _ hpr
      rw [hcont] at hreads
      cases hreads
  | resumeWrite hpr hcont hw =>
      exact ((Flow.rule rs _ _).resumeWrite hinv hpr hcont hw (h.suspend hpr)).2
  | resumeSlot hpr hcont hw =>
      have hflow := h.suspend hpr
      refine ((Flow.rule rs _ _).resumeSlot hinv hpr hcont hw
        (fun cb _ hwf hcontents hsize ↦ ?_) fun hfull ↦ ?_).2
      · exact hflow.written (hinv.resume hpr).1 hwf hsize hcontents _
      · exact ⟨hflow.results, hflow.bytes, hflow.asks⟩
  | @create pid hrun hvalid hidle hfree =>
      refine h.update rfl rfl rfl (fun q hq ↦ Procs.set_other _ _ hq) fun pr hpr count hcount ↦ ?_
      obtain rfl := Option.some.inj ((Procs.set_self _ _ _).symm.trans hpr)
      cases hcount
  | reopen hrun hholds => exact ⟨h.results, h.bytes, h.asks⟩
  | close hrun hclose =>
      have hends : ∀ es, Good strict ({ s with writeEnds := es } : Sys) ∧
          Flow rs ({ s with writeEnds := es } : Sys) := fun es ↦
        ⟨hinv.good.congr rfl rfl rfl, h.results, h.bytes, h.asks⟩
      obtain ⟨es, rfl | rfl⟩ := closeFd_cases hclose
      · exact (hends es).2
      · exact (removePipeWriter (hends es)).2
  | @kill pid pr hpr hlive =>
      obtain ⟨-, hflow⟩ : Good strict (Sys.closeAllFDs pid [] s.writeEnds s) ∧
          Flow rs (Sys.closeAllFDs pid [] s.writeEnds s) :=
        closeAllFDs ⟨hinv.good, h⟩ [] s.writeEnds
      generalize Sys.closeAllFDs pid [] s.writeEnds s = u at hflow
      refine hflow.update rfl rfl rfl setState_other fun pr' hpr' ↦ ?_
      obtain ⟨pr'', hpr'', hcont⟩ := setState_cont hpr'
      rw [hcont]
      exact hflow.asks pid pr'' hpr''
  | @reap pid pr hpr hdead =>
      have hother : ∀ q, q ≠ pid → (if q = pid then none else s.procs.table q) = s.procs.table q :=
        fun q hq ↦ if_neg hq
      refine h.update rfl rfl rfl hother fun pr' hpr' ↦ ?_
      cases (if_pos rfl).symm.trans hpr'

end Flow

theorem flow_init (data : Nat → UInt8) (creator : Int) : Flow [] (init data creator) := by
  refine ⟨rfl, (streamInv_init data creator).bytes, fun pid pr hpr ↦ ?_⟩
  simp only [init] at hpr
  split at hpr
  · cases hpr
    intro count hcount
    cases hcount
  · cases hpr

end Sys

/-! ## Blocking or not -/

namespace Mixed

variable {m m' : Mixed} {rs : List ReadResult}

/-- Not a read, and not the rest of one. -/
def Event.NoRead (m : Mixed) : Event → Prop
  | .sys e => e.NoRead m.sys
  | .read _ => False
  | .write _ => True

/-- **Every event but a read keeps the bytes** and the invariant of the pipe. -/
theorem flow_step {e : Event} (h : m.sys.Flow rs) (hinv : m.sys.Inv False) (hread : e.NoRead m)
    (hstep : m.step e = some m') : m'.sys.Inv False ∧ m'.sys.Flow rs := by
  have hsys : ∀ (e : Sys.Event) (s : Sys), e.NoRead m.sys → m.sys.step e = some s →
      s.Inv False ∧ s.Flow rs := fun e s hread hs ↦
    ⟨Sys.inv_step hinv (fun hstrict ↦ hstrict.elim) hs, h.step hinv hread hs⟩
  cases e with
  | sys e =>
      have hread : e.NoRead m.sys := hread
      cases e with
      | resume =>
          simp only [step, resume] at hstep
          split at hstep
          · split at hstep
            · cases hstep
            next pr hpr =>
              obtain ⟨x, hx, rfl⟩ := Option.map_eq_some_iff.1 hstep
              exact h.nonblockingContinue hinv hpr (hread pr hpr) hx
          · obtain ⟨s, hs, rfl⟩ := Option.map_eq_some_iff.1 hstep
            exact hsys _ s hread hs
      | _ =>
          obtain ⟨s, hs, rfl⟩ := Option.map_eq_some_iff.1 hstep
          exact hsys _ s hread hs
  | read count => exact hread.elim
  | write buf =>
      simp only [step] at hstep
      split at hstep
      next huser =>
        obtain ⟨x, hx, rfl⟩ := Option.map_eq_some_iff.1 hstep
        exact h.nonblockingWrite hinv (Sys.inUser_iff.1 huser.1) huser.2 hx
      · cases hstep

end Mixed

end BareBones.IPC
