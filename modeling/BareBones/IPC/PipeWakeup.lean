import BareBones.IPC.PipeRun

/-!
# Wake-ups

`dataAvailable` does not count bytes: it is posted when a byte arrives in an empty
buffer, and by a read that leaves some behind.  So there is one token while there is
data, and it is either at the semaphore or with a reader that was woken and has not
run since (`Granted`).  A reader that is killed in that short time takes the token with
it, and the pipe falls silent; nothing else can lose it.
-/

namespace BareBones.IPC

open BareBones.Lib BareBones.Process BareBones.Semaphores

namespace Sys

variable {strict : Prop} {s t u : Sys} {x y : PipeSem} {pid : Int} {pr : Proc} {e : Event}
  {count : Nat} {c : Cont}

/-- The process was woken from its wait for data and has not run since. -/
def Granted (s : Sys) (pid : Int) : Prop :=
  ∃ pr, s.procs.table pid = some pr ∧ (∃ count, pr.cont = .readData count) ∧
    pr.state ≠ .BLOCKED ∧ pr.state ≠ .ZOMBIE

/-- There is a token, at the semaphore or with a reader. -/
def Alert (s : Sys) : Prop := 0 < (s.pipe.sem .dataAvailable).value ∨ ∃ pid, s.Granted pid

/-- **While there is data, there is a token.** -/
def Woken (s : Sys) : Prop := 0 < s.pipe.buffer.count → s.Alert

/-- The running process is outside the pipe, so that it was granted nothing. -/
theorem Running.ne_granted (hrun : s.Running) (h : s.Granted pid) : pid ≠ s.procs.currentPID := by
  rintro rfl
  obtain ⟨pr, hpid, ⟨count, hcont⟩, -, -⟩ := h
  rw [hrun] at hpid
  obtain rfl := Option.some.inj hpid
  cases hcont

theorem Alert.mono (h : s.Alert)
    (hvalue : 0 < (s.pipe.sem .dataAvailable).value → 0 < (t.pipe.sem .dataAvailable).value)
    (hgranted : ∀ pid, s.Granted pid → t.Granted pid) : t.Alert :=
  h.imp hvalue fun ⟨pid, hpid⟩ ↦ ⟨pid, hgranted pid hpid⟩

/-- What is granted stays granted while the slots of the table do. -/
theorem Granted.congr (h : s.Granted pid) (heq : t.procs.table pid = s.procs.table pid) :
    t.Granted pid := by
  rw [Granted, heq]
  exact h

/-! ## Posts -/

/-- **A post of `dataAvailable` leaves a token**, at the semaphore or with the reader
that it wakes. -/
theorem Good.post_alert (h : Good True s) : (s.post .dataAvailable).Alert := by
  rcases post_spec (h.wf .dataAvailable) h.valid with
    ⟨dead, pid, rest, pr, hqueue, -, hpid, hstate, hpost⟩ | ⟨-, hpost⟩
  · rw [hpost]
    have hwaits :=
      (h.waits trivial .dataAvailable pid pr (by simp [hqueue]) hpid (by simp [hstate])).2
    refine .inr ⟨pid, { pr with state := .READY }, Procs.set_self _ _ _, ?_, by simp, by simp⟩
    cases hcont : pr.cont with
    | readData count => exact ⟨count, rfl⟩
    | _ =>
        rw [hcont] at hwaits
        cases hwaits
  · rw [hpost]
    exact .inl (by simp only [setSem_self]; omega)

/-- A post of another semaphore wakes somebody else, if anybody. -/
theorem Good.post_other_alert (h : Good strict s) (hx : .dataAvailable ≠ x) (halert : s.Alert) :
    (s.post x).Alert := by
  refine halert.mono (fun hpos ↦ by rwa [post_other _ hx]) fun q hq ↦ ?_
  rcases post_spec (h.wf x) h.valid with
    ⟨dead, pid, rest, pr, -, -, hpid, hstate, hpost⟩ | ⟨-, hpost⟩
  · rw [hpost]
    refine hq.congr (Procs.set_other _ _ ?_)
    rintro rfl
    obtain ⟨pr', hq', -, hnot, -⟩ := hq
    rw [hpid] at hq'
    obtain rfl := Option.some.inj hq'
    exact hnot hstate
  · rw [hpost]
    exact hq.congr rfl

/-- The running process stops at a semaphore. -/
theorem Alert.blockOn (halert : s.Alert) (hrun : s.Running)
    (hx : x ≠ .dataAvailable ∨ (s.pipe.sem .dataAvailable).value ≤ 0) : (s.blockOn x c).Alert := by
  refine halert.mono (fun hpos ↦ ?_) fun q hq ↦ hq.congr (Procs.set_other _ _ (hrun.ne_granted hq))
  have hne : x ≠ .dataAvailable := hx.resolve_right (not_le.mpr hpos)
  rw [Sys.blockOn, setSem_other _ _ hne.symm]
  exact hpos

/-! ## Reads and writes -/

/-- A read that finds data consumes a token and hands it on. -/
theorem Inv.drained_woken (h : Inv True s) (hrun : s.Running) (count : Nat) :
    (s.drained count).Woken := by
  obtain ⟨u, hinv, -, -, -, -, heq⟩ := h.drained hrun count
  rw [heq]
  split
  · exact fun _ ↦ hinv.good.post_alert
  next hnone => exact fun hdata ↦ absurd (CircularBuffer.hasData_iff.mpr hdata) hnone

/-- Reads keep the token.  A reader that was woken has it itself. -/
theorem Inv.read_woken {woken : Bool} (h : Inv True s) (hrun : s.Running)
    (hwoken : woken = false → s.Woken) (hout : ReadOutcome woken s count t) : t.Woken := by
  cases hout with
  | eof hempty _ => exact fun hdata ↦ absurd hempty (Nat.pos_iff_ne_zero.mp hdata)
  | taken _ _ hpos => exact (h.take (by decide) hpos).drained_woken hrun count
  | granted _ _ => exact h.drained_woken hrun count
  | block hdata _ =>
      intro hpos
      obtain ⟨hnew, hvalue⟩ := hdata hpos
      exact (hwoken hnew hpos).blockOn hrun (.inr hvalue)

/-- A byte that is written to an empty buffer is announced. -/
theorem Inv.written_woken {cb : CircularBuffer} (h : Inv True s) (hcb : cb.Wf)
    (hsize : cb.maxSize = s.pipe.buffer.maxSize) (call : Nat) (b : UInt8) (hwoken : s.Woken) :
    (s.written cb call b).Woken := by
  unfold Sys.written
  split
  · exact fun _ ↦ ((h.setBuffer hcb hsize).good.congr (t := { s.setBuffer cb with
      stream := s.stream ++ [(call, b)] }) rfl rfl rfl).post_alert
  next hdata =>
      have hdata' : 0 < s.pipe.buffer.count := CircularBuffer.hasData_iff.mp (by simpa using hdata)
      exact fun _ ↦ (hwoken hdata').mono (fun hpos ↦ hpos) fun q hq ↦ hq.congr rfl

/-- Another semaphore changes. -/
theorem Woken.setSem {m : Sem} (hwoken : s.Woken) (hx : .dataAvailable ≠ x) :
    (s.setSem x m).Woken := fun hdata ↦
  (hwoken hdata).mono (fun hpos ↦ by rwa [setSem_other _ _ hx]) fun q hq ↦ hq.congr rfl

/-- Writes keep the token. -/
theorem WriteRule.woken (call : Nat) (buf : List UInt8) :
    WriteRule True call buf (fun _ s ↦ s.Woken) Woken where
  byte _ _ _ h _ hwoken _ hpos _ hwf _ hsize :=
    (h.take (x := .freeSpaces) (by decide) hpos).written_woken hwf hsize _ _
      (hwoken.setSem (by decide))
  full _ _ _ _ hwoken _ _ _ hdata :=
    (hwoken.setSem (by decide) hdata).mono (fun hpos ↦ hpos) fun q hq ↦ hq.congr rfl
  block _ _ _ hrun hwoken _ _ hdata := (hwoken hdata).blockOn hrun (.inl (by decide))
  done _ _ h _ hwoken _ hdata := h.good.post_other_alert (by decide) (hwoken hdata)

/-! ## Events -/

/-- A slot of the table changes, but a grant in it does not. -/
theorem Woken.update (pid : Int) (hwoken : s.Woken) (hpipe : t.pipe = s.pipe)
    (hother : ∀ q, q ≠ pid → t.procs.table q = s.procs.table q)
    (hself : s.Granted pid → t.Granted pid) : t.Woken := by
  intro hdata
  rw [hpipe] at hdata
  refine (hwoken hdata).mono (fun hpos ↦ by rwa [hpipe]) fun q hq ↦ ?_
  by_cases heq : q = pid
  · subst heq
    exact hself hq
  · exact hq.congr (hother q heq)

/-- A process that is not granted anything goes on. -/
theorem Woken.resume (hwoken : s.Woken) (hpr : s.running = some pr)
    (hcont : ∀ count, pr.cont ≠ .readData count) : (s.suspend .user).Woken := by
  obtain ⟨hcur, -⟩ := running_eq_some.mp hpr
  refine hwoken.update s.procs.currentPID rfl (fun q hq ↦ ?_) fun hself ↦ ?_
  · rw [suspend, Procs.setCont_of hcur]
    exact Procs.set_other _ _ hq
  · obtain ⟨pr', hpid, ⟨count, hread⟩, -⟩ := hself
    rw [hcur] at hpid
    obtain rfl := Option.some.inj hpid
    exact absurd hread (hcont count)

/-- The processor is taken from the running process, which keeps what it was granted. -/
theorem Woken.preempt (hwoken : s.Woken) : s.preempt.Woken := by
  unfold Sys.preempt
  split
  next hsome =>
      obtain ⟨pr, hpr⟩ := Option.isSome_iff_exists.mp hsome
      obtain ⟨hcur, hstate⟩ := running_eq_some.mp hpr
      refine hwoken.update s.procs.currentPID rfl (fun q hq ↦ ?_)
        fun ⟨pr', hpid, hread, _⟩ ↦ ?_
      · rw [Procs.setState_of hcur]
        exact Procs.set_other _ _ hq
      · rw [hcur] at hpid
        obtain rfl := Option.some.inj hpid
        refine ⟨{ pr with state := .READY }, ?_, hread, by simp, by simp⟩
        rw [Procs.setState_of hcur]
        exact Procs.set_self _ _ _
  next => exact hwoken

/-- The scheduler switches to a process, which keeps what it was granted. -/
theorem Woken.dispatch (hwoken : s.Woken) (hpid : s.procs.table pid = some pr) :
    Woken { s with
      procs := { s.procs.set pid { pr with state := .RUNNING } with currentPID := pid } } := by
  refine hwoken.update pid rfl (fun q hq ↦ Procs.set_other _ _ hq) ?_
  rintro ⟨pr', hpr', hread, -⟩
  rw [hpid] at hpr'
  obtain rfl := Option.some.inj hpr'
  exact ⟨_, Procs.set_self _ _ _, hread, by simp, by simp⟩

/-- What closing write ends does to the semaphores and the processes: nothing, or it
wakes every reader. -/
structure Closing (s u : Sys) : Prop where
  good : Good True u
  buffer : u.pipe.buffer = s.pipe.buffer
  flood : u.Flooded ∨ (u.procs = s.procs ∧ u.pipe.sem = s.pipe.sem)

theorem Closing.removePipeWriter (h : Closing s u) : Closing s (Sys.removePipeWriter u) := by
  refine ⟨(h.good.removePipeWriter (P := fun _ ↦ False) fun _ _ hP ↦ hP.elim).1, ?_, ?_⟩
  · exact removePipeWriter_rule (I := fun v ↦ v.pipe.buffer = s.pipe.buffer) (fun _ hv ↦ hv)
      h.buffer
  · by_cases hlast : u.pipe.writerCount - 1 ≤ 0
    · exact .inl (removePipeWriter_flooded h.good (.inl hlast))
    · rcases h.flood with hflood | hsame
      · exact .inl (removePipeWriter_flooded h.good (.inr hflood))
      · unfold Sys.removePipeWriter
        exact .inr (by simpa [hlast] using hsame)

theorem Closing.woken (h : Closing s u) (hwoken : s.Woken) : u.Woken := by
  intro hdata
  rcases h.flood with hflood | ⟨hprocs, hsem⟩
  · exact .inl hflood.2
  · rw [h.buffer] at hdata
    exact (hwoken hdata).mono (fun hpos ↦ by rwa [hsem]) fun q hq ↦ hq.congr (by rw [hprocs])

/-- A process dies that was not granted a token, or not before every reader was woken. -/
theorem Closing.kill (h : Closing s u) (hwoken : s.Woken) (hpid : ¬s.Granted pid) :
    Woken { u with procs := u.procs.setState pid .ZOMBIE } := by
  rcases h.flood with hflood | ⟨hprocs, hsem⟩
  · exact fun _ ↦ .inl hflood.2
  · refine (h.woken hwoken).update pid rfl (fun q hq ↦ ?_) fun hself ↦ ?_
    · unfold Procs.setState
      split
      · exact Procs.set_other _ _ hq
      · rfl
    · exact absurd (hself.congr (by rw [hprocs])) hpid

/-- No reader is killed between the post that woke it and its next step. -/
def Event.Spares (s : Sys) : Event → Prop
  | .kill pid => ¬s.Granted pid
  | _ => True

/-- **Every event of such a run keeps the token.** -/
theorem woken_step (h : Inv True s) (hwoken : s.Woken) (hspares : e.Spares s)
    (ht : step s e = some t) : t.Woken := by
  cases h.step_outcome ht with
  | dispatch hpr hready => exact hwoken.preempt.dispatch hpr
  | readNothing hrun =>
      exact fun hdata ↦ (hwoken hdata).mono (fun hpos ↦ hpos) fun q hq ↦ hq.congr rfl
  | read hrun _ hout => exact h.read_woken hrun (fun _ ↦ hwoken) hout
  | write hrun hholds hw =>
      have hcalls : ∀ calls, Woken { s with calls := calls } := fun _ hdata ↦
        (hwoken hdata).mono (fun hpos ↦ hpos) fun q hq ↦ hq.congr rfl
      exact ((WriteRule.woken _ _).write h hrun hholds hw
        (fun _ ↦ (hcalls _).setSem (by decide))
        fun _ hdata ↦ (hcalls _ hdata).blockOn hrun (.inl (by decide))).2
  | resumeRead hpr hcont hout =>
      obtain ⟨hinv, hrun, -⟩ := h.resume hpr
      exact hinv.read_woken hrun (fun hfalse ↦ Bool.noConfusion hfalse) hout
  | resumeWrite hpr hcont hw =>
      exact ((WriteRule.woken _ _).resumeWrite h hpr hcont hw
        (hwoken.resume hpr (by simp [hcont]))).2
  | resumeSlot hpr hcont hw =>
      have hwoken' := hwoken.resume hpr (by simp [hcont])
      exact ((WriteRule.woken _ _).resumeSlot h hpr hcont hw
        (fun cb _ hwf _ hsize ↦ (h.resume hpr).1.written_woken hwf hsize _ _ hwoken')
        fun _ hdata ↦ (hwoken' hdata).mono (fun hpos ↦ hpos) fun q hq ↦ hq.congr rfl).2
  | @create pid hrun hvalid hidle hfree =>
      refine hwoken.update pid rfl (fun q hq ↦ Procs.set_other _ _ hq) ?_
      rintro ⟨pr, hpr, -⟩
      rw [hfree] at hpr
      cases hpr
  | reopen hrun hholds =>
      exact fun hdata ↦ (hwoken hdata).mono (fun hpos ↦ hpos) fun q hq ↦ hq.congr rfl
  | close hrun hclose =>
      obtain ⟨es, rfl | rfl⟩ := closeFd_cases hclose
      · exact fun hdata ↦ (hwoken hdata).mono (fun hpos ↦ hpos) fun q hq ↦ hq.congr rfl
      · have hclosing : Closing s { s with writeEnds := es } :=
          ⟨h.good.congr rfl rfl rfl, rfl, .inr ⟨rfl, rfl⟩⟩
        exact hclosing.removePipeWriter.woken hwoken
  | @kill pid _ hpr hlive =>
      have hclosing : Closing s (closeAllFDs pid [] s.writeEnds s) := closeAllFDs_rule
        (I := Closing s) (fun u es hu ↦ ⟨hu.good.congr rfl rfl rfl, hu.buffer, hu.flood⟩)
        (fun u hu ↦ hu.removePipeWriter) [] s.writeEnds ⟨h.good, rfl, .inr ⟨rfl, rfl⟩⟩
      exact hclosing.kill hwoken hspares
  | @reap pid _ hpr hdead =>
      refine hwoken.update pid rfl (fun q hq ↦ by simp [hq]) ?_
      rintro ⟨pr', hpr', -, -, hlive⟩
      rw [hpr] at hpr'
      obtain rfl := Option.some.inj hpr'
      exact absurd hdead hlive

/-- **No wake-up is lost**, as long as no reader dies between the post that woke it and its next
step, no pid is reused while it is queued, and everyone who blocks gets its node: while there is
data, there is a token, and a live reader that is blocked while there is data has another one,
already woken, ahead of it. -/
theorem no_lost_wakeup (data : Nat → UInt8) {creator : Int} (hvalid : ¬invalidPID creator)
    (hidle : creator ≠ IDLE_PID)
    (hreach : Reach stepOn (fun s x ↦ (x.1.Spares s ∧ x.1.Fresh s) ∧ x.2 = true)
      (init data creator) s) (hdata : 0 < s.pipe.buffer.count) :
    (0 < (s.pipe.sem .dataAvailable).value ∨ ∃ pid, s.Granted pid) ∧
      ∀ pid pr count, s.procs.table pid = some pr → pr.cont = .readData count →
        pr.state = .BLOCKED → ∃ q, s.Granted q := by
  have hboth : Inv True s ∧ s.Woken := by
    have hpipe : Reach step (fun s e ↦ e.Spares s ∧ e.Fresh s) (init data creator) s :=
      reach_of_nodes (inv_init data hvalid hidle) hreach
    refine hpipe.invariant (I := fun u ↦ Inv True u ∧ u.Woken)
      ⟨inv_init data hvalid hidle, fun hpos ↦ absurd hpos (lt_irrefl 0)⟩ ?_
    rintro u e v ⟨hinv, hwoken⟩ ⟨hspares, hfresh⟩ hv
    exact ⟨inv_step hinv (fun _ ↦ hfresh) hv, woken_step hinv hwoken hspares hv⟩
  obtain ⟨hinv, hwoken⟩ := hboth
  refine ⟨hwoken hdata, fun pid pr count hpid hcont hstate ↦ (hwoken hdata).resolve_left ?_⟩
  -- the reader is queued, so that there is no token at the semaphore
  obtain ⟨x, hwaits, hmem⟩ := hinv.good.queued pid pr hpid hstate
  rw [hcont] at hwaits
  obtain rfl := Option.some.inj hwaits
  intro hpos
  rw [(hinv.good.wf .dataAvailable).queue_eq_nil hpos] at hmem
  cases hmem

/-! ## Concrete runs -/

instance (s : Sys) (pid : Int) : Decidable (s.Granted pid) :=
  match h : s.procs.table pid with
  | none => isFalse fun ⟨_, hpr, _⟩ ↦ nomatch h.symm.trans hpr
  | some ⟨st, .readData count⟩ => decidable_of_iff (st ≠ .BLOCKED ∧ st ≠ .ZOMBIE)
      ⟨fun hst ↦ ⟨_, h, ⟨count, rfl⟩, hst⟩, fun ⟨_, hpr, _, hst⟩ ↦ by
        obtain rfl := Option.some.inj (h.symm.trans hpr)
        exact hst⟩
  | some ⟨_, .user⟩ | some ⟨_, .readMutex _⟩ | some ⟨_, .writeMutex _ _⟩
  | some ⟨_, .writeSlot _ _ _⟩ => isFalse fun ⟨_, hpr, ⟨_, hcont⟩, _⟩ ↦ by
      obtain rfl := Option.some.inj (h.symm.trans hpr)
      cases hcont

instance (s : Sys) (pid : Int) : Decidable (s.NotQueued pid) :=
  decidable_of_iff (∀ x ∈ [PipeSem.dataAvailable, .freeSpaces, .readMutex, .writeMutex],
    pid ∉ (s.pipe.sem x).blockedQueue) ⟨fun h x ↦ h x (by cases x <;> simp), fun h x _ ↦ h x⟩

instance (s : Sys) : (e : Event) → Decidable (e.Fresh s)
  | .create pid => inferInstanceAs (Decidable (s.NotQueued pid))
  | .dispatch _ | .read _ | .write _ | .resume | .reopen | .close _ | .kill _ | .reap _ =>
      isTrue trivial

instance (s : Sys) : (e : Event) → Decidable (e.Spares s)
  | .kill pid => inferInstanceAs (Decidable ¬s.Granted pid)
  | .dispatch _ | .read _ | .write _ | .resume | .create _ | .reopen | .close _ | .reap _ =>
      isTrue trivial

/-- A reader is woken, another one waits behind it, and one dies while it waits. -/
theorem no_lost_wakeup_blocked : ∃ s : Sys, (0 < s.pipe.buffer.count ∧
      s.procs.table 4 = some ⟨.BLOCKED, .readData 10⟩ ∧
      s.procs.table 5 = some ⟨.ZOMBIE, .readData 10⟩) ∧
    (0 < (s.pipe.sem .dataAvailable).value ∨ ∃ pid, s.Granted pid) ∧
      ∀ pid pr count, s.procs.table pid = some pr → pr.cont = .readData count →
        pr.state = .BLOCKED → ∃ q, s.Granted q := by
  let es : List (Event × Bool) := [(.create 3, true), (.create 4, true), (.create 5, true),
    (.dispatch 3, true), (.read 10, true), (.dispatch 4, true), (.read 10, true),
    (.dispatch 5, true), (.read 10, true), (.kill 5, true), (.dispatch 2, true),
    (.write [7, 8], true)]
  have hrun : (run stepOn (init (fun _ ↦ 0) 2) es).map (fun s : Sys ↦
      decide (0 < s.pipe.buffer.count ∧
      s.procs.table 4 = some ⟨.BLOCKED, .readData 10⟩ ∧
      s.procs.table 5 = some ⟨.ZOMBIE, .readData 10⟩)) = some true := by decide +kernel
  have hguard : Guarded stepOn (fun s x ↦ (x.1.Spares s ∧ x.1.Fresh s) ∧ x.2 = true)
      (init (fun _ ↦ 0) 2) es := by
    decide +kernel
  obtain ⟨s, hrun, hobs⟩ := Option.map_eq_some_iff.mp hrun
  have hobs := of_decide_eq_true hobs
  exact ⟨s, hobs, no_lost_wakeup _ (by decide) (by decide) (.of_run hrun hguard) hobs.1⟩

/-- Only readers and processes outside the pipe are killed. -/
def Event.SparesWriters (s : Sys) : Event → Prop
  | .kill pid => ∀ pr ∈ s.procs.table pid, pr.cont.waitsOn ≠ some .writeMutex ∧
      pr.cont.waitsOn ≠ some .freeSpaces
  | _ => True

instance (s : Sys) : (e : Event) → Decidable (e.SparesWriters s)
  | .kill pid => inferInstanceAs (Decidable (∀ pr ∈ s.procs.table pid, _))
  | .dispatch _ | .read _ | .write _ | .resume | .create _ | .reopen | .close _ | .reap _ =>
      isTrue trivial

/-- There is data and nobody to read it. -/
def Silent (s : Sys) : Prop :=
  0 < s.pipe.buffer.count ∧ ¬0 < (s.pipe.sem .dataAvailable).value ∧
    ∀ n < MAX_PROCESSES.toNat, ¬s.Granted n

instance (s : Sys) : Decidable s.Silent := inferInstanceAs (Decidable (_ ∧ _ ∧ _))

theorem Silent.not_woken (h : s.Silent) (hvalid : s.procs.Valid) : ¬s.Woken := by
  intro hwoken
  obtain ⟨hdata, hvalue, hno⟩ := h
  obtain ⟨pid, hpid⟩ := (hwoken hdata).resolve_left hvalue
  obtain ⟨pr, hpr, -⟩ := id hpid
  have hrange := (hvalid pid pr hpr).1
  simp only [invalidPID] at hrange
  refine hno pid.toNat (by omega) ?_
  rwa [Int.toNat_of_nonneg (by omega)]

/-- **A wake-up is lost** when a reader is killed after it was woken.  It is also lost when
a reader is killed while it waits and its pid is reused: the pid is still queued for
data, and the new process takes the token while it waits to write.  And it is lost, with nobody
killed, when the heap has no room for the node of a reader: the reader sleeps on when the data
comes. -/
theorem lost_wakeup :
    (¬∀ s, Reach stepOn (fun s x ↦ (x.1.SparesWriters s ∧ x.1.Fresh s) ∧ x.2 = true)
      (init (fun _ ↦ 0) 2) s → s.Woken) ∧
    (¬∀ s, Reach stepOn (fun s x ↦ (x.1.SparesWriters s ∧ x.1.Spares s) ∧ x.2 = true)
      (init (fun _ ↦ 0) 2) s → s.Woken) ∧
    ∃ s, Reach stepOn (fun _ x ↦ ∀ pid, x.1 ≠ .kill pid) (init (fun _ ↦ 0) 2) s ∧ s.Silent ∧
      s.procs.table 3 = some ⟨.BLOCKED, .readData 10⟩ := by
  have hfail : ∀ (ok : Sys → Event → Prop) (es : List (Event × Bool)),
      (run stepOn (init (fun _ ↦ 0) 2) es).map (fun s ↦ decide s.Silent) = some true →
      Guarded stepOn (fun s x ↦ ok s x.1 ∧ x.2 = true) (init (fun _ ↦ 0) 2) es →
      ¬∀ s, Reach stepOn (fun s x ↦ ok s x.1 ∧ x.2 = true) (init (fun _ ↦ 0) 2) s → s.Woken := by
    intro ok es hrun hguard hall
    obtain ⟨s, hrun, hsilent⟩ := Option.map_eq_some_iff.mp hrun
    have hreach : Reach stepOn (fun s x ↦ ok s x.1 ∧ x.2 = true) (init (fun _ ↦ 0) 2) s :=
      .of_run hrun hguard
    have hstart : Inv False (init (fun _ ↦ 0) 2) := inv_init _ (by decide) (by decide)
    have hinv : Inv False s := inv_reach nofun hstart (reach_of_nodes hstart hreach)
    exact (of_decide_eq_true hsilent).not_woken hinv.good.valid (hall s hreach)
  refine ⟨?_, ?_, ?_⟩
  · exact hfail (fun s e ↦ e.SparesWriters s ∧ e.Fresh s)
      [(.create 3, true), (.create 4, true), (.dispatch 3, true), (.read 10, true),
        (.dispatch 4, true), (.read 10, true), (.dispatch 2, true), (.write [7], true),
        (.kill 3, true)]
      (by decide +kernel) (by decide +kernel)
  · exact hfail (fun s e ↦ e.SparesWriters s ∧ e.Spares s)
      [(.create 3, true), (.create 4, true), (.create 5, true), (.dispatch 4, true),
        (.read 10, true), (.dispatch 2, true), (.write (List.replicate 1025 7), true),
        (.dispatch 3, true), (.read 10, true), (.kill 3, true), (.reap 3, true),
        (.dispatch 5, true), (.create 3, true), (.dispatch 3, true), (.write [9], true),
        (.dispatch 4, true), (.resume, true)]
      (by decide +kernel) (by decide +kernel)
  · let es : List (Event × Bool) := [(.create 3, true), (.dispatch 3, true), (.read 10, false),
      (.dispatch 2, true), (.write [7], true)]
    have hrun : (run stepOn (init (fun _ ↦ 0) 2) es).map (fun s ↦ decide (s.Silent ∧
        s.procs.table 3 = some ⟨.BLOCKED, .readData 10⟩)) = some true := by decide +kernel
    have hguard : Guarded stepOn (fun _ x ↦ ∀ pid, x.1 ≠ .kill pid) (init (fun _ ↦ 0) 2) es :=
      Guarded.of_forall (by simp [es]) _
    obtain ⟨s, hrun, hobs⟩ := Option.map_eq_some_iff.mp hrun
    exact ⟨s, .of_run hrun hguard, of_decide_eq_true hobs⟩

end Sys

end BareBones.IPC
