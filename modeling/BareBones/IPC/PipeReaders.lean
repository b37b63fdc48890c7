import BareBones.IPC.PipeDelivery
import BareBones.IPC.PipeFlow

/-!
# Who reads

What holds of the process and of the number of bytes of every read of a run, `P`, holds of the
reads that wait and of those that have returned, whatever else the processes do (`ReadBy`).
With `P` the process and the size of the buffer of one program, the results of a run are the
reads of that program, in its order.

**Key results.**

* `ReadBy.step`: every event keeps `ReadBy`, if its own read meets `P`.
* `readsOf_eq`: the reads of the one reader are chunks that are not empty, and then, if its reads
  have come to the end of the stream, nothing.
-/

namespace BareBones.IPC.Sys

open BareBones.Lib BareBones.Process BareBones.Semaphores

variable {P : Int → Nat → Prop} {s t : Sys} {x : PipeSem} {pid : Int} {pr : Proc} {c : Cont}
  {cb : CircularBuffer} {count : Nat}

/-- All reads meet `P`: those that wait, and those that have returned. -/
structure ReadBy (P : Int → Nat → Prop) (s : Sys) : Prop where
  asks : ∀ pid pr, s.procs.table pid = some pr → ∀ count ∈ pr.cont.reads, P pid count
  results : ∀ r ∈ s.results, P r.pid r.count

namespace ReadBy

theorem congr (h : ReadBy P s) (hprocs : t.procs.table = s.procs.table)
    (hresults : t.results = s.results) : ReadBy P t := by
  refine ⟨?_, ?_⟩
  · rw [hprocs]
    exact h.asks
  · rw [hresults]
    exact h.results

theorem post (h : ReadBy P s) (hgood : Good True s) (x : PipeSem) : ReadBy P (s.post x) := by
  refine ⟨fun pid pr hpr ↦ ?_, h.results⟩
  obtain ⟨pr', hpr', hcont, -⟩ := post_table hgood hpr
  rw [hcont]
  exact h.asks pid pr' hpr'

/-- A slot of the table changes. -/
theorem update (h : ReadBy P s) (pid : Int) (hresults : t.results = s.results)
    (hother : ∀ q, q ≠ pid → t.procs.table q = s.procs.table q)
    (hpid : ∀ pr, t.procs.table pid = some pr → ∀ count ∈ pr.cont.reads, P pid count) :
    ReadBy P t := by
  refine ⟨fun q pr hq ↦ ?_, hresults ▸ h.results⟩
  by_cases heq : q = pid
  · subst heq
    exact hpid pr hq
  · exact h.asks q pr ((hother q heq).symm.trans hq)

/-- A process gets a new state or a new place. -/
theorem set (h : ReadBy P s) (pid : Int) (pr : Proc) (hpr : ∀ count ∈ pr.cont.reads, P pid count)
    (q : Int) : ReadBy P { s with procs := { s.procs.set pid pr with currentPID := q } } := by
  refine h.update pid rfl (fun r hr ↦ Procs.set_other _ _ hr) fun pr' hpr' ↦ ?_
  rw [← Option.some.inj ((Procs.set_self _ _ _).symm.trans hpr')]
  exact hpr

theorem blockOn (h : ReadBy P s) (x : PipeSem)
    (hc : ∀ count ∈ c.reads, P s.procs.currentPID count) : ReadBy P (s.blockOn x c) :=
  (h.set s.procs.currentPID ⟨.BLOCKED, c⟩ hc s.procs.currentPID).congr rfl rfl

/-- A process that goes on is in no call until it waits again. -/
theorem suspend (h : ReadBy P s) (hpr : s.running = some pr) : ReadBy P (s.suspend .user) := by
  rw [Sys.suspend, Procs.setCont_of (running_eq_some.mp hpr).1]
  refine h.set s.procs.currentPID { pr with cont := .user } ?_ s.procs.currentPID
  intro count hcount
  cases hcount

/-! ## Writes -/

/-- A byte is written. -/
theorem written (h : ReadBy P s) (hinv : Inv True s) (hcb : cb.Wf)
    (hsize : cb.maxSize = s.pipe.buffer.maxSize) (call : Nat) (b : UInt8) :
    ReadBy P (s.written cb call b) := by
  have hgood : Good True ({ s.setBuffer cb with stream := s.stream ++ [(call, b)] } : Sys) :=
    (hinv.setBuffer hcb hsize).good.congr rfl rfl rfl
  have hset : ReadBy P ({ s.setBuffer cb with stream := s.stream ++ [(call, b)] } : Sys) :=
    h.congr rfl rfl
  unfold Sys.written
  split
  · exact hset.post hgood _
  · exact hset

/-- Writes do not read. -/
theorem rule (P : Int → Nat → Prop) (call : Nat) (buf : List UInt8) :
    WriteRule True call buf (fun _ s ↦ ReadBy P s) (ReadBy P) where
  byte n s cb hinv hrun h hn hpos hroom hwf hcontents hsize := by
    have hsame : ReadBy P (s.setSem .freeSpaces
        ⟨(s.pipe.sem .freeSpaces).value - 1, []⟩) := h.congr rfl rfl
    exact hsame.written (hinv.take (by decide) hpos) hwf hsize call _
  full n s hinv hrun h hn hpos hfull := h.congr rfl rfl
  block n s hinv hrun h hn hneg := h.blockOn _ fun _ hcount ↦ absurd hcount (Option.not_mem_none _)
  done n s hinv hrun h hn := h.post hinv.good _

/-! ## Reads -/

/-- A read returns. -/
theorem returnRead (h : ReadBy P s) (hP : P s.procs.currentPID count) (bytes : List UInt8) :
    ReadBy P (s.returnRead count bytes) := by
  refine ⟨h.asks, fun r hr ↦ ?_⟩
  rcases List.mem_append.mp hr with hr | hr
  · exact h.results r hr
  · rw [List.mem_singleton.mp hr]
    exact hP

/-- A read that has found data. -/
theorem drained (h : ReadBy P s) (hinv : Inv True s) (hrun : s.Running)
    (hP : P s.procs.currentPID count) : ReadBy P (s.drained count) := by
  have hdrain := (drainBuffer_spec (I := fun t ↦ ((Inv True t ∧ t.Running) ∧
      t.procs.currentPID = s.procs.currentPID) ∧ ReadBy P t)
    (fun t hI ↦ hI.1.1.1.good.buffer) (fun t cb b hI _ hwf _ hsize ↦ ?_) count
    ⟨⟨⟨hinv, hrun⟩, rfl⟩, h⟩).1
  · obtain ⟨⟨⟨hinv', -⟩, hcur⟩, hreads⟩ := hdrain
    unfold Sys.drained
    dsimp only
    split
    · refine (hreads.post hinv'.good _).returnRead ?_ _
      rw [post_currentPID _ hinv'.good, hcur]
      exact hP
    · refine hreads.returnRead ?_ _
      rw [hcur]
      exact hP
  · obtain ⟨⟨⟨hinv', hrun'⟩, hcur⟩, hreads⟩ := hI
    have hset := hinv'.setBuffer hwf hsize
    refine ⟨⟨⟨hset.post (by decide), hrun'.post hset.good _⟩, ?_⟩, ?_⟩
    · exact (post_currentPID _ hset.good _).trans hcur
    · exact (hreads.congr (t := t.setBuffer cb) rfl rfl).post hset.good _

/-- A read keeps `P`, if it meets it. -/
theorem read (h : ReadBy P s) (hinv : Inv True s) (hrun : s.Running) {woken : Bool}
    (hP : P s.procs.currentPID count) (hout : ReadOutcome woken s count t) : ReadBy P t := by
  cases hout with
  | eof _ _ => exact h.returnRead hP []
  | taken _ _ hpos =>
      have hsame : ReadBy P (s.setSem .dataAvailable
          ⟨(s.pipe.sem .dataAvailable).value - 1, []⟩) := h.congr rfl rfl
      exact hsame.drained (hinv.take (x := .dataAvailable) (by decide) hpos) hrun hP
  | granted _ _ => exact h.drained hinv hrun hP
  | block _ _ =>
      refine h.blockOn .dataAvailable fun n hn ↦ ?_
      cases hn
      exact hP

/-! ## Events -/

/-- Closing write ends is no read. -/
theorem endsRule (P : Int → Nat → Prop) : EndsRule (ReadBy P) :=
  ⟨fun _ hgood h ↦ h.post hgood _, fun _ _ _ h ↦ h.congr rfl rfl⟩

theorem preempt (h : ReadBy P s) : ReadBy P s.preempt := by
  unfold Sys.preempt
  split
  next hsome =>
      obtain ⟨pr, hpr⟩ := Option.isSome_iff_exists.mp hsome
      have hcur := (running_eq_some.mp hpr).1
      rw [Procs.setState_of hcur]
      exact h.set _ { pr with state := .READY } (h.asks _ pr hcur) s.procs.currentPID
  next => exact h

/-- **Every event keeps `P`**, if its own read meets it. -/
theorem step {e : Event} (h : ReadBy P s) (hinv : Inv True s) (hok : e.KillsOutside s)
    (hread : ∀ count, e = .read count → P s.procs.currentPID count)
    (ht : Sys.step s e = some t) : ReadBy P t := by
  cases hinv.step_outcome ht with
  | @dispatch pid pr hpr hready =>
      exact h.preempt.set pid { pr with state := .RUNNING } (h.preempt.asks pid pr hpr) pid
  | readNothing hrun => exact h.returnRead (hread 0 rfl) []
  | read hrun _ hout => exact h.read hinv hrun (hread _ rfl) hout
  | write hrun hholds hw =>
      have hcalls : ∀ calls, ReadBy P ({ s with calls := calls } : Sys) :=
        fun calls ↦ h.congr rfl rfl
      refine ((ReadBy.rule P _ _).write hinv hrun hholds hw (fun hpos ↦ ?_) fun hneg ↦ ?_).2
      · exact h.congr rfl rfl
      · exact (hcalls _).blockOn _ fun _ hcount ↦ absurd hcount (Option.not_mem_none _)
  | resumeRead hpr hcont hout =>
      obtain ⟨hinv', hrun, -⟩ := hinv.resume hpr
      have hcur := (running_eq_some.mp hpr).1
      refine (h.suspend hpr).read hinv' hrun ?_ hout
      have hsame : (s.suspend .user).procs.currentPID = s.procs.currentPID := by
        rw [Sys.suspend, Procs.setCont_of hcur]
        rfl
      rw [hsame]
      exact h.asks _ _ hcur _ (by rw [hcont]; rfl)
  | resumeWrite hpr hcont hw =>
      exact ((ReadBy.rule P _ _).resumeWrite hinv hpr hcont hw (h.suspend hpr)).2
  | resumeSlot hpr hcont hw =>
      have hsuspend := h.suspend hpr
      refine ((ReadBy.rule P _ _).resumeSlot hinv hpr hcont hw
        (fun cb _ hwf hcontents hsize ↦ ?_) fun hfull ↦ ?_).2
      · exact hsuspend.written (hinv.resume hpr).1 hwf hsize _ _
      · exact hsuspend.congr rfl rfl
  | @create pid hrun hvalid hidle hfree =>
      refine h.update pid rfl (fun q hq ↦ Procs.set_other _ _ hq) fun pr hpr count hcount ↦ ?_
      obtain rfl := Option.some.inj ((Procs.set_self _ _ _).symm.trans hpr)
      cases hcount
  | reopen hrun hholds => exact h.congr rfl rfl
  | close hrun hclose => exact (endsRule P).closeFd hinv.good hrun h hclose
  | @kill pid pr hpr hlive =>
      obtain ⟨u, hu, -, heq⟩ := (endsRule P).kill hinv.good h hok
      rw [heq]
      refine hu.update pid rfl setState_other fun pr' hpr' ↦ ?_
      obtain ⟨pr'', hpr'', hcont⟩ := setState_cont hpr'
      rw [hcont]
      exact hu.asks pid pr'' hpr''
  | @reap pid pr hpr hdead =>
      refine h.update pid rfl (fun q hq ↦ if_neg hq) fun pr' hpr' ↦ ?_
      cases (if_pos rfl).symm.trans hpr'

end ReadBy

theorem readBy_init (P : Int → Nat → Prop) (data : Nat → UInt8) (creator : Int) :
    ReadBy P (init data creator) := by
  refine ⟨fun pid pr hpr ↦ ?_, fun r hr ↦ ?_⟩
  · simp only [init] at hpr
    split at hpr
    · cases hpr
      intro count hcount
      cases hcount
    · cases hpr
  · cases hr

/-! ## The reads of one process -/

/-- What the reads of a process have returned. -/
def readsOf (s : Sys) (r : Int) : List (List UInt8) :=
  (s.results.filter (·.pid = r)).map (·.bytes)

/-- Once a read has returned nothing, the later ones have not returned anything either. -/
def EndsOnce (s : Sys) : Prop :=
  s.results.Pairwise fun r r' ↦ 0 < r.count → r.bytes = [] → r'.bytes = []

/-- **Nothing comes after the end.** -/
theorem EndsOnce.step {e : Event} (h : s.EndsOnce) (hdelivery : DeliveryInv s)
    (ht : Sys.step s e = some t) : t.EndsOnce := by
  obtain ⟨rs, hrs, hlen⟩ := step_results hdelivery.inv ht
  rw [EndsOnce, hrs, List.pairwise_append]
  refine ⟨h, ?_, fun r hr r' hr' hcount hnil ↦ ?_⟩
  · rcases rs with - | ⟨r, - | ⟨r', rs⟩⟩
    · exact .nil
    · exact List.pairwise_singleton _ _
    · simp only [List.length_cons] at hlen
      omega
  · obtain ⟨hempty, hclosed⟩ := hdelivery.seen ⟨r, hr, hcount, hnil⟩
    obtain ⟨-, -, rs', hrs', hdrains⟩ := closed_step hdelivery.eof.inv hclosed.le
      (hdelivery.eof.drainable hclosed.le) ht
    obtain rfl := List.append_cancel_left (hrs.symm.trans hrs')
    have hflat := hdrains.flatMap
    rw [hempty] at hflat
    exact List.flatMap_eq_nil_iff.mp (List.append_eq_nil_iff.mp hflat).1 r' hr'

/-- The events of a pipe that one process reads, `count` bytes at a time. -/
def OneReader (r : Int) (count : Nat) (s : Sys) (e : Event) : Prop :=
  e.KillsOutside s ∧ ∀ n, e = .read n → s.procs.currentPID = r ∧ n = count

instance (r : Int) (count : Nat) (s : Sys) : (e : Event) → Decidable (OneReader r count s e)
  | .read n => decidable_of_iff (s.procs.currentPID = r ∧ n = count)
      ⟨fun h ↦ ⟨trivial, fun m hm ↦ by cases hm; exact h⟩, fun h ↦ h.2 n rfl⟩
  | .kill pid => decidable_of_iff ((Event.kill pid).KillsOutside s)
      ⟨fun h ↦ ⟨h, nofun⟩, fun h ↦ h.1⟩
  | .dispatch _ | .write _ | .resume | .create _ | .reopen | .close _ | .reap _ =>
      isTrue ⟨trivial, nofun⟩

/-- What a run keeps in which one process reads, `count` bytes at a time. -/
structure ReaderInv (r : Int) (count : Nat) (s : Sys) : Prop where
  delivery : DeliveryInv s
  reader : ReadBy (fun pid n ↦ pid = r ∧ n = count) s
  once : s.EndsOnce

variable {r : Int}

theorem readerInv_reach {data : Nat → UInt8} {creator : Int} (hvalid : ¬invalidPID creator)
    (hidle : creator ≠ IDLE_PID)
    (hreach : Reach Sys.step (OneReader r count) (init data creator) s) : ReaderInv r count s := by
  refine hreach.invariant ⟨deliveryInv_reach hvalid hidle .refl, readBy_init _ data creator, .nil⟩
    ?_
  rintro u e v ⟨hdelivery, hreader, honce⟩ ⟨hkills, hread⟩ hv
  exact ⟨hdelivery.step hkills hv,
    hreader.step hdelivery.inv hkills (fun n he ↦ hread n he) hv, honce.step hdelivery hv⟩

namespace ReaderInv

/-- All reads are those of the reader. -/
theorem readsOf_eq (h : ReaderInv r count s) : s.readsOf r = s.results.map (·.bytes) := by
  rw [readsOf, List.filter_eq_self.mpr]
  intro res hres
  exact decide_eq_true (h.reader.results res hres).1

/-- A reader that has come to the end has read everything. -/
theorem exhausted (h : ReaderInv r count s) (hcount : 0 < count) (hend : [] ∈ s.readsOf r) :
    s.Exhausted := by
  rw [h.readsOf_eq] at hend
  obtain ⟨res, hres, hnil⟩ := List.mem_map.mp hend
  refine h.delivery.seen ⟨res, hres, ?_, hnil⟩
  rw [(h.reader.results res hres).2]
  exact hcount

/-- After the end nothing is read. -/
theorem after (h : ReaderInv r count s) (hcount : 0 < count) {cs after : List (List UInt8)}
    (heq : s.results.map (·.bytes) = cs ++ [] :: after) : ∀ bytes ∈ after, bytes = [] := by
  obtain ⟨rs, rs', hrs, -, hend⟩ := List.map_eq_append_iff.mp heq
  obtain ⟨res, rest, rfl, hnil, rfl⟩ := List.map_eq_cons_iff.mp hend
  have honce := h.once
  rw [EndsOnce, hrs, List.pairwise_append] at honce
  have hpos : 0 < res.count := by
    rw [(h.reader.results res (by simp [hrs])).2]
    exact hcount
  intro bytes hbytes
  obtain ⟨res', hres', rfl⟩ := List.mem_map.mp hbytes
  exact (List.pairwise_cons.mp honce.2.1).1 res' hres' hpos hnil

/-- **What the reader has read**: chunks that are not empty, a beginning of the calls, and
nothing else; or all of the calls in such chunks, the end, and nothing after it. -/
theorem chunks (h : ReaderInv r count s) (hcount : 0 < count) :
    ∃ cs, (∀ x ∈ cs, x ≠ []) ∧ cs.flatten <+: s.calls.flatten ∧
      (s.readsOf r = cs ∨
        cs.flatten = s.calls.flatten ∧ ∃ after, s.readsOf r = cs ++ [] :: after) := by
  rw [h.readsOf_eq]
  have hbegins : (s.results.map (·.bytes)).flatten <+: s.calls.flatten := by
    rw [← List.flatMap_def]
    exact (List.prefix_append _ _).trans h.delivery.begins
  by_cases hseen : [] ∈ s.results.map (·.bytes)
  · obtain ⟨cs, after, heq, hcs⟩ := List.eq_append_cons_of_mem hseen
    refine ⟨cs, fun x hx hnil ↦ hcs (hnil ▸ hx), ?_, .inr ⟨?_, after, heq⟩⟩
    · rw [heq, List.flatten_append] at hbegins
      exact (List.prefix_append _ _).trans hbegins
    · have hafter : after.flatten = [] := List.flatten_eq_nil_iff.mpr (h.after hcount heq)
      obtain ⟨res, hres, hnil⟩ := List.mem_map.mp hseen
      have hall := h.delivery.delivered ⟨res, hres, ?_, hnil⟩
      · rw [List.flatMap_def, heq, List.flatten_append, List.flatten_cons, hafter] at hall
        simpa using hall
      · rw [(h.reader.results res hres).2]
        exact hcount
  · exact ⟨_, fun x hx hnil ↦ hseen (hnil ▸ hx), hbegins, .inl rfl⟩

end ReaderInv

end BareBones.IPC.Sys
