import BareBones.IPC.PipeRun

/-!
# The end of a stream

A pipe has no end-of-file flag: the last writer to go posts `dataAvailable` once for
every possible process (`Flooded`), and the readers look for themselves.  That this
is enough is the invariant `Drainable`: without writers nobody is queued for data, and
while there is data there is a token, since a read that leaves some hands its token on.
Before the last writer goes, there is nothing to keep; afterwards, `closed_step` says
that all that can happen to the pipe is that it is drained.
-/

namespace BareBones.IPC

open BareBones.Lib BareBones.Process BareBones.Semaphores

/-- The reads `rs`, in this order, each take from `bytes` what they ask for as far as it
goes, and leave `rest`. -/
def Drains : List UInt8 → List ReadResult → List UInt8 → Prop
  | bytes, [], rest => rest = bytes
  | bytes, r :: rs, rest => r.bytes = bytes.take r.count ∧ Drains (bytes.drop r.count) rs rest

theorem Drains.append {bytes mid rest : List UInt8} {rs rs' : List ReadResult}
    (h : Drains bytes rs mid) (h' : Drains mid rs' rest) : Drains bytes (rs ++ rs') rest := by
  induction rs generalizing bytes with
  | nil => exact h ▸ h'
  | cons r rs ih => exact ⟨h.1, ih h.2⟩

/-- Such reads return the stream from where it was. -/
theorem Drains.flatMap {bytes rest : List UInt8} {rs : List ReadResult}
    (h : Drains bytes rs rest) : rs.flatMap (·.bytes) ++ rest = bytes := by
  induction rs generalizing bytes with
  | nil => exact h
  | cons r rs ih =>
      rw [List.flatMap_cons, List.append_assoc, ih h.2, h.1, List.take_append_drop]

namespace Sys

variable {strict : Prop} {s t : Sys} {x y : PipeSem} {pid : Int} {pr : Proc} {e : Event}
  {count : Nat} {woken : Bool}

/-! ## With writers -/

/-- A read does not change the number of writers. -/
theorem Inv.read_writerCount (h : Inv strict s) (hrun : s.Running)
    (hout : ReadOutcome woken s count t) : t.pipe.writerCount = s.pipe.writerCount := by
  cases hout with
  | eof _ _ => rfl
  | taken _ _ hpos => exact ((h.take (by decide) hpos).drained_result hrun count).2.2.2.2
  | granted _ _ => exact (h.drained_result hrun count).2.2.2.2
  | block _ _ => rfl

/-- A write does not change the number of writers, and returns no read. -/
theorem WriteRule.frame (strict : Prop) (call : Nat) (buf : List UInt8) (n : Int)
    (rs : List ReadResult) : WriteRule strict call buf
      (fun _ s ↦ s.pipe.writerCount = n ∧ s.results = rs)
      fun s ↦ s.pipe.writerCount = n ∧ s.results = rs where
  byte _ _ _ _ _ hE _ _ _ _ _ _ :=
    ⟨(written_writerCount _ _ _ _).trans hE.1, (written_results _ _ _ _).trans hE.2⟩
  full _ _ _ _ hE _ _ _ := hE
  block _ _ _ _ hE _ _ := hE
  done _ _ _ _ hE _ := hE

/-- A write event does not change the number of writers, and returns no read. -/
theorem Outcome.write_frame (h : Inv strict s) (hout : Outcome s e t)
    (hwrite : (∃ buf, e = .write buf) ∨
      ∃ pr, s.running = some pr ∧ pr.cont.Writing ∧ e = .resume) :
    t.pipe.writerCount = s.pipe.writerCount ∧ t.results = s.results := by
  cases hout with
  | write hrun hholds hw =>
      exact ((WriteRule.frame strict _ _ _ _).write h hrun hholds hw (fun _ ↦ ⟨rfl, rfl⟩)
        fun _ ↦ ⟨rfl, rfl⟩).2
  | resumeWrite hpr hcont hw =>
      exact ((WriteRule.frame strict _ _ _ _).resumeWrite h hpr hcont hw ⟨rfl, rfl⟩).2
  | resumeSlot hpr hcont hw =>
      exact ((WriteRule.frame strict _ _ s.pipe.writerCount s.results).resumeSlot h hpr hcont hw
        (fun cb _ _ _ _ ↦ ⟨written_writerCount _ _ _ _, written_results _ _ _ _⟩)
        fun _ ↦ ⟨rfl, rfl⟩).2
  | resumeRead hpr hcont hout =>
      rcases hwrite with ⟨_, hbuf⟩ | ⟨pr', hpr', hwriting, -⟩
      · cases hbuf
      · rw [Option.some.inj (hpr'.symm.trans hpr), hcont] at hwriting
        exact hwriting.elim
  | _ => simp at hwrite

/-- A process in a write holds a write end, which the pipe counts. -/
theorem Ends.writers (h : Ends s) (hholds : s.Holds pid) : 0 < s.pipe.writerCount := by
  obtain ⟨e, he, -⟩ := hholds
  have := List.length_pos_of_mem he
  have := h.count
  omega

/-- The last writer floods. -/
theorem removePipeWriter_open (h : Good strict s) :
    0 < (removePipeWriter s).pipe.writerCount ∨ (removePipeWriter s).Flooded := by
  rw [(removePipeWriter_writeEnds s).2]
  by_cases hlast : s.pipe.writerCount - 1 ≤ 0
  · exact .inr (removePipeWriter_flooded h (.inl hlast))
  · exact .inl (not_le.mp hlast)

/-- **The last writer wakes every reader**: a step after which there are no writers has
flooded `dataAvailable`. -/
theorem open_step (h : Inv strict s) (hopen : 0 < s.pipe.writerCount) (ht : step s e = some t) :
    0 < t.pipe.writerCount ∨ t.Flooded := by
  have hremove : ∀ u : Sys, Good strict u ∧ (0 < u.pipe.writerCount ∨ u.Flooded) →
      Good strict (removePipeWriter u) ∧
        (0 < (removePipeWriter u).pipe.writerCount ∨ (removePipeWriter u).Flooded) :=
    fun u hu ↦ ⟨(hu.1.removePipeWriter (P := fun _ ↦ False) fun _ _ hP ↦ hP.elim).1,
      removePipeWriter_open hu.1⟩
  cases h.step_outcome ht with
  | dispatch hpr hready => exact .inl (by simpa only [preempt_pipe] using hopen)
  | readNothing hrun => exact .inl hopen
  | read hrun _ hout => exact .inl (by rwa [h.read_writerCount hrun hout])
  | write hrun hholds hw =>
      rw [((Outcome.write hrun hholds hw).write_frame h (.inl ⟨_, rfl⟩)).1]
      exact .inl hopen
  | resumeRead hpr hcont hout =>
      obtain ⟨hinv, hrun, -⟩ := h.resume hpr
      exact .inl (by rwa [hinv.read_writerCount hrun hout])
  | resumeWrite hpr hcont hw =>
      rw [((Outcome.resumeWrite hpr hcont hw).write_frame h
        (.inr ⟨_, hpr, by rw [hcont]; trivial, rfl⟩)).1]
      exact .inl hopen
  | resumeSlot hpr hcont hw =>
      rw [((Outcome.resumeSlot hpr hcont hw).write_frame h
        (.inr ⟨_, hpr, by rw [hcont]; trivial, rfl⟩)).1]
      exact .inl hopen
  | create hrun hvalid hidle hfree => exact .inl hopen
  | reopen hrun hholds => exact .inl (by simp only [addPipeWriter]; omega)
  | close hrun hclose =>
      obtain ⟨es, rfl | rfl⟩ := closeFd_cases hclose
      · exact .inl hopen
      · exact removePipeWriter_open
          (h.good.congr (t := { s with writeEnds := es }) rfl rfl rfl)
  | @kill pid _ hpr hlive =>
      obtain ⟨-, hrule⟩ := closeAllFDs_rule
        (I := fun u ↦ Good strict u ∧ (0 < u.pipe.writerCount ∨ u.Flooded))
        (fun u es hI ↦ ⟨hI.1.congr rfl rfl rfl, hI.2⟩) hremove [] s.writeEnds
        ⟨h.good, .inl hopen⟩
      generalize closeAllFDs pid [] s.writeEnds s = u at hrule
      exact hrule
  | reap hpr hdead => exact .inl hopen

/-! ## Soundness -/

/-- A read that was asked for something returns something, unless this is the end. -/
theorem Inv.read_sound (h : Inv strict s) (hrun : s.Running)
    (hout : ReadOutcome woken s count t) {r : ReadResult}
    (hr : r ∈ t.results.drop s.results.length) (hcount : 0 < r.count) (hnil : r.bytes = []) :
    s.pipe.buffer.contents = [] ∧ s.pipe.writerCount = 0 := by
  have hsome : 0 < s.pipe.buffer.count →
      t.results = s.results ++ [⟨s.procs.currentPID, count, s.pipe.buffer.contents.take count⟩] →
      False := by
    intro hdata hresults
    rw [hresults, List.drop_left, List.mem_singleton] at hr
    subst hr
    have hempty := CircularBuffer.contents_eq_nil.mp
      ((List.take_eq_nil_iff.mp hnil).resolve_left (Nat.pos_iff_ne_zero.mp hcount))
    omega
  cases hout with
  | eof hempty hwriters =>
      refine ⟨CircularBuffer.contents_eq_nil.mpr hempty, ?_⟩
      have := h.ends.count
      omega
  | taken _ hdata hpos =>
      exact (hsome hdata ((h.take (by decide) hpos).drained_result hrun count).2.2.2.1).elim
  | granted _ hdata => exact (hsome hdata (h.drained_result hrun count).2.2.2.1).elim
  | block _ _ =>
      rw [show (s.blockOn .dataAvailable (.readData count)).results = s.results from rfl,
        List.drop_length] at hr
      cases hr

/-- Closing write ends returns no read. -/
theorem removePipeWriter_results (s : Sys) : (removePipeWriter s).results = s.results :=
  removePipeWriter_rule (I := fun u ↦ u.results = s.results) (fun _ hu ↦ hu) rfl

/-- **End of file is sound.** -/
theorem step_sound (h : Inv strict s) (ht : step s e = some t) {r : ReadResult}
    (hr : r ∈ t.results.drop s.results.length) (hcount : 0 < r.count) (hnil : r.bytes = []) :
    s.pipe.buffer.contents = [] ∧ s.pipe.writerCount = 0 := by
  -- the events that are not reads add no result
  have hother : t.results = s.results → s.pipe.buffer.contents = [] ∧ s.pipe.writerCount = 0 := by
    intro hsame
    rw [hsame, List.drop_length] at hr
    cases hr
  cases h.step_outcome ht with
  | dispatch hpr hready =>
      refine hother ?_
      unfold preempt
      split <;> rfl
  | readNothing hrun =>
      rw [show (s.returnRead 0 []).results = s.results ++ [⟨_, 0, []⟩] from rfl, List.drop_left,
        List.mem_singleton] at hr
      subst hr
      cases hcount
  | read hrun _ hout => exact h.read_sound hrun hout hr hcount hnil
  | write hrun hholds hw =>
      exact hother ((Outcome.write hrun hholds hw).write_frame h (.inl ⟨_, rfl⟩)).2
  | resumeRead hpr hcont hout =>
      obtain ⟨hinv, hrun, -⟩ := h.resume hpr
      exact hinv.read_sound hrun hout hr hcount hnil
  | resumeWrite hpr hcont hw =>
      exact hother ((Outcome.resumeWrite hpr hcont hw).write_frame h
        (.inr ⟨_, hpr, by rw [hcont]; trivial, rfl⟩)).2
  | resumeSlot hpr hcont hw =>
      exact hother ((Outcome.resumeSlot hpr hcont hw).write_frame h
        (.inr ⟨_, hpr, by rw [hcont]; trivial, rfl⟩)).2
  | create hrun hvalid hidle hfree => exact hother rfl
  | reopen hrun hholds => exact hother rfl
  | close hrun hclose =>
      obtain ⟨es, rfl | rfl⟩ := closeFd_cases hclose
      · exact hother rfl
      · exact hother (removePipeWriter_results _)
  | @kill pid _ hpr hlive =>
      have hrule : (closeAllFDs pid [] s.writeEnds s).results = s.results :=
        closeAllFDs_rule (I := fun u ↦ u.results = s.results)
          (fun _ _ hu ↦ hu) (fun u hu ↦ (removePipeWriter_results u).trans hu) [] s.writeEnds rfl
      generalize closeAllFDs pid [] s.writeEnds s = u at hrule hother
      exact hother hrule
  | reap hpr hdead => exact hother rfl

/-! ## Without writers -/

/-- Nobody waits for data, and while there is data, there is a token. -/
def Drainable (s : Sys) : Prop :=
  (s.pipe.sem .dataAvailable).blockedQueue = [] ∧
    (0 < s.pipe.buffer.count → 0 < (s.pipe.sem .dataAvailable).value)

theorem Flooded.drainable (h : s.Flooded) : s.Drainable := ⟨h.1, fun _ ↦ h.2⟩

/-- **Without writers a read never waits**: it returns what there is. -/
theorem closed_read (h : Inv strict s) (hrun : s.Running) (hclosed : s.pipe.writerCount ≤ 0)
    (hdrain : s.Drainable) (hout : ReadOutcome woken s count t) :
    t.Running ∧ t.Drainable ∧ t.pipe.writerCount = s.pipe.writerCount ∧
      t.pipe.buffer.contents = s.pipe.buffer.contents.drop count ∧
      t.results =
        s.results ++ [⟨s.procs.currentPID, count, s.pipe.buffer.contents.take count⟩] := by
  -- the read finds data, in a state in which nobody is queued
  have hdrained : ∀ r : Sys, Inv strict r → r.Running →
      (r.pipe.sem .dataAvailable).blockedQueue = [] → (r.drained count).Drainable := by
    intro r hr hrrun hqueue
    obtain ⟨u, hinv, -, -, hsem, -, heq⟩ := hr.drained hrrun count
    rw [heq]
    split
    · rcases post_spec (hinv.good.wf .dataAvailable) hinv.good.valid with
        ⟨dead, pid, rest, pr, hne, -, -, -, -⟩ | ⟨-, hpost⟩
      · rw [hsem, hqueue] at hne
        simp at hne
      · rw [hpost]
        exact ⟨by simp [Sys.returnRead], fun _ ↦ by simp only [Sys.returnRead, setSem_self]; omega⟩
    next hnone =>
        exact ⟨hsem ▸ hqueue, fun hdata ↦ absurd (CircularBuffer.hasData_iff.mpr hdata) hnone⟩
  cases hout with
  | eof hempty _ =>
      have hnil : s.pipe.buffer.contents = [] := CircularBuffer.contents_eq_nil.mpr hempty
      exact ⟨hrun, hdrain, rfl, by simp [Sys.returnRead, hnil], by simp [Sys.returnRead, hnil]⟩
  | taken _ hdata hpos =>
      have htake := h.take (x := .dataAvailable) (by decide) hpos
      obtain ⟨-, hrun', hcontents, hresults, hwriters⟩ := htake.drained_result hrun count
      exact ⟨hrun', hdrained _ htake hrun (by simp), hwriters, hcontents, hresults⟩
  | granted _ hdata =>
      obtain ⟨-, hrun', hcontents, hresults, hwriters⟩ := h.drained_result hrun count
      exact ⟨hrun', hdrained _ h hrun hdrain.1, hwriters, hcontents, hresults⟩
  | block hdata hor =>
      exfalso
      have hpos := hor.resolve_right (not_lt.mpr hclosed)
      have := (hdata hpos).2
      have := hdrain.2 hpos
      omega

/-- **Without writers, all that happens to the pipe is that it is drained.** -/
theorem closed_step (h : Inv strict s) (hclosed : s.pipe.writerCount ≤ 0) (hdrain : s.Drainable)
    (ht : step s e = some t) : t.Drainable ∧ t.pipe.writerCount = s.pipe.writerCount ∧
      ∃ rs, t.results = s.results ++ rs ∧ Drains s.pipe.buffer.contents rs
        t.pipe.buffer.contents := by
  have hends : s.writeEnds = [] := by
    have := h.ends.count
    exact List.length_eq_zero_iff.mp (by omega)
  have hidle : ∀ u : Sys, u.pipe = s.pipe → u.results = s.results → u.Drainable ∧
      u.pipe.writerCount = s.pipe.writerCount ∧ ∃ rs, u.results = s.results ++ rs ∧
        Drains s.pipe.buffer.contents rs u.pipe.buffer.contents := by
    intro u hpipe hresults
    refine ⟨?_, by rw [hpipe], [], by rw [hresults, List.append_nil], by rw [hpipe]; rfl⟩
    rw [Drainable, hpipe]
    exact hdrain
  have hno : ∀ pid, ¬s.Holds pid := fun pid hholds ↦ absurd (h.ends.writers hholds) (by omega)
  cases h.step_outcome ht with
  | dispatch hpr hready =>
      refine hidle _ (preempt_pipe s) ?_
      unfold preempt
      split <;> rfl
  | readNothing hrun =>
      exact ⟨hdrain, rfl, _, rfl, rfl, rfl⟩
  | read hrun _ hout =>
      obtain ⟨-, hdrain', hwriters, hcontents, hresults⟩ := closed_read h hrun hclosed hdrain hout
      exact ⟨hdrain', hwriters, _, hresults, rfl, hcontents⟩
  | write hrun hholds hw => exact absurd hholds (hno _)
  | resumeRead hpr hcont hout =>
      obtain ⟨hinv, hrun, -⟩ := h.resume hpr
      obtain ⟨-, hdrain', hwriters, hcontents, hresults⟩ :=
        closed_read hinv hrun hclosed hdrain hout
      exact ⟨hdrain', hwriters, _, hresults, rfl, hcontents⟩
  | resumeWrite hpr hcont hw => exact absurd ((h.resume hpr).2.2 (by rw [hcont]; trivial)) (hno _)
  | resumeSlot hpr hcont hw => exact absurd ((h.resume hpr).2.2 (by rw [hcont]; trivial)) (hno _)
  | create hrun hvalid hidle' hfree => exact hidle _ rfl rfl
  | reopen hrun hholds => exact absurd hholds (hno _)
  | close hrun hclose =>
      rw [closeFd, hends] at hclose
      cases hclose
  | kill hpr hlive =>
      rw [hends]
      exact hidle _ rfl rfl
  | reap hpr hdead => exact hidle _ rfl rfl

/-! ## Runs -/

/-- The invariant of the end of the stream. -/
structure EofInv (s : Sys) : Prop where
  inv : Inv False s
  drainable : s.pipe.writerCount ≤ 0 → s.Drainable

theorem EofInv.step (h : EofInv s) (ht : Sys.step s e = some t) : EofInv t := by
  refine ⟨inv_step h.inv nofun ht, fun hclosed ↦ ?_⟩
  by_cases hopen : 0 < s.pipe.writerCount
  · exact ((open_step h.inv hopen ht).resolve_left (not_lt.mpr hclosed)).drainable
  · exact (closed_step h.inv (not_lt.mp hopen) (h.drainable (not_lt.mp hopen)) ht).1

theorem eofInv_reach {data : Nat → UInt8} {creator : Int} (hvalid : ¬invalidPID creator)
    (hidle : creator ≠ IDLE_PID) {ok : Sys → Event → Prop}
    (h : Reach step ok (init data creator) s) : EofInv s :=
  h.invariant ⟨inv_init data hvalid hidle, fun hclosed ↦ absurd hclosed (by simp [init])⟩
    fun _ _ _ hinv _ ht ↦ hinv.step ht

/-- Without writers nobody is blocked. -/
theorem EofInv.not_blocked (h : EofInv s) (hclosed : s.pipe.writerCount ≤ 0) (pid : Int) :
    ¬s.procs.Blocked pid := by
  rintro ⟨pr, hpid, hstate⟩
  obtain ⟨x, hwaits, hmem⟩ := h.inv.good.queued pid pr hpid hstate
  have hwriting : ¬pr.cont.Writing := fun hw ↦ absurd
    (h.inv.ends.writers (h.inv.holding pid pr trivial hpid (by simp [hstate]) hw)) (by omega)
  cases hcont : pr.cont with
  | user =>
      rw [hcont] at hwaits
      cases hwaits
  | readData count =>
      rw [hcont] at hwaits
      obtain rfl := Option.some.inj hwaits
      rw [(h.drainable hclosed).1] at hmem
      cases hmem
  | readMutex count => exact h.inv.good.noMutex pid pr hpid (by rw [hcont]; rfl)
  | writeMutex call buf => exact hwriting (by rw [hcont]; trivial)
  | writeSlot call buf n => exact hwriting (by rw [hcont]; trivial)

/-- Any run without writers drains the pipe. -/
theorem EofInv.reach (h : EofInv s) (hclosed : s.pipe.writerCount ≤ 0)
    {ok : Sys → Event → Prop} (hreach : Reach Sys.step ok s t) :
    EofInv t ∧ t.pipe.writerCount ≤ 0 ∧ ∃ rs, t.results = s.results ++ rs ∧
      Drains s.pipe.buffer.contents rs t.pipe.buffer.contents := by
  refine hreach.invariant (I := fun t ↦ EofInv t ∧ t.pipe.writerCount ≤ 0 ∧
    ∃ rs, t.results = s.results ++ rs ∧ Drains s.pipe.buffer.contents rs t.pipe.buffer.contents)
    ⟨h, hclosed, [], by simp, rfl⟩ ?_
  rintro u e v ⟨hinv, hu, rs, hrs, hdrains⟩ - hv
  obtain ⟨-, hwriters, rs', hrs', hdrains'⟩ := closed_step hinv.inv hu (hinv.drainable hu) hv
  exact ⟨hinv.step hv, hwriters ▸ hu, rs ++ rs', by rw [hrs', hrs, List.append_assoc],
    hdrains.append hdrains'⟩

/-- **End of file is sound and complete.**  In every run, kills included, in which everyone who
blocks gets its node, a read of at least one byte returns none only if the buffer is empty and
there is no writer.  Once there is no writer, nobody is blocked; whatever happens from then on,
the reads that return take what is left in order, each as many bytes as it asks for and there
are; and every read, new or woken up, returns at once. -/
theorem eof_sound_complete (data : Nat → UInt8) {creator : Int} (hvalid : ¬invalidPID creator)
    (hidle : creator ≠ IDLE_PID)
    (hreach : Reach stepOn (fun _ x ↦ x.2 = true) (init data creator) s) :
    (∀ e t, s.stepOn (e, true) = some t → ∀ r ∈ t.results.drop s.results.length, 0 < r.count →
      r.bytes = [] → s.pipe.buffer.contents = [] ∧ s.pipe.writerCount = 0) ∧
    (s.pipe.writerCount = 0 →
      (∀ pid, ¬s.procs.Blocked pid) ∧
      (∀ t, Reach stepOn (fun _ x ↦ x.2 = true) s t → t.pipe.writerCount = 0 ∧
        (∀ pid, ¬t.procs.Blocked pid) ∧ ∃ rs, t.results = s.results ++ rs ∧
          Drains s.pipe.buffer.contents rs t.pipe.buffer.contents) ∧
      (∀ count, s.Running → ∃ t, s.stepOn (.read count, true) = some t ∧ t.Running ∧ t.results =
        s.results ++ [⟨s.procs.currentPID, count, s.pipe.buffer.contents.take count⟩]) ∧
      ∀ pr count, s.running = some pr → pr.cont = .readData count →
        ∃ t, s.stepOn (.resume, true) = some t ∧ t.Running ∧ t.results =
          s.results ++ [⟨s.procs.currentPID, count, s.pipe.buffer.contents.take count⟩]) := by
  have hpipe : Reach step (fun _ _ ↦ True) (init data creator) s :=
    reach_of_nodes (inv_init data hvalid hidle) (hreach.mono fun _ _ hnode ↦ ⟨trivial, hnode⟩)
  have hinv := eofInv_reach hvalid hidle hpipe
  have hon := stepOn_of_nodes hinv.inv.good.nodes
  refine ⟨fun e t ht r hr ↦ step_sound hinv.inv ((hon e).symm.trans ht) hr, fun hzero ↦ ?_⟩
  have hclosed : s.pipe.writerCount ≤ 0 := hzero.le
  refine ⟨hinv.not_blocked hclosed, fun t ht ↦ ?_, fun count hrun ↦ ?_,
    fun pr count hpr hcont ↦ ?_⟩
  · have ht' : Reach step (fun _ _ ↦ True) s t :=
      reach_of_nodes hinv.inv (ht.mono fun _ _ hnode ↦ ⟨trivial, hnode⟩)
    obtain ⟨hinv', hclosed', hdrains⟩ := hinv.reach hclosed ht'
    refine ⟨?_, hinv'.not_blocked hclosed', hdrains⟩
    have := hinv'.inv.ends.count
    omega
  · have huser : s.inUser = true := inUser_iff.mpr hrun
    rw [hon]
    simp only [step, huser, if_true]
    rcases pipeRead_outcome hinv.inv.good hrun count with ⟨rfl, ht⟩ | ⟨-, t, ht, hout⟩
    · exact ⟨_, ht, hrun, by simp [returnRead]⟩
    · obtain ⟨hrun', -, -, -, hresults⟩ :=
        closed_read hinv.inv hrun hclosed (hinv.drainable hclosed) hout
      exact ⟨t, ht, hrun', hresults⟩
  · obtain ⟨hinv', hrun, -⟩ := hinv.inv.resume hpr
    obtain ⟨t, ht, hout⟩ := afterDataAvailable_outcome hinv'.good hrun count
    obtain ⟨hrun', -, -, -, hresults⟩ :=
      closed_read hinv' hrun hclosed (hinv.drainable hclosed) hout
    refine ⟨t, ?_, hrun', ?_⟩
    · rw [hon]
      simp only [step, hpr, hcont]
      exact ht
    · have hcur := (running_eq_some.mp hpr).1
      have hcurrent : (s.suspend .user).procs.currentPID = s.procs.currentPID := by
        simp [suspend, Procs.setCont_of hcur]
      rw [hresults, hcurrent]
      rfl

/-- A reader waits, a writer writes two bytes and closes the pipe. -/
theorem eof_after_close : ∃ s, (s.pipe.writerCount = 0 ∧ s.pipe.buffer.contents = [7, 8] ∧
      s.procs.table 3 = some ⟨.READY, .readData 10⟩) ∧
    (∀ e t, s.stepOn (e, true) = some t → ∀ r ∈ t.results.drop s.results.length, 0 < r.count →
      r.bytes = [] → s.pipe.buffer.contents = [] ∧ s.pipe.writerCount = 0) ∧
    (s.pipe.writerCount = 0 →
      (∀ pid, ¬s.procs.Blocked pid) ∧
      (∀ t, Reach stepOn (fun _ x ↦ x.2 = true) s t → t.pipe.writerCount = 0 ∧
        (∀ pid, ¬t.procs.Blocked pid) ∧ ∃ rs, t.results = s.results ++ rs ∧
          Drains s.pipe.buffer.contents rs t.pipe.buffer.contents) ∧
      (∀ count, s.Running → ∃ t, s.stepOn (.read count, true) = some t ∧ t.Running ∧ t.results =
        s.results ++ [⟨s.procs.currentPID, count, s.pipe.buffer.contents.take count⟩]) ∧
      ∀ pr count, s.running = some pr → pr.cont = .readData count →
        ∃ t, s.stepOn (.resume, true) = some t ∧ t.Running ∧ t.results =
          s.results ++ [⟨s.procs.currentPID, count, s.pipe.buffer.contents.take count⟩]) := by
  let es : List (Event × Bool) := [(.create 3, true), (.dispatch 3, true), (.close 0, true),
    (.read 10, true), (.dispatch 2, true), (.write [7, 8], true), (.close 0, true)]
  have hrun : (run stepOn (init (fun _ ↦ 0) 2) es).map
        (fun s ↦ (s.pipe.writerCount, s.pipe.buffer.contents, s.procs.table 3)) =
      some (0, [7, 8], some ⟨.READY, .readData 10⟩) := by decide +kernel
  obtain ⟨s, hrun, hobs⟩ := Option.map_eq_some_iff.mp hrun
  simp only [Prod.mk.injEq] at hobs
  exact ⟨s, hobs, eof_sound_complete _ (by decide) (by decide)
    (.of_run hrun (.of_forall (by simp [es]) _))⟩

/-- A reader blocks when the heap has no room for its node, and the last writer closes the pipe:
`forceReadersWakeUp` posts for every process that there can be, and the reader stays blocked. -/
theorem reader_unreached : ∃ s, Reach stepOn (fun _ _ ↦ True) (init (fun _ ↦ 0) 2) s ∧
    s.pipe.writerCount = 0 ∧ s.procs.table 3 = some ⟨.BLOCKED, .readData 10⟩ := by
  let es : List (Event × Bool) := [(.create 3, true), (.dispatch 3, true), (.close 0, true),
    (.read 10, false), (.dispatch 2, true), (.close 0, true)]
  have hrun : (run stepOn (init (fun _ ↦ 0) 2) es).map
        (fun s ↦ (s.pipe.writerCount, s.procs.table 3)) =
      some (0, some ⟨.BLOCKED, .readData 10⟩) := by decide +kernel
  obtain ⟨s, hrun, hobs⟩ := Option.map_eq_some_iff.mp hrun
  simp only [Prod.mk.injEq] at hobs
  exact ⟨s, .of_run hrun (.of_true _ _), hobs⟩

end Sys

end BareBones.IPC
