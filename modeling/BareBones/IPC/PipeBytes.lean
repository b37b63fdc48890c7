import BareBones.IPC.PipeSlots

/-!
# The bytes of a pipe

What holds of a pipe whichever of its callers reads or writes: whoever is queued waits there
(`Clean`), the slots are accounted for (`Phase`), and the bytes that were read and those in the
buffer are those that were written (`Bytes`).  Of the calls that write nothing is said, so that
this is also what holds when a call gives up before it has written everything.
-/

namespace BareBones.IPC

open BareBones.Lib BareBones.Process BareBones.Semaphores

namespace Sys

variable {strict : Prop} {s t : Sys} {x : PipeSem} {pid : Int} {pr : Proc} {c : Cont}
  {cb : CircularBuffer} {writing : Bool} {call n : Nat} {buf : List UInt8}

/-- The bytes that were read and those in the buffer are those that were written. -/
def Bytes (s : Sys) : Prop :=
  s.results.flatMap (·.bytes) ++ s.pipe.buffer.contents = s.stream.map Prod.snd

namespace Bytes

/-- A read whose bytes have been drained puts them on record. -/
theorem returnRead (h : s.Bytes) (hinv : Inv strict s) (hrun : s.Running) {count : Nat} {u : Sys}
    (hbuffer : u.pipe.buffer = (drainBuffer count s).1.pipe.buffer)
    (hstream : u.stream = (drainBuffer count s).1.stream)
    (hresults : u.results = (drainBuffer count s).1.results) :
    (u.returnRead count (drainBuffer count s).2).Bytes := by
  obtain ⟨-, -, hframe⟩ := hinv.drainBuffer hrun count
  obtain ⟨htake, hdrop⟩ := hinv.drainBuffer_contents count
  simp only [Bytes] at h
  simp only [Bytes, Sys.returnRead, hbuffer, hstream, hresults, hframe.results, hframe.stream,
    hdrop, htake, List.flatMap_append, List.flatMap_cons, List.flatMap_nil, List.append_nil]
  rw [List.append_assoc, List.take_append_drop, h]

/-- A read returns nothing. -/
theorem returnNothing (h : s.Bytes) (count : Nat) : (s.returnRead count []).Bytes := by
  simp only [Bytes] at h
  simp [Bytes, Sys.returnRead, h]

/-- A byte is written. -/
theorem append (h : s.Bytes) {b : UInt8} (hcontents : cb.contents = s.pipe.buffer.contents ++ [b])
    (call : Nat) :
    Bytes ({ s.setBuffer cb with stream := s.stream ++ [(call, b)] } : Sys) := by
  simp only [Bytes, setBuffer] at h ⊢
  rw [hcontents, ← List.append_assoc, h, List.map_append]
  rfl

end Bytes

/-- The invariant of the bytes; the flag says whether a write is on the processor. -/
structure BytesInv (writing : Bool) (s : Sys) : Prop where
  clean : s.Clean
  phase : s.Phase writing
  bytes : s.Bytes

namespace BytesInv

theorem post_dataAvailable (h : BytesInv writing s) (hgood : Good True s) :
    BytesInv writing (s.post .dataAvailable) :=
  ⟨h.clean.post hgood _, h.phase.post_dataAvailable h.clean hgood, h.bytes⟩

/-! ## Reads -/

/-- Draining keeps everything but the account of the bytes. -/
theorem drainBuffer (h : BytesInv writing s) (hinv : Inv True s) (hrun : s.Running) (count : Nat) :
    (Sys.drainBuffer count s).1.Clean ∧ (Sys.drainBuffer count s).1.Phase writing := by
  refine (drainBuffer_spec (I := fun t ↦ (Inv True t ∧ t.Running) ∧ t.Clean ∧ t.Phase writing)
    (fun t hI ↦ hI.1.1.good.buffer) (fun t cb b hI hread hwf hcontents hsize ↦ ?_) count
    ⟨⟨hinv, hrun⟩, h.clean, h.phase⟩).1.2
  obtain ⟨⟨hinv', hrun'⟩, hclean, hphase⟩ := hI
  have hset := hinv'.setBuffer hwf hsize
  have hcount : cb.count + 1 = t.pipe.buffer.count := by
    rw [← CircularBuffer.length_contents, ← CircularBuffer.length_contents, hcontents,
      List.length_cons]
  have hclean' : (t.setBuffer cb).Clean := ⟨hclean.queued, hclean.zombie⟩
  exact ⟨⟨hset.post (by decide), hrun'.post hset.good _⟩, hclean'.post hset.good _,
    hphase.read hclean hinv'.good hwf hsize hcount⟩

/-- **A read that finds data** moves bytes from the buffer to its result. -/
theorem drained (h : BytesInv writing s) (hinv : Inv True s) (hrun : s.Running) (count : Nat) :
    BytesInv writing (s.drained count) := by
  obtain ⟨hclean, hphase⟩ := h.drainBuffer hinv hrun count
  obtain ⟨hinv', -, -⟩ := hinv.drainBuffer hrun count
  unfold Sys.drained
  dsimp only
  split
  · have hpost := hclean.post hinv'.good .dataAvailable
    exact ⟨⟨hpost.queued, hpost.zombie⟩,
      (hphase.post_dataAvailable hclean hinv'.good).congr rfl rfl rfl fun _ _ _ ↦ Iff.rfl,
      h.bytes.returnRead hinv hrun rfl rfl rfl⟩
  · exact ⟨⟨hclean.queued, hclean.zombie⟩, hphase.congr rfl rfl rfl fun _ _ _ ↦ Iff.rfl,
      h.bytes.returnRead hinv hrun rfl rfl rfl⟩

/-- A read returns nothing. -/
theorem returnNothing (h : BytesInv writing s) (count : Nat) :
    BytesInv writing (s.returnRead count []) :=
  ⟨⟨h.clean.queued, h.clean.zombie⟩, h.phase.congr rfl rfl rfl fun _ _ _ ↦ Iff.rfl,
    h.bytes.returnNothing count⟩

/-- A token is taken that no writer waits for. -/
theorem takeDataAvailable (h : BytesInv writing s) :
    BytesInv writing
      (s.setSem .dataAvailable ⟨(s.pipe.sem .dataAvailable).value - 1, []⟩) := by
  refine ⟨h.clean.setSem rfl, ?_, h.bytes⟩
  exact h.phase.congr rfl (setSem_other _ _ (by decide)) (setSem_other _ _ (by decide))
    fun _ _ _ ↦ Iff.rfl

/-- Reads keep the bytes. -/
theorem read (h : BytesInv writing s) (hinv : Inv True s) (hrun : s.Running) {woken : Bool}
    {count : Nat} (hout : ReadOutcome woken s count t) : BytesInv writing t := by
  cases hout with
  | eof _ _ => exact h.returnNothing count
  | taken _ _ hpos =>
      exact h.takeDataAvailable.drained (hinv.take (x := .dataAvailable) (by decide) hpos) hrun
        count
  | granted _ _ => exact h.drained hinv hrun count
  | block _ _ =>
      exact ⟨h.clean.blockOn hinv.good hrun rfl, h.phase.blockOn_dataAvailable hrun count, h.bytes⟩

/-! ## Writes -/

/-- **A byte is written** into a slot that was taken before. -/
theorem written (hclean : s.Clean) (hbytes : s.Bytes) (hinv : Inv True s) (hcb : cb.Wf)
    (hsize : cb.maxSize = s.pipe.buffer.maxSize) {b : UInt8}
    (hcontents : cb.contents = s.pipe.buffer.contents ++ [b])
    (hphase : (s.written cb call b).Phase true) : BytesInv true (s.written cb call b) := by
  have hgood : Good True ({ s.setBuffer cb with stream := s.stream ++ [(call, b)] } : Sys) :=
    (hinv.setBuffer hcb hsize).good.congr rfl rfl rfl
  have hclean' : Clean ({ s.setBuffer cb with stream := s.stream ++ [(call, b)] } : Sys) :=
    ⟨hclean.queued, hclean.zombie⟩
  refine ⟨?_, hphase, ?_⟩ <;> unfold Sys.written
  · split
    · exact hclean'.post hgood _
    · exact hclean'
  · split <;> exact hbytes.append hcontents call

/-- A slot is taken and a byte written. -/
theorem byte (h : BytesInv true s) (hinv : Inv True s)
    (hpos : 0 < (s.pipe.sem .freeSpaces).value) (hcb : cb.Wf)
    (hsize : cb.maxSize = s.pipe.buffer.maxSize) {b : UInt8}
    (hcontents : cb.contents = s.pipe.buffer.contents ++ [b]) :
    BytesInv true ((s.setSem .freeSpaces ⟨(s.pipe.sem .freeSpaces).value - 1, []⟩).written cb call
      b) := by
  have hcount : cb.count = s.pipe.buffer.count + 1 := by
    rw [← CircularBuffer.length_contents, ← CircularBuffer.length_contents, hcontents,
      List.length_append, List.length_singleton]
  exact written (h.clean.setSem rfl) h.bytes (hinv.take (x := .freeSpaces) (by decide) hpos) hcb
    hsize hcontents (h.phase.byte h.clean hinv hpos hcb hsize hcount call b)

/-- A process that holds the lock finds room when it has a slot. -/
theorem not_full (h : BytesInv true s) (hinv : Inv True s)
    (hpos : 0 < (s.pipe.sem .freeSpaces).value) : s.pipe.buffer.count ≠ s.pipe.buffer.maxSize := by
  rw [hinv.good.size]
  exact Nat.ne_of_lt (h.phase.room hpos)

/-- The writer is done. -/
theorem unlock (h : BytesInv true s) (hinv : Inv True s) :
    BytesInv false (s.post .writeMutex) :=
  ⟨h.clean.post hinv.good _, h.phase.unlock h.clean hinv.good, h.bytes⟩

/-- The writer stops in a wait. -/
theorem blockOn (hclean : s.Clean) (hbytes : s.Bytes) (hgood : Good True s) (hrun : s.Running)
    (hc : c.waitsOn = some x) (hphase : (s.blockOn x c).Phase false) :
    BytesInv false (s.blockOn x c) := ⟨hclean.blockOn hgood hrun hc, hphase, hbytes⟩

/-- A new call is on record. -/
theorem setCalls (h : BytesInv writing s) (calls : List (List UInt8)) :
    BytesInv writing { s with calls := calls } :=
  ⟨⟨h.clean.queued, h.clean.zombie⟩, h.phase.congr rfl rfl rfl fun _ _ _ ↦ Iff.rfl, h.bytes⟩

/-- A writer takes the lock. -/
theorem lock (h : BytesInv false s) (hpos : 0 < (s.pipe.sem .writeMutex).value) :
    BytesInv true (s.setSem .writeMutex ⟨(s.pipe.sem .writeMutex).value - 1, []⟩) :=
  ⟨h.clean.setSem rfl, h.phase.lock hpos, h.bytes⟩

/-- A writer waits for the lock. -/
theorem blockOn_writeMutex (h : BytesInv false s) (hinv : Inv True s) (hrun : s.Running)
    (hneg : (s.pipe.sem .writeMutex).value ≤ 0) (call : Nat) (buf : List UInt8) :
    BytesInv false (s.blockOn .writeMutex (.writeMutex call buf)) :=
  blockOn h.clean h.bytes hinv.good hrun rfl (h.phase.blockOn_writeMutex hrun hneg call buf)

/-- **Writes keep the bytes.** -/
theorem rule (call : Nat) (buf : List UInt8) :
    WriteRule True call buf (fun _ s ↦ BytesInv true s) (BytesInv false) where
  byte _ _ _ hinv _ h _ hpos _ hwf hcontents hsize := h.byte hinv hpos hwf hsize hcontents
  full _ _ hinv _ h _ hpos hfull := absurd hfull (h.not_full hinv hpos)
  block _ _ hinv hrun h hn hneg :=
    blockOn h.clean h.bytes hinv.good hrun rfl (h.phase.blockOn_freeSpaces hneg call hn)
  done _ _ hinv _ h _ := h.unlock hinv

/-! ## Going on -/

/-- A process that goes on was nowhere queued. -/
theorem resume_clean (h : BytesInv writing s) (hinv : Inv True s) (hpr : s.running = some pr) :
    (s.suspend .user).Clean := by
  obtain ⟨hcur, hstate⟩ := running_eq_some.mp hpr
  refine h.clean.update rfl (fun q hq ↦ ?_)
    (hinv.good.not_queued trivial hcur (by simp [hstate]) (by simp [hstate])) fun pr' hpr' hdead ↦
      ?_
  · rw [suspend, Procs.setCont_of hcur]
    exact Procs.set_other _ _ hq
  · rw [suspend, Procs.setCont_of hcur] at hpr'
    obtain rfl := Option.some.inj ((Procs.set_self _ _ _).symm.trans hpr')
    rfl

/-- A reader goes on, -/
theorem resume_readData (h : BytesInv writing s) (hinv : Inv True s) (hpr : s.running = some pr)
    {count : Nat} (hcont : pr.cont = .readData count) : BytesInv writing (s.suspend .user) :=
  ⟨h.resume_clean hinv hpr, h.phase.resume_readData hpr hcont, h.bytes⟩

/-- or a writer that was handed the lock, -/
theorem resume_writeMutex (h : BytesInv false s) (hinv : Inv True s) (hpr : s.running = some pr)
    (hcont : pr.cont = .writeMutex call buf) : BytesInv true (s.suspend .user) :=
  ⟨h.resume_clean hinv hpr, h.phase.resume_writeMutex hpr hcont, h.bytes⟩

/-- or one that was granted a slot. -/
theorem resume_writeSlot (h : BytesInv false s) (hinv : Inv True s) (hpr : s.running = some pr)
    (hcont : pr.cont = .writeSlot call buf n) :
    n < buf.length ∧ s.pipe.buffer.count ≠ s.pipe.buffer.maxSize ∧
      ∀ cb b, cb.Wf → cb.contents = s.pipe.buffer.contents ++ [b] →
        cb.maxSize = s.pipe.buffer.maxSize →
        BytesInv true ((s.suspend .user).written cb call b) := by
  obtain ⟨hn, hm, hslots, hno⟩ := h.phase.resume_writeSlot hpr hcont
  obtain ⟨hinv', -, -⟩ := hinv.resume hpr
  have hclean := h.resume_clean hinv hpr
  refine ⟨hn, ?_, fun cb b hwf hcontents hsize ↦ ?_⟩
  · have hle := hslots.le
    change s.pipe.buffer.count + 1 ≤ _ at hle
    rw [hinv.good.size]
    omega
  · refine written hclean h.bytes hinv' hwf hsize hcontents ?_
    refine Phase.written hm hslots hno hclean hinv' hwf hsize ?_ _ _
    rw [← CircularBuffer.length_contents, hcontents, List.length_append,
      CircularBuffer.length_contents]
    rfl

/-! ## Other events -/

/-- A slot of the table changes that is neither queued nor a writer's. -/
theorem update (h : BytesInv false s) (hpipe : t.pipe.sem = s.pipe.sem)
    (hbuffer : t.pipe.buffer = s.pipe.buffer) (hstream : t.stream = s.stream)
    (hresults : t.results = s.results) (hother : ∀ q, q ≠ pid → t.procs.table q = s.procs.table q)
    (hqueue : s.NotQueued pid)
    (hdead : ∀ pr, t.procs.table pid = some pr → pr.state = .ZOMBIE → pr.cont = .user)
    (hshape : ∀ sh, Owns sh → (t.shape pid = some sh ↔ s.shape pid = some sh)) :
    BytesInv false t := by
  refine ⟨h.clean.update hpipe hother hqueue hdead,
    h.phase.congr (by rw [hbuffer]) (by rw [hpipe]) (by rw [hpipe]) fun q sh ho ↦ ?_, ?_⟩
  · by_cases heq : q = pid
    · rw [heq]
      exact hshape sh ho
    · rw [shape_congr (hother q heq)]
  · rw [Bytes, hresults, hbuffer, hstream]
    exact h.bytes

/-- A live process that is not blocked changes its state. -/
theorem setState (h : BytesInv false s) (hinv : Inv True s) {st : State}
    (hpid : s.procs.table pid = some pr) (hblocked : pr.state ≠ .BLOCKED)
    (hlive : pr.state ≠ .ZOMBIE) (hst : st ≠ .BLOCKED) (hst' : st ≠ .ZOMBIE) (q : Int) :
    BytesInv false { s with
      procs := { s.procs.set pid { pr with state := st } with currentPID := q } } := by
  have htable : ({ s.procs.set pid { pr with state := st } with currentPID := q } : Procs).table =
      (s.procs.set pid { pr with state := st }).table := rfl
  refine h.update rfl rfl rfl rfl (fun r hr ↦ Procs.set_other _ _ hr)
    (hinv.good.not_queued trivial hpid hlive hblocked) (fun pr' hpr' hdead ↦ ?_) fun sh _ ↦ ?_
  · obtain rfl := Option.some.inj ((Procs.set_self _ _ _).symm.trans hpr')
    exact absurd hdead hst'
  · rw [shape_set htable, if_pos rfl, shape_of hpid]
    simp [hblocked, hst]

theorem preempt (h : BytesInv false s) (hinv : Inv True s) : BytesInv false s.preempt := by
  unfold Sys.preempt
  split
  next hsome =>
      obtain ⟨pr, hpr⟩ := Option.isSome_iff_exists.mp hsome
      obtain ⟨hcur, hstate⟩ := running_eq_some.mp hpr
      rw [Procs.setState_of hcur]
      exact h.setState hinv hcur (by simp [hstate]) (by simp [hstate]) (by simp) (by simp)
        s.procs.currentPID
  next => exact h

/-- A process appears, dies or disappears outside the pipe. -/
theorem outside (h : BytesInv false s) (hpipe : t.pipe.sem = s.pipe.sem)
    (hbuffer : t.pipe.buffer = s.pipe.buffer) (hstream : t.stream = s.stream)
    (hresults : t.results = s.results) (hother : ∀ q, q ≠ pid → t.procs.table q = s.procs.table q)
    (hs : ∀ pr, s.procs.table pid = some pr → pr.cont = .user)
    (ht : ∀ pr, t.procs.table pid = some pr → pr.cont = .user) : BytesInv false t := by
  have hnone : ∀ u : Sys, (∀ pr, u.procs.table pid = some pr → pr.cont = .user) →
      ∀ sh, Owns sh → ¬u.shape pid = some sh := by
    intro u hu sh ho hsh
    obtain ⟨pr, hpr, rfl⟩ := Option.map_eq_some_iff.mp hsh
    rw [hu pr hpr] at ho
    exact ho
  refine h.update hpipe hbuffer hstream hresults hother (h.clean.not_queued hs)
    (fun pr hpr _ ↦ ht pr hpr) fun sh ho ↦ ?_
  exact iff_of_false (hnone t ht sh ho) (hnone s hs sh ho)

/-- The list of write ends and their number are of no concern. -/
theorem setEnds (h : BytesInv writing s) (es : List (List Int)) (n : Int) :
    BytesInv writing { s with writeEnds := es, pipe := { s.pipe with writerCount := n } } :=
  ⟨⟨h.clean.queued, h.clean.zombie⟩, h.phase.congr rfl rfl rfl fun _ _ _ ↦ Iff.rfl, h.bytes⟩

end BytesInv

/-! ## Events -/

/-- No process inside the pipe is killed. -/
def Event.KillsOutside (s : Sys) : Event → Prop
  | .kill pid => ∀ pr, s.procs.table pid = some pr → pr.cont = .user
  | _ => True

/-- A property that does not depend on the write ends, and that posts to readers keep. -/
structure EndsRule (I : Sys → Prop) : Prop where
  post : ∀ u, Good True u → I u → I (u.post .dataAvailable)
  ends : ∀ u es n, I u →
    I { u with writeEnds := es, pipe := { u.pipe with writerCount := n } }

namespace EndsRule

variable {I : Sys → Prop}

/-- What holds of the pipe and of one process while write ends are closed. -/
theorem removePipeWriter (rule : EndsRule I) (pid : Int)
    (h : Good True s ∧ I s ∧ ∀ pr, s.procs.table pid = some pr → pr.cont = .user) :
    Good True (Sys.removePipeWriter s) ∧ I (Sys.removePipeWriter s) ∧
      ∀ pr, (Sys.removePipeWriter s).procs.table pid = some pr → pr.cont = .user := by
  refine removePipeWriter_rule (I := fun u ↦ Good True u ∧ I u ∧
    ∀ pr, u.procs.table pid = some pr → pr.cont = .user) (fun u hu ↦ ?_) ⟨?_, ?_, h.2.2⟩
  · refine ⟨hu.1.post (by decide), rule.post u hu.1 hu.2.1, fun pr hpr ↦ ?_⟩
    obtain ⟨pr', hpr', hcont, -⟩ := post_table hu.1 hpr
    rw [hcont]
    exact hu.2.2 pr' hpr'
  · exact h.1.congr rfl rfl rfl
  · exact rule.ends s s.writeEnds (s.pipe.writerCount - 1) h.2.1

/-- The running process closes a descriptor. -/
theorem closeFd (rule : EndsRule I) (hgood : Good True s) (hrun : s.Running) (h : I s) {i : Nat}
    (ht : Sys.closeFd s s.procs.currentPID i = some t) : I t := by
  obtain ⟨es, rfl | rfl⟩ := closeFd_cases ht
  · exact rule.ends s es s.pipe.writerCount h
  · refine (rule.removePipeWriter s.procs.currentPID (s := { s with writeEnds := es })
      ⟨hgood.congr rfl rfl rfl, rule.ends s es s.pipe.writerCount h, fun pr hpr ↦ ?_⟩).2.1
    rw [← Option.some.inj (hrun.symm.trans hpr)]

/-- A process that dies outside the pipe closes its descriptors first. -/
theorem kill (rule : EndsRule I) (hgood : Good True s) (h : I s)
    (hpid : ∀ pr, s.procs.table pid = some pr → pr.cont = .user) :
    ∃ u, I u ∧ (∀ pr, u.procs.table pid = some pr → pr.cont = .user) ∧
      closeAllFDs pid [] s.writeEnds s = u := by
  let J := fun u : Sys ↦ Good True u ∧ I u ∧ ∀ pr, u.procs.table pid = some pr → pr.cont = .user
  have hends : ∀ u es, J u → J { u with writeEnds := es } := fun u es hu ↦
    ⟨hu.1.congr rfl rfl rfl, rule.ends u es u.pipe.writerCount hu.2.1, hu.2.2⟩
  have hremove : ∀ u, J u → J (Sys.removePipeWriter u) := fun u hu ↦ rule.removePipeWriter pid hu
  have hrule : J (closeAllFDs pid [] s.writeEnds s) :=
    closeAllFDs_rule hends hremove [] s.writeEnds ⟨hgood, h, hpid⟩
  exact ⟨_, hrule.2.1, hrule.2.2, rfl⟩

end EndsRule

/-- A process that becomes a zombie is where it was. -/
theorem setState_cont {ps : Procs} {st : State} (h : (ps.setState pid st).table pid = some pr) :
    ∃ pr', ps.table pid = some pr' ∧ pr.cont = pr'.cont := by
  cases hpid : ps.table pid with
  | none =>
      simp only [Procs.setState, hpid] at h
      cases h
  | some pr' =>
      rw [Procs.setState_of hpid] at h
      obtain rfl := Option.some.inj ((Procs.set_self _ _ _).symm.trans h)
      exact ⟨pr', rfl, rfl⟩

theorem setState_other {ps : Procs} {st : State} (q : Int) (hq : q ≠ pid) :
    (ps.setState pid st).table q = ps.table q := by
  unfold Procs.setState
  split
  · exact Procs.set_other _ _ hq
  · rfl

theorem BytesInv.endsRule : EndsRule (BytesInv false) :=
  ⟨fun _ hgood h ↦ h.post_dataAvailable hgood, fun _ es n h ↦ h.setEnds es n⟩

/-- **Every event keeps the bytes**, unless it kills a process inside the pipe. -/
theorem bytesInv_step {e : Event} (h : BytesInv false s) (hinv : Inv True s)
    (hok : e.KillsOutside s) (ht : step s e = some t) : BytesInv false t := by
  cases hinv.step_outcome ht with
  | dispatch hpr hready =>
      exact (h.preempt hinv).setState hinv.preempt hpr (by simp [hready]) (by simp [hready])
        (by simp) (by simp) _
  | readNothing hrun => exact h.returnNothing 0
  | read hrun _ hout => exact h.read hinv hrun hout
  | @write buf _ hrun hholds hw =>
      have hcalls := h.setCalls (s.calls ++ [buf])
      exact ((BytesInv.rule _ _).write hinv hrun hholds hw (fun hpos ↦ hcalls.lock hpos)
        fun hneg ↦ hcalls.blockOn_writeMutex (hinv.setCalls _) hrun hneg _ _).2
  | resumeRead hpr hcont hout =>
      obtain ⟨hinv', hrun, -⟩ := hinv.resume hpr
      exact (h.resume_readData hinv hpr hcont).read hinv' hrun hout
  | resumeWrite hpr hcont hw =>
      exact ((BytesInv.rule _ _).resumeWrite hinv hpr hcont hw
        (h.resume_writeMutex hinv hpr hcont)).2
  | resumeSlot hpr hcont hw =>
      obtain ⟨-, hroom, hbyte⟩ := h.resume_writeSlot hinv hpr hcont
      exact ((BytesInv.rule _ _).resumeSlot hinv hpr hcont hw
        (fun cb _ hwf hcontents hsize ↦ hbyte cb _ hwf hcontents hsize)
        fun hfull ↦ absurd hfull hroom).2
  | create hrun hvalid hidle hfree =>
      refine h.outside rfl rfl rfl rfl (fun q hq ↦ Procs.set_other _ _ hq)
        (fun pr hpr ↦ ?_) fun pr hpr ↦ ?_
      · cases hfree.symm.trans hpr
      · obtain rfl := Option.some.inj ((Procs.set_self _ _ _).symm.trans hpr)
        rfl
  | reopen hrun hholds => exact h.setEnds _ _
  | close hrun hclose => exact BytesInv.endsRule.closeFd hinv.good hrun h hclose
  | kill hpr hlive =>
      obtain ⟨u, hu, huser, heq⟩ := BytesInv.endsRule.kill hinv.good h hok
      rw [heq]
      refine hu.outside rfl rfl rfl rfl setState_other huser fun pr' hpr' ↦ ?_
      obtain ⟨pr'', hpr'', hcont⟩ := setState_cont hpr'
      exact hcont.trans (huser pr'' hpr'')
  | reap hpr hdead =>
      refine h.outside rfl rfl rfl rfl (fun q hq ↦ if_neg hq) (fun pr' hpr' ↦ ?_) fun pr' hpr' ↦ ?_
      · refine h.clean.zombie _ pr' hpr' ?_
        rwa [← Option.some.inj (hpr.symm.trans hpr')]
      · simp at hpr'

/-- A pid that is free is not queued. -/
theorem BytesInv.fresh {e : Event} (h : BytesInv false s) (hinv : Inv True s)
    (ht : step s e = some t) : e.Fresh s := by
  cases hinv.step_outcome ht with
  | create hrun hvalid hidle hfree =>
      exact h.clean.not_queued fun pr hpr ↦ by cases hfree.symm.trans hpr
  | _ => trivial

end Sys

end BareBones.IPC
