import BareBones.IPC.PipeEof
import BareBones.IPC.PipeStream

/-!
# The order of the calls

`semPost` hands a semaphore to the process that has waited longest, and a process that
asks for it while others wait goes to the end of the queue.  So `writeMutex` serves the
calls of `pipeWrite` in the order in which they were made, whoever makes them, and the
stream is not only a sequence of whole calls but the calls in their order.

`Fifo` says this of a state: the calls are those that were *served* and those that *wait*
in the queue of `writeMutex`, in this order; the last one that was served is the one that
is being written, if any is.

**Key results.**

* `fifo_step`: every event keeps `Fifo`, unless it kills a process inside the pipe.
* `DeliveryInv.begins`: what reads have returned and the buffer holds is a beginning of all
  calls, one after the other.
* `fifo_delivered`: once a read has come to the end of the stream, the reads have returned
  all calls, one after the other.
-/

namespace BareBones.IPC.Sys

open BareBones.Lib BareBones.Process BareBones.Semaphores

variable {s t : Sys} {x : PipeSem} {pid : Int} {pr : Proc} {c : Cont} {cb : CircularBuffer}
  {i n : Nat} {buf : List UInt8} {cur : Option (Nat × List UInt8 × Nat)}

/-- The processes that wait for `writeMutex`. -/
def mutexQueue (s : Sys) : List Int := (s.pipe.sem .writeMutex).blockedQueue

/-- The write of `buf`, `n` bytes of which are done, is past the lock. -/
def AtWork (s : Sys) (cur : Option (Nat × List UInt8 × Nat)) (buf : List UInt8) (n : Nat) : Prop :=
  ∃ i, cur = some (i, buf, n) ∨ ∃ pid, pid ∉ s.mutexQueue ∧ s.progress pid = some (i, buf, n)

/-- **The calls are served in their order.**  Those that `waiting` lists are those that the
processes in the queue of the lock have made, in the order of the queue. -/
structure Fifo (cur : Option (Nat × List UInt8 × Nat)) (s : Sys)
    (served waiting : List (List UInt8)) : Prop where
  calls : s.calls = served ++ waiting
  queue : List.Forall₂ (fun pid buf ↦ ∃ i, s.progress pid = some (i, buf, 0)) s.mutexQueue waiting
  /-- The last call that was served is at work. -/
  work : ∀ buf n, s.AtWork cur buf n →
    ∃ before, served = before ++ [buf] ∧ s.stream.map Prod.snd = before.flatten ++ buf.take n
  /-- Nobody is at work. -/
  rest : (∀ buf n, ¬s.AtWork cur buf n) → s.stream.map Prod.snd = served.flatten

variable {served waiting : List (List UInt8)}

namespace Fifo

/-- The order of the calls depends on the queue of the lock and on the writers. -/
theorem congr (h : Fifo cur s served waiting) (hstream : t.stream = s.stream)
    (hcalls : t.calls = s.calls) (hqueue : t.mutexQueue = s.mutexQueue)
    (hprogress : t.progress = s.progress) : Fifo cur t served waiting := by
  have hwork : ∀ buf n, t.AtWork cur buf n ↔ s.AtWork cur buf n := by
    intro buf n
    rw [AtWork, AtWork, hqueue, hprogress]
  refine ⟨hcalls.trans h.calls, ?_, ?_, ?_⟩
  · rw [hqueue, hprogress]
    exact h.queue
  · intro buf n hat
    rw [hstream]
    exact h.work buf n ((hwork buf n).mp hat)
  · intro hno
    rw [hstream]
    exact h.rest fun buf n hat ↦ hno buf n ((hwork buf n).mpr hat)

/-- A post that is not one of the lock. -/
theorem post (h : Fifo cur s served waiting) (hgood : Good True s) (hx : x ≠ .writeMutex) :
    Fifo cur (s.post x) served waiting := by
  refine h.congr rfl rfl ?_ (progress_post hgood x)
  rw [mutexQueue, post_other s hx.symm, mutexQueue]

/-- Whatever has begun has nothing before it but served calls. -/
theorem begins (h : Fifo cur s served waiting) : s.stream.map Prod.snd <+: s.calls.flatten := by
  rw [h.calls, List.flatten_append]
  by_cases hwork : ∃ buf n, s.AtWork cur buf n
  · obtain ⟨buf, n, hat⟩ := hwork
    obtain ⟨before, rfl, hstream⟩ := h.work buf n hat
    rw [hstream, List.flatten_append, List.flatten_singleton, List.append_assoc]
    refine (List.prefix_append_right_inj _).mpr ?_
    exact .trans ⟨buf.drop n, List.take_append_drop n buf⟩ (List.prefix_append _ _)
  · rw [h.rest fun buf n hat ↦ hwork ⟨buf, n, hat⟩]
    exact List.prefix_append _ _

/-- With nobody inside a write, every call is served. -/
theorem complete (h : Fifo none s served waiting) (hno : ∀ pid, s.progress pid = none) :
    s.stream.map Prod.snd = s.calls.flatten := by
  have hwaiting : waiting = [] := by
    cases hw : waiting with
    | nil => rfl
    | cons buf rest =>
        have hqueue := h.queue
        rw [hw] at hqueue
        obtain ⟨pid, -, ⟨i, hpid⟩, -⟩ := List.forall₂_cons_right_iff.mp hqueue
        cases (hno pid).symm.trans hpid
  rw [h.rest, h.calls, hwaiting, List.append_nil]
  rintro buf n ⟨i, hcur | ⟨pid, -, hpid⟩⟩
  · cases hcur
  · cases (hno pid).symm.trans hpid

end Fifo

/-! ## Who is past the lock -/

/-- A process inside a write that is not queued for the lock is past it. -/
theorem owns_of_progress (hgood : Good True s) (hpid : s.procs.table pid = some pr)
    (hprogress : pr.cont.progress = some (i, buf, n)) (hqueue : pid ∉ s.mutexQueue) :
    Owns (pr.cont, decide (pr.state = .BLOCKED)) := by
  cases hcont : pr.cont with
  | writeMutex call buf' =>
      refine decide_eq_false fun hblocked ↦ hqueue ?_
      obtain ⟨x, hwaits, hmem⟩ := hgood.queued pid pr hpid hblocked
      rw [hcont] at hwaits
      obtain rfl := Option.some.inj hwaits
      exact hmem
  | writeSlot call buf' k => trivial
  | _ =>
      rw [hcont] at hprogress
      cases hprogress

/-- If nobody is past the lock, nobody is at work. -/
theorem not_atWork (hgood : Good True s) (hno : ∀ q sh, s.shape q = some sh → ¬Owns sh)
    (hqueue : pid ∉ s.mutexQueue) : s.progress pid = none := by
  cases hpid : s.procs.table pid with
  | none => rw [progress, hpid, Option.bind_none]
  | some pr =>
      rw [progress_of hpid]
      rcases hcont : pr.cont.progress with - | ⟨i, buf, n⟩
      · rfl
      · exact absurd (owns_of_progress hgood hpid hcont hqueue) (hno pid _ (shape_of hpid))

/-- The running process is not queued. -/
theorem running_not_mem (hgood : Good True s) (hpr : s.running = some pr) :
    s.procs.currentPID ∉ s.mutexQueue := by
  obtain ⟨hcur, hstate⟩ := running_eq_some.mp hpr
  intro hmem
  have := (hgood.waits trivial .writeMutex _ pr hmem hcur (by simp [hstate])).1
  rw [hstate] at this
  cases this

/-! ## Reads -/

namespace Fifo

/-- A read that finds data keeps the order. -/
theorem drained (h : Fifo cur s served waiting) (hinv : Inv True s) (hrun : s.Running)
    (count : Nat) : Fifo cur (s.drained count) served waiting := by
  have hdrain := (drainBuffer_spec
    (I := fun t ↦ (Inv True t ∧ t.Running) ∧ Fifo cur t served waiting)
    (fun t hI ↦ hI.1.1.good.buffer) (fun t cb b hI _ hwf _ hsize ↦ ?_) count ⟨⟨hinv, hrun⟩, h⟩).1
  · obtain ⟨⟨hinv', -⟩, hfifo⟩ := hdrain
    unfold Sys.drained
    dsimp only
    split
    · exact (hfifo.post hinv'.good (by decide)).congr rfl rfl rfl rfl
    · exact hfifo.congr rfl rfl rfl rfl
  · obtain ⟨⟨hinv', hrun'⟩, hfifo⟩ := hI
    have hset := hinv'.setBuffer hwf hsize
    refine ⟨⟨hset.post (by decide), hrun'.post hset.good _⟩, ?_⟩
    exact (hfifo.congr (t := t.setBuffer cb) rfl rfl rfl rfl).post hset.good (by decide)

/-- Reads keep the order. -/
theorem read (h : Fifo cur s served waiting) (hinv : Inv True s) (hrun : s.Running) {woken : Bool}
    {count : Nat} (hout : ReadOutcome woken s count t) : Fifo cur t served waiting := by
  cases hout with
  | eof _ _ => exact h.congr rfl rfl rfl rfl
  | taken _ _ hpos =>
      have htake := hinv.take (x := .dataAvailable) (by decide) hpos
      exact (h.congr (t := s.setSem .dataAvailable _) rfl rfl rfl rfl).drained htake hrun count
  | granted _ _ => exact h.drained hinv hrun count
  | block _ _ =>
      refine h.congr rfl rfl rfl (funext fun q ↦ ?_)
      refine (progress_set (s := s) rfl q).trans ?_
      split
      next heq => rw [heq, progress_of hrun]; rfl
      next => rfl

/-! ## Writes -/

/-- **A writer finds the lock free**: every call before it is served. -/
theorem lock (h : Fifo none s served waiting) (hphase : s.Phase false) (hgood : Good True s)
    (hpos : 0 < (s.pipe.sem .writeMutex).value) (buf : List UInt8) :
    Fifo (some (s.calls.length, buf, 0)) (({ s with calls := s.calls ++ [buf] } : Sys).setSem
      .writeMutex ⟨(s.pipe.sem .writeMutex).value - 1, []⟩) (s.calls ++ [buf]) [] := by
  have hidle : s.mutexQueue = [] ∧ ∀ q sh, s.shape q = some sh → ¬Owns sh := by
    cases hphase with
    | idle hm _ hno => exact ⟨by rw [mutexQueue, hm], hno⟩
    | entering qs _ _ _ hm | full qs _ _ _ _ hm | granted qs _ _ _ _ hm =>
        rw [hm, Sem.waiting_value] at hpos
        omega
  obtain ⟨hqueue, hno⟩ := hidle
  have hnone : ∀ pid, s.progress pid = none := fun pid ↦
    not_atWork hgood hno (by rw [hqueue]; exact List.not_mem_nil)
  have hstream := h.complete hnone
  refine ⟨(List.append_nil _).symm, .nil, ?_, fun hno' ↦ ?_⟩
  · rintro buf' n ⟨i, hcur | ⟨pid, -, hpid⟩⟩
    · cases hcur
      refine ⟨s.calls, rfl, ?_⟩
      rw [List.take_zero, List.append_nil]
      exact hstream
    · cases (hnone pid).symm.trans hpid
  · exact absurd ⟨_, .inl rfl⟩ (hno' buf 0)

/-- **A writer waits for the lock**, behind those who do already. -/
theorem wait (h : Fifo none s served waiting) (hgood : Good True s) (hrun : s.Running)
    (buf : List UInt8) :
    Fifo none (({ s with calls := s.calls ++ [buf] } : Sys).blockOn .writeMutex
      (.writeMutex s.calls.length buf)) served (waiting ++ [buf]) := by
  let u : Sys := { s with calls := s.calls ++ [buf] }
  have hfree : s.procs.currentPID ∉ s.mutexQueue := hgood.running_not_queued trivial hrun _
  have hqueue : (u.blockOn .writeMutex (.writeMutex s.calls.length buf)).mutexQueue =
      s.mutexQueue ++ [s.procs.currentPID] := by
    rw [mutexQueue, Sys.blockOn, setSem_self, Sem.waiting_queue]
    rfl
  have hprogress : ∀ q, (u.blockOn .writeMutex (.writeMutex s.calls.length buf)).progress q =
      if q = s.procs.currentPID then some (s.calls.length, buf, 0) else s.progress q := by
    intro q
    have htable : (u.blockOn .writeMutex (.writeMutex s.calls.length buf)).procs.table =
        (s.procs.set s.procs.currentPID ⟨.BLOCKED, .writeMutex s.calls.length buf⟩).table := rfl
    exact progress_set htable q
  have hother : ∀ q, q ∈ s.mutexQueue →
      (u.blockOn .writeMutex (.writeMutex s.calls.length buf)).progress q = s.progress q := by
    intro q hq
    rw [hprogress, if_neg]
    rintro rfl
    exact hfree hq
  have hwork : ∀ buf' n, (u.blockOn .writeMutex (.writeMutex s.calls.length buf)).AtWork none
      buf' n ↔ s.AtWork none buf' n := by
    intro buf' n
    refine exists_congr fun i ↦ or_congr_right (exists_congr fun q ↦ ?_)
    rw [hqueue, hprogress, List.mem_append, List.mem_singleton]
    by_cases heq : q = s.procs.currentPID
    · subst heq
      have hnone : s.progress s.procs.currentPID = none := progress_of hrun
      rw [hnone]
      constructor
      · rintro ⟨hnot, -⟩
        exact absurd (.inr rfl) hnot
      · rintro ⟨-, hsome⟩
        cases hsome
    · rw [if_neg heq]
      simp only [heq, or_false]
  refine ⟨?_, ?_, fun buf' n hat ↦ h.work buf' n ((hwork buf' n).mp hat),
    fun hno ↦ h.rest fun buf' n hat ↦ hno buf' n ((hwork buf' n).mpr hat)⟩
  · change s.calls ++ [buf] = _
    rw [h.calls, List.append_assoc]
  · rw [hqueue]
    refine List.rel_append ?_ (.cons ⟨_, by rw [hprogress, if_pos rfl]⟩ .nil)
    refine ((List.forall₂_and_left (p := (· ∈ s.mutexQueue)) _ _).mpr
      ⟨fun q hq ↦ hq, h.queue⟩).imp ?_
    rintro q buf' ⟨hmem, hq⟩
    rwa [hother q hmem]

/-- The running process is the only one at work. -/
theorem only (hgood : Good True s) (hno : ∀ q sh, s.shape q = some sh → ¬Owns sh)
    {buf' : List UInt8} {k : Nat} (hat : s.AtWork (some (i, buf, n)) buf' k) :
    buf = buf' ∧ n = k := by
  obtain ⟨j, hcur | ⟨pid, hqueue, hpid⟩⟩ := hat
  · simp only [Option.some.injEq, Prod.mk.injEq] at hcur
    exact hcur.2
  · cases (not_atWork hgood hno hqueue).symm.trans hpid

/-- **The running call writes its next byte.** -/
theorem written (h : Fifo (some (i, buf, n)) s served waiting) (hinv : Inv True s)
    (hno : ∀ q sh, s.shape q = some sh → ¬Owns sh) (hn : n < buf.length) (hcb : cb.Wf)
    (hsize : cb.maxSize = s.pipe.buffer.maxSize) :
    Fifo (some (i, buf, n + 1)) (s.written cb i (buf.getD n 0)) served waiting := by
  have hgood : Good True
      ({ s.setBuffer cb with stream := s.stream ++ [(i, buf.getD n 0)] } : Sys) :=
    (hinv.setBuffer hcb hsize).good.congr rfl rfl rfl
  have hfifo : Fifo (some (i, buf, n + 1))
      ({ s.setBuffer cb with stream := s.stream ++ [(i, buf.getD n 0)] } : Sys) served waiting := by
    refine ⟨h.calls, h.queue, fun buf' k hat ↦ ?_, fun hno' ↦ absurd ⟨i, .inl rfl⟩ (hno' _ _)⟩
    obtain ⟨rfl, rfl⟩ := only hinv.good hno (s := s) hat
    obtain ⟨before, hserved, hstream⟩ := h.work buf n ⟨i, .inl rfl⟩
    refine ⟨before, hserved, ?_⟩
    have htake : buf.take (n + 1) = buf.take n ++ [buf.getD n 0] := by
      rw [List.take_add_one, List.getElem?_eq_getElem hn]
      simp [List.getD_eq_getElem?_getD, hn]
    change (s.stream ++ [(i, buf.getD n 0)]).map Prod.snd = _
    rw [List.map_append, hstream, htake, List.append_assoc]
    rfl
  unfold Sys.written
  split
  · exact hfifo.post hgood (by decide)
  · exact hfifo

/-- The running call waits for a slot. -/
theorem waitSlot (h : Fifo (some (i, buf, n)) s served waiting) (hgood : Good True s)
    (hrun : s.Running) (hno : ∀ q sh, s.shape q = some sh → ¬Owns sh) :
    Fifo none (s.blockOn .freeSpaces (.writeSlot i buf n)) served waiting := by
  have hfree : s.procs.currentPID ∉ s.mutexQueue := hgood.running_not_queued trivial hrun _
  have hqueue : (s.blockOn .freeSpaces (.writeSlot i buf n)).mutexQueue = s.mutexQueue := by
    rw [mutexQueue, Sys.blockOn, setSem_other _ _ (by decide), mutexQueue]
  have hprogress : ∀ q, (s.blockOn .freeSpaces (.writeSlot i buf n)).progress q =
      if q = s.procs.currentPID then some (i, buf, n) else s.progress q := by
    intro q
    have htable : (s.blockOn .freeSpaces (.writeSlot i buf n)).procs.table =
        (s.procs.set s.procs.currentPID ⟨.BLOCKED, .writeSlot i buf n⟩).table := rfl
    exact progress_set htable q
  refine ⟨h.calls, ?_, fun buf' k hat ↦ ?_, fun hno' ↦ ?_⟩
  · rw [hqueue]
    refine ((List.forall₂_and_left (p := (· ∈ s.mutexQueue)) _ _).mpr
      ⟨fun q hq ↦ hq, h.queue⟩).imp ?_
    rintro q buf' ⟨hmem, hq⟩
    rw [hprogress, if_neg]
    · exact hq
    · rintro rfl
      exact hfree hmem
  · obtain ⟨j, hcur | ⟨q, hq, hpid⟩⟩ := hat
    · cases hcur
    · rw [hqueue] at hq
      rw [hprogress] at hpid
      split at hpid
      · simp only [Option.some.injEq, Prod.mk.injEq] at hpid
        obtain ⟨rfl, rfl, rfl⟩ := hpid
        exact h.work buf n ⟨i, .inl rfl⟩
      · cases (not_atWork hgood hno hq).symm.trans hpid
  · refine absurd ⟨i, .inr ⟨s.procs.currentPID, ?_, ?_⟩⟩ (hno' buf n)
    · rwa [hqueue]
    · rw [hprogress, if_pos rfl]

/-- **The running call returns**, and the one that has waited longest is served next. -/
theorem unlock (h : Fifo (some (i, buf, n)) s served waiting) (hclean : s.Clean)
    (hgood : Good True s) (hno : ∀ q sh, s.shape q = some sh → ¬Owns sh)
    (hn : ¬n < buf.length) :
    ∃ served' waiting', Fifo none (s.post .writeMutex) served' waiting' := by
  obtain ⟨before, rfl, hstream⟩ := h.work buf n ⟨i, .inl rfl⟩
  rw [List.take_of_length_le (by omega)] at hstream
  have hall : s.stream.map Prod.snd = (before ++ [buf]).flatten := by
    rw [hstream, List.flatten_append, List.flatten_singleton]
  have hprogress := progress_post hgood .writeMutex
  have hnone : ∀ {q}, q ∉ s.mutexQueue → s.progress q = none := not_atWork hgood hno
  rcases hclean.post_cases hgood .writeMutex with
    ⟨hnil, hpost⟩ | ⟨pid, rest, pr, hqueue, hpid, -, hwaits, hpost⟩
  · have hempty : (s.post .writeMutex).mutexQueue = [] := by rw [mutexQueue, hpost, setSem_self]
    have hwaiting : waiting = [] := by
      have hqueue := h.queue
      rw [mutexQueue, hnil] at hqueue
      cases hqueue
      rfl
    refine ⟨before ++ [buf], waiting, h.calls, ?_, fun buf' k hat ↦ ?_, fun _ ↦ hall⟩
    · rw [hempty, hwaiting]
      exact .nil
    · obtain ⟨j, hcur | ⟨q, -, hq⟩⟩ := hat
      · cases hcur
      · rw [hprogress, hnone (by rw [mutexQueue, hnil]; exact List.not_mem_nil)] at hq
        cases hq
  · have hrest : (s.post .writeMutex).mutexQueue = rest := by
      rw [mutexQueue, hpost, setSem_self, Sem.waiting_queue]
    have hlist := h.queue
    rw [mutexQueue, hqueue] at hlist
    obtain ⟨buf', waiting', ⟨j, hj⟩, htail, rfl⟩ := List.forall₂_cons_left_iff.mp hlist
    refine ⟨before ++ [buf] ++ [buf'], waiting', ?_, ?_, fun buf'' k hat ↦ ?_, fun hno' ↦ ?_⟩
    · refine h.calls.trans ?_
      rw [List.append_assoc (before ++ [buf])]
      rfl
    · rw [hrest, hprogress]
      exact htail
    · refine ⟨before ++ [buf], ?_⟩
      obtain ⟨j', hcur | ⟨q, hq, hq'⟩⟩ := hat
      · cases hcur
      · rw [hrest] at hq
        rw [hprogress] at hq'
        by_cases heq : q = pid
        · subst heq
          cases hj.symm.trans hq'
          refine ⟨rfl, ?_⟩
          rw [List.take_zero, List.append_nil]
          exact hall
        · rw [hnone] at hq'
          · cases hq'
          · rw [mutexQueue, hqueue, List.mem_cons]
            rintro (rfl | hmem)
            · exact heq rfl
            · exact hq hmem
    · refine absurd ⟨j, .inr ⟨pid, ?_, ?_⟩⟩ (hno' buf' 0)
      · rw [hrest]
        have hnodup := hgood.nodup trivial .writeMutex
        rw [hqueue] at hnodup
        exact (List.nodup_cons.mp hnodup).1
      · rw [hprogress]
        exact hj

end Fifo

/-! ## Events -/

/-- The calls are served in their order. -/
def Ordered (cur : Option (Nat × List UInt8 × Nat)) (s : Sys) : Prop :=
  ∃ served waiting, Fifo cur s served waiting

namespace Ordered

/-- **Writes keep the order.** -/
theorem rule (i : Nat) (buf : List UInt8) : WriteRule True i buf
    (fun n s ↦ StreamInv (some (i, buf, n)) s ∧ Ordered (some (i, buf, n)) s)
    fun s ↦ StreamInv none s ∧ Ordered none s where
  byte n s cb hinv hrun h hn hpos hroom hwf hcontents hsize := by
    obtain ⟨hstream, served, waiting, hfifo⟩ := h
    refine ⟨(StreamInv.rule i buf).byte n s cb hinv hrun hstream hn hpos hroom hwf hcontents hsize,
      served, waiting, ?_⟩
    have htake := hinv.take (x := .freeSpaces) (by decide) hpos
    have hsame : Fifo (some (i, buf, n)) (s.setSem .freeSpaces
        ⟨(s.pipe.sem .freeSpaces).value - 1, []⟩) served waiting := hfifo.congr rfl rfl rfl rfl
    exact hsame.written htake hstream.phase.not_owns hn hwf hsize
  full n s hinv _ h _ hpos hfull := absurd hfull (h.1.toBytes.not_full hinv hpos)
  block n s hinv hrun h hn hneg := by
    obtain ⟨hstream, served, waiting, hfifo⟩ := h
    refine ⟨(StreamInv.rule i buf).block n s hinv hrun hstream hn hneg, served, waiting, ?_⟩
    exact hfifo.waitSlot hinv.good hrun hstream.phase.not_owns
  done n s hinv hrun h hn := by
    obtain ⟨hstream, served, waiting, hfifo⟩ := h
    refine ⟨(StreamInv.rule i buf).done n s hinv hrun hstream hn, ?_⟩
    exact hfifo.unlock hstream.clean hinv.good hstream.phase.not_owns hn

/-- A writer that goes on is at work. -/
theorem resume (h : Ordered none s) (hinv : Inv True s) (hpr : s.running = some pr)
    (hno : ∀ q sh, (s.suspend .user).shape q = some sh → ¬Owns sh)
    (hcont : pr.cont.progress = some (i, buf, n)) :
    Ordered (some (i, buf, n)) (s.suspend .user) := by
  obtain ⟨served, waiting, hfifo⟩ := h
  have hcur := (running_eq_some.mp hpr).1
  have hfree := running_not_mem hinv.good hpr
  have hprogress := StreamInv.resume_progress hpr
  have hwork := hfifo.work buf n
    ⟨i, .inr ⟨_, hfree, (progress_of hcur).trans hcont⟩⟩
  refine ⟨served, waiting, hfifo.calls, ?_, fun buf' k hat ↦ ?_, fun hno' ↦ ?_⟩
  · refine ((List.forall₂_and_left (p := (· ∈ s.mutexQueue)) _ _).mpr
      ⟨fun q hq ↦ hq, hfifo.queue⟩).imp ?_
    rintro q buf' ⟨hmem, hq⟩
    rw [hprogress, if_neg]
    · exact hq
    · rintro rfl
      exact hfree hmem
  · obtain ⟨rfl, rfl⟩ := Fifo.only (hinv.resume hpr).1.good hno hat
    exact hwork
  · exact absurd ⟨i, .inl rfl⟩ (hno' buf n)

/-- The write ends are of no concern. -/
theorem endsRule : EndsRule (Ordered none) where
  post u hgood h := by
    obtain ⟨served, waiting, hfifo⟩ := h
    exact ⟨served, waiting, hfifo.post hgood (by decide)⟩
  ends u es n h := by
    obtain ⟨served, waiting, hfifo⟩ := h
    exact ⟨served, waiting, hfifo.congr rfl rfl rfl rfl⟩

/-- A process appears, dies or disappears outside the pipe. -/
theorem outside (h : Ordered none s) (pid : Int) (hpipe : t.pipe.sem = s.pipe.sem)
    (hstream : t.stream = s.stream) (hcalls : t.calls = s.calls)
    (hother : ∀ q, q ≠ pid → t.procs.table q = s.procs.table q)
    (hs : ∀ pr, s.procs.table pid = some pr → pr.cont = .user)
    (ht : ∀ pr, t.procs.table pid = some pr → pr.cont = .user) : Ordered none t := by
  obtain ⟨served, waiting, hfifo⟩ := h
  have hnone : ∀ u : Sys, (∀ pr, u.procs.table pid = some pr → pr.cont = .user) →
      u.progress pid = none := by
    intro u hu
    cases hpr : u.procs.table pid with
    | none => rw [progress, hpr, Option.bind_none]
    | some pr =>
        rw [progress_of hpr, hu pr hpr]
        rfl
  refine ⟨served, waiting, hfifo.congr hstream hcalls ?_ (funext fun q ↦ ?_)⟩
  · rw [mutexQueue, hpipe, mutexQueue]
  · by_cases heq : q = pid
    · rw [heq, hnone t ht, hnone s hs]
    · rw [progress, hother q heq, progress]

/-- A live process changes its state. -/
theorem setState (h : Ordered none s) {st : State} (hpid : s.procs.table pid = some pr) (q : Int) :
    Ordered none
      { s with procs := { s.procs.set pid { pr with state := st } with currentPID := q } } := by
  obtain ⟨served, waiting, hfifo⟩ := h
  exact ⟨served, waiting,
    hfifo.congr rfl rfl rfl (funext (StreamInv.progress_setState hpid q))⟩

theorem preempt (h : Ordered none s) : Ordered none s.preempt := by
  unfold Sys.preempt
  split
  next hsome =>
      obtain ⟨pr, hpr⟩ := Option.isSome_iff_exists.mp hsome
      have hcur := (running_eq_some.mp hpr).1
      rw [Procs.setState_of hcur]
      exact h.setState hcur s.procs.currentPID
  next => exact h

end Ordered

/-- **Every event keeps the order of the calls**, unless it kills a process inside the
pipe. -/
theorem fifo_step {e : Event} (h : StreamInv none s) (hord : Ordered none s) (hinv : Inv True s)
    (hok : e.KillsOutside s) (ht : step s e = some t) : Ordered none t := by
  obtain ⟨served, waiting, hfifo⟩ := hord
  have hord : Ordered none s := ⟨served, waiting, hfifo⟩
  cases hinv.step_outcome ht with
  | dispatch hpr hready => exact hord.preempt.setState hpr _
  | readNothing hrun => exact ⟨served, waiting, hfifo.congr rfl rfl rfl rfl⟩
  | read hrun _ hout => exact ⟨served, waiting, hfifo.read hinv hrun hout⟩
  | @write buf _ hrun hholds hw =>
      refine ((Ordered.rule _ _).write hinv hrun hholds hw (fun hpos ↦ ⟨?_, ?_⟩)
        fun hneg ↦ ⟨?_, ?_⟩).2.2
      · exact .of_bytes ((h.toBytes.setCalls _).lock hpos)
          ((h.calls.newCall _).congr rfl rfl rfl rfl)
      · exact ⟨_, _, hfifo.lock h.phase hinv.good hpos buf⟩
      · have hbytes := (h.toBytes.setCalls (s.calls ++ [buf])).blockOn_writeMutex
          (hinv.setCalls _) hrun hneg s.calls.length buf
        exact StreamInv.blockOn hbytes (h.calls.newCall _) hrun rfl
      · exact ⟨_, _, hfifo.wait hinv.good hrun buf⟩
  | resumeRead hpr hcont hout =>
      obtain ⟨hinv', hrun, -⟩ := hinv.resume hpr
      have hsame : Fifo none (s.suspend .user) served waiting := by
        refine hfifo.congr rfl rfl rfl (funext fun q ↦ ?_)
        rw [StreamInv.resume_progress hpr]
        split
        next heq => rw [heq, progress_of (running_eq_some.mp hpr).1, hcont]; rfl
        next => rfl
      exact ⟨served, waiting, hsame.read hinv' hrun hout⟩
  | resumeWrite hpr hcont hw =>
      have hbytes := h.toBytes.resume_writeMutex hinv hpr hcont
      refine ((Ordered.rule _ _).resumeWrite hinv hpr hcont hw ⟨?_, ?_⟩).2.2
      · exact .of_bytes hbytes (h.resume_calls hpr (by rw [hcont]; rfl))
      · exact hord.resume hinv hpr hbytes.phase.not_owns (by rw [hcont]; rfl)
  | @resumeSlot pr call buf n t hpr hcont hw =>
      obtain ⟨hn, hroom, hbyte⟩ := h.toBytes.resume_writeSlot hinv hpr hcont
      obtain ⟨-, -, -, hno⟩ := h.phase.resume_writeSlot hpr hcont
      refine ((Ordered.rule _ _).resumeSlot hinv hpr hcont hw
        (fun cb _ hwf hcontents hsize ↦ ⟨?_, ?_⟩) fun hfull ↦ absurd hfull hroom).2.2
      · exact StreamInv.written (hbyte cb _ hwf hcontents hsize)
          (h.resume_calls hpr (by rw [hcont]; rfl)) (StreamInv.waiting_zero hno)
          (hinv.resume hpr).1 hn hwf hsize
      · have hresume : Ordered (some (call, buf, n)) (s.suspend .user) :=
          hord.resume hinv hpr hno (by rw [hcont]; rfl)
        obtain ⟨served', waiting', hfifo'⟩ := hresume
        exact ⟨served', waiting', hfifo'.written (hinv.resume hpr).1 hno hn hwf hsize⟩
  | @create pid hrun hvalid hidle hfree =>
      refine hord.outside pid rfl rfl rfl (fun q hq ↦ Procs.set_other _ _ hq)
        (fun pr hpr ↦ ?_) fun pr hpr ↦ ?_
      · cases hfree.symm.trans hpr
      · obtain rfl := Option.some.inj ((Procs.set_self _ _ _).symm.trans hpr)
        rfl
  | reopen hrun hholds => exact Ordered.endsRule.ends s _ _ hord
  | close hrun hclose => exact Ordered.endsRule.closeFd hinv.good hrun hord hclose
  | @kill pid pr hpr hlive =>
      obtain ⟨u, hu, huser, heq⟩ := Ordered.endsRule.kill hinv.good hord hok
      rw [heq]
      refine hu.outside pid rfl rfl rfl setState_other huser fun pr' hpr' ↦ ?_
      obtain ⟨pr'', hpr'', hcont⟩ := setState_cont hpr'
      exact hcont.trans (huser pr'' hpr'')
  | @reap pid pr hpr hdead =>
      refine hord.outside pid rfl rfl rfl (fun q hq ↦ if_neg hq) (fun pr' hpr' ↦ ?_)
        fun pr' hpr' ↦ ?_
      · refine h.clean.zombie pid pr' hpr' ?_
        rwa [← Option.some.inj (hpr.symm.trans hpr')]
      · simp at hpr'

/-! ## The end of the stream -/

/-- The reads that have returned stay, and at most one more returns at a time. -/
theorem step_results {e : Event} (h : Inv True s) (ht : step s e = some t) :
    ∃ rs, t.results = s.results ++ rs ∧ rs.length ≤ 1 := by
  have hone : ∀ {r : ReadResult}, t.results = s.results ++ [r] →
      ∃ rs, t.results = s.results ++ rs ∧ rs.length ≤ 1 := fun {r} heq ↦ ⟨[r], heq, le_rfl⟩
  have hsame : t.results = s.results → ∃ rs, t.results = s.results ++ rs ∧ rs.length ≤ 1 :=
    fun heq ↦ ⟨[], heq.trans (List.append_nil _).symm, Nat.zero_le 1⟩
  have hread : ∀ {u : Sys} {woken : Bool} {count : Nat}, Inv True u → u.Running →
      u.results = s.results → ReadOutcome woken u count t →
      ∃ rs, t.results = s.results ++ rs ∧ rs.length ≤ 1 := by
    intro u woken count hinv hrun heq hout
    rw [← heq] at hone hsame ⊢
    cases hout with
    | eof _ _ => exact hone rfl
    | taken _ _ hpos => exact hone ((hinv.take (by decide) hpos).drained_result hrun count).2.2.2.1
    | granted _ _ => exact hone (hinv.drained_result hrun count).2.2.2.1
    | block _ _ => exact hsame rfl
  cases h.step_outcome ht with
  | dispatch hpr hready =>
      refine hsame ?_
      unfold Sys.preempt
      split <;> rfl
  | readNothing hrun => exact hone rfl
  | read hrun _ hout => exact hread h hrun rfl hout
  | write hrun hholds hw =>
      exact hsame ((Outcome.write hrun hholds hw).write_frame h (.inl ⟨_, rfl⟩)).2
  | resumeRead hpr hcont hout =>
      obtain ⟨hinv, hrun, -⟩ := h.resume hpr
      exact hread hinv hrun rfl hout
  | resumeWrite hpr hcont hw =>
      exact hsame ((Outcome.resumeWrite hpr hcont hw).write_frame h
        (.inr ⟨_, hpr, by rw [hcont]; trivial, rfl⟩)).2
  | resumeSlot hpr hcont hw =>
      exact hsame ((Outcome.resumeSlot hpr hcont hw).write_frame h
        (.inr ⟨_, hpr, by rw [hcont]; trivial, rfl⟩)).2
  | create hrun hvalid hidle hfree => exact hsame rfl
  | reopen hrun hholds => exact hsame rfl
  | close hrun hclose =>
      obtain ⟨es, rfl | rfl⟩ := closeFd_cases hclose
      · exact hsame rfl
      · exact hsame (removePipeWriter_results _)
  | @kill pid _ hpr hlive =>
      have hrule : (closeAllFDs pid [] s.writeEnds s).results = s.results :=
        closeAllFDs_rule (I := fun u ↦ u.results = s.results)
          (fun _ _ hu ↦ hu) (fun u hu ↦ (removePipeWriter_results u).trans hu) [] s.writeEnds rfl
      exact hsame hrule
  | reap hpr hdead => exact hsame rfl

/-- A read that was asked for something has returned nothing. -/
def EofSeen (s : Sys) : Prop := ∃ r ∈ s.results, 0 < r.count ∧ r.bytes = []

/-- The pipe is empty, and nobody can write to it. -/
def Exhausted (s : Sys) : Prop := s.pipe.buffer.contents = [] ∧ s.pipe.writerCount = 0

/-- An exhausted pipe stays so. -/
theorem Exhausted.step {e : Event} (h : s.Exhausted) (heof : EofInv s)
    (ht : Sys.step s e = some t) : t.Exhausted := by
  have hclosed : s.pipe.writerCount ≤ 0 := h.2.le
  obtain ⟨-, hwriters, rs, -, hdrains⟩ := closed_step heof.inv hclosed (heof.drainable hclosed) ht
  refine ⟨?_, hwriters.trans h.2⟩
  have hflat := hdrains.flatMap
  rw [h.1] at hflat
  exact (List.append_eq_nil_iff.mp hflat).2

/-- **Once the end has been seen, it is there.** -/
theorem eofSeen_step {e : Event} (h : s.EofSeen → s.Exhausted) (hinv : Inv True s)
    (heof : EofInv s) (ht : Sys.step s e = some t) : t.EofSeen → t.Exhausted := by
  rintro ⟨r, hr, hcount, hnil⟩
  obtain ⟨rs, hrs, -⟩ := step_results hinv ht
  rw [hrs, List.mem_append] at hr
  rcases hr with hr | hr
  · exact (h ⟨r, hr, hcount, hnil⟩).step heof ht
  · have hdrop : r ∈ t.results.drop s.results.length := by rwa [hrs, List.drop_left]
    have hexhausted : s.Exhausted := step_sound hinv ht hdrop hcount hnil
    exact hexhausted.step heof ht

/-! ## Runs -/

/-- What a run keeps in which nobody is killed inside the pipe. -/
structure DeliveryInv (s : Sys) : Prop where
  inv : Inv True s
  stream : StreamInv none s
  eof : EofInv s
  order : Ordered none s
  seen : s.EofSeen → s.Exhausted

theorem DeliveryInv.step {e : Event} (h : DeliveryInv s) (hok : e.KillsOutside s)
    (ht : Sys.step s e = some t) : DeliveryInv t where
  inv := inv_step h.inv (fun _ ↦ h.stream.toBytes.fresh h.inv ht) ht
  stream := streamInv_step h.stream h.inv hok ht
  eof := h.eof.step ht
  order := fifo_step h.stream h.order h.inv hok ht
  seen := eofSeen_step h.seen h.inv h.eof ht

theorem ordered_init (data : Nat → UInt8) (creator : Int) : Ordered none (init data creator) := by
  refine ⟨[], [], rfl, .nil, fun buf n hat ↦ ?_, fun _ ↦ rfl⟩
  obtain ⟨i, hcur | ⟨pid, -, hpid⟩⟩ := hat
  · cases hcur
  · have hnone : (init data creator).progress pid = none := by
      simp only [progress, init]
      split <;> rfl
    cases hnone.symm.trans hpid

theorem deliveryInv_reach {data : Nat → UInt8} {creator : Int} (hvalid : ¬invalidPID creator)
    (hidle : creator ≠ IDLE_PID)
    (hreach : Reach Sys.step (fun s e ↦ e.KillsOutside s) (init data creator) s) :
    DeliveryInv s := by
  have hstart : Reach Sys.step (fun _ _ ↦ True) (init data creator) (init data creator) := .refl
  refine hreach.invariant ⟨inv_init data hvalid hidle, streamInv_init data creator,
    eofInv_reach hvalid hidle hstart, ordered_init data creator, ?_⟩
    fun u e v h hok hv ↦ h.step hok hv
  rintro ⟨r, hr, -⟩
  cases hr

namespace DeliveryInv

/-- What has been read and what is in the buffer are a beginning of the calls. -/
theorem begins (h : DeliveryInv s) :
    s.results.flatMap (·.bytes) ++ s.pipe.buffer.contents <+: s.calls.flatten := by
  obtain ⟨served, waiting, hfifo⟩ := h.order
  rw [h.stream.bytes]
  exact hfifo.begins

/-- With nobody inside a write they are all of the calls. -/
theorem whole (h : DeliveryInv s) (hno : ∀ pid, s.progress pid = none) :
    s.results.flatMap (·.bytes) ++ s.pipe.buffer.contents = s.calls.flatten := by
  obtain ⟨served, waiting, hfifo⟩ := h.order
  rw [h.stream.bytes]
  exact hfifo.complete hno

/-- Without writers nobody is inside a write. -/
theorem no_writer (h : DeliveryInv s) (hclosed : s.pipe.writerCount = 0) (pid : Int) :
    s.progress pid = none := by
  cases hpid : s.procs.table pid with
  | none => rw [progress, hpid, Option.bind_none]
  | some pr =>
      rw [progress_of hpid]
      have hnot : ¬pr.cont.Writing := by
        intro hw
        by_cases hdead : pr.state = .ZOMBIE
        · rw [h.stream.clean.zombie pid pr hpid hdead] at hw
          exact hw
        · have := h.inv.ends.writers (h.inv.holding pid pr trivial hpid hdead hw)
          omega
      cases hcont : pr.cont with
      | writeMutex _ _ | writeSlot _ _ _ =>
          rw [hcont] at hnot
          exact absurd trivial hnot
      | _ => rfl

/-- **At the end of the stream everything has been delivered.** -/
theorem delivered (h : DeliveryInv s) (hseen : s.EofSeen) :
    s.results.flatMap (·.bytes) = s.calls.flatten := by
  obtain ⟨hempty, hclosed⟩ := h.seen hseen
  have hwhole := h.whole (h.no_writer hclosed)
  rwa [hempty, List.append_nil] at hwhole

end DeliveryInv

/-- **Delivery.**  In every run in which no process inside the pipe is killed and everyone who
blocks gets its node, however many processes write and read: what the reads have returned, followed
by what is in the buffer, is a beginning of all buffers that were passed to `pipeWrite`, in the
order of the calls; it is all of them if nobody is inside a write; and if some read came to the end
of the stream, the reads alone have returned all of them, and no later read returns anything. -/
theorem fifo_delivered (data : Nat → UInt8) {creator : Int} (hvalid : ¬invalidPID creator)
    (hidle : creator ≠ IDLE_PID)
    (hreach : Reach stepOn (fun s x ↦ x.1.KillsOutside s ∧ x.2 = true) (init data creator) s) :
    s.results.flatMap (·.bytes) ++ s.pipe.buffer.contents <+: s.calls.flatten ∧
    ((∀ pid pr, s.procs.table pid = some pr → pr.cont.progress = none) →
      s.results.flatMap (·.bytes) ++ s.pipe.buffer.contents = s.calls.flatten) ∧
    (∀ r ∈ s.results, 0 < r.count → r.bytes = [] →
      s.results.flatMap (·.bytes) = s.calls.flatten ∧
      ∀ t, Reach stepOn (fun s x ↦ x.1.KillsOutside s ∧ x.2 = true) s t →
        ∃ rs, t.results = s.results ++ rs ∧ ∀ r ∈ rs, r.bytes = []) := by
  have h := deliveryInv_reach hvalid hidle (reach_of_nodes (inv_init data hvalid hidle) hreach)
  refine ⟨h.begins, fun hno ↦ h.whole fun pid ↦ ?_, fun r hr hcount hnil ↦ ⟨?_, fun t ht ↦ ?_⟩⟩
  · cases hpid : s.procs.table pid with
    | none => rw [progress, hpid, Option.bind_none]
    | some pr => rw [progress_of hpid, hno pid pr hpid]
  · exact h.delivered ⟨r, hr, hcount, hnil⟩
  · obtain ⟨hempty, hclosed⟩ := h.seen ⟨r, hr, hcount, hnil⟩
    obtain ⟨-, -, rs, hrs, hdrains⟩ := h.eof.reach hclosed.le (reach_of_nodes h.eof.inv ht)
    have hflat := hdrains.flatMap
    rw [hempty] at hflat
    exact ⟨rs, hrs, List.flatMap_eq_nil_iff.mp (List.append_eq_nil_iff.mp hflat).1⟩

/-- Two writers, the second of which waits until the first has written more than the buffer
holds, and a reader. -/
theorem fifo_delivered_two : ∃ s : Sys, (s.calls = [List.replicate 1030 7, [1, 2]] ∧
      s.results.map (·.bytes.length) = [1024, 8, 0]) ∧
    s.results.flatMap (·.bytes) ++ s.pipe.buffer.contents <+: s.calls.flatten ∧
    ((∀ pid pr, s.procs.table pid = some pr → pr.cont.progress = none) →
      s.results.flatMap (·.bytes) ++ s.pipe.buffer.contents = s.calls.flatten) ∧
    (∀ r ∈ s.results, 0 < r.count → r.bytes = [] →
      s.results.flatMap (·.bytes) = s.calls.flatten ∧
      ∀ t, Reach stepOn (fun s x ↦ x.1.KillsOutside s ∧ x.2 = true) s t →
        ∃ rs, t.results = s.results ++ rs ∧ ∀ r ∈ rs, r.bytes = []) := by
  let es : List (Event × Bool) := [(.create 3, true), (.create 4, true),
    (.write (List.replicate 1030 7), true), (.dispatch 3, true), (.write [1, 2], true),
    (.dispatch 4, true), (.close 0, true), (.read 2000, true), (.dispatch 2, true),
    (.resume, true), (.close 0, true), (.dispatch 3, true), (.resume, true), (.close 0, true),
    (.dispatch 4, true), (.read 2000, true), (.read 5, true)]
  have hrun : (run stepOn (init (fun _ ↦ 0) 2) es).map (fun s : Sys ↦
      decide (s.calls = [List.replicate 1030 7, [1, 2]] ∧
        s.results.map (·.bytes.length) = [1024, 8, 0])) = some true := by decide +kernel
  have hguard : Guarded stepOn (fun s x ↦ x.1.KillsOutside s ∧ x.2 = true)
      (init (fun _ ↦ 0) 2) es := by
    decide +kernel
  obtain ⟨s, hrun, hobs⟩ := Option.map_eq_some_iff.mp hrun
  exact ⟨s, of_decide_eq_true hobs, fifo_delivered _ (by decide) (by decide)
    (.of_run hrun hguard)⟩

end BareBones.IPC.Sys
