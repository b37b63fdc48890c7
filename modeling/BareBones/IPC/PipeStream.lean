import BareBones.IPC.PipeBytes

/-!
# The stream

Every call of `pipeWrite` has a number, and every byte that is written carries the
number of its call.  `Tail` says where a call that is not done stands: its bytes so far
are the last ones in the stream, or it has written none.  From this the segments of all
calls follow (`CallInv`), and with the slots of `Phase` and the bytes that have been
read they make up the invariant of the stream, `StreamInv`.
-/

namespace BareBones.IPC

open BareBones.Lib BareBones.Process BareBones.Semaphores

/-- The call, its buffer, and how many bytes of it are written. -/
def Cont.progress : Cont → Option (Nat × List UInt8 × Nat)
  | .writeMutex call buf => some (call, buf, 0)
  | .writeSlot call buf n => some (call, buf, n)
  | _ => none

namespace Sys

variable {s t : Sys} {x y : PipeSem} {pid p q : Int} {pr : Proc} {c : Cont} {m : Sem}
  {cb : CircularBuffer} {i n : Nat} {buf : List UInt8} {cur : Option (Nat × List UInt8 × Nat)}

/-- Where a process stands in its write. -/
def progress (s : Sys) (pid : Int) : Option (Nat × List UInt8 × Nat) :=
  (s.procs.table pid).bind fun pr ↦ pr.cont.progress

theorem progress_of (h : s.procs.table pid = some pr) : s.progress pid = pr.cont.progress := by
  rw [progress, h, Option.bind_some]

theorem progress_set (hprocs : t.procs.table = (s.procs.set pid pr).table) (q : Int) :
    t.progress q = if q = pid then pr.cont.progress else s.progress q := by
  rw [progress, hprocs]
  split
  next heq => rw [heq, Procs.set_self, Option.bind_some]
  next hne => rw [Procs.set_other _ _ hne, progress]

theorem progress_post (h : Good True s) (x : PipeSem) : (s.post x).progress = s.progress := by
  funext q
  rcases post_spec (h.wf x) h.valid with ⟨dead, pid, rest, pr, -, -, hpid, -, hpost⟩ | ⟨-, hpost⟩
  · rw [hpost]
    refine (progress_set (s := s) rfl q).trans ?_
    split
    next heq => rw [heq, progress_of hpid]
    next => rfl
  · rw [hpost]
    rfl

/-! ## Calls -/

/-- The call has written `n` bytes, and nobody has written since it began to. -/
structure Tail (s : Sys) (i : Nat) (buf : List UInt8) (n : Nat) : Prop where
  call : s.calls[i]? = some buf
  le : n ≤ buf.length
  last : ∃ before, s.stream = before ++ (buf.take n).map (i, ·) ∧ ∀ b ∈ before, b.1 ≠ i

/-- The call has written `n` bytes, in one piece. -/
def Segment (s : Sys) (i : Nat) (buf : List UInt8) (n : Nat) : Prop :=
  ∃ before after, s.stream = before ++ (buf.take n).map (i, ·) ++ after ∧
    ∀ b ∈ before ++ after, b.1 ≠ i

/-- The invariant of the calls; `cur` is the one on the processor. -/
structure CallInv (cur : Option (Nat × List UInt8 × Nat)) (s : Sys) : Prop where
  fullWrites : s.fullWrites = 0
  known : ∀ b ∈ s.stream, b.1 < s.calls.length
  waiting : ∀ pid i buf n, s.progress pid = some (i, buf, n) → Tail s i buf n
  running : ∀ i buf n, cur = some (i, buf, n) →
    Tail s i buf n ∧ ∀ pid buf' n', s.progress pid ≠ some (i, buf', n')
  distinct : ∀ p q i buf n buf' n', s.progress p = some (i, buf, n) →
    s.progress q = some (i, buf', n') → p = q
  /-- A call that has not written everything is still at it. -/
  segments : ∀ i buf, s.calls[i]? = some buf → ∃ n, Segment s i buf n ∧
    (n = buf.length ∨ (∃ pid, s.progress pid = some (i, buf, n)) ∨ cur = some (i, buf, n))

namespace CallInv

theorem congr (h : CallInv cur s) (hstream : t.stream = s.stream) (hcalls : t.calls = s.calls)
    (hfull : t.fullWrites = s.fullWrites) (hprogress : t.progress = s.progress) :
    CallInv cur t := by
  have htail : ∀ {i buf n}, Tail s i buf n → Tail t i buf n :=
    fun ht ↦ ⟨hcalls ▸ ht.call, ht.le, hstream ▸ ht.last⟩
  refine ⟨hfull ▸ h.fullWrites, by rw [hstream, hcalls]; exact h.known, ?_, ?_, ?_, ?_⟩
  · intro pid i buf n hp
    rw [hprogress] at hp
    exact htail (h.waiting pid i buf n hp)
  · intro i buf n hcur
    rw [hprogress]
    exact (h.running i buf n hcur).imp_left htail
  · rw [hprogress]
    exact h.distinct
  · intro i buf hi
    rw [hcalls] at hi
    rw [hprogress]
    obtain ⟨n, hseg, hor⟩ := h.segments i buf hi
    exact ⟨n, by rw [Segment, hstream]; exact hseg, hor⟩

/-- A new call begins. -/
theorem newCall (h : CallInv none s) (buf : List UInt8) :
    CallInv (some (s.calls.length, buf, 0)) { s with calls := s.calls ++ [buf] } := by
  have hold : ∀ {i buf'}, s.calls[i]? = some buf' → (s.calls ++ [buf])[i]? = some buf' :=
    fun hi ↦ by
      rw [List.getElem?_append_left (List.getElem?_eq_some_iff.mp hi).1]
      exact hi
  have hfresh : ∀ b ∈ s.stream, b.1 ≠ s.calls.length := fun b hb ↦ Nat.ne_of_lt (h.known b hb)
  refine ⟨h.fullWrites, fun b hb ↦ ?_, fun pid i buf' n hp ↦ ?_, ?_, h.distinct,
    fun i buf' hi ↦ ?_⟩
  · have := h.known b hb
    simp only [List.length_append, List.length_singleton]
    omega
  · have ht := h.waiting pid i buf' n hp
    exact ⟨hold ht.call, ht.le, ht.last⟩
  · rintro i buf' n ⟨⟩
    refine ⟨⟨by simp, Nat.zero_le _, s.stream, by simp, hfresh⟩, fun pid buf' n' hp ↦ ?_⟩
    have hlt := (List.getElem?_eq_some_iff.mp (h.waiting pid _ buf' n' hp).call).1
    exact lt_irrefl _ hlt
  · by_cases hlt : i < s.calls.length
    · have hi' : s.calls[i]? = some buf' := by
        rw [← hi]
        exact (List.getElem?_append_left hlt).symm
      obtain ⟨n, hseg, hor⟩ := h.segments i buf' hi'
      exact ⟨n, hseg, hor.imp_right fun hor ↦ .inl (hor.resolve_right nofun)⟩
    · have hi' : i = s.calls.length ∧ buf' = buf := by
        have hlen := (List.getElem?_eq_some_iff.mp hi).1
        simp only [List.length_append, List.length_singleton] at hlen
        obtain rfl : i = s.calls.length := by omega
        simpa [eq_comm] using hi
      obtain ⟨rfl, rfl⟩ := hi'
      exact ⟨0, ⟨s.stream, [], by simp, by simpa using fun a b hb ↦ hfresh (a, b) hb⟩,
        .inr (.inr rfl)⟩

/-- **The running call writes its next byte**, while the other calls wait to begin. -/
theorem byte (h : CallInv (some (i, buf, n)) s) (hn : n < buf.length)
    (hzero : ∀ pid j buf' k, s.progress pid = some (j, buf', k) → k = 0)
    (hstream : t.stream = s.stream ++ [(i, buf.getD n 0)]) (hcalls : t.calls = s.calls)
    (hfull : t.fullWrites = s.fullWrites) (hprogress : t.progress = s.progress) :
    CallInv (some (i, buf, n + 1)) t := by
  obtain ⟨⟨hcall, -, before, hlast, hbefore⟩, hother⟩ := h.running i buf n rfl
  have htake : (buf.take (n + 1)).map (i, ·) = (buf.take n).map (i, ·) ++ [(i, buf.getD n 0)] := by
    rw [List.take_add_one, List.getElem?_eq_getElem hn, List.map_append]
    simp [List.getD_eq_getElem?_getD, hn]
  have hnew : t.stream = before ++ (buf.take (n + 1)).map (i, ·) := by
    rw [hstream, hlast, htake, List.append_assoc]
  refine ⟨hfull ▸ h.fullWrites, fun b hb ↦ ?_, fun pid j buf' k hp ↦ ?_, ?_,
    by rw [hprogress]; exact h.distinct, fun j buf' hj ↦ ?_⟩
  · rw [hstream, List.mem_append, List.mem_singleton] at hb
    rw [hcalls]
    rcases hb with hb | rfl
    · exact h.known b hb
    · exact (List.getElem?_eq_some_iff.mp hcall).1
  · rw [hprogress] at hp
    obtain rfl := hzero pid j buf' k hp
    obtain ⟨hcall', hle, all, hall, hids⟩ := h.waiting pid j buf' 0 hp
    refine ⟨hcalls ▸ hcall', hle, t.stream, by simp, fun b hb ↦ ?_⟩
    rw [hstream, List.mem_append, List.mem_singleton] at hb
    rcases hb with hb | rfl
    · exact hids b (by simpa [hall] using hb)
    · rintro rfl
      exact hother pid buf' 0 hp
  · rintro _ _ _ ⟨⟩
    exact ⟨⟨hcalls ▸ hcall, hn, before, hnew, hbefore⟩, by rw [hprogress]; exact hother⟩
  · rw [hcalls] at hj
    by_cases hji : j = i
    · subst hji
      obtain rfl := Option.some.inj (hcall.symm.trans hj)
      exact ⟨n + 1, ⟨before, [], by simpa using hnew,
        by simpa using fun a b hb ↦ hbefore (a, b) hb⟩, .inr (.inr rfl)⟩
    · obtain ⟨k, ⟨before', after, hseg, hids⟩, hor⟩ := h.segments j buf' hj
      refine ⟨k, ⟨before', after ++ [(i, buf.getD n 0)], ?_, fun b hb ↦ ?_⟩, ?_⟩
      · rw [hstream, hseg, List.append_assoc (before' ++ _)]
      · rw [← List.append_assoc, List.mem_append, List.mem_singleton] at hb
        rcases hb with hb | rfl
        · exact hids b hb
        · exact fun heq ↦ hji heq.symm
      · rw [hprogress]
        refine hor.imp_right (Or.imp_right fun hcur ↦ ?_)
        cases hcur
        exact absurd rfl hji

/-- The running call stops in a wait. -/
theorem suspend (h : CallInv (some (i, buf, n)) s) (hstream : t.stream = s.stream)
    (hcalls : t.calls = s.calls) (hfull : t.fullWrites = s.fullWrites)
    (hfree : s.progress pid = none)
    (hprogress : ∀ q, t.progress q = if q = pid then some (i, buf, n) else s.progress q) :
    CallInv none t := by
  obtain ⟨htail, hother⟩ := h.running i buf n rfl
  have hcongr : ∀ {j buf' k}, Tail s j buf' k → Tail t j buf' k :=
    fun ht ↦ ⟨hcalls ▸ ht.call, ht.le, hstream ▸ ht.last⟩
  have hself : ∀ {j buf' k}, t.progress pid = some (j, buf', k) → i = j ∧ buf = buf' ∧ n = k :=
    fun hp ↦ by simpa using (hprogress pid).symm.trans hp
  have hrest : ∀ {q}, q ≠ pid → t.progress q = s.progress q := fun hq ↦ by rw [hprogress, if_neg hq]
  refine ⟨hfull ▸ h.fullWrites, by rw [hstream, hcalls]; exact h.known, ?_, nofun, ?_, ?_⟩
  · intro q j buf' k hq
    by_cases heq : q = pid
    · subst heq
      obtain ⟨rfl, rfl, rfl⟩ := hself hq
      exact hcongr htail
    · exact hcongr (h.waiting q j buf' k ((hrest heq).symm.trans hq))
  · intro p q j buf₁ n₁ buf₂ n₂ hp hq
    by_cases hpp : p = pid <;> by_cases hqp : q = pid
    · rw [hpp, hqp]
    · subst hpp
      obtain ⟨rfl, -, -⟩ := hself hp
      exact absurd ((hrest hqp).symm.trans hq) (hother q buf₂ n₂)
    · subst hqp
      obtain ⟨rfl, -, -⟩ := hself hq
      exact absurd ((hrest hpp).symm.trans hp) (hother p buf₁ n₁)
    · exact h.distinct p q j buf₁ n₁ buf₂ n₂ ((hrest hpp).symm.trans hp) ((hrest hqp).symm.trans hq)
  · intro j buf' hj
    rw [hcalls] at hj
    obtain ⟨k, hseg, hor⟩ := h.segments j buf' hj
    refine ⟨k, by rw [Segment, hstream]; exact hseg, hor.imp_right fun hor ↦ .inl ?_⟩
    rcases hor with ⟨q, hq⟩ | hcur
    · refine ⟨q, ?_⟩
      rwa [hrest]
      rintro rfl
      rw [hfree] at hq
      cases hq
    · exact ⟨pid, by rw [hprogress, if_pos rfl, ← hcur]⟩

/-- A call goes on. -/
theorem resume (h : CallInv none s) (hstream : t.stream = s.stream)
    (hcalls : t.calls = s.calls) (hfull : t.fullWrites = s.fullWrites)
    (hpid : s.progress pid = some (i, buf, n))
    (hprogress : ∀ q, t.progress q = if q = pid then none else s.progress q) :
    CallInv (some (i, buf, n)) t := by
  have hcongr : ∀ {j buf' k}, Tail s j buf' k → Tail t j buf' k :=
    fun ht ↦ ⟨hcalls ▸ ht.call, ht.le, hstream ▸ ht.last⟩
  have hrest : ∀ {q j buf' k}, t.progress q = some (j, buf', k) →
      q ≠ pid ∧ s.progress q = some (j, buf', k) := fun {q _ _ _} hq ↦ by
    rw [hprogress] at hq
    by_cases heq : q = pid
    · rw [if_pos heq] at hq
      cases hq
    · rw [if_neg heq] at hq
      exact ⟨heq, hq⟩
  refine ⟨hfull ▸ h.fullWrites, by rw [hstream, hcalls]; exact h.known, ?_, ?_, ?_, ?_⟩
  · intro q j buf' k hq
    exact hcongr (h.waiting q j buf' k (hrest hq).2)
  · rintro _ _ _ ⟨⟩
    refine ⟨hcongr (h.waiting pid i buf n hpid), fun q buf' k hq ↦ ?_⟩
    exact (hrest hq).1 (h.distinct q pid i buf' k buf n (hrest hq).2 hpid)
  · intro p q j buf₁ n₁ buf₂ n₂ hp hq
    exact h.distinct p q j buf₁ n₁ buf₂ n₂ (hrest hp).2 (hrest hq).2
  · intro j buf' hj
    rw [hcalls] at hj
    obtain ⟨k, hseg, hor⟩ := h.segments j buf' hj
    refine ⟨k, by rw [Segment, hstream]; exact hseg, hor.imp_right fun hor ↦ ?_⟩
    obtain ⟨q, hq⟩ := hor.resolve_right nofun
    by_cases heq : q = pid
    · subst heq
      exact .inr (hpid.symm.trans hq)
    · exact .inl ⟨q, by rw [hprogress, if_neg heq, hq]⟩

/-- The running call returns. -/
theorem done (h : CallInv (some (i, buf, n)) s) (hn : ¬n < buf.length)
    (hstream : t.stream = s.stream) (hcalls : t.calls = s.calls)
    (hfull : t.fullWrites = s.fullWrites) (hprogress : t.progress = s.progress) :
    CallInv none t := by
  have h' := h.congr hstream hcalls hfull hprogress
  refine ⟨h'.fullWrites, h'.known, h'.waiting, nofun, h'.distinct, fun j buf' hj ↦ ?_⟩
  obtain ⟨k, hseg, hor⟩ := h'.segments j buf' hj
  refine ⟨k, hseg, ?_⟩
  rcases hor with hlen | hq | hcur
  · exact .inl hlen
  · exact .inr (.inl hq)
  · have hle := (h.running i buf n rfl).1.le
    simp only [Option.some.injEq, Prod.mk.injEq] at hcur
    obtain ⟨-, rfl, rfl⟩ := hcur
    exact .inl (by omega)

end CallInv

/-! ## The invariant of the stream -/

/-- The invariant of the stream; `cur` is the write on the processor, if any. -/
structure StreamInv (cur : Option (Nat × List UInt8 × Nat)) (s : Sys) : Prop where
  clean : s.Clean
  phase : s.Phase cur.isSome
  calls : CallInv cur s
  bytes : s.Bytes

namespace StreamInv

theorem toBytes (h : StreamInv cur s) : BytesInv cur.isSome s := ⟨h.clean, h.phase, h.bytes⟩

theorem of_bytes (h : BytesInv cur.isSome s) (hcalls : CallInv cur s) : StreamInv cur s :=
  ⟨h.clean, h.phase, hcalls, h.bytes⟩

theorem post_dataAvailable (h : StreamInv cur s) (hgood : Good True s) :
    StreamInv cur (s.post .dataAvailable) :=
  .of_bytes (h.toBytes.post_dataAvailable hgood)
    (h.calls.congr rfl rfl rfl (progress_post hgood _))

/-! ### Reads -/

/-- A read that finds data is no matter of the writers. -/
theorem calls_drained (h : CallInv cur s) (hinv : Inv True s) (hrun : s.Running) (count : Nat) :
    CallInv cur (s.drained count) := by
  have hdrain := (drainBuffer_spec (I := fun t ↦ (Inv True t ∧ t.Running) ∧ CallInv cur t)
    (fun t hI ↦ hI.1.1.good.buffer) (fun t cb b hI _ hwf _ hsize ↦ ?_) count ⟨⟨hinv, hrun⟩, h⟩).1
  · obtain ⟨⟨hinv', -⟩, hcalls⟩ := hdrain
    unfold Sys.drained
    dsimp only
    split
    · exact hcalls.congr rfl rfl rfl (progress_post hinv'.good _)
    · exact hcalls.congr rfl rfl rfl rfl
  · obtain ⟨⟨hinv', hrun'⟩, hcalls⟩ := hI
    have hset := hinv'.setBuffer hwf hsize
    exact ⟨⟨hset.post (by decide), hrun'.post hset.good _⟩,
      hcalls.congr rfl rfl rfl (progress_post hset.good _)⟩

/-- A read returns nothing. -/
theorem returnNothing (h : StreamInv cur s) (count : Nat) :
    StreamInv cur (s.returnRead count []) :=
  .of_bytes (h.toBytes.returnNothing count) (h.calls.congr rfl rfl rfl rfl)

/-- Reads keep the stream. -/
theorem read (h : StreamInv cur s) (hinv : Inv True s) (hrun : s.Running) {woken : Bool}
    {count : Nat} (hout : ReadOutcome woken s count t) : StreamInv cur t := by
  refine .of_bytes (h.toBytes.read hinv hrun hout) ?_
  cases hout with
  | eof _ _ => exact h.calls.congr rfl rfl rfl rfl
  | taken _ _ hpos =>
      have htake := hinv.take (x := .dataAvailable) (by decide) hpos
      exact calls_drained (s := s.setSem _ _) (h.calls.congr rfl rfl rfl rfl) htake hrun count
  | granted _ _ => exact calls_drained h.calls hinv hrun count
  | block _ _ =>
      refine h.calls.congr rfl rfl rfl (funext fun q ↦ ?_)
      refine (progress_set (s := s) rfl q).trans ?_
      split
      next heq => rw [heq, progress_of hrun]; rfl
      next => rfl

/-! ### Writes -/

/-- While a writer runs, the others have written nothing. -/
theorem waiting_zero (hnone : ∀ q sh, s.shape q = some sh → ¬Owns sh) (pid : Int) (j : Nat)
    (buf' : List UInt8) (k : Nat) (hp : s.progress pid = some (j, buf', k)) : k = 0 := by
  obtain ⟨pr, hpr, hprogress⟩ := Option.bind_eq_some_iff.mp hp
  cases hcont : pr.cont with
  | writeMutex call buf =>
      rw [hcont] at hprogress
      cases hprogress
      rfl
  | writeSlot call buf k' => exact absurd (by rw [hcont]; trivial) (hnone pid _ (shape_of hpr))
  | _ =>
      rw [hcont] at hprogress
      cases hprogress

/-- **A byte is written** into a slot that was taken before. -/
theorem written (hbytes : BytesInv true (s.written cb i (buf.getD n 0)))
    (hcalls : CallInv (some (i, buf, n)) s)
    (hzero : ∀ pid j buf' k, s.progress pid = some (j, buf', k) → k = 0)
    (hinv : Inv True s) (hn : n < buf.length) (hcb : cb.Wf)
    (hsize : cb.maxSize = s.pipe.buffer.maxSize) :
    StreamInv (some (i, buf, n + 1)) (s.written cb i (buf.getD n 0)) := by
  have hgood : Good True
      ({ s.setBuffer cb with stream := s.stream ++ [(i, buf.getD n 0)] } : Sys) :=
    (hinv.setBuffer hcb hsize).good.congr rfl rfl rfl
  refine .of_bytes hbytes ?_
  unfold Sys.written
  split
  · exact hcalls.byte hn hzero rfl rfl rfl (progress_post hgood _)
  · exact hcalls.byte hn hzero rfl rfl rfl rfl

/-- The writer stops in a wait, and is `pid`'s again. -/
theorem blockOn (hbytes : BytesInv false (s.blockOn x c)) (hcalls : CallInv (some (i, buf, n)) s)
    (hrun : s.Running) (hprogress : c.progress = some (i, buf, n)) :
    StreamInv none (s.blockOn x c) := by
  refine .of_bytes hbytes (hcalls.suspend rfl rfl rfl (progress_of hrun) fun q ↦ ?_)
  have htable : (s.blockOn x c).procs.table =
      (s.procs.set s.procs.currentPID ⟨.BLOCKED, c⟩).table := rfl
  rw [← hprogress]
  exact progress_set htable q

/-- **Writes keep the stream.** -/
theorem rule (i : Nat) (buf : List UInt8) :
    WriteRule True i buf (fun n s ↦ StreamInv (some (i, buf, n)) s) (StreamInv none) where
  byte n s cb hinv hrun h hn hpos _ hwf hcontents hsize :=
    written (h.toBytes.byte hinv hpos hwf hsize hcontents) (h.calls.congr rfl rfl rfl rfl)
      (waiting_zero h.phase.not_owns) (hinv.take (x := .freeSpaces) (by decide) hpos) hn hwf hsize
  full n s hinv _ h _ hpos hfull := absurd hfull (h.toBytes.not_full hinv hpos)
  block n s hinv hrun h hn hneg :=
    blockOn (BytesInv.blockOn h.clean h.bytes hinv.good hrun rfl
      (h.phase.blockOn_freeSpaces hneg i hn)) h.calls hrun rfl
  done n s hinv _ h hn :=
    .of_bytes (h.toBytes.unlock hinv) (h.calls.done hn rfl rfl rfl (progress_post hinv.good _))

/-! ### Going on -/

theorem resume_progress (hpr : s.running = some pr) (q : Int) :
    (s.suspend .user).progress q = if q = s.procs.currentPID then none else s.progress q := by
  obtain ⟨hcur, -⟩ := running_eq_some.mp hpr
  have htable : (s.suspend .user).procs.table =
      (s.procs.set s.procs.currentPID { pr with cont := .user }).table := by
    rw [suspend, Procs.setCont_of hcur]
  exact progress_set htable q

/-- A reader goes on. -/
theorem resume_readData (h : StreamInv none s) (hinv : Inv True s) (hpr : s.running = some pr)
    {count : Nat} (hcont : pr.cont = .readData count) : StreamInv none (s.suspend .user) := by
  refine .of_bytes (h.toBytes.resume_readData hinv hpr hcont)
    (h.calls.congr rfl rfl rfl (funext fun q ↦ ?_))
  rw [resume_progress hpr]
  split
  next heq => rw [heq, progress_of (running_eq_some.mp hpr).1, hcont]; rfl
  next => rfl

/-- A writer goes on with its call. -/
theorem resume_calls (h : StreamInv none s) (hpr : s.running = some pr)
    (hcont : pr.cont.progress = some (i, buf, n)) :
    CallInv (some (i, buf, n)) (s.suspend .user) :=
  h.calls.resume rfl rfl rfl ((progress_of (running_eq_some.mp hpr).1).trans hcont)
    (resume_progress hpr)

/-! ### Other events -/

/-- A live process changes its state. -/
theorem progress_setState {st : State} (hpid : s.procs.table pid = some pr) (q r : Int) :
    ({ s with procs := { s.procs.set pid { pr with state := st } with currentPID := q } }
      : Sys).progress r = s.progress r := by
  have htable : ({ s.procs.set pid { pr with state := st } with currentPID := q } : Procs).table =
      (s.procs.set pid { pr with state := st }).table := rfl
  rw [progress_set htable]
  split
  next heq => rw [heq, progress_of hpid]
  next => rfl

theorem preempt (h : StreamInv none s) (hinv : Inv True s) : StreamInv none s.preempt := by
  refine .of_bytes (h.toBytes.preempt hinv) ?_
  unfold Sys.preempt
  split
  next hsome =>
      obtain ⟨pr, hpr⟩ := Option.isSome_iff_exists.mp hsome
      have hcur := (running_eq_some.mp hpr).1
      rw [Procs.setState_of hcur]
      exact h.calls.congr rfl rfl rfl (funext (progress_setState hcur s.procs.currentPID))
  next => exact h.calls

/-- A process appears, dies or disappears outside the pipe. -/
theorem calls_outside (h : CallInv none s) (hstream : t.stream = s.stream)
    (hcalls : t.calls = s.calls) (hfull : t.fullWrites = s.fullWrites)
    (hother : ∀ q, q ≠ pid → t.procs.table q = s.procs.table q)
    (hs : ∀ pr, s.procs.table pid = some pr → pr.cont = .user)
    (ht : ∀ pr, t.procs.table pid = some pr → pr.cont = .user) : CallInv none t := by
  have hnone : ∀ u : Sys, (∀ pr, u.procs.table pid = some pr → pr.cont = .user) →
      u.progress pid = none := by
    intro u hu
    cases hpr : u.procs.table pid with
    | none => rw [progress, hpr, Option.bind_none]
    | some pr =>
        rw [progress_of hpr, hu pr hpr]
        rfl
  refine h.congr hstream hcalls hfull (funext fun q ↦ ?_)
  by_cases heq : q = pid
  · rw [heq, hnone t ht, hnone s hs]
  · rw [progress, hother q heq, progress]

theorem outside (h : StreamInv none s) (hpipe : t.pipe.sem = s.pipe.sem)
    (hbuffer : t.pipe.buffer = s.pipe.buffer) (hstream : t.stream = s.stream)
    (hcalls : t.calls = s.calls) (hresults : t.results = s.results)
    (hfull : t.fullWrites = s.fullWrites)
    (hother : ∀ q, q ≠ pid → t.procs.table q = s.procs.table q)
    (hs : ∀ pr, s.procs.table pid = some pr → pr.cont = .user)
    (ht : ∀ pr, t.procs.table pid = some pr → pr.cont = .user) : StreamInv none t :=
  .of_bytes (h.toBytes.outside hpipe hbuffer hstream hresults hother hs ht)
    (calls_outside h.calls hstream hcalls hfull hother hs ht)

/-- The list of write ends and their number are of no concern. -/
theorem setEnds (h : StreamInv none s) (es : List (List Int)) (n : Int) :
    StreamInv none { s with writeEnds := es, pipe := { s.pipe with writerCount := n } } :=
  .of_bytes (h.toBytes.setEnds es n) (h.calls.congr rfl rfl rfl rfl)

theorem endsRule : EndsRule (StreamInv none) :=
  ⟨fun _ hgood h ↦ h.post_dataAvailable hgood, fun _ es n h ↦ h.setEnds es n⟩

end StreamInv

/-- **Every event keeps the stream**, unless it kills a process inside the pipe. -/
theorem streamInv_step {e : Event} (h : StreamInv none s) (hinv : Inv True s)
    (hok : e.KillsOutside s) (ht : step s e = some t) : StreamInv none t := by
  cases hinv.step_outcome ht with
  | dispatch hpr hready =>
      refine .of_bytes ((h.toBytes.preempt hinv).setState hinv.preempt hpr (by simp [hready])
        (by simp [hready]) (by simp) (by simp) _) ?_
      exact (h.preempt hinv).calls.congr rfl rfl rfl (funext (StreamInv.progress_setState hpr _))
  | readNothing hrun => exact h.returnNothing 0
  | read hrun _ hout => exact h.read hinv hrun hout
  | @write buf _ hrun hholds hw =>
      refine ((StreamInv.rule _ _).write hinv hrun hholds hw (fun hpos ↦ ?_) fun hneg ↦ ?_).2
      · exact .of_bytes ((h.toBytes.setCalls _).lock hpos)
          ((h.calls.newCall _).congr rfl rfl rfl rfl)
      · have hbytes := (h.toBytes.setCalls (s.calls ++ [buf])).blockOn_writeMutex
          (hinv.setCalls _) hrun hneg s.calls.length buf
        exact StreamInv.blockOn hbytes (h.calls.newCall _) hrun rfl
  | resumeRead hpr hcont hout =>
      obtain ⟨hinv', hrun, -⟩ := hinv.resume hpr
      exact (h.resume_readData hinv hpr hcont).read hinv' hrun hout
  | resumeWrite hpr hcont hw =>
      refine ((StreamInv.rule _ _).resumeWrite hinv hpr hcont hw ?_).2
      exact .of_bytes (h.toBytes.resume_writeMutex hinv hpr hcont)
        (h.resume_calls hpr (by rw [hcont]; rfl))
  | resumeSlot hpr hcont hw =>
      obtain ⟨hn, hroom, hbyte⟩ := h.toBytes.resume_writeSlot hinv hpr hcont
      obtain ⟨-, -, -, hno⟩ := h.phase.resume_writeSlot hpr hcont
      exact ((StreamInv.rule _ _).resumeSlot hinv hpr hcont hw
        (fun cb _ hwf hcontents hsize ↦ StreamInv.written (hbyte cb _ hwf hcontents hsize)
          (h.resume_calls hpr (by rw [hcont]; rfl)) (StreamInv.waiting_zero hno)
          (hinv.resume hpr).1 hn hwf hsize) fun hfull ↦ absurd hfull hroom).2
  | @create pid hrun hvalid hidle hfree =>
      refine h.outside rfl rfl rfl rfl rfl rfl (fun q hq ↦ Procs.set_other _ _ hq)
        (fun pr hpr ↦ nomatch hfree.symm.trans hpr) fun pr hpr ↦ ?_
      obtain rfl := Option.some.inj ((Procs.set_self _ _ _).symm.trans hpr)
      rfl
  | reopen hrun hholds => exact h.setEnds _ _
  | close hrun hclose => exact StreamInv.endsRule.closeFd hinv.good hrun h hclose
  | @kill pid pr hpr hlive =>
      obtain ⟨u, hu, huser, heq⟩ := StreamInv.endsRule.kill hinv.good h hok
      rw [heq]
      refine hu.outside rfl rfl rfl rfl rfl rfl setState_other huser fun pr' hpr' ↦ ?_
      obtain ⟨pr'', hpr'', hcont⟩ := setState_cont hpr'
      exact hcont.trans (huser pr'' hpr'')
  | @reap pid pr hpr hdead =>
      refine h.outside rfl rfl rfl rfl rfl rfl (fun q hq ↦ by simp [hq])
        (fun pr' hpr' ↦ h.clean.zombie pid pr' hpr' ?_) fun pr' hpr' ↦ ?_
      · rwa [← Option.some.inj (hpr.symm.trans hpr')]
      · simp at hpr'

theorem streamInv_init (data : Nat → UInt8) (creator : Int) :
    StreamInv none (init data creator) := by
  have huser : ∀ pid pr, (init data creator).procs.table pid = some pr →
      pr = ⟨.RUNNING, .user⟩ := by
    intro pid pr hpid
    simp only [init] at hpid
    split at hpid
    · exact (Option.some.inj hpid).symm
    · cases hpid
  have hprogress : ∀ pid, (init data creator).progress pid = none := by
    intro pid
    cases hpid : (init data creator).procs.table pid with
    | none => rw [progress, hpid, Option.bind_none]
    | some pr =>
        rw [progress_of hpid, huser pid pr hpid]
        rfl
  refine ⟨⟨fun x pid hmem ↦ ?_, fun pid pr hpid _ ↦ ?_⟩,
    .idle rfl ⟨Nat.zero_le _, rfl⟩ fun q sh hq ↦ ?_,
    ⟨rfl, ?_, fun pid i buf n hp ↦ ?_, ?_, fun p q i buf n buf' n' hp ↦ ?_, ?_⟩, rfl⟩
  · cases x <;> cases hmem
  · rw [huser pid pr hpid]
  · obtain ⟨pr, hpr, rfl⟩ := Option.map_eq_some_iff.mp hq
    rw [huser q pr hpr]
    exact id
  · intro b hb
    cases hb
  · cases (hprogress pid).symm.trans hp
  · intro i buf n hcur
    cases hcur
  · cases (hprogress p).symm.trans hp
  · intro i buf hcall
    cases hcall

/-- The invariants of a run in which nobody is killed inside the pipe. -/
theorem streamInv_reach {data : Nat → UInt8} {creator : Int} (hvalid : ¬invalidPID creator)
    (hidle : creator ≠ IDLE_PID)
    (hreach : Reach step (fun s e ↦ e.KillsOutside s) (init data creator) s) :
    Inv True s ∧ StreamInv none s := by
  refine hreach.invariant (I := fun u ↦ Inv True u ∧ StreamInv none u)
    ⟨inv_init data hvalid hidle, streamInv_init data creator⟩ ?_
  rintro u e v ⟨hinv, hstream⟩ hok hv
  exact ⟨inv_step hinv (fun _ ↦ hstream.toBytes.fresh hinv hv) hv,
    streamInv_step hstream hinv hok hv⟩

/-- **The stream of a pipe.**  In every run in which no process inside the pipe is killed and
everyone who blocks gets its node, the bytes that reads have returned and those in the buffer
are, in order, those that were written.  What a call has written is one piece of the stream and a
prefix of its buffer, all of it once no process is inside the call.  No byte was ever offered to a
full buffer, and tokens, bytes and granted slots make up the buffer. -/
theorem stream_correct (data : Nat → UInt8) {creator : Int} (hvalid : ¬invalidPID creator)
    (hidle : creator ≠ IDLE_PID)
    (hreach : Reach stepOn (fun s x ↦ x.1.KillsOutside s ∧ x.2 = true) (init data creator) s) :
    s.results.flatMap (·.bytes) ++ s.pipe.buffer.contents = s.stream.map Prod.snd ∧
    (∀ b ∈ s.stream, b.1 < s.calls.length) ∧
    (∀ i buf, s.calls[i]? = some buf → ∃ before after n,
      s.stream = before ++ (buf.take n).map (i, ·) ++ after ∧
      (∀ b ∈ before ++ after, b.1 ≠ i) ∧
      (n = buf.length ∨ ∃ pid pr, s.procs.table pid = some pr ∧
        pr.cont.progress = some (i, buf, n))) ∧
    s.fullWrites = 0 ∧
    (s.pipe.sem .freeSpaces).tokens + s.pipe.buffer.count + s.slotHolders.card =
      PIPE_BUF_SIZE := by
  obtain ⟨hinv, hstream⟩ := streamInv_reach hvalid hidle
    (reach_of_nodes (inv_init data hvalid hidle) hreach)
  refine ⟨hstream.bytes, hstream.calls.known, fun i buf hi ↦ ?_, hstream.calls.fullWrites,
    hstream.phase.total hinv.good.valid⟩
  obtain ⟨n, ⟨before, after, hseg, hids⟩, hor⟩ := hstream.calls.segments i buf hi
  refine ⟨before, after, n, hseg, hids, hor.imp_right fun hor ↦ ?_⟩
  obtain ⟨pid, hp⟩ := hor.resolve_right nofun
  obtain ⟨pr, hpr, hprogress⟩ := Option.bind_eq_some_iff.mp hp
  exact ⟨pid, pr, hpr, hprogress⟩

instance (s : Sys) : (e : Event) → Decidable (e.KillsOutside s)
  | .kill pid => inferInstanceAs (Decidable (∀ pr ∈ s.procs.table pid, pr.cont = .user))
  | .dispatch _ | .read _ | .write _ | .resume | .create _ | .reopen | .close _ | .reap _ =>
      isTrue trivial

/-- A call larger than the buffer, after a first read has made room. -/
theorem stream_correct_large : ∃ s : Sys, (s.pipe.buffer.count = 1019 ∧
      (s.procs.table 2).map Proc.holdsSlot = some true) ∧
    s.results.flatMap (·.bytes) ++ s.pipe.buffer.contents = s.stream.map Prod.snd ∧
    (∀ b ∈ s.stream, b.1 < s.calls.length) ∧
    (∀ i buf, s.calls[i]? = some buf → ∃ before after n,
      s.stream = before ++ (buf.take n).map (i, ·) ++ after ∧
      (∀ b ∈ before ++ after, b.1 ≠ i) ∧
      (n = buf.length ∨ ∃ pid pr, s.procs.table pid = some pr ∧
        pr.cont.progress = some (i, buf, n))) ∧
    s.fullWrites = 0 ∧
    (s.pipe.sem .freeSpaces).tokens + s.pipe.buffer.count + s.slotHolders.card =
      PIPE_BUF_SIZE := by
  let es : List (Event × Bool) := [(.create 3, true), (.dispatch 3, true), (.read 5, true),
    (.dispatch 2, true), (.write (List.replicate 1030 7), true), (.dispatch 3, true),
    (.resume, true), (.kill 3, true)]
  have hrun : (run stepOn (init (fun _ ↦ 0) 2) es).map (fun s : Sys ↦
      decide (s.pipe.buffer.count = 1019 ∧
        (s.procs.table 2).map Proc.holdsSlot = some true)) = some true := by decide +kernel
  have hguard : Guarded stepOn (fun s x ↦ x.1.KillsOutside s ∧ x.2 = true)
      (init (fun _ ↦ 0) 2) es := by
    decide +kernel
  obtain ⟨s, hrun, hobs⟩ := Option.map_eq_some_iff.mp hrun
  exact ⟨s, of_decide_eq_true hobs, stream_correct _ (by decide) (by decide)
    (.of_run hrun hguard)⟩

/-- A writer of 1025 bytes blocks on `freeSpaces` when the heap has no room for its node.  A read
of one byte then posts a slot that nobody takes: there is no token, no one has been granted the
slot, and the buffer holds one byte less than it could.  The writer is never woken. -/
theorem slot_lost : ∃ s, Reach stepOn (fun s x ↦ x.1.KillsOutside s) (init (fun _ ↦ 0) 2) s ∧
    (s.pipe.sem .freeSpaces).tokens + s.pipe.buffer.count + s.slotHolders.card ≠ PIPE_BUF_SIZE ∧
    (s.pipe.sem .freeSpaces).blockedQueue = [] ∧
    s.procs.table 2 = some ⟨.BLOCKED, .writeSlot 0 (List.replicate 1025 7) 1024⟩ := by
  let es : List (Event × Bool) := [(.create 3, true), (.write (List.replicate 1025 7), false),
    (.dispatch 3, true), (.read 1, true)]
  have hrun : (run stepOn (init (fun _ ↦ 0) 2) es).map (fun s : Sys ↦
      decide ((s.pipe.sem .freeSpaces).tokens + s.pipe.buffer.count + s.slotHolders.card ≠
          PIPE_BUF_SIZE ∧
        (s.pipe.sem .freeSpaces).blockedQueue = [] ∧
        s.procs.table 2 = some ⟨.BLOCKED, .writeSlot 0 (List.replicate 1025 7) 1024⟩)) =
      some true := by decide +kernel
  have hguard : Guarded stepOn (fun s x ↦ x.1.KillsOutside s) (init (fun _ ↦ 0) 2) es := by
    decide +kernel
  obtain ⟨s, hrun, hobs⟩ := Option.map_eq_some_iff.mp hrun
  exact ⟨s, .of_run hrun hguard, of_decide_eq_true hobs⟩

end Sys

end BareBones.IPC
