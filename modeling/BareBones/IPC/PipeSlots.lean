import BareBones.IPC.PipeRun

/-!
# Slots

`freeSpaces` counts the free slots of the buffer, up to the one that has been granted to
a writer that was woken and has not run since.  At most one writer at a time is between
taking and posting `writeMutex`, and `Phase` lists where it can be when it is not on the
processor, with what each semaphore then is.

This holds in runs in which nobody dies inside the pipe, so that every pid that is
queued is a process that waits there (`Clean`).  All that the phases depend on of a
process is where it is and whether it is blocked, its `shape`.
-/

namespace BareBones.IPC

open BareBones.Lib BareBones.Process BareBones.Semaphores

/-- The process is between taking and posting `writeMutex`. -/
def Owns : Cont × Bool → Prop
  | (.writeMutex _ _, blocked) => blocked = false
  | (.writeSlot _ _ _, _) => True
  | _ => False

theorem not_owns_of_waitsOn {c : Cont} (h : c.waitsOn = some .dataAvailable) (blocked : Bool) :
    ¬Owns (c, blocked) := by
  cases c with
  | readData count => exact id
  | _ => cases h

namespace Sys

variable {strict : Prop} {s t : Sys} {x y : PipeSem} {pid p q : Int} {pr : Proc} {c : Cont}
  {m : Sem} {cb : CircularBuffer} {writing : Bool} {n : Nat}

/-! ## Shapes -/

/-- Where a process is, and whether it is blocked. -/
def shape (s : Sys) (pid : Int) : Option (Cont × Bool) :=
  (s.procs.table pid).map fun pr ↦ (pr.cont, decide (pr.state = .BLOCKED))

theorem shape_congr (h : t.procs.table pid = s.procs.table pid) : t.shape pid = s.shape pid := by
  rw [shape, h, shape]

theorem shape_of (h : s.procs.table pid = some pr) :
    s.shape pid = some (pr.cont, decide (pr.state = .BLOCKED)) := by rw [shape, h, Option.map_some]

theorem shape_blocked (h : s.shape pid = some (c, true)) :
    ∃ pr, s.procs.table pid = some pr ∧ pr.cont = c ∧ pr.state = .BLOCKED := by
  obtain ⟨pr, hpr, heq⟩ := Option.map_eq_some_iff.mp h
  rw [Prod.mk.injEq, decide_eq_true_eq] at heq
  exact ⟨pr, hpr, heq⟩

theorem Running.shape (hrun : s.Running) : s.shape s.procs.currentPID = some (.user, false) :=
  shape_of hrun

theorem shape_set (hprocs : t.procs.table = (s.procs.set pid pr).table) (q : Int) :
    t.shape q = if q = pid then some (pr.cont, decide (pr.state = .BLOCKED)) else s.shape q := by
  split
  next heq =>
      rw [heq]
      exact shape_of ((congrFun hprocs pid).trans (Procs.set_self _ _ _))
  next hne => exact shape_congr ((congrFun hprocs q).trans (Procs.set_other _ _ hne))

theorem shape_wake (s : Sys) (m : Sem) (pid : Int) (pr : Proc) (q : Int) :
    ((s.wake pid pr).setSem x m).shape q =
      if q = pid then some (pr.cont, false) else s.shape q := by
  have htable : ((s.wake pid pr).setSem x m).procs.table =
      (s.procs.set pid { pr with state := .READY }).table := rfl
  exact shape_set htable q

theorem shape_blockOn (s : Sys) (x : PipeSem) (c : Cont) (q : Int) :
    (s.blockOn x c).shape q = if q = s.procs.currentPID then some (c, true) else s.shape q := by
  have htable : (s.blockOn x c).procs.table =
      (s.procs.set s.procs.currentPID ⟨.BLOCKED, c⟩).table := rfl
  exact shape_set htable q

/-- A process that goes on is outside the pipe. -/
theorem shape_resume (hpr : s.running = some pr) (q : Int) : (s.suspend .user).shape q =
    if q = s.procs.currentPID then some (.user, false) else s.shape q := by
  obtain ⟨hcur, hstate⟩ := running_eq_some.mp hpr
  have htable : (s.suspend .user).procs.table =
      (s.procs.set s.procs.currentPID { pr with cont := .user }).table := by
    rw [suspend, Procs.setCont_of hcur]
  rw [shape_set htable, hstate]
  rfl

/-! ## Posts -/

/-- Whoever is queued is a process that is blocked right there, and whoever is dead died
outside the pipe. -/
structure Clean (s : Sys) : Prop where
  queued : ∀ x pid, pid ∈ (s.pipe.sem x).blockedQueue →
    ∃ c, s.shape pid = some (c, true) ∧ c.waitsOn = some x
  zombie : ∀ pid pr, s.procs.table pid = some pr → pr.state = .ZOMBIE → pr.cont = .user

namespace Clean

/-- **A post in a clean state** leaves a token if nobody is queued and wakes the first in
the queue otherwise. -/
theorem post_cases (hclean : s.Clean) (h : Good strict s) (x : PipeSem) :
    ((s.pipe.sem x).blockedQueue = [] ∧ s.post x = s.setSem x ⟨(s.pipe.sem x).tokens + 1, []⟩) ∨
      ∃ pid rest pr, (s.pipe.sem x).blockedQueue = pid :: rest ∧ s.procs.table pid = some pr ∧
        pr.state = .BLOCKED ∧ pr.cont.waitsOn = some x ∧
        s.post x = (s.wake pid pr).setSem x (Sem.waiting rest) := by
  have hblocked : ∀ d, d ∈ (s.pipe.sem x).blockedQueue → s.procs.Blocked d := by
    intro d hd
    obtain ⟨c, hshape, -⟩ := hclean.queued x d hd
    obtain ⟨pr, hpr, -, hstate⟩ := shape_blocked hshape
    exact ⟨pr, hpr, hstate⟩
  rcases post_spec (h.wf x) h.valid with
    ⟨dead, pid, rest, pr, hqueue, hdead, hpid, hstate, hpost⟩ | ⟨hdead, hpost⟩
  · cases dead with
    | nil =>
        obtain ⟨c, hshape, hwaits⟩ := hclean.queued x pid (by simp [hqueue])
        rw [shape_of hpid, Option.some.injEq, Prod.mk.injEq] at hshape
        exact .inr ⟨pid, rest, pr, hqueue, hpid, hstate, hshape.1 ▸ hwaits, hpost⟩
    | cons d dead =>
        exact absurd (hblocked d (by simp [hqueue])) (hdead d (by simp))
  · refine .inl ⟨?_, hpost⟩
    cases hqueue : (s.pipe.sem x).blockedQueue with
    | nil => rfl
    | cons d rest =>
        exact absurd (hblocked d (by simp [hqueue])) (hdead d (by simp [hqueue]))

/-- The queues and the table change, and no process that is still queued does. -/
theorem congr (hclean : s.Clean)
    (hqueue : ∀ x pid, pid ∈ (t.pipe.sem x).blockedQueue → pid ∈ (s.pipe.sem x).blockedQueue)
    (hshape : ∀ x pid, pid ∈ (t.pipe.sem x).blockedQueue → t.shape pid = s.shape pid)
    (hzombie : ∀ pid pr, t.procs.table pid = some pr → pr.state = .ZOMBIE → pr.cont = .user) :
    t.Clean where
  queued x pid hmem := by
    rw [hshape x pid hmem]
    exact hclean.queued x pid (hqueue x pid hmem)
  zombie := hzombie

theorem post (hclean : s.Clean) (h : Good True s) (x : PipeSem) : (s.post x).Clean := by
  rcases hclean.post_cases h x with ⟨hnil, hpost⟩ | ⟨pid, rest, pr, hqueue, hpid, hstate, -, hpost⟩
  · rw [hpost]
    refine hclean.congr (fun y q hmem ↦ ?_) (fun _ _ _ ↦ rfl) hclean.zombie
    by_cases hyx : y = x
    · subst hyx
      simp at hmem
    · rwa [setSem_other _ _ hyx] at hmem
  · have hx : x ≠ .readMutex := by
      rintro rfl
      rw [h.mutex] at hqueue
      cases hqueue
    have hgood := h.wake hx (hqueue.trans (List.nil_append _).symm) (by simp) hpid hstate
    rw [hpost]
    refine hclean.congr (fun y q hmem ↦ ?_) (fun y q hmem ↦ ?_) fun q pr' hq hdead ↦ ?_
    · by_cases hyx : y = x
      · subst hyx
        rw [setSem_self] at hmem
        simp only [Sem.waiting_queue] at hmem
        rw [hqueue]
        exact List.mem_cons_of_mem _ hmem
      · rwa [setSem_other _ _ hyx] at hmem
    · rw [shape_wake, if_neg]
      rintro rfl
      have := (hgood.waits trivial y q _ hmem (Procs.set_self _ _ _) (by simp)).1
      cases this
    · by_cases heq : q = pid
      · subst heq
        obtain rfl := Option.some.inj ((Procs.set_self _ _ _).symm.trans hq)
        cases hdead
      · exact hclean.zombie q pr' ((Procs.set_other _ _ heq).symm.trans hq) hdead

theorem setSem (hclean : s.Clean) (hm : m.blockedQueue = []) : (s.setSem x m).Clean := by
  refine hclean.congr (fun y q hmem ↦ ?_) (fun _ _ _ ↦ rfl) hclean.zombie
  by_cases hyx : y = x
  · subst hyx
    rw [setSem_self, hm] at hmem
    cases hmem
  · rwa [setSem_other _ _ hyx] at hmem

theorem blockOn (hclean : s.Clean) (h : Good True s) (hrun : s.Running) (hc : c.waitsOn = some x) :
    (s.blockOn x c).Clean where
  queued y q hmem := by
    rw [shape_blockOn]
    by_cases heq : q = s.procs.currentPID
    · rw [if_pos heq]
      refine ⟨c, rfl, ?_⟩
      by_cases hyx : y = x
      · rw [hyx, hc]
      · rw [Sys.blockOn, setSem_other _ _ hyx] at hmem
        exact absurd (heq ▸ hmem) (h.running_not_queued trivial hrun y)
    · rw [if_neg heq]
      refine hclean.queued y q ?_
      by_cases hyx : y = x
      · subst hyx
        simpa [Sys.blockOn, heq] using hmem
      · rwa [Sys.blockOn, setSem_other _ _ hyx] at hmem
  zombie q pr hq hdead := by
    by_cases heq : q = s.procs.currentPID
    · subst heq
      obtain rfl := Option.some.inj ((Procs.set_self _ _ _).symm.trans hq)
      cases hdead
    · exact hclean.zombie q pr ((Procs.set_other _ _ heq).symm.trans hq) hdead

/-- A slot of the table changes that is not queued. -/
theorem update (hclean : s.Clean) (hpipe : t.pipe.sem = s.pipe.sem)
    (hother : ∀ q, q ≠ pid → t.procs.table q = s.procs.table q) (hqueue : s.NotQueued pid)
    (hdead : ∀ pr, t.procs.table pid = some pr → pr.state = .ZOMBIE → pr.cont = .user) :
    t.Clean := by
  refine hclean.congr (fun x q hmem ↦ by rwa [hpipe] at hmem) (fun x q hmem ↦ ?_)
    fun q pr hq hzombie ↦ ?_
  · rw [hpipe] at hmem
    exact shape_congr (hother q fun heq ↦ hqueue x (heq ▸ hmem))
  · by_cases heq : q = pid
    · subst heq
      exact hdead pr hq hzombie
    · exact hclean.zombie q pr ((hother q heq).symm.trans hq) hzombie

/-- A process outside the pipe is not queued. -/
theorem not_queued (hclean : s.Clean) (hpid : ∀ pr, s.procs.table pid = some pr → pr.cont = .user) :
    s.NotQueued pid := by
  intro x hmem
  obtain ⟨c, hshape, hwaits⟩ := hclean.queued x pid hmem
  obtain ⟨pr, hpr, rfl, -⟩ := shape_blocked hshape
  rw [hpid pr hpr] at hwaits
  cases hwaits

end Clean

/-! ## Phases -/

/-- `n` slots are taken for bytes that are not in the buffer yet, and `freeSpaces` counts
what is left. -/
structure Slots (s : Sys) (n : Nat) : Prop where
  le : s.pipe.buffer.count + n ≤ PIPE_BUF_SIZE
  sem : s.pipe.sem .freeSpaces = ⟨(PIPE_BUF_SIZE : Int) - s.pipe.buffer.count - n, []⟩

/-- `p` is the one process between taking and posting `writeMutex`. -/
structure Sole (s : Sys) (p : Int) (sh : Cont × Bool) : Prop where
  shape : s.shape p = some sh
  unique : ∀ q sh', s.shape q = some sh' → Owns sh' → q = p

/-- **Where the writer is.**  The flag says whether it is on the processor. -/
inductive Phase (s : Sys) : Bool → Prop
  /-- There is none. -/
  | idle : s.pipe.sem .writeMutex = ⟨1, []⟩ → s.Slots 0 →
      (∀ q sh, s.shape q = some sh → ¬Owns sh) → Phase s false
  /-- It is on the processor. -/
  | writing (qs : List Int) : s.pipe.sem .writeMutex = Sem.waiting qs → s.Slots 0 →
      (∀ q sh, s.shape q = some sh → ¬Owns sh) → Phase s true
  /-- It was handed `writeMutex` and has not run since. -/
  | entering (qs : List Int) (p : Int) (call : Nat) (buf : List UInt8) :
      s.pipe.sem .writeMutex = Sem.waiting qs → s.Slots 0 →
      s.Sole p (.writeMutex call buf, false) → Phase s false
  /-- It waits for a slot. -/
  | full (qs : List Int) (p : Int) (call : Nat) (buf : List UInt8) (n : Nat) :
      s.pipe.sem .writeMutex = Sem.waiting qs → s.pipe.sem .freeSpaces = Sem.waiting [p] →
      s.pipe.buffer.count = PIPE_BUF_SIZE → n < buf.length →
      s.Sole p (.writeSlot call buf n, true) → Phase s false
  /-- It was granted a slot and has not run since. -/
  | granted (qs : List Int) (p : Int) (call : Nat) (buf : List UInt8) (n : Nat) :
      s.pipe.sem .writeMutex = Sem.waiting qs → s.Slots 1 → n < buf.length →
      s.Sole p (.writeSlot call buf n, false) → Phase s false

theorem Slots.congr (h : s.Slots n) (hcount : t.pipe.buffer.count = s.pipe.buffer.count)
    (hfree : t.pipe.sem .freeSpaces = s.pipe.sem .freeSpaces) : t.Slots n :=
  ⟨hcount ▸ h.le, by rw [hfree, h.sem, hcount]⟩

theorem Sole.congr {sh : Cont × Bool} (h : s.Sole p sh) (howns : Owns sh)
    (hshape : ∀ q sh', Owns sh' → (t.shape q = some sh' ↔ s.shape q = some sh')) : t.Sole p sh :=
  ⟨(hshape p sh howns).mpr h.shape, fun q sh' hq ho ↦ h.unique q sh' ((hshape q sh' ho).mp hq) ho⟩

namespace Phase

/-- The phase depends on two semaphores, on the number of bytes and on the writer. -/
theorem congr (h : s.Phase writing) (hcount : t.pipe.buffer.count = s.pipe.buffer.count)
    (hmutex : t.pipe.sem .writeMutex = s.pipe.sem .writeMutex)
    (hfree : t.pipe.sem .freeSpaces = s.pipe.sem .freeSpaces)
    (hshape : ∀ q sh, Owns sh → (t.shape q = some sh ↔ s.shape q = some sh)) :
    t.Phase writing := by
  have hnone : (∀ q sh, s.shape q = some sh → ¬Owns sh) → ∀ q sh, t.shape q = some sh → ¬Owns sh :=
    fun hno q sh hq ho ↦ hno q sh ((hshape q sh ho).mp hq) ho
  cases h with
  | idle hm hslots hno => exact .idle (hmutex.trans hm) (hslots.congr hcount hfree) (hnone hno)
  | writing qs hm hslots hno =>
      exact .writing qs (hmutex.trans hm) (hslots.congr hcount hfree) (hnone hno)
  | entering qs p call buf hm hslots hsole =>
      exact .entering qs p call buf (hmutex.trans hm) (hslots.congr hcount hfree)
        (hsole.congr rfl hshape)
  | full qs p call buf n hm hf hc hn hsole =>
      exact .full qs p call buf n (hmutex.trans hm) (hfree.trans hf) (hcount.trans hc) hn
        (hsole.congr trivial hshape)
  | granted qs p call buf n hm hslots hn hsole =>
      exact .granted qs p call buf n (hmutex.trans hm) (hslots.congr hcount hfree) hn
        (hsole.congr trivial hshape)

/-- A process that is no writer changes into one that is none. -/
theorem shape_of_not_owns {old new : Option (Cont × Bool)}
    (hother : ∀ q, q ≠ pid → t.shape q = s.shape q) (hold : s.shape pid = old)
    (hnew : t.shape pid = new) (hold' : ∀ sh, old = some sh → ¬Owns sh)
    (hnew' : ∀ sh, new = some sh → ¬Owns sh) (q : Int) (sh : Cont × Bool) (ho : Owns sh) :
    t.shape q = some sh ↔ s.shape q = some sh := by
  by_cases heq : q = pid
  · subst heq
    exact ⟨fun h ↦ absurd ho (hnew' sh (hnew.symm.trans h)),
      fun h ↦ absurd ho (hold' sh (hold.symm.trans h))⟩
  · rw [hother q heq]

/-- Readers come and go. -/
theorem post_dataAvailable (h : s.Phase writing) (hclean : s.Clean) (hgood : Good strict s) :
    (s.post .dataAvailable).Phase writing := by
  rcases hclean.post_cases hgood .dataAvailable with
    ⟨-, hpost⟩ | ⟨pid, rest, pr, -, hpid, -, hwaits, hpost⟩
  · rw [hpost]
    exact h.congr rfl (setSem_other _ _ (by decide)) (setSem_other _ _ (by decide))
      fun _ _ _ ↦ Iff.rfl
  · rw [hpost]
    refine h.congr rfl (setSem_other _ _ (by decide)) (setSem_other _ _ (by decide))
      (shape_of_not_owns (fun q hq ↦ by rw [shape_wake, if_neg hq]) (shape_of hpid)
        (by rw [shape_wake, if_pos rfl]) ?_ ?_)
    · rintro _ ⟨⟩
      exact not_owns_of_waitsOn hwaits _
    · rintro _ ⟨⟩
      exact not_owns_of_waitsOn hwaits _

/-- A reader blocks, returns, or leaves: no writer is concerned. -/
theorem blockOn_dataAvailable (h : s.Phase writing) (hrun : s.Running) (count : Nat) :
    (s.blockOn .dataAvailable (.readData count)).Phase writing := by
  refine h.congr rfl (setSem_other _ _ (by decide)) (setSem_other _ _ (by decide))
    (shape_of_not_owns (fun q hq ↦ by rw [shape_blockOn, if_neg hq])
      hrun.shape (by rw [shape_blockOn, if_pos rfl]) ?_ ?_)
  · rintro _ ⟨⟩
    exact id
  · rintro _ ⟨⟩
    exact id

/-- **A byte is read** and its slot handed back: to the writer that waits for one, if any. -/
theorem read (h : s.Phase writing) (hclean : s.Clean) (hgood : Good strict s) (hcb : cb.Wf)
    (hsize : cb.maxSize = s.pipe.buffer.maxSize) (hcount : cb.count + 1 = s.pipe.buffer.count) :
    ((s.setBuffer cb).post .freeSpaces).Phase writing := by
  have hset : Good strict (s.setBuffer cb) := hgood.setBuffer hcb (hsize.trans hgood.size)
  have hclean' : (s.setBuffer cb).Clean := ⟨hclean.queued, hclean.zombie⟩
  have hpost := hclean'.post_cases hset .freeSpaces
  change (s.pipe.sem .freeSpaces).blockedQueue = [] ∧ _ = (s.setBuffer cb).setSem _
    ⟨(s.pipe.sem .freeSpaces).tokens + 1, []⟩ ∨ _ at hpost
  generalize (s.setBuffer cb).post .freeSpaces = t at hpost ⊢
  -- as long as nobody waits for a slot, there is one more
  have hmore : ∀ n, s.Slots n → t = (s.setBuffer cb).setSem .freeSpaces
      ⟨(s.pipe.sem .freeSpaces).tokens + 1, []⟩ ∧ t.Slots n := by
    intro n hslots
    rcases hpost with ⟨-, rfl⟩ | ⟨pid, rest, pr, hqueue, -⟩
    · refine ⟨rfl, ?_, ?_⟩
      · have := hslots.le
        change cb.count + n ≤ _
        omega
      · rw [setSem_self, hslots.sem, Sem.mk.injEq]
        have := hslots.le
        refine ⟨?_, rfl⟩
        simp only [Sem.tokens]
        change _ = (PIPE_BUF_SIZE : Int) - cb.count - n
        omega
    · change (s.pipe.sem .freeSpaces).blockedQueue = _ at hqueue
      rw [hslots.sem] at hqueue
      cases hqueue
  cases h with
  | idle hm hslots hno =>
      obtain ⟨rfl, hslots'⟩ := hmore 0 hslots
      exact .idle ((setSem_other _ _ (by decide)).trans hm) hslots' hno
  | writing qs hm hslots hno =>
      obtain ⟨rfl, hslots'⟩ := hmore 0 hslots
      exact .writing qs ((setSem_other _ _ (by decide)).trans hm) hslots' hno
  | entering qs p call buf hm hslots hsole =>
      obtain ⟨rfl, hslots'⟩ := hmore 0 hslots
      exact .entering qs p call buf ((setSem_other _ _ (by decide)).trans hm) hslots'
        ⟨hsole.shape, hsole.unique⟩
  | granted qs p call buf n hm hslots hn hsole =>
      obtain ⟨rfl, hslots'⟩ := hmore 1 hslots
      exact .granted qs p call buf n ((setSem_other _ _ (by decide)).trans hm) hslots' hn
        ⟨hsole.shape, hsole.unique⟩
  | full qs p call buf n hm hfree hfull hn hsole =>
      rcases hpost with ⟨hnil, -⟩ | ⟨pid, rest, pr, hqueue, hpid, hstate, hwaits, rfl⟩
      · rw [hfree] at hnil
        cases hnil
      · change (s.pipe.sem .freeSpaces).blockedQueue = _ at hqueue
        rw [hfree] at hqueue
        obtain ⟨rfl, rfl⟩ : p = pid ∧ [] = rest := by simpa using hqueue
        have hcont : pr.cont = .writeSlot call buf n := by
          have := hsole.shape.symm.trans (shape_of hpid)
          simp only [Option.some.injEq, Prod.mk.injEq] at this
          exact this.1.symm
        refine .granted qs p call buf n ((setSem_other _ _ (by decide)).trans hm) ⟨?_, ?_⟩ hn
          ⟨?_, ?_⟩
        · change cb.count + 1 ≤ _
          omega
        · rw [setSem_self, Sem.waiting, Sem.mk.injEq]
          refine ⟨?_, rfl⟩
          change _ = (PIPE_BUF_SIZE : Int) - cb.count - 1
          simp only [List.length_nil]
          omega
        · rw [shape_wake, if_pos rfl, hcont]
        · intro q sh hq ho
          by_contra hne
          rw [shape_wake, if_neg hne] at hq
          exact hne (hsole.unique q sh hq ho)

/-! ## What a writer does -/

/-- A writer takes the free lock. -/
theorem lock (h : s.Phase false) (hpos : 0 < (s.pipe.sem .writeMutex).value) :
    (s.setSem .writeMutex ⟨(s.pipe.sem .writeMutex).value - 1, []⟩).Phase true := by
  have hno : ∀ qs, s.pipe.sem .writeMutex ≠ Sem.waiting qs := by
    intro qs hqs
    rw [hqs, Sem.waiting_value] at hpos
    omega
  cases h with
  | idle hm hslots hnone =>
      refine .writing [] ?_ (hslots.congr rfl (setSem_other _ _ (by decide))) hnone
      rw [setSem_self, hm]
      rfl
  | entering qs _ _ _ hm | full qs _ _ _ _ hm | granted qs _ _ _ _ hm => exact absurd hm (hno qs)

/-- A writer waits for the lock. -/
theorem blockOn_writeMutex (h : s.Phase false) (hrun : s.Running)
    (hneg : (s.pipe.sem .writeMutex).value ≤ 0) (call : Nat) (buf : List UInt8) :
    (s.blockOn .writeMutex (.writeMutex call buf)).Phase false := by
  have hshape := shape_of_not_owns (t := s.blockOn .writeMutex (.writeMutex call buf))
    (fun q hq ↦ by rw [shape_blockOn, if_neg hq]) hrun.shape (by rw [shape_blockOn, if_pos rfl])
    (by rintro _ ⟨⟩; exact id) (by rintro _ ⟨⟩; exact nofun)
  have hqueue : ∀ qs, s.pipe.sem .writeMutex = Sem.waiting qs →
      (s.blockOn .writeMutex (.writeMutex call buf)).pipe.sem .writeMutex =
        Sem.waiting (qs ++ [s.procs.currentPID]) := by
    intro qs hqs
    rw [Sys.blockOn, setSem_self, hqs, Sem.waiting_queue]
  have hfree : (s.blockOn .writeMutex (.writeMutex call buf)).pipe.sem .freeSpaces =
      s.pipe.sem .freeSpaces := setSem_other _ _ (by decide)
  cases h with
  | idle hm _ _ =>
      rw [hm] at hneg
      exact absurd hneg (by decide)
  | entering qs p call' buf' hm hslots hsole =>
      exact .entering _ p call' buf' (hqueue qs hm) (hslots.congr rfl hfree)
        (hsole.congr rfl hshape)
  | full qs p call' buf' n hm hf hc hn hsole =>
      exact .full _ p call' buf' n (hqueue qs hm) (hfree.trans hf) hc hn
        (hsole.congr trivial hshape)
  | granted qs p call' buf' n hm hslots hn hsole =>
      exact .granted _ p call' buf' n (hqueue qs hm) (hslots.congr rfl hfree) hn
        (hsole.congr trivial hshape)

/-- While the writer is on the processor, no other process is past the lock. -/
theorem not_owns (h : s.Phase true) (q : Int) (sh : Cont × Bool) (hq : s.shape q = some sh) :
    ¬Owns sh := by
  cases h with
  | writing _ _ _ hno => exact hno q sh hq

/-- A slot that is taken is a free one. -/
theorem room (h : s.Phase true) (hpos : 0 < (s.pipe.sem .freeSpaces).value) :
    s.pipe.buffer.count < PIPE_BUF_SIZE := by
  cases h with
  | writing qs hm hslots hno =>
      rw [hslots.sem] at hpos
      simp only at hpos
      omega

/-- **A byte is written** into a slot that was taken before. -/
theorem written (hm : ∃ qs, s.pipe.sem .writeMutex = Sem.waiting qs) (hslots : s.Slots 1)
    (hno : ∀ q sh, s.shape q = some sh → ¬Owns sh) (hclean : s.Clean) (h : Inv strict s)
    (hcb : cb.Wf) (hsize : cb.maxSize = s.pipe.buffer.maxSize)
    (hcount : cb.count = s.pipe.buffer.count + 1) (call : Nat) (b : UInt8) :
    (s.written cb call b).Phase true := by
  obtain ⟨qs, hm⟩ := hm
  have hphase : Phase ({ s.setBuffer cb with stream := s.stream ++ [(call, b)] } : Sys) true := by
    refine .writing qs hm ⟨?_, ?_⟩ hno
    · have := hslots.le
      change cb.count + 0 ≤ _
      omega
    · change s.pipe.sem .freeSpaces = ⟨(PIPE_BUF_SIZE : Int) - cb.count - (0 : Nat), []⟩
      rw [hslots.sem, hcount, Sem.mk.injEq]
      refine ⟨?_, rfl⟩
      push_cast
      omega
  unfold Sys.written
  split
  · exact hphase.post_dataAvailable ⟨hclean.queued, hclean.zombie⟩
      ((h.setBuffer hcb hsize).good.congr rfl rfl rfl)
  · exact hphase

/-- A slot is taken and a byte written. -/
theorem byte (h : s.Phase true) (hclean : s.Clean) (hinv : Inv strict s)
    (hpos : 0 < (s.pipe.sem .freeSpaces).value) (hcb : cb.Wf)
    (hsize : cb.maxSize = s.pipe.buffer.maxSize) (hcount : cb.count = s.pipe.buffer.count + 1)
    (call : Nat) (b : UInt8) :
    ((s.setSem .freeSpaces ⟨(s.pipe.sem .freeSpaces).value - 1, []⟩).written cb call b).Phase
      true := by
  have hroom := h.room hpos
  cases h with
  | writing qs hm hslots hno =>
      refine written ⟨qs, (setSem_other _ _ (by decide)).trans hm⟩ ⟨?_, ?_⟩ hno
        (hclean.setSem rfl) (hinv.take (x := .freeSpaces) (by decide) hpos) hcb hsize hcount call b
      · change s.pipe.buffer.count + 1 ≤ _
        omega
      · rw [setSem_self, hslots.sem, Sem.mk.injEq]
        refine ⟨?_, rfl⟩
        change (PIPE_BUF_SIZE : Int) - s.pipe.buffer.count - (0 : Nat) - 1 =
          PIPE_BUF_SIZE - s.pipe.buffer.count - (1 : Nat)
        omega

/-- The writer waits for a slot: the buffer is full. -/
theorem blockOn_freeSpaces (h : s.Phase true)
    (hneg : (s.pipe.sem .freeSpaces).value ≤ 0) (call : Nat) {buf : List UInt8}
    (hn : n < buf.length) : (s.blockOn .freeSpaces (.writeSlot call buf n)).Phase false := by
  cases h with
  | writing qs hm hslots hno =>
      have hle := hslots.le
      rw [hslots.sem] at hneg
      simp only at hneg
      refine .full qs s.procs.currentPID call buf n ((setSem_other _ _ (by decide)).trans hm) ?_ ?_
        hn ⟨by rw [shape_blockOn, if_pos rfl], fun q sh hq ho ↦ ?_⟩
      · rw [Sys.blockOn, setSem_self, hslots.sem]
        rfl
      · change s.pipe.buffer.count = _
        omega
      · by_contra hne
        rw [shape_blockOn, if_neg hne] at hq
        exact hno q sh hq ho

/-- **The writer is done** and hands the lock on: to the one that waits longest, if any. -/
theorem unlock (h : s.Phase true) (hclean : s.Clean) (hgood : Good strict s) :
    (s.post .writeMutex).Phase false := by
  cases h with
  | writing qs hm hslots hno =>
      rcases hclean.post_cases hgood .writeMutex with
        ⟨hnil, hpost⟩ | ⟨pid, rest, pr, hqueue, hpid, -, hwaits, hpost⟩
      · rw [hpost]
        refine .idle ?_ (hslots.congr rfl (setSem_other _ _ (by decide))) hno
        rw [hm, Sem.waiting_queue] at hnil
        rw [setSem_self, hm, hnil]
        rfl
      · rw [hpost]
        cases hcont : pr.cont with
        | writeMutex call buf =>
            refine .entering rest pid call buf (setSem_self _ _ _)
              (hslots.congr rfl (setSem_other _ _ (by decide))) ⟨?_, fun q sh hq ho ↦ ?_⟩
            · rw [shape_wake, if_pos rfl, hcont]
            · by_contra hne
              rw [shape_wake, if_neg hne] at hq
              exact hno q sh hq ho
        | _ =>
            rw [hcont] at hwaits
            cases hwaits

/-! ## Going on -/

/-- A reader goes on. -/
theorem resume_readData (h : s.Phase writing) (hpr : s.running = some pr) {count : Nat}
    (hcont : pr.cont = .readData count) : (s.suspend .user).Phase writing := by
  refine h.congr rfl rfl rfl (shape_of_not_owns
    (fun q hq ↦ by rw [shape_resume hpr, if_neg hq]) (shape_of (running_eq_some.mp hpr).1)
    (by rw [shape_resume hpr, if_pos rfl]) ?_ ?_)
  · rintro _ ⟨⟩
    exact not_owns_of_waitsOn (by rw [hcont]; rfl) _
  · rintro _ ⟨⟩
    exact id

/-- Once the writer goes on, there is no other. -/
theorem no_other (hpr : s.running = some pr) {sh : Cont × Bool}
    (hsole : s.Sole s.procs.currentPID sh) (q : Int) (sh' : Cont × Bool)
    (hq : (s.suspend .user).shape q = some sh') : ¬Owns sh' := by
  rw [shape_resume hpr] at hq
  by_cases heq : q = s.procs.currentPID
  · rw [if_pos heq, Option.some.injEq] at hq
    rw [← hq]
    exact id
  · rw [if_neg heq] at hq
    exact fun ho ↦ heq (hsole.unique q sh' hq ho)

/-- The writer that was handed the lock goes on. -/
theorem resume_writeMutex (h : s.Phase false) (hpr : s.running = some pr) {call : Nat}
    {buf : List UInt8} (hcont : pr.cont = .writeMutex call buf) : (s.suspend .user).Phase true := by
  obtain ⟨hcur, hstate⟩ := running_eq_some.mp hpr
  have hshape : s.shape s.procs.currentPID = some (.writeMutex call buf, false) := by
    rw [shape_of hcur, hcont, hstate]
    rfl
  cases h with
  | idle _ _ hno => exact absurd rfl (hno _ _ hshape)
  | entering qs p _ _ hm hslots hsole =>
      obtain rfl := hsole.unique _ _ hshape rfl
      exact .writing qs hm (hslots.congr rfl rfl) (no_other hpr hsole)
  | full qs p _ _ _ _ _ _ _ hsole | granted qs p _ _ _ _ _ _ hsole =>
      obtain rfl := hsole.unique _ _ hshape rfl
      cases hshape.symm.trans hsole.shape

/-- The writer that was granted a slot goes on. -/
theorem resume_writeSlot (h : s.Phase false) (hpr : s.running = some pr) {call n : Nat}
    {buf : List UInt8} (hcont : pr.cont = .writeSlot call buf n) :
    n < buf.length ∧ (∃ qs, (s.suspend .user).pipe.sem .writeMutex = Sem.waiting qs) ∧
      (s.suspend .user).Slots 1 ∧
      ∀ q sh, (s.suspend .user).shape q = some sh → ¬Owns sh := by
  obtain ⟨hcur, hstate⟩ := running_eq_some.mp hpr
  have hshape : s.shape s.procs.currentPID = some (.writeSlot call buf n, false) := by
    rw [shape_of hcur, hcont, hstate]
    rfl
  cases h with
  | idle _ _ hno => exact absurd trivial (hno _ _ hshape)
  | granted qs p _ _ _ hm hslots hn hsole =>
      obtain rfl := hsole.unique _ _ hshape trivial
      obtain ⟨-, rfl, rfl⟩ : call = _ ∧ buf = _ ∧ n = _ := by
        simpa using hshape.symm.trans hsole.shape
      exact ⟨hn, ⟨qs, hm⟩, hslots.congr rfl rfl, no_other hpr hsole⟩
  | entering qs p _ _ _ _ hsole | full qs p _ _ _ _ _ _ _ hsole =>
      obtain rfl := hsole.unique _ _ hshape trivial
      cases hshape.symm.trans hsole.shape

end Phase

/-! ## The sum -/

/-- The process was granted a slot and has not run since. -/
def Proc.holdsSlot (pr : Proc) : Bool :=
  match pr.cont with
  | .writeSlot _ _ _ => pr.state ≠ .BLOCKED
  | _ => false

/-- The pids that were granted a slot and have not run since. -/
def slotHolders (s : Sys) : Finset Int :=
  pids.filter fun pid ↦ (s.procs.table pid).any Proc.holdsSlot

theorem mem_slotHolders (hvalid : s.procs.Valid) :
    pid ∈ s.slotHolders ↔ ∃ call buf n, s.shape pid = some (.writeSlot call buf n, false) := by
  rw [slotHolders, Finset.mem_filter, Option.any_eq_true]
  constructor
  · rintro ⟨-, pr, hpr, hholds⟩
    rw [shape_of hpr]
    unfold Proc.holdsSlot at hholds
    split at hholds
    next call buf n hcont =>
        exact ⟨call, buf, n, by rw [hcont]; simpa using hholds⟩
    next => cases hholds
  · rintro ⟨call, buf, n, hshape⟩
    obtain ⟨pr, hpr, heq⟩ := Option.map_eq_some_iff.mp hshape
    rw [Prod.mk.injEq] at heq
    have hrange := (hvalid pid pr hpr).1
    refine ⟨mem_pids.mpr hrange, pr, hpr, ?_⟩
    rw [Proc.holdsSlot, heq.1]
    simpa using heq.2

/-- **Tokens, bytes and granted slots make up the buffer.** -/
theorem Phase.total (h : s.Phase false) (hvalid : s.procs.Valid) :
    (s.pipe.sem .freeSpaces).tokens + s.pipe.buffer.count + s.slotHolders.card = PIPE_BUF_SIZE := by
  have hnone : (∀ q call buf n, s.shape q ≠ some (.writeSlot call buf n, false)) →
      s.slotHolders.card = 0 := by
    intro hno
    rw [Finset.card_eq_zero, Finset.eq_empty_iff_forall_notMem]
    intro q hq
    obtain ⟨call, buf, n, hshape⟩ := (mem_slotHolders hvalid).mp hq
    exact hno q call buf n hshape
  cases h with
  | idle _ hslots hno =>
      rw [hnone fun q call buf n hshape ↦ hno q _ hshape trivial, hslots.sem]
      have := hslots.le
      simp only [Sem.tokens]
      omega
  | entering _ p _ _ _ hslots hsole =>
      rw [hnone fun q call buf n hshape ↦ ?_, hslots.sem]
      · have := hslots.le
        simp only [Sem.tokens]
        omega
      · obtain rfl := hsole.unique q _ hshape trivial
        cases hshape.symm.trans hsole.shape
  | full _ p _ _ _ _ hfree hfull _ hsole =>
      rw [hnone fun q call buf n hshape ↦ ?_, hfree, hfull]
      · rfl
      · obtain rfl := hsole.unique q _ hshape trivial
        cases hshape.symm.trans hsole.shape
  | granted _ p call buf n _ hslots _ hsole =>
      have hone : s.slotHolders = {p} := by
        refine Finset.eq_singleton_iff_unique_mem.mpr
          ⟨(mem_slotHolders hvalid).mpr ⟨call, buf, n, hsole.shape⟩, fun q hq ↦ ?_⟩
        obtain ⟨call', buf', n', hshape⟩ := (mem_slotHolders hvalid).mp hq
        exact hsole.unique q _ hshape trivial
      rw [hone, Finset.card_singleton, hslots.sem]
      have := hslots.le
      simp only [Sem.tokens]
      omega

end Sys

end BareBones.IPC
