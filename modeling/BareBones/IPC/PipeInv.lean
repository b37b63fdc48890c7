import BareBones.IPC.PipeOps

/-!
# The invariant of a pipe and its processes

What holds of a pipe in every run: `Good` about the semaphores and the processes
that wait for them, `Ends` about the write ends, and `Holding` about the processes
that are inside a write.  `Good` comes in two strengths.  In any run, a blocked
process is queued where it waits.  In a `strict` run, in which no pid is reused as
long as it is queued, it is also the other way round: what is queued is dead or
blocked right there.
-/

namespace BareBones.IPC

open BareBones.Process BareBones.Semaphores

/-- Inside a write. -/
def Cont.Writing : Cont → Prop
  | writeMutex _ _ | writeSlot _ _ _ => True
  | _ => False

namespace Sys

/-- The invariant of the semaphores and the processes. -/
structure Good (strict : Prop) (s : Sys) : Prop where
  wf : ∀ x, (s.pipe.sem x).Wf
  buffer : s.pipe.buffer.Wf
  size : s.pipe.buffer.maxSize = PIPE_BUF_SIZE
  valid : s.procs.Valid
  nodes : s.procs.nodes = true
  /-- Nobody holds `readMutex` across a blocking point, or waits for it. -/
  mutex : s.pipe.sem .readMutex = ⟨1, []⟩
  noMutex : ∀ pid pr, s.procs.table pid = some pr → pr.cont.waitsOn ≠ some .readMutex
  /-- A blocked process is queued where it waits. -/
  queued : ∀ pid pr, s.procs.table pid = some pr → pr.state = .BLOCKED →
    ∃ x, pr.cont.waitsOn = some x ∧ pid ∈ (s.pipe.sem x).blockedQueue
  nodup : strict → ∀ x, (s.pipe.sem x).blockedQueue.Nodup
  /-- What is queued is dead or blocked there. -/
  waits : strict → ∀ x pid pr, pid ∈ (s.pipe.sem x).blockedQueue →
    s.procs.table pid = some pr → pr.state ≠ .ZOMBIE →
    pr.state = .BLOCKED ∧ pr.cont.waitsOn = some x

/-- The running process is outside the pipe, or in the middle of a call. -/
def Running (s : Sys) : Prop := s.procs.table s.procs.currentPID = some ⟨.RUNNING, .user⟩

/-- The pipe counts its write ends, and each of them is referred to. -/
structure Ends (s : Sys) : Prop where
  count : s.pipe.writerCount = s.writeEnds.length
  nonempty : ∀ e ∈ s.writeEnds, e ≠ []

/-- The live processes that satisfy `P` and are inside a write have the pipe open for
writing. -/
def Holding (P : Int → Prop) (s : Sys) : Prop :=
  ∀ pid pr, P pid → s.procs.table pid = some pr → pr.state ≠ .ZOMBIE → pr.cont.Writing →
    s.Holds pid

variable {strict : Prop} {s t : Sys} {x y : PipeSem} {pid : Int} {pr : Proc} {m : Sem}
  {cb : CircularBuffer} {c : Cont} {P : Int → Prop}

/-! ## Operations on semaphores -/

namespace Good

/-- `Good` is about the pipe and the processes only. -/
theorem congr (h : Good strict s) (hsem : t.pipe.sem = s.pipe.sem)
    (hbuffer : t.pipe.buffer = s.pipe.buffer) (hprocs : t.procs = s.procs) : Good strict t where
  wf := hsem ▸ h.wf
  buffer := hbuffer ▸ h.buffer
  size := hbuffer ▸ h.size
  valid := hprocs ▸ h.valid
  nodes := hprocs ▸ h.nodes
  mutex := hsem ▸ h.mutex
  noMutex := hprocs ▸ h.noMutex
  queued := by
    rw [hsem, hprocs]
    exact h.queued
  nodup := hsem ▸ h.nodup
  waits := by
    rw [hsem, hprocs]
    exact h.waits

/-- A semaphore without a queue changes its value. -/
theorem setSem (h : Good strict s) (hx : x ≠ .readMutex)
    (hqueue : ∀ pid ∈ (s.pipe.sem x).blockedQueue, ¬s.procs.Blocked pid) (hm : m.Wf)
    (hnil : m.blockedQueue = []) : Good strict (s.setSem x m) where
  wf y := by
    by_cases heq : y = x
    · rw [heq, setSem_self]
      exact hm
    · rw [setSem_other _ _ heq]
      exact h.wf y
  buffer := h.buffer
  size := h.size
  valid := h.valid
  nodes := h.nodes
  mutex := by rw [setSem_other _ _ hx.symm, h.mutex]
  noMutex := h.noMutex
  queued pid pr hpid hstate := by
    obtain ⟨y, hwaits, hmem⟩ := h.queued pid pr hpid hstate
    have hne : y ≠ x := fun heq ↦ hqueue pid (heq ▸ hmem) ⟨pr, hpid, hstate⟩
    exact ⟨y, hwaits, by rwa [setSem_other _ _ hne]⟩
  nodup hs y := by
    by_cases heq : y = x
    · rw [heq, setSem_self, hnil]
      exact List.nodup_nil
    · rw [setSem_other _ _ heq]
      exact h.nodup hs y
  waits hs y pid pr hmem hpid hstate := by
    by_cases heq : y = x
    · rw [heq, setSem_self, hnil] at hmem
      cases hmem
    · rw [setSem_other _ _ heq] at hmem
      exact h.waits hs y pid pr hmem hpid hstate

/-- A token is taken. -/
theorem take (h : Good strict s) (hx : x ≠ .readMutex) (hpos : 0 < (s.pipe.sem x).value) :
    Good strict (s.setSem x ⟨(s.pipe.sem x).value - 1, []⟩) :=
  h.setSem hx (by simp [(h.wf x).queue_eq_nil hpos]) (Sem.Wf.take hpos) rfl

/-- A process is woken by the semaphore it is queued at. -/
theorem wake (h : Good strict s) (hx : x ≠ .readMutex) {dead rest : List Int}
    (hqueue : (s.pipe.sem x).blockedQueue = dead ++ pid :: rest)
    (hdead : ∀ d ∈ dead, ¬s.procs.Blocked d) (hpid : s.procs.table pid = some pr)
    (hstate : pr.state = .BLOCKED) :
    Good strict ((s.wake pid pr).setSem x (Sem.waiting rest)) where
  wf y := by
    by_cases heq : y = x
    · rw [heq, setSem_self]
      exact Sem.waiting_wf rest
    · rw [setSem_other _ _ heq]
      exact h.wf y
  buffer := h.buffer
  size := h.size
  valid := h.valid.set hpid _
  nodes := h.nodes
  mutex := by
    rw [setSem_other _ _ hx.symm]
    exact h.mutex
  noMutex q pr' hq := by
    by_cases heq : q = pid
    · subst heq
      obtain rfl := Option.some.inj ((Procs.set_self _ _ _).symm.trans hq)
      exact h.noMutex q pr hpid
    · exact h.noMutex q pr' ((Procs.set_other _ _ heq).symm.trans hq)
  queued q pr' hq hblocked := by
    by_cases heq : q = pid
    · subst heq
      obtain rfl := Option.some.inj ((Procs.set_self _ _ _).symm.trans hq)
      cases hblocked
    · have hq' : s.procs.table q = some pr' := (Procs.set_other _ _ heq).symm.trans hq
      obtain ⟨y, hwaits, hmem⟩ := h.queued q pr' hq' hblocked
      refine ⟨y, hwaits, ?_⟩
      by_cases hyx : y = x
      · subst hyx
        rw [setSem_self, Sem.waiting_queue]
        rw [hqueue, List.mem_append, List.mem_cons] at hmem
        rcases hmem with hmem | rfl | hmem
        · exact absurd ⟨pr', hq', hblocked⟩ (hdead q hmem)
        · exact absurd rfl heq
        · exact hmem
      · rw [setSem_other _ _ hyx]
        exact hmem
  nodup hs y := by
    by_cases hyx : y = x
    · have hnodup := h.nodup hs x
      rw [hqueue] at hnodup
      rw [hyx, setSem_self]
      exact ((List.nodup_append.mp hnodup).2.1).of_cons
    · rw [setSem_other _ _ hyx]
      exact h.nodup hs y
  waits hs y q pr' hmem hq hlive := by
    by_cases heq : q = pid
    · subst heq
      exfalso
      by_cases hyx : y = x
      · subst hyx
        have hnodup := h.nodup hs y
        rw [hqueue] at hnodup
        rw [setSem_self] at hmem
        exact (List.nodup_cons.mp (List.nodup_append.mp hnodup).2.1).1 hmem
      · rw [setSem_other _ _ hyx] at hmem
        have hlive' : pr.state ≠ .ZOMBIE := by simp [hstate]
        have hwx := (h.waits hs x q pr (by simp [hqueue]) hpid hlive').2
        have hwy := (h.waits hs y q pr hmem hpid hlive').2
        exact hyx (Option.some.inj (hwy.symm.trans hwx))
    · have hq' : s.procs.table q = some pr' := (Procs.set_other _ _ heq).symm.trans hq
      refine h.waits hs y q pr' ?_ hq' hlive
      by_cases hyx : y = x
      · subst hyx
        rw [setSem_self, Sem.waiting_queue] at hmem
        simp [hqueue, hmem]
      · rwa [setSem_other _ _ hyx] at hmem

/-- A post keeps the invariant. -/
theorem post (h : Good strict s) (hx : x ≠ .readMutex) : Good strict (s.post x) := by
  rcases post_spec (h.wf x) h.valid with
    ⟨dead, pid, rest, pr, hqueue, hdead, hpid, hstate, hpost⟩ | ⟨hdead, hpost⟩
  · rw [hpost]
    exact h.wake hx hqueue hdead hpid hstate
  · rw [hpost]
    exact h.setSem hx hdead (Sem.free_wf ((s.pipe.sem x).tokens + 1)) rfl

/-- The running process is not queued anywhere. -/
theorem running_not_queued (h : Good strict s) (hs : strict) (hrun : s.Running) (x : PipeSem) :
    s.procs.currentPID ∉ (s.pipe.sem x).blockedQueue := fun hmem ↦ by
  have := (h.waits hs x _ _ hmem hrun (by simp)).1
  cases this

/-- The running process stops at a semaphore. -/
theorem blockOn (h : Good strict s) (hrun : s.Running) (hx : x ≠ .readMutex)
    (hc : c.waitsOn = some x) : Good strict (s.blockOn x c) where
  wf y := by
    by_cases heq : y = x
    · rw [heq, Sys.blockOn, setSem_self]
      exact Sem.waiting_wf _
    · rw [Sys.blockOn, setSem_other _ _ heq]
      exact h.wf y
  buffer := h.buffer
  size := h.size
  valid := h.valid.set hrun _
  nodes := h.nodes
  mutex := by
    rw [Sys.blockOn, setSem_other _ _ hx.symm]
    exact h.mutex
  noMutex q pr' hq := by
    by_cases heq : q = s.procs.currentPID
    · subst heq
      obtain rfl := Option.some.inj ((Procs.set_self _ _ _).symm.trans hq)
      simpa [hc] using hx
    · exact h.noMutex q pr' ((Procs.set_other _ _ heq).symm.trans hq)
  queued q pr' hq hblocked := by
    by_cases heq : q = s.procs.currentPID
    · subst heq
      obtain rfl := Option.some.inj ((Procs.set_self _ _ _).symm.trans hq)
      exact ⟨x, hc, by simp [Sys.blockOn]⟩
    · obtain ⟨y, hwaits, hmem⟩ :=
        h.queued q pr' ((Procs.set_other _ _ heq).symm.trans hq) hblocked
      refine ⟨y, hwaits, ?_⟩
      by_cases hyx : y = x
      · subst hyx
        simp [Sys.blockOn, hmem]
      · rw [Sys.blockOn, setSem_other _ _ hyx]
        exact hmem
  nodup hs y := by
    by_cases hyx : y = x
    · subst hyx
      rw [Sys.blockOn, setSem_self, Sem.waiting_queue]
      exact List.nodup_append.mpr ⟨h.nodup hs y, List.pairwise_singleton _ _, fun q hq r hr ↦ by
        rw [List.mem_singleton.mp hr]
        exact fun heq ↦ h.running_not_queued hs hrun y (heq ▸ hq)⟩
    · rw [Sys.blockOn, setSem_other _ _ hyx]
      exact h.nodup hs y
  waits hs y q pr' hmem hq hlive := by
    have hmem' : q ∈ (s.pipe.sem y).blockedQueue ∨ (y = x ∧ q = s.procs.currentPID) := by
      by_cases hyx : y = x
      · subst hyx
        simpa [Sys.blockOn] using hmem
      · rw [Sys.blockOn, setSem_other _ _ hyx] at hmem
        exact .inl hmem
    by_cases heq : q = s.procs.currentPID
    · subst heq
      obtain rfl := Option.some.inj ((Procs.set_self _ _ _).symm.trans hq)
      rcases hmem' with hmem' | ⟨rfl, -⟩
      · exact absurd hmem' (h.running_not_queued hs hrun y)
      · exact ⟨rfl, hc⟩
    · have hmem'' := hmem'.resolve_right fun hboth ↦ heq hboth.2
      exact h.waits hs y q pr' hmem'' ((Procs.set_other _ _ heq).symm.trans hq) hlive

/-- The buffer changes. -/
theorem setBuffer (h : Good strict s) (hcb : cb.Wf) (hsize : cb.maxSize = PIPE_BUF_SIZE) :
    Good strict (s.setBuffer cb) :=
  { h with buffer := hcb, size := hsize }

end Good

/-! ## Who is running and who writes -/

/-- A post wakes a blocked process, hence not the running one. -/
theorem Running.post (h : Good strict s) (hrun : s.Running) (x : PipeSem) : (s.post x).Running := by
  rcases post_spec (h.wf x) h.valid with
    ⟨dead, pid, rest, pr, -, -, hpid, hstate, hpost⟩ | ⟨-, hpost⟩
  · rw [hpost]
    have hne : s.procs.currentPID ≠ pid := fun heq ↦ by
      rw [← heq, hrun] at hpid
      cases hpid
      cases hstate
    exact (Procs.set_other _ _ hne).trans hrun
  · rw [hpost]
    exact hrun

/-- A post changes no continuation, and kills nobody. -/
theorem post_table (h : Good strict s) {pr' : Proc}
    (hpr : (s.post x).procs.table pid = some pr') : ∃ pr, s.procs.table pid = some pr ∧
      pr'.cont = pr.cont ∧ (pr' = pr ∨ (pr.state = .BLOCKED ∧ pr'.state = .READY)) := by
  rcases post_spec (h.wf x) h.valid with
    ⟨dead, q, rest, pr, -, -, hq, hstate, hpost⟩ | ⟨-, hpost⟩
  · rw [hpost] at hpr
    by_cases heq : pid = q
    · subst heq
      obtain rfl := Option.some.inj ((Procs.set_self _ _ _).symm.trans hpr)
      exact ⟨pr, hq, rfl, .inr ⟨hstate, rfl⟩⟩
    · exact ⟨pr', (Procs.set_other _ _ heq).symm.trans hpr, rfl, .inl rfl⟩
  · rw [hpost] at hpr
    exact ⟨pr', hpr, rfl, .inl rfl⟩

theorem post_currentPID (s : Sys) (h : Good strict s) (x : PipeSem) :
    (s.post x).procs.currentPID = s.procs.currentPID := by
  rcases post_spec (h.wf x) h.valid with ⟨dead, pid, rest, pr, -, -, -, -, hpost⟩ | ⟨-, hpost⟩ <;>
    rw [hpost] <;> rfl

theorem Holding.post (h : Good strict s) (hhold : Holding P s) (x : PipeSem) :
    Holding P (s.post x) := by
  intro pid pr' hP hpr hlive hwriting
  obtain ⟨pr, hpid, hcont, hor⟩ := post_table h hpr
  refine hhold pid pr hP hpid ?_ (hcont ▸ hwriting)
  rcases hor with rfl | ⟨hblocked, -⟩
  · exact hlive
  · simp [hblocked]

/-! ## Changes of the process table -/

/-- A slot of the table changes to something that is not blocked. -/
theorem Good.update (new : Option Proc) (h : Good strict s) (hpipe : t.pipe = s.pipe)
    (hnodes : t.procs.nodes = s.procs.nodes)
    (htable : ∀ q, t.procs.table q = if q = pid then new else s.procs.table q)
    (hvalid : new.isSome → ¬invalidPID pid ∧ pid ≠ IDLE_PID)
    (hblocked : ∀ pr', new = some pr' → pr'.state ≠ .BLOCKED)
    (hmutex : ∀ pr', new = some pr' → pr'.cont.waitsOn ≠ some .readMutex)
    (hqueue : strict → ∀ pr', new = some pr' → pr'.state ≠ .ZOMBIE →
      ∀ x, pid ∉ (s.pipe.sem x).blockedQueue) : Good strict t where
  wf := hpipe ▸ h.wf
  buffer := hpipe ▸ h.buffer
  size := hpipe ▸ h.size
  mutex := hpipe ▸ h.mutex
  nodup := hpipe ▸ h.nodup
  nodes := hnodes.trans h.nodes
  valid q pr' hq := by
    by_cases heq : q = pid
    · subst heq
      rw [htable, if_pos rfl] at hq
      exact hvalid (by simp [hq])
    · rw [htable, if_neg heq] at hq
      exact h.valid q pr' hq
  noMutex q pr' hq := by
    by_cases heq : q = pid
    · rw [htable, if_pos heq] at hq
      exact hmutex pr' hq
    · rw [htable, if_neg heq] at hq
      exact h.noMutex q pr' hq
  queued q pr' hq hst := by
    by_cases heq : q = pid
    · rw [htable, if_pos heq] at hq
      exact absurd hst (hblocked pr' hq)
    · rw [htable, if_neg heq] at hq
      rw [hpipe]
      exact h.queued q pr' hq hst
  waits hs x q pr' hmem hq hlive := by
    rw [hpipe] at hmem
    by_cases heq : q = pid
    · subst heq
      rw [htable, if_pos rfl] at hq
      exact absurd hmem (hqueue hs pr' hq hlive x)
    · rw [htable, if_neg heq] at hq
      exact h.waits hs x q pr' hmem hq hlive

/-- A live process that is not blocked is not queued anywhere. -/
theorem Good.not_queued (h : Good strict s) (hs : strict) (hpid : s.procs.table pid = some pr)
    (hlive : pr.state ≠ .ZOMBIE) (hstate : pr.state ≠ .BLOCKED) (x : PipeSem) :
    pid ∉ (s.pipe.sem x).blockedQueue :=
  fun hmem ↦ hstate (h.waits hs x pid pr hmem hpid hlive).1

/-- A live process that is not blocked changes its state, or leaves the pipe. -/
theorem Good.setProc (pr' : Proc) (h : Good strict s) (hpid : s.procs.table pid = some pr)
    (hlive : pr.state ≠ .ZOMBIE) (hstate : pr.state ≠ .BLOCKED)
    (hstate' : pr'.state ≠ .BLOCKED) (hcont : pr'.cont = pr.cont ∨ pr'.cont = .user)
    (hpipe : t.pipe = s.pipe) (hnodes : t.procs.nodes = s.procs.nodes)
    (htable : t.procs.table = (s.procs.set pid pr').table) : Good strict t := by
  refine update (some pr') h hpipe hnodes (fun q ↦ by rw [htable]; rfl)
    (fun _ ↦ h.valid pid pr hpid) (fun _ heq ↦ Option.some.inj heq ▸ hstate') (fun _ heq ↦ ?_)
    (fun hs _ _ _ ↦ h.not_queued hs hpid hlive hstate)
  obtain rfl := Option.some.inj heq
  rcases hcont with hcont | hcont <;> rw [hcont]
  · exact h.noMutex pid pr hpid
  · simp [Cont.waitsOn]

/-! ## The invariant -/

/-- The invariant of a pipe between two events. -/
structure Inv (strict : Prop) (s : Sys) : Prop where
  good : Good strict s
  ends : Ends s
  holding : Holding (fun _ ↦ True) s

theorem inv_init (data : Nat → UInt8) {creator : Int} (hvalid : ¬invalidPID creator)
    (hidle : creator ≠ IDLE_PID) : Inv strict (init data creator) := by
  have htable : ∀ pid pr, (init data creator).procs.table pid = some pr →
      pid = creator ∧ pr = ⟨.RUNNING, .user⟩ := by
    intro pid pr hpid
    simp only [init] at hpid
    split at hpid
    next heq => exact ⟨heq, (Option.some.inj hpid).symm⟩
    next => cases hpid
  have hqueue : ∀ x, ((init data creator).pipe.sem x).blockedQueue = [] := by
    intro x
    cases x <;> rfl
  refine ⟨⟨fun x ↦ ?_, CircularBuffer.new_wf data (by decide), rfl, ?_, rfl, rfl, ?_, ?_, ?_, ?_⟩,
    ⟨rfl, by simp [init]⟩, ?_⟩
  · cases x <;> exact Sem.Wf.new (by decide)
  · intro pid pr hpid
    rw [(htable pid pr hpid).1]
    exact ⟨hvalid, hidle⟩
  · intro pid pr hpid
    rw [(htable pid pr hpid).2]
    simp [Cont.waitsOn]
  · intro pid pr hpid hstate
    rw [(htable pid pr hpid).2] at hstate
    cases hstate
  · intro _ x
    rw [hqueue]
    exact List.nodup_nil
  · intro _ x pid pr hmem
    rw [hqueue] at hmem
    cases hmem
  · intro pid pr _ hpid _ hwriting
    rw [(htable pid pr hpid).2] at hwriting
    cases hwriting

/-! ## Reads and writes -/

namespace Inv

theorem post (h : Inv strict s) (hx : x ≠ .readMutex) : Inv strict (s.post x) :=
  ⟨h.good.post hx, ⟨h.ends.count, h.ends.nonempty⟩, h.holding.post h.good x⟩

theorem take (h : Inv strict s) (hx : x ≠ .readMutex) (hpos : 0 < (s.pipe.sem x).value) :
    Inv strict (s.setSem x ⟨(s.pipe.sem x).value - 1, []⟩) :=
  ⟨h.good.take hx hpos, ⟨h.ends.count, h.ends.nonempty⟩, h.holding⟩

theorem setBuffer (h : Inv strict s) (hcb : cb.Wf)
    (hsize : cb.maxSize = s.pipe.buffer.maxSize) : Inv strict (s.setBuffer cb) :=
  ⟨h.good.setBuffer hcb (hsize.trans h.good.size), ⟨h.ends.count, h.ends.nonempty⟩, h.holding⟩

theorem returnRead (h : Inv strict s) (count : Nat) (bytes : List UInt8) :
    Inv strict (s.returnRead count bytes) :=
  ⟨h.good.congr rfl rfl rfl, ⟨h.ends.count, h.ends.nonempty⟩, h.holding⟩

theorem blockOn (h : Inv strict s) (hrun : s.Running) (hx : x ≠ .readMutex)
    (hc : c.waitsOn = some x) (hholds : c.Writing → s.Holds s.procs.currentPID) :
    Inv strict (s.blockOn x c) := by
  refine ⟨h.good.blockOn hrun hx hc, ⟨h.ends.count, h.ends.nonempty⟩, fun pid pr hP hpid hlive hw ↦
    ?_⟩
  by_cases heq : pid = s.procs.currentPID
  · subst heq
    obtain rfl := Option.some.inj ((Procs.set_self _ _ _).symm.trans hpid)
    exact hholds hw
  · exact h.holding pid pr hP ((Procs.set_other _ _ heq).symm.trans hpid) hlive hw

end Inv

/-- **Draining the buffer** returns the oldest bytes, as many as were asked for, and
keeps what each round of the loop keeps. -/
theorem drainBuffer_spec {I : Sys → Prop} (hI : ∀ s, I s → s.pipe.buffer.Wf)
    (hstep : ∀ s cb b, I s → bufferRead s.pipe.buffer = (cb, b) → cb.Wf →
      s.pipe.buffer.contents = b :: cb.contents → cb.maxSize = s.pipe.buffer.maxSize →
      I ((s.setBuffer cb).post .freeSpaces)) (count : Nat) (h : I s) :
    I (drainBuffer count s).1 ∧ (drainBuffer count s).2 = s.pipe.buffer.contents.take count ∧
      (drainBuffer count s).1.pipe.buffer.contents = s.pipe.buffer.contents.drop count := by
  induction count generalizing s with
  | zero => exact ⟨h, rfl, rfl⟩
  | succ count ih =>
      by_cases hdata : 0 < s.pipe.buffer.count
      · obtain ⟨cb, b, hread, hwf, hcontents, hsize, -⟩ := (hI s h).read hdata
        obtain ⟨hI', htake, hdrop⟩ := ih (hstep s cb b h hread hwf hcontents hsize)
        have heq : drainBuffer (count + 1) s =
            ((drainBuffer count ((s.setBuffer cb).post .freeSpaces)).1,
              b :: (drainBuffer count ((s.setBuffer cb).post .freeSpaces)).2) := by
          simp only [drainBuffer, CircularBuffer.hasData_iff.mpr hdata, if_true, hread]
        rw [heq, htake, hdrop, hcontents]
        exact ⟨hI', rfl, rfl⟩
      · have hempty : s.pipe.buffer.contents = [] :=
          CircularBuffer.contents_eq_nil.mpr (Nat.eq_zero_of_not_pos hdata)
        have heq : drainBuffer (count + 1) s = (s, []) := by
          have hfalse : ¬bufferHasData s.pipe.buffer = true := fun htrue ↦
            hdata (CircularBuffer.hasData_iff.mp htrue)
          simp only [drainBuffer, hfalse, if_false, Bool.false_eq_true]
        rw [heq, hempty]
        exact ⟨h, rfl, rfl⟩

/-- What a blocking read of the running process can come to.  If it was `woken` from
its wait for data, it has been granted a token. -/
inductive ReadOutcome (woken : Bool) (s : Sys) (count : Nat) : Sys → Prop
  /-- The end of the stream. -/
  | eof : s.pipe.buffer.count = 0 → s.pipe.writerCount ≤ 0 →
      ReadOutcome woken s count (s.returnRead count [])
  /-- A token was there, and data. -/
  | taken : woken = false → 0 < s.pipe.buffer.count → 0 < (s.pipe.sem .dataAvailable).value →
      ReadOutcome woken s count
        ((s.setSem .dataAvailable ⟨(s.pipe.sem .dataAvailable).value - 1, []⟩).drained count)
  /-- The process was granted a token, and there is data. -/
  | granted : woken = true → 0 < s.pipe.buffer.count → ReadOutcome woken s count (s.drained count)
  /-- The process waits. -/
  | block : (0 < s.pipe.buffer.count → woken = false ∧ (s.pipe.sem .dataAvailable).value ≤ 0) →
      (0 < s.pipe.buffer.count ∨ 0 < s.pipe.writerCount) →
      ReadOutcome woken s count (s.blockOn .dataAvailable (.readData count))

/-- The loop of a read, entered with data or with writers. -/
theorem readLoop_outcome {woken : Bool} (h : Good strict s) (hrun : s.Running)
    (hgo : 0 < s.pipe.buffer.count ∨ 0 < s.pipe.writerCount)
    (hwoken : 0 < s.pipe.buffer.count → woken = false) (count : Nat) :
    ∃ t, readLoop count (s.fuel .dataAvailable) s = some t ∧ ReadOutcome woken s count t := by
  have hgo' : bufferHasData s.pipe.buffer = true ∨ ¬s.pipe.writerCount ≤ 0 :=
    hgo.imp CircularBuffer.hasData_iff.mpr not_le.mpr
  refine ⟨_, readLoop_spec count _ (Nat.lt_succ_self _) (h.wf _) h.mutex hrun h.nodes hgo', ?_⟩
  by_cases hboth : bufferHasData s.pipe.buffer = true ∧ 0 < (s.pipe.sem .dataAvailable).value
  · have hdata := CircularBuffer.hasData_iff.mp hboth.1
    rw [if_pos hboth]
    exact .taken (hwoken hdata) hdata hboth.2
  · rw [if_neg hboth]
    exact .block (fun hdata ↦ ⟨hwoken hdata, not_lt.mp fun hpos ↦
      hboth ⟨CircularBuffer.hasData_iff.mpr hdata, hpos⟩⟩) hgo

/-- **A blocking read returns or waits.** -/
theorem pipeRead_outcome (h : Good strict s) (hrun : s.Running) (count : Nat) :
    (count = 0 ∧ pipeRead s count = some (s.returnRead 0 [])) ∨
      (0 < count ∧ ∃ t, pipeRead s count = some t ∧ ReadOutcome false s count t) := by
  unfold pipeRead
  by_cases hzero : count = 0
  · exact .inl ⟨hzero, if_pos hzero⟩
  refine .inr ⟨Nat.pos_of_ne_zero hzero, ?_⟩
  rw [if_neg hzero, pipeReadBlocking]
  by_cases hend : (!bufferHasData s.pipe.buffer) = true ∧ s.pipe.writerCount ≤ 0
  · refine ⟨_, if_pos hend, .eof ?_ hend.2⟩
    simpa [bufferHasData] using hend.1
  · rw [if_neg hend]
    refine readLoop_outcome h hrun ?_ (fun _ ↦ rfl) count
    by_contra hnot
    rw [not_or] at hnot
    exact hend ⟨by simpa [bufferHasData] using hnot.1, not_lt.mp hnot.2⟩

/-- **A reader that was woken returns or waits again.** -/
theorem afterDataAvailable_outcome (h : Good strict s) (hrun : s.Running) (count : Nat) :
    ∃ t, afterDataAvailable (readLoop count (s.fuel .dataAvailable)) count s = some t ∧
      ReadOutcome true s count t := by
  rw [afterDataAvailable_eq _ _ h.mutex]
  by_cases hdata : bufferHasData s.pipe.buffer = true
  · exact ⟨_, if_pos hdata, .granted rfl (CircularBuffer.hasData_iff.mp hdata)⟩
  rw [if_neg hdata]
  have hempty : ¬0 < s.pipe.buffer.count := fun hpos ↦ hdata (CircularBuffer.hasData_iff.mpr hpos)
  by_cases hwriters : s.pipe.writerCount ≤ 0
  · exact ⟨_, if_pos hwriters, .eof (Nat.eq_zero_of_not_pos hempty) hwriters⟩
  · rw [if_neg hwriters]
    exact readLoop_outcome h hrun (.inr (not_le.mp hwriters)) (fun hpos ↦ absurd hpos hempty) count

/-- What draining the buffer and posting leave alone. -/
structure Frame (s t : Sys) : Prop where
  writerCount : t.pipe.writerCount = s.pipe.writerCount
  writeEnds : t.writeEnds = s.writeEnds
  calls : t.calls = s.calls
  stream : t.stream = s.stream
  results : t.results = s.results
  fullWrites : t.fullWrites = s.fullWrites
  current : t.procs.currentPID = s.procs.currentPID

theorem Frame.refl (s : Sys) : Frame s s := ⟨rfl, rfl, rfl, rfl, rfl, rfl, rfl⟩

theorem Frame.setBuffer (h : Frame s t) (cb : CircularBuffer) : Frame s (t.setBuffer cb) :=
  ⟨h.writerCount, h.writeEnds, h.calls, h.stream, h.results, h.fullWrites, h.current⟩

theorem Frame.post (h : Frame s t) (hgood : Good strict t) (x : PipeSem) : Frame s (t.post x) :=
  ⟨h.writerCount, h.writeEnds, h.calls, h.stream, h.results, h.fullWrites,
    (post_currentPID t hgood x).trans h.current⟩

/-- Draining keeps the invariant, and the process runs on. -/
theorem Inv.drainBuffer (h : Inv strict s) (hrun : s.Running) (count : Nat) :
    Inv strict (Sys.drainBuffer count s).1 ∧ (Sys.drainBuffer count s).1.Running ∧
      Frame s (Sys.drainBuffer count s).1 := by
  refine (drainBuffer_spec (I := fun t ↦ Inv strict t ∧ t.Running ∧ Frame s t)
    (fun t hI ↦ hI.1.good.buffer) (fun t cb b hI _ hwf _ hsize ↦ ?_) count
    ⟨h, hrun, .refl s⟩).1
  have hset := hI.1.setBuffer hwf hsize
  exact ⟨hset.post (by decide), hI.2.1.post hset.good _, (hI.2.2.setBuffer cb).post hset.good _⟩

/-- What is left of the buffer after a drain. -/
theorem Inv.drainBuffer_contents (h : Inv strict s) (count : Nat) :
    (Sys.drainBuffer count s).2 = s.pipe.buffer.contents.take count ∧
      (Sys.drainBuffer count s).1.pipe.buffer.contents = s.pipe.buffer.contents.drop count :=
  (drainBuffer_spec (I := Inv strict) (fun t hI ↦ hI.good.buffer)
    (fun t cb b hI _ hwf _ hsize ↦ (hI.setBuffer hwf hsize).post (by decide)) count h).2

/-- **A read that has found data**: it returns the oldest bytes, as many as were asked
for, and if it leaves some, it hands its token on. -/
theorem Inv.drained (h : Inv strict s) (hrun : s.Running) (count : Nat) :
    ∃ u, Inv strict u ∧ u.Running ∧ Frame s u ∧
      u.pipe.sem .dataAvailable = s.pipe.sem .dataAvailable ∧
      u.pipe.buffer.contents = s.pipe.buffer.contents.drop count ∧
      s.drained count = (if bufferHasData u.pipe.buffer then u.post .dataAvailable
        else u).returnRead count (s.pipe.buffer.contents.take count) := by
  obtain ⟨hinv, hrun', hframe⟩ := h.drainBuffer hrun count
  obtain ⟨htake, hdrop⟩ := h.drainBuffer_contents count
  refine ⟨_, hinv, hrun', hframe, drainBuffer_sem (by decide) count s, hdrop, ?_⟩
  rw [← htake]
  rfl

/-- **The result of a read that has found data.** -/
theorem Inv.drained_result (h : Inv strict s) (hrun : s.Running) (count : Nat) :
    Inv strict (s.drained count) ∧ (s.drained count).Running ∧
      (s.drained count).pipe.buffer.contents = s.pipe.buffer.contents.drop count ∧
      (s.drained count).results =
        s.results ++ [⟨s.procs.currentPID, count, s.pipe.buffer.contents.take count⟩] ∧
      (s.drained count).pipe.writerCount = s.pipe.writerCount := by
  obtain ⟨u, hinv, hrun', hframe, -, hcontents, heq⟩ := h.drained hrun count
  rw [heq]
  split
  · refine ⟨(hinv.post (by decide)).returnRead _ _, hrun'.post hinv.good _, hcontents, ?_,
      hframe.writerCount⟩
    simp only [Sys.returnRead, post_results, post_currentPID u hinv.good, hframe.results,
      hframe.current]
  · refine ⟨hinv.returnRead _ _, hrun', hcontents, ?_, hframe.writerCount⟩
    simp only [Sys.returnRead, hframe.results, hframe.current]

/-- Reads keep the invariant. -/
theorem Inv.read (h : Inv strict s) (hrun : s.Running) {woken : Bool} {count : Nat}
    (hout : ReadOutcome woken s count t) : Inv strict t := by
  cases hout with
  | eof _ _ => exact h.returnRead _ _
  | taken _ _ hpos => exact ((h.take (by decide) hpos).drained_result hrun count).1
  | granted _ _ => exact (h.drained_result hrun count).1
  | block _ _ => exact h.blockOn hrun (by decide) rfl fun hw ↦ hw.elim

/-- A byte is written. -/
theorem Inv.written (h : Inv strict s) (hcb : cb.Wf)
    (hsize : cb.maxSize = s.pipe.buffer.maxSize) (call : Nat) (b : UInt8) :
    Inv strict (s.written cb call b) := by
  have hset := h.setBuffer hcb hsize
  have hrec : Inv strict ({ s.setBuffer cb with stream := s.stream ++ [(call, b)] } : Sys) :=
    ⟨hset.good.congr rfl rfl rfl, ⟨hset.ends.count, hset.ends.nonempty⟩, hset.holding⟩
  unfold Sys.written
  split
  · exact hrec.post (by decide)
  · exact hrec

theorem Running.written (h : Inv strict s) (hrun : s.Running) (hcb : cb.Wf)
    (hsize : cb.maxSize = s.pipe.buffer.maxSize) (call : Nat) (b : UInt8) :
    (s.written cb call b).Running := by
  have hset := h.setBuffer hcb hsize
  have hgood : Good strict ({ s.setBuffer cb with stream := s.stream ++ [(call, b)] } : Sys) :=
    hset.good.congr rfl rfl rfl
  unfold Sys.written
  split
  · exact Running.post hgood hrun _
  · exact hrun

end Sys

end BareBones.IPC
