import BareBones.Process.InitProcess
import BareBones.Process.Zombie

/-!
# The books on dead children

A parent hears twice of the death of a child: `notifyTermination` posts its `childTerminated`
and puts the pid into its queue `terminatedChildren`.  `wait_any` and `reap_zombies` take a
token first and then poll the queue, trusting that there is an entry for every token;
`wait_pid` takes a token, if there is one, and then strikes out the entry of its own process,
if there is one.  A queue without an entry yields the pid 0, which is that of the idle process.

`FamilyInv` says that the books agree: for every process that is alive, the entries are
distinct, are its dead children, and are as many as the tokens that are available or granted
and not used.  This module is about the updates that make no entry disappear: what concerns
nobody's books (`SameTable`), creation, termination and the transfer of orphans.

**Key results**

- `FamilyInv.revise`: the books of one process change, and nobody else's.
- `FamilyInv.tell`: a death is entered as an entry and a token.
- `FamilyInv.terminate`: a process terminates, and its children pass to `init`.
-/

namespace BareBones.Process

open BareBones.Lib BareBones.Semaphores

/-- The tokens of a semaphore that are available, or granted to somebody who has not returned
from `semWait` yet. -/
def SemRec.granted (r : SemRec) : Nat := r.sem.tokens + r.pending.length

/-- What the books have of a process: who it is, its parent, and, if it is alive, its queues
and whether it has a token that it has not used. -/
def ProcessCDT.family (p : ProcessCDT) : Nat × Int × Option (List Int × List Int × Bool) :=
  (p.inst, p.ppid,
    if p.Live then some (p.children, p.terminatedChildren, decide (p.cont = .polling)) else none)

theorem ProcessCDT.family_live {p : ProcessCDT} (h : p.Live) : p.family =
    (p.inst, p.ppid, some (p.children, p.terminatedChildren, decide (p.cont = .polling))) := by
  rw [family, if_pos h]

theorem ProcessCDT.family_dead {p : ProcessCDT} (h : ¬p.Live) :
    p.family = (p.inst, p.ppid, none) := by
  rw [family, if_neg h]

namespace Kernel

variable {k s t u : Kernel} {e : Event} {pid q cur c : Int} {p p' x : ProcessCDT} {id : SemId}

/-! ## The invariant -/

/-- The tokens of `childTerminated` that are available, or granted and not used. -/
def owed (k : Kernel) (p : ProcessCDT) : Nat :=
  (k.sems (.childTerminated p.inst)).granted + if p.cont = .polling then 1 else 0

/-- There is a process in the slot `c`, and its parent has the pid `q`. -/
def Child (k : Kernel) (c q : Int) : Prop := ∃ x, k.processTable c = some x ∧ x.ppid = q

/-- The process in the slot `c` is dead, and its parent has the pid `q`. -/
def DeadChild (k : Kernel) (c q : Int) : Prop :=
  ∃ x, k.processTable c = some x ∧ x.ppid = q ∧ x.state = .ZOMBIE

/-- The books of the process `p` with the pid `q`. -/
structure Books (k : Kernel) (q : Int) (p : ProcessCDT) : Prop where
  distinct : p.terminatedChildren.Nodup
  dead : ∀ c ∈ p.terminatedChildren, k.DeadChild c q
  count : p.terminatedChildren.length = k.owed p

/-- The queue `children` of the process `p` with the pid `q`. -/
structure Children (k : Kernel) (q : Int) (p : ProcessCDT) : Prop where
  distinct : p.children.Nodup
  own : ∀ c ∈ p.children, k.Child c q

/-- The invariant of the books. -/
structure FamilyInv (k : Kernel) : Prop where
  wf : ∀ inst, (k.sems (.childTerminated inst)).sem.Wf
  future : ∀ inst, k.nextInst ≤ inst → (k.sems (.childTerminated inst)).granted = 0
  idle : ∃ p, k.processTable IDLE_PID = some p ∧ p.inst = 0
  init : ∃ p, k.processTable INIT_PID = some p ∧ p.inst = 1
  polls : k.log.emptyPolls = 0
  books : ∀ q p, k.processTable q = some p → p.Live → k.Books q p ∧ k.Children q p

/-! ## Updates of nobody's books -/

/-- The same processes are in the table, with the same books. -/
def SameTable (s t : Kernel) : Prop :=
  ∀ q, (t.processTable q).map ProcessCDT.family = (s.processTable q).map ProcessCDT.family

theorem family_eq (h : p'.family = p.family) :
    p'.inst = p.inst ∧ p'.ppid = p.ppid ∧ (p'.Live ↔ p.Live) ∧ (p.Live →
      p'.children = p.children ∧ p'.terminatedChildren = p.terminatedChildren ∧
        (p'.cont = .polling ↔ p.cont = .polling)) := by
  simp only [ProcessCDT.family, Prod.mk.injEq] at h
  obtain ⟨hinst, hppid, hrest⟩ := h
  refine ⟨hinst, hppid, ?_⟩
  by_cases hlive : p.Live
  · by_cases hlive' : p'.Live
    · simp only [hlive, hlive', if_true, Option.some.injEq, Prod.mk.injEq, decide_eq_decide]
        at hrest
      exact ⟨iff_of_true hlive' hlive, fun _ ↦ hrest⟩
    · simp [hlive, hlive'] at hrest
  · by_cases hlive' : p'.Live
    · simp [hlive, hlive'] at hrest
    · exact ⟨iff_of_false hlive' hlive, fun hl ↦ absurd hl hlive⟩

namespace SameTable

theorem refl (s : Kernel) : SameTable s s := fun _ ↦ rfl

theorem trans (h : SameTable s t) (h' : SameTable t u) : SameTable s u :=
  fun q ↦ (h' q).trans (h q)

theorem symm (h : SameTable s t) : SameTable t s := fun q ↦ (h q).symm

theorem eq_some (h : SameTable s t) (hp' : t.processTable q = some p') :
    ∃ p, s.processTable q = some p ∧ p'.family = p.family := by
  have hq := h q
  rw [hp', Option.map_some] at hq
  obtain ⟨p, hp, heq⟩ := Option.map_eq_some_iff.mp hq.symm
  exact ⟨p, hp, heq.symm⟩

/-- A process changes outside its books. -/
theorem modify {f : ProcessCDT → ProcessCDT}
    (hf : ∀ p, s.processTable pid = some p → (f p).family = p.family) :
    SameTable s (s.modify pid f) := by
  intro q
  by_cases hq : q = pid
  · subst hq
    rw [modify_self]
    cases hp : s.processTable q with
    | none => rfl
    | some p => exact congrArg some (hf p hp)
  · rw [modify_other _ _ hq]

/-- The same update of a process on both sides. -/
theorem modify_both {f : ProcessCDT → ProcessCDT}
    (hf : ∀ p p', p'.family = p.family → (f p').family = (f p).family) (h : SameTable s t)
    (pid : Int) : SameTable (s.modify pid f) (t.modify pid f) := by
  intro q
  by_cases hq : q = pid
  · subst hq
    rw [modify_self, modify_self]
    have heq := h q
    cases hs : s.processTable q with
    | none =>
        rw [hs, Option.map_none] at heq
        simp only [Option.map_eq_none_iff.mp heq, Option.map_none]
    | some p =>
        rw [hs, Option.map_some] at heq
        obtain ⟨p', hp', hfamily⟩ := Option.map_eq_some_iff.mp heq
        rw [hp']
        exact congrArg some (hf p p' hfamily)
  · rw [modify_other _ _ hq, modify_other _ _ hq]
    exact h q

theorem deadChild (h : SameTable s t) (hc : s.DeadChild c q) : t.DeadChild c q := by
  obtain ⟨x, hx, hppid, hdead⟩ := hc
  obtain ⟨x', hx', heq⟩ := h.symm.eq_some hx
  obtain ⟨-, hppid', hlive, -⟩ := family_eq heq
  refine ⟨x', hx', hppid'.symm.trans hppid, ?_⟩
  by_contra hl
  exact hlive.mpr hl hdead

theorem child (h : SameTable s t) (hc : s.Child c q) : t.Child c q := by
  obtain ⟨x, hx, hppid⟩ := hc
  obtain ⟨x', hx', heq⟩ := h.symm.eq_some hx
  exact ⟨x', hx', (family_eq heq).2.1.symm.trans hppid⟩

end SameTable

/-- A process that is alive changes outside its books. -/
theorem sameTable_live {f : ProcessCDT → ProcessCDT} (hp : s.processTable pid = some p)
    (hlive : p.Live) (hlive' : (f p).Live) (hinst : (f p).inst = p.inst)
    (hkin : (f p).kin = p.kin) (hcont : (f p).cont = .polling ↔ p.cont = .polling) :
    SameTable s (s.modify pid f) := by
  refine SameTable.modify fun p' hp' ↦ ?_
  obtain rfl := Option.some.inj (hp.symm.trans hp')
  obtain ⟨hppid, hchildren, hterminated⟩ : (f p).ppid = p.ppid ∧ (f p).children = p.children ∧
      (f p).terminatedChildren = p.terminatedChildren := by
    simpa [ProcessCDT.kin] using hkin
  rw [ProcessCDT.family_live hlive, ProcessCDT.family_live hlive', hinst, hppid, hchildren,
    hterminated, decide_eq_decide.mpr hcont]

theorem sameTable_wake (hp : s.processTable pid = some p) (hlive : p.Live) :
    SameTable s (s.wake pid) :=
  sameTable_live (f := fun p ↦ { p with state := .READY }) hp hlive State.noConfusion rfl rfl
    Iff.rfl

theorem sameTable_post (s : Kernel) (id : SemId) : SameTable s (s.post id) := by
  rcases post_cases s id with ⟨_, rest, -, -, -, hpost⟩ |
    ⟨_, pid, rest, p, -, -, -, hp, hblocked, -, hpost⟩
  · rw [hpost]
    exact .refl s
  · rw [hpost]
    exact sameTable_wake hp (live_of_state hblocked (by simp))

theorem sameTable_setCont {c : Cont} (hc : c ≠ .polling)
    (hcont : ∀ p, s.processTable cur = some p → p.cont ≠ .polling) :
    SameTable s (s.setCont cur c) := by
  refine SameTable.modify fun p hp ↦ ?_
  simp only [ProcessCDT.family, hc, hcont p hp, decide_false]
  rfl

/-! ## Tokens -/

theorem post_wf (h : ∀ inst, (s.sems (.childTerminated inst)).sem.Wf) (id : SemId) (inst : Nat) :
    ((s.post id).sems (.childTerminated inst)).sem.Wf := by
  by_cases hj : .childTerminated inst = id
  · subst hj
    have hsem : ((s.post (.childTerminated inst)).sems (.childTerminated inst)).sem =
        (semPost (s.sems (.childTerminated inst)).sem s).1 := by
      simp only [post, setSem_self]
    rw [hsem]
    exact semPost_wf (h inst) s
  · rw [post_sems_other hj]
    exact h inst

/-- A post grants one token, whether somebody waits for it or not. -/
theorem post_granted (hwf : (s.sems id).sem.Wf) :
    ((s.post id).sems id).granted = (s.sems id).granted + 1 := by
  have hbefore := hwf.value_add_length
  rcases post_cases s id with ⟨dead, rest, hqueue, -, hrest, hpost⟩ |
    ⟨dead, pid, rest, p, hqueue, -, -, -, -, hle, hpost⟩
  · have hnil : rest = [] := by
      by_contra hne
      have hvalue := hwf.queued (by rw [hqueue]; simp [hne])
      have hpos := hrest hne
      have hlength := List.length_pos_iff.mpr hne
      rw [hqueue, List.length_append] at hvalue
      push_cast at hvalue
      omega
    subst hnil
    rw [List.append_nil] at hqueue
    rw [hpost, posted_self]
    simp only [SemRec.granted, Sem.tokens, Option.map_none, Option.toList_none, List.append_nil]
    rw [hqueue, Sem.tokens] at hbefore
    omega
  · have hvalue := hwf.queued (by rw [hqueue]; simp)
    rw [hqueue, List.length_append, List.length_cons] at hvalue
    rw [hpost, posted_self]
    simp only [SemRec.granted, Sem.tokens, Option.map_some, Option.toList_some, List.length_append,
      List.length_singleton, wake_sems]
    push_cast at hvalue
    omega

/-- No process that is alive has the pid in one of its queues. -/
def Unlisted (k : Kernel) (c : Int) : Prop :=
  ∀ q w, k.processTable q = some w → w.Live → c ∉ w.terminatedChildren ∧ c ∉ w.children

/-- A process changes, but neither its parent nor its state does. -/
theorem DeadChild.modify {f : ProcessCDT → ProcessCDT}
    (hf : ∀ p, (f p).ppid = p.ppid ∧ (f p).state = p.state) (h : s.DeadChild c q) (pid : Int) :
    (s.modify pid f).DeadChild c q := by
  obtain ⟨x, hx, hppid, hdead⟩ := h
  refine ⟨_, modify_eq_some.mpr ⟨x, hx, rfl⟩, ?_⟩
  split
  · exact ⟨(hf x).1.trans hppid, (hf x).2.trans hdead⟩
  · exact ⟨hppid, hdead⟩

theorem Child.modify {f : ProcessCDT → ProcessCDT} (hf : ∀ p, (f p).ppid = p.ppid)
    (h : s.Child c q) (pid : Int) : (s.modify pid f).Child c q := by
  obtain ⟨x, hx, hppid⟩ := h
  refine ⟨_, modify_eq_some.mpr ⟨x, hx, rfl⟩, ?_⟩
  split
  · exact (hf x).trans hppid
  · exact hppid

/-- Books that stay the same, where the children are. -/
theorem Books.mono (h : s.Books q p) (hterminated : p'.terminatedChildren = p.terminatedChildren)
    (howed : t.owed p' = s.owed p)
    (hdead : ∀ c ∈ p.terminatedChildren, s.DeadChild c q → t.DeadChild c q) : t.Books q p' where
  distinct := by
    rw [hterminated]
    exact h.distinct
  dead c hc := by
    rw [hterminated] at hc
    exact hdead c hc (h.dead c hc)
  count := by
    rw [hterminated, howed]
    exact h.count

theorem Children.mono (h : s.Children q p) (hchildren : p'.children = p.children)
    (hown : ∀ c ∈ p.children, s.Child c q → t.Child c q) : t.Children q p' where
  distinct := by
    rw [hchildren]
    exact h.distinct
  own c hc := by
    rw [hchildren] at hc
    exact hown c hc (h.own c hc)

theorem owed_congr (hgranted : ∀ inst, (t.sems (.childTerminated inst)).granted =
    (s.sems (.childTerminated inst)).granted) (hinst : p'.inst = p.inst)
    (hcont : p'.cont = .polling ↔ p.cont = .polling) : t.owed p' = s.owed p := by
  simp only [owed, hinst, hgranted, hcont]

namespace FamilyInv

/-- Who is in no queue of its parent is in no queue. -/
theorem unlisted (h : FamilyInv s) (hx : s.processTable c = some x)
    (hparent : ∀ w, s.processTable x.ppid = some w → w.Live →
      c ∉ w.terminatedChildren ∧ c ∉ w.children) : s.Unlisted c := by
  intro q w hw hlive
  obtain ⟨hbooks, hchildren⟩ := h.books q w hw hlive
  constructor
  · intro hc
    obtain ⟨x', hx', rfl, -⟩ := hbooks.dead c hc
    obtain rfl := Option.some.inj (hx.symm.trans hx')
    exact (hparent w hw hlive).1 hc
  · intro hc
    obtain ⟨x', hx', rfl⟩ := hchildren.own c hc
    obtain rfl := Option.some.inj (hx.symm.trans hx')
    exact (hparent w hw hlive).2 hc

/-- An update outside the books. -/
theorem congr (h : FamilyInv s) (htable : SameTable s t)
    (hwf : ∀ inst, (t.sems (.childTerminated inst)).sem.Wf)
    (hgranted : ∀ inst, (t.sems (.childTerminated inst)).granted =
      (s.sems (.childTerminated inst)).granted)
    (hnext : t.nextInst = s.nextInst) (hpolls : t.log.emptyPolls = s.log.emptyPolls) :
    FamilyInv t where
  wf := hwf
  future inst hinst := by
    rw [hgranted]
    exact h.future inst (hnext ▸ hinst)
  idle := by
    obtain ⟨p, hp, hinst⟩ := h.idle
    obtain ⟨p', hp', heq⟩ := htable.symm.eq_some hp
    exact ⟨p', hp', (family_eq heq).1.symm.trans hinst⟩
  init := by
    obtain ⟨p, hp, hinst⟩ := h.init
    obtain ⟨p', hp', heq⟩ := htable.symm.eq_some hp
    exact ⟨p', hp', (family_eq heq).1.symm.trans hinst⟩
  polls := hpolls.trans h.polls
  books q p' hp' hlive' := by
    obtain ⟨p, hp, heq⟩ := htable.eq_some hp'
    obtain ⟨hinst, -, hlive, hsame⟩ := family_eq heq
    obtain ⟨hchildren, hterminated, hpolling⟩ := hsame (hlive.mp hlive')
    obtain ⟨hbooks, hkids⟩ := h.books q p hp (hlive.mp hlive')
    exact ⟨hbooks.mono hterminated (owed_congr hgranted hinst hpolling) fun c _ ↦ htable.deadChild,
      hkids.mono hchildren fun c _ ↦ htable.child⟩

/-- The books of one process change. -/
theorem revise (h : FamilyInv s) (hz : ZombieInv s) (hp : s.processTable q = some p)
    (hp' : t.processTable q = some p') (hinst : p'.inst = p.inst) (hppid : p'.ppid = p.ppid)
    (hlive : p'.Live ↔ p.Live)
    (hother : ∀ q', q' ≠ q → (t.processTable q').map ProcessCDT.family =
      (s.processTable q').map ProcessCDT.family)
    (hwf : ∀ inst, (t.sems (.childTerminated inst)).sem.Wf)
    (hgranted : ∀ inst, inst ≠ p.inst → (t.sems (.childTerminated inst)).granted =
      (s.sems (.childTerminated inst)).granted)
    (hnext : t.nextInst = s.nextInst) (hpolls : t.log.emptyPolls = s.log.emptyPolls)
    (hbooks : p.Live → t.Books q p' ∧ t.Children q p') : FamilyInv t := by
  -- whoever was there is there, with the same parent
  have hstays : ∀ c x, s.processTable c = some x → ∃ x', t.processTable c = some x' ∧
      x'.inst = x.inst ∧ x'.ppid = x.ppid ∧ (x'.Live ↔ x.Live) := by
    intro c x hx
    by_cases hc : c = q
    · subst hc
      obtain rfl := Option.some.inj (hp.symm.trans hx)
      exact ⟨p', hp', hinst, hppid, hlive⟩
    · have heq := hother c hc
      rw [hx, Option.map_some] at heq
      obtain ⟨x', hx', hfamily⟩ := Option.map_eq_some_iff.mp heq
      obtain ⟨hinst', hppid', hlive', -⟩ := family_eq hfamily
      exact ⟨x', hx', hinst', hppid', hlive'⟩
  have hdead : ∀ c q', s.DeadChild c q' → t.DeadChild c q' := by
    rintro c q' ⟨x, hx, rfl, hzombie⟩
    obtain ⟨x', hx', -, hppid', hlive'⟩ := hstays c x hx
    refine ⟨x', hx', hppid', ?_⟩
    by_contra hl
    exact hlive'.mp hl hzombie
  have hown : ∀ c q', s.Child c q' → t.Child c q' := by
    rintro c q' ⟨x, hx, rfl⟩
    obtain ⟨x', hx', -, hppid', -⟩ := hstays c x hx
    exact ⟨x', hx', hppid'⟩
  refine ⟨hwf, fun inst hle ↦ ?_, ?_, ?_, hpolls.trans h.polls, fun q' w' hw' hlive' ↦ ?_⟩
  · have hold := hz.fresh q p hp
    rw [hgranted inst (by omega)]
    exact h.future inst (hnext ▸ hle)
  · obtain ⟨x, hx, hzero⟩ := h.idle
    obtain ⟨x', hx', hinst', -⟩ := hstays _ x hx
    exact ⟨x', hx', hinst'.trans hzero⟩
  · obtain ⟨x, hx, hone⟩ := h.init
    obtain ⟨x', hx', hinst', -⟩ := hstays _ x hx
    exact ⟨x', hx', hinst'.trans hone⟩
  · by_cases hq : q' = q
    · subst hq
      obtain rfl := Option.some.inj (hp'.symm.trans hw')
      exact hbooks (hlive.mp hlive')
    · have heq := hother q' hq
      rw [hw', Option.map_some] at heq
      obtain ⟨w, hw, hfamily⟩ := Option.map_eq_some_iff.mp heq.symm
      obtain ⟨hinst', -, hiff, hsame⟩ := family_eq hfamily.symm
      obtain ⟨hchildren, hterminated, hpolling⟩ := hsame (hiff.mp hlive')
      obtain ⟨hbooks', hkids⟩ := h.books q' w hw (hiff.mp hlive')
      have hne : w.inst ≠ p.inst := fun heq ↦ hq (hz.unique q' q w p hw hp heq)
      refine ⟨hbooks'.mono hterminated ?_ fun c _ ↦ hdead c q', hkids.mono hchildren fun c _ ↦
        hown c q'⟩
      simp only [owed, hinst', hgranted w.inst hne, hpolling]

/-! ## Dying, leaving and coming -/

/-- A process dies. -/
theorem zombify (h : FamilyInv s) (pid : Int) (inst parent : Nat) :
    FamilyInv (s.zombify pid inst parent) := by
  have htable : ∀ q p', (s.zombify pid inst parent).processTable q = some p' →
      ∃ p, s.processTable q = some p ∧ p' = if q = pid then { p with state := .ZOMBIE } else p :=
    fun _ _ ↦ modify_eq_some.mp
  have hstays : ∀ c x, s.processTable c = some x → ∃ x',
      (s.zombify pid inst parent).processTable c = some x' ∧ x'.inst = x.inst ∧ x'.ppid = x.ppid ∧
        (x.state = .ZOMBIE → x'.state = .ZOMBIE) := by
    intro c x hx
    refine ⟨if c = pid then { x with state := .ZOMBIE } else x, modify_eq_some.mpr ⟨x, hx, rfl⟩, ?_⟩
    split
    · exact ⟨rfl, rfl, fun _ ↦ rfl⟩
    · exact ⟨rfl, rfl, fun hdead ↦ hdead⟩
  refine ⟨h.wf, h.future, ?_, ?_, h.polls, fun q p' hp' hlive ↦ ?_⟩
  · obtain ⟨x, hx, hzero⟩ := h.idle
    obtain ⟨x', hx', hinst, -⟩ := hstays _ x hx
    exact ⟨x', hx', hinst.trans hzero⟩
  · obtain ⟨x, hx, hone⟩ := h.init
    obtain ⟨x', hx', hinst, -⟩ := hstays _ x hx
    exact ⟨x', hx', hinst.trans hone⟩
  · obtain ⟨p, hp, rfl⟩ := htable q p' hp'
    split at hlive
    · exact absurd rfl hlive
    next hq =>
      rw [if_neg hq]
      obtain ⟨hbooks, hkids⟩ := h.books q p hp hlive
      refine ⟨hbooks.mono rfl rfl fun c _ hc ↦ ?_, hkids.mono rfl fun c _ hc ↦ ?_⟩
      · obtain ⟨x, hx, rfl, hdead⟩ := hc
        obtain ⟨x', hx', -, hppid, hzombie⟩ := hstays c x hx
        exact ⟨x', hx', hppid, hzombie hdead⟩
      · obtain ⟨x, hx, rfl⟩ := hc
        obtain ⟨x', hx', -, hppid, -⟩ := hstays c x hx
        exact ⟨x', hx', hppid⟩

/-- A process leaves that is in nobody's queue. -/
theorem free (h : FamilyInv s) (hpid : ¬isUnkillable pid) (hunlisted : s.Unlisted pid)
    (expected : Option Nat) : FamilyInv (s.freed pid p expected) := by
  have htable : ∀ q, q ≠ pid → (s.freed pid p expected).processTable q = s.processTable q :=
    fun q hq ↦ if_neg hq
  have hgone : (s.freed pid p expected).processTable pid = none := if_pos rfl
  refine ⟨h.wf, h.future, ?_, ?_, h.polls, fun q w hw hlive ↦ ?_⟩
  · rw [htable _ fun heq ↦ hpid (.inl heq.symm)]
    exact h.idle
  · rw [htable _ fun heq ↦ hpid (.inr heq.symm)]
    exact h.init
  · have hq : q ≠ pid := by
      rintro rfl
      cases hgone.symm.trans hw
    rw [htable q hq] at hw
    obtain ⟨hbooks, hkids⟩ := h.books q w hw hlive
    obtain ⟨hterminated, hchildren⟩ := hunlisted q w hw hlive
    refine ⟨hbooks.mono rfl rfl fun c hc hdead ↦ ?_, hkids.mono rfl fun c hc hown ↦ ?_⟩
    · have hne : c ≠ pid := fun heq ↦ hterminated (heq ▸ hc)
      rwa [DeadChild, htable c hne]
    · have hne : c ≠ pid := fun heq ↦ hchildren (heq ▸ hc)
      rwa [Child, htable c hne]

/-- A process that is in nobody's queue gets another parent. -/
theorem reparent (h : FamilyInv s) (hunlisted : s.Unlisted c) (ppid : Int) :
    FamilyInv (s.modify c fun p ↦ { p with ppid := ppid }) := by
  have hother : ∀ q, q ≠ c →
      (s.modify c fun p ↦ { p with ppid := ppid }).processTable q = s.processTable q :=
    fun q hq ↦ modify_other _ _ hq
  have hinst : ∀ q x, s.processTable q = some x → ∃ x',
      (s.modify c fun p ↦ { p with ppid := ppid }).processTable q = some x' ∧
        x'.inst = x.inst := by
    intro q x hx
    refine ⟨_, modify_eq_some.mpr ⟨x, hx, rfl⟩, ?_⟩
    split <;> rfl
  refine ⟨h.wf, h.future, ?_, ?_, h.polls, fun q w' hw' hlive' ↦ ?_⟩
  · obtain ⟨x, hx, hzero⟩ := h.idle
    obtain ⟨x', hx', heq⟩ := hinst _ x hx
    exact ⟨x', hx', heq.trans hzero⟩
  · obtain ⟨x, hx, hone⟩ := h.init
    obtain ⟨x', hx', heq⟩ := hinst _ x hx
    exact ⟨x', hx', heq.trans hone⟩
  · obtain ⟨w, hw, hw''⟩ := modify_eq_some.mp hw'
    have hsame : w'.Live ↔ w.Live := by rw [hw'']; split <;> exact Iff.rfl
    obtain ⟨hbooks, hkids⟩ := h.books q w hw (hsame.mp hlive')
    obtain ⟨hterminated, hchildren⟩ := hunlisted q w hw (hsame.mp hlive')
    have hlists : w'.terminatedChildren = w.terminatedChildren ∧ w'.children = w.children ∧
        w'.inst = w.inst ∧ w'.cont = w.cont := by
      rw [hw'']
      split <;> exact ⟨rfl, rfl, rfl, rfl⟩
    obtain ⟨hterm, hchild, hinst', hcont⟩ := hlists
    refine ⟨hbooks.mono hterm ?_ fun d hd hdead ↦ ?_, hkids.mono hchild fun d hd hown ↦ ?_⟩
    · simp only [owed, hinst', hcont, modify_sems]
    · have hne : d ≠ c := fun heq ↦ hterminated (heq ▸ hd)
      rwa [DeadChild, hother d hne]
    · have hne : d ≠ c := fun heq ↦ hchildren (heq ▸ hd)
      rwa [Child, hother d hne]

/-- A process is created. -/
theorem start (h : FamilyInv s) (hfree : s.processTable pid = none)
    (ppid : Int) : FamilyInv (s.started 1 pid ppid) := by
  have hother : ∀ q, q ≠ pid → (s.started 1 pid ppid).processTable q = s.processTable q := by
    intro q hq
    simp only [started, enqueueReady, if_neg hq]
  have hself : (s.started 1 pid ppid).processTable pid = some (s.newCDT 1 ppid) := by
    simp only [started, enqueueReady, if_true]
  have hold : ∀ q x, s.processTable q = some x → q ≠ pid := by
    rintro q x hx rfl
    cases hfree.symm.trans hx
  refine ⟨h.wf, fun inst hle ↦ h.future inst (Nat.le_of_succ_le hle), ?_, ?_, h.polls,
    fun q w hw hlive ↦ ?_⟩
  · obtain ⟨x, hx, hzero⟩ := h.idle
    exact ⟨x, by rwa [hother _ (hold _ x hx)], hzero⟩
  · obtain ⟨x, hx, hone⟩ := h.init
    exact ⟨x, by rwa [hother _ (hold _ x hx)], hone⟩
  · by_cases hq : q = pid
    · subst hq
      obtain rfl := Option.some.inj (hself.symm.trans hw)
      have hcount : s.owed (s.newCDT 1 ppid) = 0 := h.future _ (Nat.le_refl _)
      exact ⟨⟨List.nodup_nil, fun c hc ↦ (List.not_mem_nil hc).elim, hcount.symm⟩,
        List.nodup_nil, fun c hc ↦ (List.not_mem_nil hc).elim⟩
    · rw [hother q hq] at hw
      obtain ⟨hbooks, hkids⟩ := h.books q w hw hlive
      refine ⟨hbooks.mono rfl rfl fun c _ hdead ↦ ?_, hkids.mono rfl fun c _ hown ↦ ?_⟩
      · obtain ⟨x, hx, hrest⟩ := hdead
        exact ⟨x, by rwa [hother _ (hold _ x hx)], hrest⟩
      · obtain ⟨x, hx, hrest⟩ := hown
        exact ⟨x, by rwa [hother _ (hold _ x hx)], hrest⟩

/-! ## Semaphores -/

/-- What is not in the books does not matter. -/
theorem other (h : FamilyInv s) (htable : SameTable s t)
    (hsems : ∀ inst, t.sems (.childTerminated inst) = s.sems (.childTerminated inst))
    (hnext : t.nextInst = s.nextInst) (hpolls : t.log.emptyPolls = s.log.emptyPolls) :
    FamilyInv t := by
  refine h.congr htable (fun inst ↦ ?_) (fun inst ↦ ?_) hnext hpolls
  · rw [hsems]
    exact h.wf inst
  · rw [hsems]

/-- A post that the books are not about. -/
theorem post (h : FamilyInv s) (hid : ∀ inst, id ≠ .childTerminated inst) :
    FamilyInv (s.post id) :=
  h.other (sameTable_post s id) (fun inst ↦ post_sems_other (hid inst).symm) (post_nextInst _ _)
    (post_emptyPolls _ _)

/-- A semaphore changes that the books are not about. -/
theorem setSem (h : FamilyInv s) (hid : ∀ inst, id ≠ .childTerminated inst) (r : SemRec) :
    FamilyInv (s.setSem id r) :=
  h.other (.refl s) (fun inst ↦ setSem_other _ _ _ (hid inst).symm) rfl rfl

/-- **A death is entered into the books**, as an entry of the queue and a token; `t` is the
state after both, in any order. -/
theorem tell (h : FamilyInv s) (hz : ZombieInv s) (hq : s.processTable q = some p)
    (hchild : p.Live → s.DeadChild c q ∧ c ∉ p.terminatedChildren)
    (htable : SameTable (s.modify q fun p ↦
      { p with terminatedChildren := p.terminatedChildren ++ [c] }) t)
    (hwf : ∀ inst, (t.sems (.childTerminated inst)).sem.Wf)
    (hself : (t.sems (.childTerminated p.inst)).granted =
      (s.sems (.childTerminated p.inst)).granted + 1)
    (hother : ∀ inst, inst ≠ p.inst → t.sems (.childTerminated inst) =
      s.sems (.childTerminated inst))
    (hnext : t.nextInst = s.nextInst) (hpolls : t.log.emptyPolls = s.log.emptyPolls) :
    FamilyInv t := by
  have hentered : (s.modify q fun p ↦
      { p with terminatedChildren := p.terminatedChildren ++ [c] }).processTable q =
        some { p with terminatedChildren := p.terminatedChildren ++ [c] } := by
    rw [modify_self, hq, Option.map_some]
  obtain ⟨p', hp', heq⟩ := htable.symm.eq_some hentered
  obtain ⟨hinst, hppid, hlive, hsame⟩ := family_eq heq.symm
  refine h.revise hz hq hp' hinst hppid hlive (fun q' hne ↦ ?_) hwf (fun inst hne ↦ ?_) hnext hpolls
    fun hl ↦ ?_
  · rw [htable q', modify_other _ _ hne]
  · rw [hother inst hne]
  · obtain ⟨hchildren, hterminated, hpolling⟩ := hsame hl
    obtain ⟨hbooks, hkids⟩ := h.books q p hq hl
    obtain ⟨hdead, hnew⟩ := hchild hl
    have hdead' : ∀ d, s.DeadChild d q → t.DeadChild d q := by
      intro d hd
      refine htable.deadChild (hd.modify ?_ q)
      exact fun _ ↦ ⟨rfl, rfl⟩
    have hown' : ∀ d, s.Child d q → t.Child d q := by
      intro d hd
      refine htable.child (hd.modify ?_ q)
      exact fun _ ↦ rfl
    refine ⟨⟨?_, fun d hd ↦ ?_, ?_⟩, hkids.mono hchildren fun d _ ↦ hown' d⟩
    · rw [hterminated]
      exact List.nodup_append.mpr ⟨hbooks.distinct, List.nodup_singleton c, fun a ha b hb heq ↦
        hnew (List.mem_singleton.mp hb ▸ heq ▸ ha)⟩
    · rw [hterminated] at hd
      rcases List.mem_append.mp hd with hd | hd
      · exact hdead' d (hbooks.dead d hd)
      · rw [List.mem_singleton.mp hd]
        exact hdead' c hdead
    · have hcount := hbooks.count
      rw [hterminated, List.length_append, List.length_singleton]
      simp only [owed, hinst, hself, hpolling] at hcount ⊢
      omega

/-! ## Termination -/

theorem enqueueTerminated_eq (hnodes : s.nodes .terminatedChildren = true) (q c : Int) :
    s.enqueueTerminated q c = s.modify q fun p ↦
      { p with terminatedChildren := p.terminatedChildren ++ [c] } := by
  simp only [enqueueTerminated, enqueue, if_pos hnodes]

/-- The entry may be made after the post. -/
theorem sameTable_enter (s : Kernel) (id : SemId) (q c : Int) :
    SameTable (s.modify q fun p ↦ { p with terminatedChildren := p.terminatedChildren ++ [c] })
      ((s.post id).modify q fun p ↦
        { p with terminatedChildren := p.terminatedChildren ++ [c] }) := by
  refine SameTable.modify_both (fun p p' hfamily ↦ ?_) (sameTable_post s id) q
  obtain ⟨hinst, hppid, hlive, hsame⟩ := family_eq hfamily
  let f : ProcessCDT → ProcessCDT := fun p ↦
    { p with terminatedChildren := p.terminatedChildren ++ [c] }
  show (f p').family = (f p).family
  by_cases hl : p.Live
  · obtain ⟨hchildren, hterminated, hpolling⟩ := hsame hl
    have hl₁ : (f p).Live := hl
    have hl₂ : (f p').Live := hlive.mpr hl
    rw [ProcessCDT.family_live hl₁, ProcessCDT.family_live hl₂]
    simp only [f, hinst, hppid, hchildren, hterminated, hpolling]
  · have hl₁ : ¬(f p).Live := hl
    have hl₂ : ¬(f p').Live := mt hlive.mp hl
    rw [ProcessCDT.family_dead hl₁, ProcessCDT.family_dead hl₂]
    simp only [f, hinst, hppid]

/-- A process terminates: its parent is told. -/
theorem notify (h : FamilyInv s) (hz : ZombieInv s) {process parent : ProcessCDT}
    (hkillable : ¬isUnkillable pid) (hprocess : s.processTable pid = some process)
    (hlive : process.Live) (hparent : s.processTable process.ppid = some parent)
    (hnodes : s.nodes .terminatedChildren = true) :
    FamilyInv (s.notifyTermination process parent process.ppid pid) := by
  -- the process is marked, and its own waiters are woken
  let m : Kernel := (s.zombify pid process.inst parent.inst).post (.terminated process.inst)
  have hm : FamilyInv m := (h.zombify pid process.inst parent.inst).post (by simp)
  have hzm : ZombieInv m := hz.zombify hkillable hprocess hlive parent.inst
  have hsame : SameTable (s.zombify pid process.inst parent.inst) m := sameTable_post _ _
  have hmarked : (s.zombify pid process.inst parent.inst).processTable process.ppid =
      some (if process.ppid = pid then { parent with state := .ZOMBIE } else parent) :=
    modify_eq_some.mpr ⟨parent, hparent, rfl⟩
  obtain ⟨w, hw, heq⟩ := hsame.symm.eq_some hmarked
  have hpost : ∀ inst, ((m.post (.childTerminated parent.inst)).enqueueTerminated process.ppid
      pid).sems (.childTerminated inst) =
        (m.post (.childTerminated parent.inst)).sems (.childTerminated inst) := fun _ ↦ rfl
  obtain ⟨hinst, -, hiff, hlists⟩ := family_eq heq.symm
  have hwinst : w.inst = parent.inst := by
    rw [hinst]
    split <;> rfl
  have hmnodes : (m.post (.childTerminated parent.inst)).nodes .terminatedChildren = true := by
    rw [post_nodes, post_nodes]
    exact hnodes
  rw [notifyTermination_eq]
  refine FamilyInv.other (s := (m.post (.childTerminated parent.inst)).enqueueTerminated
    process.ppid pid) ?_ (.refl _) (fun _ ↦ rfl) rfl rfl
  refine hm.tell (c := pid) hzm hw (fun hl ↦ ?_) ?_ (fun inst ↦ ?_) ?_ (fun inst hne ↦ ?_) ?_ ?_
  · have hl' := hiff.mp hl
    by_cases hself : process.ppid = pid
    · rw [if_pos hself] at hl'
      exact absurd rfl hl'
    · rw [if_neg hself] at hl' hlists
      refine ⟨hsame.deadChild ⟨_, modify_eq_some.mpr ⟨process, hprocess, rfl⟩, ?_⟩, ?_⟩
      · rw [if_pos rfl]
        exact ⟨rfl, rfl⟩
      · rw [(hlists hl').2.1]
        intro hmem
        obtain ⟨x, hx, -, hdead⟩ := (h.books _ parent hparent hl').1.dead pid hmem
        obtain rfl := Option.some.inj (hprocess.symm.trans hx)
        exact hlive hdead
  · rw [enqueueTerminated_eq hmnodes]
    exact sameTable_enter m _ _ _
  · rw [hpost]
    exact post_wf hm.wf _ inst
  · rw [hpost, hwinst]
    exact post_granted (hm.wf _)
  · rw [hpost]
    exact post_sems_other (by simpa [hwinst] using hne)
  · exact post_nextInst _ _
  · exact post_emptyPolls _ _

/-- A process gets a child that has its pid as parent already. -/
theorem addChild (h : FamilyInv s) (hz : ZombieInv s) (hp : s.processTable q = some p)
    (hchild : s.Child c q) (hnew : p.Live → c ∉ p.children) : FamilyInv (s.addChild q c) := by
  have hp' : (s.addChild q c).processTable q =
      some { p with children := s.enqueue .children p.children c } := by
    rw [Kernel.addChild, modify_self, hp, Option.map_some]
  refine h.revise hz hp hp' rfl rfl Iff.rfl (fun q' hne ↦ ?_) h.wf (fun _ _ ↦ rfl) rfl rfl
    fun hl ↦ ?_
  · rw [Kernel.addChild, modify_other _ _ hne]
  · obtain ⟨hbooks, hkids⟩ := h.books q p hp hl
    have hown : ∀ d, s.Child d q → (s.addChild q c).Child d q := by
      intro d hd
      refine hd.modify ?_ q
      exact fun _ ↦ rfl
    refine ⟨hbooks.mono rfl rfl fun d _ hd ↦ ?_, ?_, fun d hd ↦ ?_⟩
    · refine hd.modify ?_ q
      exact fun _ ↦ ⟨rfl, rfl⟩
    · simp only [enqueue]
      split
      · exact List.nodup_append.mpr ⟨hkids.distinct, List.nodup_singleton c, fun a ha b hb heq ↦
          hnew hl (List.mem_singleton.mp hb ▸ heq ▸ ha)⟩
      · exact hkids.distinct
    · simp only [enqueue] at hd
      split at hd
      · rcases List.mem_append.mp hd with hd | hd
        · exact hown d (hkids.own d hd)
        · rw [List.mem_singleton.mp hd]
          exact hown c hchild
      · exact hown d (hkids.own d hd)

/-- **An orphan passes to `init`**, with the notice of its death if it is dead. -/
theorem transferOrphan (h : FamilyInv s) (hz : ZombieInv s) (hi : InitInv s)
    (hx : s.processTable c = some x)
    (hdead : ∀ p, s.processTable x.ppid = some p → ¬p.Live)
    (hnodes : s.nodes .terminatedChildren = true) : FamilyInv (s.transferOrphan 1 c) := by
  obtain ⟨i, hslot, hone⟩ := h.init
  have hinit : i.Live := (hi.place _ i hslot hone).2.live
  have hunlisted : s.Unlisted c := h.unlisted hx fun w hw hl ↦ absurd hl (hdead w hw)
  -- it makes no difference if the orphan gets its parent before it is in the queue
  let f : ProcessCDT → ProcessCDT := fun p ↦ { p with ppid := INIT_PID }
  have hcomm : (s.addChild INIT_PID c).modify c f = (s.modify c f).addChild INIT_PID c := by
    refine modify_comm ?_ c
    exact fun _ ↦ rfl
  have hu : FamilyInv (s.modify c f) := h.reparent hunlisted INIT_PID
  have hzu : ZombieInv (s.modify c f) := by
    refine hz.frame (.modify ?_ _ _)
    exact fun _ ↦ rfl
  have hxu : (s.modify c f).processTable c = some (f x) := by rw [modify_self, hx, Option.map_some]
  obtain ⟨j, hj, hinst, hchildren, hterminated⟩ : ∃ j,
      (s.modify c f).processTable INIT_PID = some j ∧
      j.inst = 1 ∧ j.children = i.children ∧ j.terminatedChildren = i.terminatedChildren := by
    refine ⟨_, modify_eq_some.mpr ⟨i, hslot, rfl⟩, ?_⟩
    split
    · exact ⟨hone, rfl, rfl⟩
    · exact ⟨hone, rfl, rfl⟩
  have hv : FamilyInv ((s.modify c f).addChild INIT_PID c) := by
    refine hu.addChild hzu hj ⟨f x, hxu, rfl⟩ fun _ ↦ ?_
    rw [hchildren]
    exact (hunlisted INIT_PID i hslot hinit).2
  unfold Kernel.transferOrphan
  split
  · exact h
  simp only [hx]
  rw [hcomm]
  split
  next hzombie =>
      have hzv : ZombieInv ((s.modify c f).addChild INIT_PID c) := by
        refine hzu.frame (.modify ?_ _ _)
        exact fun _ ↦ rfl
      have hjv : ((s.modify c f).addChild INIT_PID c).processTable INIT_PID =
          some { j with children := s.enqueue .children j.children c } := by
        rw [Kernel.addChild, modify_self, hj, Option.map_some]
        rfl
      have hwf : ∀ inst, ((((s.modify c f).addChild INIT_PID c).enqueueTerminated INIT_PID c).sems
          (.childTerminated inst)).sem.Wf := hv.wf
      have hnodes' : ((s.modify c f).addChild INIT_PID c).nodes .terminatedChildren = true := hnodes
      refine hv.tell (c := c) hzv hjv (fun _ ↦ ⟨?_, ?_⟩) ?_ (fun inst ↦ post_wf hwf _ inst) ?_
        (fun inst hne ↦ ?_) (post_nextInst _ _) (post_emptyPolls _ _)
      · have hdead : (s.modify c f).DeadChild c INIT_PID := ⟨f x, hxu, rfl, hzombie⟩
        refine hdead.modify ?_ INIT_PID
        exact fun _ ↦ ⟨rfl, rfl⟩
      · show c ∉ j.terminatedChildren
        rw [hterminated]
        exact (hunlisted INIT_PID i hslot hinit).1
      · rw [enqueueTerminated_eq hnodes']
        exact sameTable_post _ _
      · simp only [hinst]
        exact post_granted (hwf 1)
      · refine post_sems_other ?_
        simpa [hinst] using hne
  · exact hv

/-- The transfer of an orphan leaves the parents of the others as they are. -/
theorem transferOrphan_ppid (hq : q ≠ c) : ((s.transferOrphan 1 c).processTable q).map
    ProcessCDT.ppid = (s.processTable q).map ProcessCDT.ppid := by
  unfold Kernel.transferOrphan
  split
  · rfl
  split
  · rfl
  · have hadopted : (((s.addChild INIT_PID c).modify c fun p ↦
        { p with ppid := INIT_PID }).processTable q).map ProcessCDT.ppid =
          (s.processTable q).map ProcessCDT.ppid := by
      rw [modify_other _ _ hq]
      exact addChild_map (fun _ _ ↦ rfl) _ _ q
    dsimp only
    split
    · rw [post_map (fun _ _ ↦ rfl), enqueueTerminated_map (fun _ _ ↦ rfl)]
      exact hadopted
    · exact hadopted

theorem transferOrphan_lives : SameLives s (s.transferOrphan 1 c) := by
  unfold Kernel.transferOrphan
  split
  · exact fun _ ↦ rfl
  split
  · exact fun _ ↦ rfl
  · have hadopted : SameLives s ((s.addChild INIT_PID c).modify c fun p ↦
        { p with ppid := INIT_PID }) := by
      refine SameLives.trans (addChild_map (fun _ _ ↦ rfl) _ _) (.modify ?_)
      exact fun _ _ ↦ ⟨rfl, Iff.rfl⟩
    dsimp only
    split
    · exact (hadopted.trans (enqueueTerminated_map (fun _ _ ↦ rfl) _ _)).trans (.post _)
    · exact hadopted

theorem transferOrphan_nodes : (s.transferOrphan 1 c).nodes = s.nodes := by
  unfold Kernel.transferOrphan
  split
  · rfl
  split
  · rfl
  · dsimp only
    split
    · exact post_nodes _ _
    · rfl

theorem orphans_lives (queue : List Int) :
    SameLives s (queue.foldl (Kernel.transferOrphan 1) s) := by
  induction queue generalizing s with
  | nil => exact fun _ ↦ rfl
  | cons c queue ih => exact transferOrphan_lives.trans ih

/-- The loop of `transferOrphanChildren` over the children of the dead process `pid`. -/
theorem orphans (queue : List Int) (h : FamilyInv s) (hz : ZombieInv s) (hi : InitInv s)
    (hdead : ∀ p, s.processTable pid = some p → ¬p.Live) (hnodup : queue.Nodup)
    (hown : ∀ c ∈ queue, s.Child c pid) (hnodes : s.nodes .terminatedChildren = true) :
    FamilyInv (queue.foldl (Kernel.transferOrphan 1) s) := by
  induction queue generalizing s with
  | nil => exact h
  | cons c queue ih =>
      obtain ⟨x, hx, rfl⟩ := hown c List.mem_cons_self
      obtain ⟨hc, hrest⟩ := List.nodup_cons.mp hnodup
      refine ih (h.transferOrphan hz hi hx hdead hnodes)
        (zombieRule.moveRule.transferOrphan hz 1 c) (initMoves.transferOrphan hi 1 c)
        (fun p' hp' ↦ ?_) hrest (fun d hd ↦ ?_) ?_
      · obtain ⟨p, hp, -, hiff⟩ := transferOrphan_lives.eq_some hp'
        exact mt hiff.mpr (hdead p hp)
      · obtain ⟨y, hy, hppid⟩ := hown d (List.mem_cons_of_mem _ hd)
        have hne : d ≠ c := by
          rintro rfl
          exact hc hd
        have heq := transferOrphan_ppid (s := s) hne
        rw [hy, Option.map_some] at heq
        obtain ⟨y', hy', hppid'⟩ := Option.map_eq_some_iff.mp heq
        exact ⟨y', hy', hppid'.trans hppid⟩
      · rw [transferOrphan_nodes]
        exact hnodes

/-- What `notifyTermination` leaves alone. -/
theorem notify_map {α : Type*} {g : ProcessCDT → α} (hg : ∀ p st, g { p with state := st } = g p)
    (hg' : ∀ p queue, g { p with terminatedChildren := queue } = g p)
    (process parent : ProcessCDT) (ppid pid q : Int) :
    ((s.notifyTermination process parent ppid pid).processTable q).map g =
      (s.processTable q).map g := by
  rw [notifyTermination_eq]
  refine (enqueueTerminated_map hg' _ _ q).trans ?_
  rw [post_map hg, post_map hg]
  exact modify_map (fun p ↦ hg p _) q

/-- **A process terminates**, and its children pass to `init`. -/
theorem terminate (h : FamilyInv s) (hz : ZombieInv s) (hi : InitInv s)
    {process parent : ProcessCDT} (hkillable : ¬isUnkillable pid)
    (hprocess : s.processTable pid = some process) (hlive : process.Live)
    (hparent : s.processTable process.ppid = some parent)
    (hnodes : s.nodes .terminatedChildren = true) :
    FamilyInv ((s.notifyTermination process parent process.ppid pid).transferOrphanChildren
      pid) := by
  let t : Kernel := s.notifyTermination process parent process.ppid pid
  have ht : FamilyInv t := h.notify hz hkillable hprocess hlive hparent hnodes
  have hzt : ZombieInv t := zombieRule.moveRule.frame (zombieRule.moveRule.post _
    (hz.zombify hkillable hprocess hlive parent.inst) (by simp)) (.notify process parent _ pid)
  have hit : InitInv t :=
    (((hi.zombify (fun hpid ↦ hkillable (.inr hpid)) _ _).post _).post _).frame
      (.notify process parent _ pid)
  have htnodes : t.nodes .terminatedChildren = true := by
    show (((s.zombify pid _ _).post _).post _).nodes .terminatedChildren = true
    rw [post_nodes, post_nodes]
    exact hnodes
  obtain ⟨i, hslot, hone⟩ := ht.init
  have hdead : ∀ p, t.processTable pid = some p → ¬p.Live := by
    have hlives : SameLives (s.zombify pid process.inst parent.inst) t :=
      ((SameLives.post _).trans (.post _)).trans (enqueueTerminated_map (fun _ _ ↦ rfl) _ _)
    intro p hp
    obtain ⟨p₀, hp₀, -, hiff⟩ := hlives.eq_some hp
    obtain ⟨p₁, -, rfl⟩ := modify_eq_some.mp hp₀
    rw [if_pos rfl] at hiff
    exact fun hl ↦ hiff.mpr hl rfl
  obtain ⟨-, hkids⟩ := h.books pid process hprocess hlive
  have hown : ∀ c ∈ process.children, t.Child c pid := by
    intro c hc
    obtain ⟨x, hx, hppid⟩ := hkids.own c hc
    have heq : (t.processTable c).map ProcessCDT.ppid = (s.processTable c).map ProcessCDT.ppid :=
      notify_map (fun _ _ ↦ rfl) (fun _ _ ↦ rfl) _ _ _ _ c
    rw [hx, Option.map_some] at heq
    obtain ⟨x', hx', hppid'⟩ := Option.map_eq_some_iff.mp heq
    exact ⟨x', hx', hppid'.trans hppid⟩
  have hchildren : (t.processTable pid).map ProcessCDT.children = some process.children := by
    have heq : (t.processTable pid).map ProcessCDT.children =
        (s.processTable pid).map ProcessCDT.children :=
      notify_map (fun _ _ ↦ rfl) (fun _ _ ↦ rfl) _ _ _ _ pid
    rw [heq, hprocess, Option.map_some]
  unfold Kernel.transferOrphanChildren
  split
  next initProc p hinit hp =>
      obtain rfl := Option.some.inj (hslot.symm.trans hinit)
      rw [hp, Option.map_some] at hchildren
      rw [Option.some.inj hchildren, hone]
      have hloop := ht.orphans process.children hzt hit hdead hkids.distinct hown htnodes
      refine hloop.other (SameTable.modify fun p' hp' ↦ ?_) (fun _ ↦ rfl) rfl rfl
      -- the queue of a dead process does not matter
      have hlives := orphans_lives process.children (s := t)
      obtain ⟨p₀, hp₀, -, hiff⟩ := hlives.eq_some hp'
      have hl : ¬p'.Live := mt hiff.mpr (hdead p₀ hp₀)
      have hl' : ¬({ p' with children := [] } : ProcessCDT).Live := hl
      rw [ProcessCDT.family_dead hl, ProcessCDT.family_dead hl']
  · exact ht

end FamilyInv

end Kernel

end BareBones.Process
