import BareBones.Process.Family

/-!
# Whoever has a token finds an entry

The other half of the books on dead children: `wait_any` and `reap_zombies` spend a token and
poll an entry, and `wait_pid` spends a token, if there is one, and strikes out the entry of its
process, if there is one.

What disturbs the books is named by `Event.KeepsBooks`: a process that is terminated a second
time or comes back from the dead, an entry for which the heap has no node, a dead process that
reaps, and a `wait_pid` that goes on although the token and the entry of its process are not
both there, after the parent that it has read was freed, or while the process is in somebody else's
books.

**Key results**

- `Spends.entry`, `Spends.closes`: whoever has spent a token finds an entry, of a child that is in
  nobody's queue once it is polled.
- `householdRule`: every update of the kernel keeps the books.
-/

namespace BareBones.Process.Kernel

open BareBones.Lib BareBones.Semaphores

variable {k s t u : Kernel} {e : Event} {pid q cur c : Int} {p p' x : ProcessCDT} {id : SemId}

/-! ## The guard -/

/-- A `wait_pid` for the process `pid` can go on, with the parent that it has read: this
parent has not been freed and, if it is alive, has a token for the process exactly if it has an
entry; and nobody else who is alive has the process in a queue. -/
def Closes (k : Kernel) (pid : Int) (parent : Option (Int × Nat)) : Prop :=
  (∀ P ∈ parent, ∃ p ∈ k.processTable P.1, p.inst = P.2 ∧ (p.Live →
      (0 < (k.sems (.childTerminated P.2)).sem.value ↔ pid ∈ p.terminatedChildren))) ∧
    ∀ x ∈ k.processTable pid, ¬isUnkillable pid ∧ ∀ w ∈ k.processTable x.ppid, w.Live →
      pid ∈ w.terminatedChildren ∨ pid ∈ w.children → parent = some (x.ppid, w.inst)

/-- The process and the parent with which a `wait_pid` goes on in the event. -/
def Event.completes (k : Kernel) : Event → Option (Int × Option (Int × Nat))
  | .waitPid pid => if invalidPID pid then none else (k.processTable pid).bind fun p ↦
      if 0 < (k.sems (.terminated p.inst)).sem.value then some (pid, k.parentOf p) else none
  | .resume => k.current.bind fun c ↦
      match c.2.cont with
      | .waitPid pid _ parent => some (pid, parent)
      | .user | .semWait _ | .waitAny | .polling | .exited => none
  | _ => none

/-- Whoever calls `reap_zombies` and has a token is alive. -/
def Event.LivingReap (k : Kernel) : Event → Prop
  | .reapZombies => ∀ c ∈ k.current, 0 < (k.sems (.childTerminated c.2.inst)).sem.value → c.2.Live
  | _ => True

instance (k : Kernel) (pid : Int) (parent : Option (Int × Nat)) : Decidable (k.Closes pid parent) :=
  inferInstanceAs (Decidable (_ ∧ _))

instance (k : Kernel) : (e : Event) → Decidable (e.LivingReap k)
  | .reapZombies => inferInstanceAs (Decidable (∀ c ∈ k.current, _))
  | .tick | .enableScheduler | .heap _ | .create | .exit _ | .kill _ _ | .ctrlC _ _ | .block _
  | .unblock _ | .yield | .nice _ _ | .foreground _ | .waitPid _ | .waitAny | .semOpen _
  | .semWait _ | .semPost _ | .semTryWait _ | .resume => isTrue trivial

/-- Nobody terminates a dead process, and no dead process comes back to life or reaps; the
heap has a node for the entry of every death; and a `wait_pid` that goes on closes the books on its
process. -/
structure Event.KeepsBooks (k : Kernel) (e : Event) : Prop where
  once : e.TerminatesOnce k
  reaps : e.LivingReap k
  closes : ∀ c ∈ e.completes k, k.Closes c.1 c.2

instance (k : Kernel) (e : Event) : Decidable (e.KeepsBooks k) :=
  decidable_of_iff (e.TerminatesOnce k ∧ e.LivingReap k ∧ ∀ c ∈ e.completes k, k.Closes c.1 c.2)
    ⟨fun h ↦ ⟨h.1, h.2.1, h.2.2⟩, fun h ↦ ⟨h.once, h.reaps, h.closes⟩⟩

namespace FamilyInv

/-! ## Reaping -/

/-- One element leaves a queue without repetitions. -/
theorem length_filter_ne {l : List Int} (h : l.Nodup) (a : Int) :
    (l.filter (· ≠ a)).length + (if a ∈ l then 1 else 0) = l.length := by
  have heq : l.filter (· ≠ a) = l.erase a := by
    rw [h.erase_eq_filter]
    exact List.filter_congr fun b _ ↦ by by_cases hb : b = a <;> simp [hb]
  rw [heq]
  split
  next hmem =>
      have hpos := List.length_pos_of_mem hmem
      rw [List.length_erase_of_mem hmem]
      omega
  next hmem => rw [List.erase_of_not_mem hmem, Nat.add_zero]

/-- **An entry is struck out of the books** of the process `p`, with a token if there is one
for it. -/
theorem strike (h : FamilyInv s) (hz : ZombieInv s) (hp : s.processTable q = some p)
    (hp' : t.processTable q = some p') (hinst : p'.inst = p.inst) (hppid : p'.ppid = p.ppid)
    (hstate : p'.state = p.state)
    (hother : ∀ q', q' ≠ q → t.processTable q' = s.processTable q')
    (hwf : ∀ inst, (t.sems (.childTerminated inst)).sem.Wf)
    (hgranted : ∀ inst, inst ≠ p.inst → (t.sems (.childTerminated inst)).granted =
      (s.sems (.childTerminated inst)).granted)
    (hnext : t.nextInst = s.nextInst) (hpolls : t.log.emptyPolls = s.log.emptyPolls)
    (hterminated : p.Live → p'.terminatedChildren = p.terminatedChildren.filter (· ≠ c))
    (hchildren : p.Live → p'.children.Sublist p.children)
    (howed : p.Live → t.owed p' + (if c ∈ p.terminatedChildren then 1 else 0) = s.owed p) :
    FamilyInv t := by
  have hstays : ∀ d x, s.processTable d = some x → ∃ x', t.processTable d = some x' ∧
      x'.ppid = x.ppid ∧ x'.state = x.state := by
    intro d x hx
    by_cases hd : d = q
    · subst hd
      obtain rfl := Option.some.inj (hp.symm.trans hx)
      exact ⟨p', hp', hppid, hstate⟩
    · exact ⟨x, by rwa [hother d hd], rfl, rfl⟩
  refine h.revise hz hp hp' hinst hppid ?_ (fun q' hne ↦ ?_) hwf hgranted hnext hpolls fun hl ↦ ?_
  · rw [ProcessCDT.Live, hstate, ProcessCDT.Live]
  · rw [hother q' hne]
  · obtain ⟨hbooks, hkids⟩ := h.books q p hp hl
    refine ⟨⟨?_, fun d hd ↦ ?_, ?_⟩, ?_, fun d hd ↦ ?_⟩
    · rw [hterminated hl]
      exact hbooks.distinct.filter _
    · rw [hterminated hl] at hd
      obtain ⟨x, hx, hppid', hdead⟩ := hbooks.dead d (List.mem_of_mem_filter hd)
      obtain ⟨x', hx', heq, hstate'⟩ := hstays d x hx
      exact ⟨x', hx', heq.trans hppid', hstate'.trans hdead⟩
    · have hcount := hbooks.count
      have hlength := length_filter_ne hbooks.distinct c
      have hspent := howed hl
      rw [hterminated hl]
      omega
    · exact hkids.distinct.sublist (hchildren hl)
    · obtain ⟨x, hx, hppid'⟩ := hkids.own d ((hchildren hl).subset hd)
      obtain ⟨x', hx', heq, -⟩ := hstays d x hx
      exact ⟨x', hx', heq.trans hppid'⟩

/-- A process is reaped that is struck out everywhere. -/
theorem reapProcess (h : FamilyInv s) (hpid : s.processTable pid ≠ none → ¬isUnkillable pid)
    (hparent : ∀ x, s.processTable pid = some x → ∀ w, s.processTable x.ppid = some w → w.Live →
      pid ∉ w.terminatedChildren ∧ pid ∉ w.children) (expected : Option Nat) :
    FamilyInv (s.reapProcess pid expected) := by
  rcases reapProcess_cases s pid expected with ⟨-, heq⟩ | ⟨x, -, hx, heq⟩
  · rwa [heq]
  · rw [heq]
    exact h.free (hpid (by simp [hx])) (h.unlisted hx (hparent x hx)) expected

/-- The dead can be reaped: neither the idle process nor `init` ever is among them. -/
theorem killable_of_dead (h : FamilyInv s) (hz : ZombieInv s) (hi : InitInv s)
    (hdead : s.DeadChild c q) : ¬isUnkillable c := by
  obtain ⟨x, hx, -, hzombie⟩ := hdead
  rintro (rfl | rfl)
  · exact hz.idle x hx hzombie
  · obtain ⟨i, hslot, hone⟩ := h.init
    obtain rfl := Option.some.inj (hslot.symm.trans hx)
    exact (hi.place _ i hslot hone).2.live hzombie

/-- The process `p` has spent a token that it had in the state `s`. -/
structure Spends (s u : Kernel) (q : Int) (p p' : ProcessCDT) : Prop where
  before : s.processTable q = some p
  after : u.processTable q = some p'
  inst : p'.inst = p.inst
  state : p'.state = p.state
  kin : p'.kin = p.kin
  other : ∀ q', q' ≠ q → u.processTable q' = s.processTable q'
  wf : ∀ inst, (u.sems (.childTerminated inst)).sem.Wf
  granted : ∀ inst, inst ≠ p.inst → (u.sems (.childTerminated inst)).granted =
    (s.sems (.childTerminated inst)).granted
  owed : u.owed p' + 1 = s.owed p
  nextInst : u.nextInst = s.nextInst
  polls : u.log.emptyPolls = s.log.emptyPolls

namespace Spends

variable (hspends : Spends s u cur p p')

include hspends

theorem kin_eq : p'.ppid = p.ppid ∧ p'.children = p.children ∧
    p'.terminatedChildren = p.terminatedChildren := by
  simpa [ProcessCDT.kin] using hspends.kin

/-- **Whoever has spent a token finds an entry**, the first of different ones, which is that of a
dead child. -/
theorem entry (h : FamilyInv s) (hlive : p.Live) : ∃ c queue, p.terminatedChildren = c :: queue ∧
    c ∉ queue ∧ s.DeadChild c cur := by
  obtain ⟨hbooks, -⟩ := h.books cur p hspends.before hlive
  have hcount := hbooks.count
  rw [← hspends.owed] at hcount
  cases hqueue : p.terminatedChildren with
  | nil =>
      rw [hqueue] at hcount
      exact absurd hcount.symm (Nat.succ_ne_zero _)
  | cons c queue =>
      have hdistinct := hbooks.distinct
      rw [hqueue] at hdistinct
      refine ⟨c, queue, rfl, (List.nodup_cons.mp hdistinct).1, hbooks.dead c ?_⟩
      rw [hqueue]
      exact List.mem_cons_self

/-- It takes the entry. -/
theorem poll (h : FamilyInv s) (hz : ZombieInv s) (hlive : p.Live) :
    FamilyInv (u.pollTerminatedChildren cur p).2 := by
  obtain ⟨c, queue, hqueue, hc, -⟩ := hspends.entry h hlive
  obtain ⟨hppid, hchildren, -⟩ := hspends.kin_eq
  have hfilter : p.terminatedChildren.filter (· ≠ c) = queue := by
    rw [hqueue, List.filter_cons_of_neg (by simp), List.filter_eq_self]
    intro d hd
    simp only [decide_eq_true_eq]
    rintro rfl
    exact hc hd
  have hslot : (u.modify cur fun p ↦ { p with terminatedChildren := queue }).processTable cur =
      some { p' with terminatedChildren := queue } := by
    rw [modify_self, hspends.after, Option.map_some]
  unfold pollTerminatedChildren
  simp only [hqueue]
  refine h.strike (c := c) hz hspends.before hslot hspends.inst hppid hspends.state
    (fun q' hne ↦ ?_) hspends.wf hspends.granted hspends.nextInst hspends.polls
    (fun _ ↦ hfilter.symm) (fun _ ↦ ?_) fun _ ↦ ?_
  · rw [modify_other _ _ hne, hspends.other q' hne]
  · exact hchildren ▸ List.Sublist.refl _
  · rw [hqueue, if_pos List.mem_cons_self, ← hspends.owed]
    rfl

/-- The child that it has polled is in nobody's queue, once it has left that of the children. -/
theorem closes (h : FamilyInv s) (hz : ZombieInv s) (hi : InitInv s) (hlive : p.Live) :
    ((u.pollTerminatedChildren cur p).2.removeChild cur (u.pollTerminatedChildren cur p).1).Closes
      (u.pollTerminatedChildren cur p).1 none := by
  obtain ⟨c, queue, hqueue, hc, hdead⟩ := hspends.entry h hlive
  have hkillable := h.killable_of_dead hz hi hdead
  obtain ⟨x, hx, hxppid, -⟩ := hdead
  unfold pollTerminatedChildren
  simp only [hqueue]
  let w : Kernel := (u.modify cur fun p ↦ { p with terminatedChildren := queue }).removeChild cur c
  have hslot : w.processTable cur = some { p' with
      terminatedChildren := queue, children := p'.children.filter (· ≠ c) } := by
    simp only [w, removeChild, modify_self, hspends.after, Option.map_some]
  have hother : ∀ q', q' ≠ cur → w.processTable q' = u.processTable q' :=
    fun q' hne ↦ (modify_other _ _ hne).trans (modify_other _ _ hne)
  refine ⟨fun P hP ↦ absurd hP (by simp), fun y hy ↦ ⟨hkillable, fun v hv _ hmem ↦ ?_⟩⟩
  -- its parent is the process that polls
  have hyppid : y.ppid = cur := by
    by_cases hq : c = cur
    · subst hq
      obtain rfl := Option.some.inj (hslot.symm.trans hy)
      obtain rfl := Option.some.inj (hspends.before.symm.trans hx)
      exact hspends.kin_eq.1.trans hxppid
    · have hyx : y = x := by
        have hyc : w.processTable c = some y := hy
        rw [hother c hq, hspends.other c hq, hx] at hyc
        exact (Option.some.inj hyc).symm
      rw [hyx]
      exact hxppid
  have hvcur : w.processTable y.ppid = some v := hv
  rw [hyppid] at hvcur
  obtain rfl := Option.some.inj (hslot.symm.trans hvcur)
  rcases hmem with hmem | hmem
  · exact absurd hmem hc
  · simp at hmem

end Spends

/-- A child leaves a queue of children. -/
theorem dropChild (h : FamilyInv s) (hz : ZombieInv s) (q c : Int) :
    FamilyInv (s.removeChild q c) := by
  cases hp : s.processTable q with
  | none =>
      refine h.other (SameTable.modify fun p hp' ↦ ?_) (fun _ ↦ rfl) rfl rfl
      cases hp.symm.trans hp'
  | some p =>
      have hslot : (s.removeChild q c).processTable q =
          some { p with children := p.children.filter (· ≠ c) } := by
        rw [removeChild, modify_self, hp, Option.map_some]
      refine h.revise hz hp hslot rfl rfl Iff.rfl (fun q' hne ↦ ?_) h.wf (fun _ _ ↦ rfl) rfl rfl
        fun hl ↦ ?_
      · rw [removeChild, modify_other _ _ hne]
      · obtain ⟨hbooks, hkids⟩ := h.books q p hp hl
        refine ⟨hbooks.mono rfl rfl fun d _ hd ↦ ?_, hkids.distinct.filter _, fun d hd ↦ ?_⟩
        · refine hd.modify ?_ q
          exact fun _ ↦ ⟨rfl, rfl⟩
        · refine (hkids.own d (List.mem_of_mem_filter hd)).modify ?_ q
          exact fun _ ↦ rfl

/-- A process is reaped that nobody who is alive has in a queue. -/
theorem reapUnlisted (h : FamilyInv s) (hcloses : s.Closes pid none) (expected : Option Nat) :
    FamilyInv (s.reapProcess pid expected) := by
  refine h.reapProcess (fun hne ↦ ?_) (fun x hx w hw hlive ↦ ?_) expected
  · obtain ⟨x, hx⟩ := Option.ne_none_iff_exists'.mp hne
    exact (hcloses.2 x hx).1
  · have hnone := (hcloses.2 x hx).2 w hw hlive
    refine ⟨fun hmem ↦ ?_, fun hmem ↦ ?_⟩
    · cases hnone (.inl hmem)
    · cases hnone (.inr hmem)

/-- **Whoever has spent a token finds an entry**, and reaps the child. -/
theorem pollAndReap (h : FamilyInv s) (hz : ZombieInv s) (hi : InitInv s) (hlive : p.Live)
    (hzu : ZombieInv u) (hspends : Spends s u cur p p') : FamilyInv (u.pollAndReap cur p) := by
  have hpolled := hspends.poll h hz hlive
  unfold Kernel.pollAndReap
  dsimp only
  split
  · exact hpolled
  · exact (hpolled.dropChild (hzu.frame (.pollTerminatedChildren u cur p)) cur _).reapUnlisted
      (hspends.closes h hz hi hlive) none

/-! ## `wait_pid` -/

theorem take_wf (h : ∀ inst, (s.sems (.childTerminated inst)).sem.Wf) {id : SemId}
    (hpos : 0 < (s.sems id).sem.value) (inst : Nat) :
    ((s.take id).sems (.childTerminated inst)).sem.Wf := by
  by_cases hj : .childTerminated inst = id
  · subst hj
    rw [Kernel.take, setSem_self, (h inst).queue_eq_nil hpos]
    exact .take hpos
  · rw [Kernel.take, setSem_other _ _ _ hj]
    exact h inst

theorem take_granted (hpos : 0 < (s.sems id).sem.value) :
    ((s.take id).sems id).granted + 1 = (s.sems id).granted := by
  rw [Kernel.take, setSem_self]
  simp only [SemRec.granted, Sem.tokens]
  omega

/-- **`wait_pid` goes on** after its `semWait`. -/
theorem afterTerminated (h : FamilyInv s) (hz : ZombieInv s) {inst : Nat}
    {parent : Option (Int × Nat)} (hcloses : s.Closes pid parent)
    (ht : s.afterTerminated pid inst parent = some t) : FamilyInv t := by
  obtain ⟨htoken, honly⟩ := hcloses
  unfold Kernel.afterTerminated at ht
  split at ht
  · rw [← Option.some.inj ht]
    exact h.reapUnlisted ⟨htoken, honly⟩ _
  next ppid pinst =>
      split at ht
      · cases ht
      next p hp =>
      split at ht
      · cases ht
      next hpinst =>
      have hpinst : p.inst = pinst := not_not.mp hpinst
      rw [← hpinst] at ht
      -- once the token is dealt with, the entry is struck out and the process is reaped
      have hclosed : ∀ u : Kernel, u.processTable = s.processTable →
          (∀ inst, (u.sems (.childTerminated inst)).sem.Wf) →
          (∀ inst, inst ≠ p.inst → (u.sems (.childTerminated inst)).granted =
            (s.sems (.childTerminated inst)).granted) →
          u.nextInst = s.nextInst → u.log = s.log →
          (p.Live → u.owed p + (if pid ∈ p.terminatedChildren then 1 else 0) = s.owed p) →
          FamilyInv (((u.modify ppid fun p ↦ { p with
            terminatedChildren := p.terminatedChildren.filter (· ≠ pid) }).removeChild ppid
              pid).reapProcess pid (some inst)) := by
        intro u htable hwf hgranted hnext hlog howed
        let v : Kernel := (u.modify ppid fun p ↦ { p with
          terminatedChildren := p.terminatedChildren.filter (· ≠ pid) }).removeChild ppid pid
        have hslot : v.processTable ppid = some { p with
            terminatedChildren := p.terminatedChildren.filter (· ≠ pid)
            children := p.children.filter (· ≠ pid) } := by
          simp only [v, removeChild, modify_self, htable, hp, Option.map_some]
        have hother : ∀ q, q ≠ ppid → v.processTable q = s.processTable q := fun q hq ↦ by
          simp only [v, removeChild, modify_other _ _ hq, htable]
        have hv : FamilyInv v := h.strike (c := pid) hz hp hslot rfl rfl rfl hother hwf hgranted
          hnext (by rw [← hlog]; rfl) (fun _ ↦ rfl) (fun _ ↦ List.filter_sublist) howed
        have hback : ∀ x, v.processTable pid = some x → ∃ y, s.processTable pid = some y ∧
            x.ppid = y.ppid := by
          intro x hx
          by_cases hq : pid = ppid
          · subst hq
            obtain rfl := Option.some.inj (hslot.symm.trans hx)
            exact ⟨p, hp, rfl⟩
          · exact ⟨x, by rwa [← hother pid hq], rfl⟩
        refine FamilyInv.reapProcess hv (fun hne ↦ ?_) (fun x hx w hw hlive ↦ ?_) _
        · obtain ⟨x, hx⟩ := Option.ne_none_iff_exists'.mp hne
          obtain ⟨y, hy, -⟩ := hback x hx
          exact (honly y hy).1
        · obtain ⟨y, hy, hppid⟩ := hback x hx
          by_cases hq : x.ppid = ppid
          · rw [hq] at hw
            obtain rfl := Option.some.inj (hslot.symm.trans hw)
            exact ⟨by simp, by simp⟩
          · -- a parent that `wait_pid` does not know has no entry
            rw [hother _ hq, hppid] at hw
            have hknown := (honly y hy).2 w hw hlive
            refine ⟨fun hmem ↦ hq ?_, fun hmem ↦ hq ?_⟩
            · obtain ⟨heq, -⟩ := Prod.mk.inj (Option.some.inj (hknown (.inl hmem)))
              rw [hppid, heq]
            · obtain ⟨heq, -⟩ := Prod.mk.inj (Option.some.inj (hknown (.inr hmem)))
              rw [hppid, heq]
      have hlisted : p.Live →
          (0 < (s.sems (.childTerminated p.inst)).sem.value ↔ pid ∈ p.terminatedChildren) := by
        obtain ⟨p', hp', -, hlisted⟩ := htoken _ rfl
        obtain rfl := Option.some.inj (hp.symm.trans hp')
        rw [hpinst]
        exact hlisted
      rcases tryWait_cases s (.childTerminated p.inst) with ⟨hpos, heq⟩ | ⟨hle, heq⟩
      · rw [heq] at ht
        rw [← Option.some.inj ht]
        refine hclosed (s.take (.childTerminated p.inst)) rfl (take_wf h.wf hpos)
          (fun inst hne ↦ ?_) rfl rfl fun hl ↦ ?_
        · rw [Kernel.take, setSem_other _ _ _ (by simpa using hne)]
        · have hgranted := take_granted (s := s) hpos
          rw [if_pos ((hlisted hl).mp hpos)]
          simp only [owed]
          omega
      · rw [heq] at ht
        rw [← Option.some.inj ht]
        refine hclosed s rfl h.wf (fun _ _ ↦ rfl) rfl rfl fun hl ↦ ?_
        rw [if_neg fun hmem ↦ absurd ((hlisted hl).mpr hmem) (by omega), Nat.add_zero]

/-! ## The scheduler -/

theorem dispatch (h : FamilyInv s) (hz : ZombieInv s) (ht : s.dispatch = some t) :
    FamilyInv t := by
  obtain ⟨next, p, rest, hnext, hp, rfl⟩ := dispatch_cases ht
  refine h.other (sameTable_live (f := fun p ↦ { p with
    state := .RUNNING, remainingQuantums := p.priorityLevel - 1 }) hp (hz.next_live hnext hp)
      State.noConfusion rfl rfl Iff.rfl) (fun _ ↦ rfl) rfl rfl

theorem schedule (h : FamilyInv s) (hz : ZombieInv s) (ht : s.schedule = some t) :
    FamilyInv t := by
  rcases schedule_cases ht with ⟨-, rfl⟩ | ⟨-, ⟨cur, p, -, -, -, rfl⟩ |
    ⟨cur, p, hcur, hrun, -, hdispatch⟩ | ⟨-, hdispatch⟩⟩
  · exact h
  · refine h.other (SameTable.modify fun _ _ ↦ ?_) (fun _ ↦ rfl) rfl rfl
    rfl
  · obtain ⟨-, hp⟩ := current_eq_some.mp hcur
    have hlive : p.Live := live_of_state hrun (by simp)
    exact (h.other (sameTable_wake hp hlive) (fun _ ↦ rfl) rfl rfl).dispatch (hz.wake hp hlive)
      hdispatch
  · exact h.dispatch hz hdispatch

/-- A process that is alive stops in a `semWait`. -/
theorem blockOn (h : FamilyInv s) {c : Cont} (hcur : s.current = some (cur, p)) (hlive : p.Live)
    (hcont : p.cont = .user) (hc : c ≠ .polling) (hle : (s.sems id).sem.value ≤ 0)
    (hnode : ∀ inst, id = .childTerminated inst → s.nodes .blockedQueue = true) :
    FamilyInv (s.blockOn id cur c) := by
  obtain ⟨-, hp⟩ := current_eq_some.mp hcur
  refine h.congr (sameTable_live (f := fun p ↦ { p with state := .BLOCKED, cont := c }) hp hlive
    State.noConfusion rfl rfl (by simp [hcont, hc])) (fun inst ↦ ?_) (fun inst ↦ ?_) rfl rfl
  · by_cases hj : .childTerminated inst = id
    · subst hj
      rw [blockOn_sems_self]
      have hwf := h.wf inst
      have hvalue := hwf.value_add_length
      rw [Sem.tokens] at hvalue
      simp only [enqueue, if_pos (hnode inst rfl)]
      refine ⟨fun hnil ↦ absurd hnil (by simp), fun _ ↦ ?_⟩
      rw [List.length_append, List.length_singleton]
      push_cast
      omega
    · rw [blockOn_sems_other hj]
      exact h.wf inst
  · by_cases hj : .childTerminated inst = id
    · subst hj
      rw [blockOn_sems_self]
      simp only [SemRec.granted, Sem.tokens]
      omega
    · rw [blockOn_sems_other hj]

/-! ## `wait_any` -/

/-- A process moves on, and its tokens with it. -/
theorem moves (h : FamilyInv s) (hz : ZombieInv s) {c : Cont} (hp : s.processTable q = some p)
    (htable : t.processTable = (s.setCont q c).processTable)
    (hwf : ∀ inst, (t.sems (.childTerminated inst)).sem.Wf)
    (hgranted : ∀ inst, inst ≠ p.inst → (t.sems (.childTerminated inst)).granted =
      (s.sems (.childTerminated inst)).granted)
    (hnext : t.nextInst = s.nextInst) (hlog : t.log = s.log)
    (howed : t.owed { p with cont := c } = s.owed p) : FamilyInv t := by
  have hslot : t.processTable q = some { p with cont := c } := by
    rw [htable, Kernel.setCont, modify_self, hp, Option.map_some]
  refine h.revise hz hp hslot rfl rfl Iff.rfl (fun q' hne ↦ ?_) hwf hgranted hnext (by rw [hlog])
    fun hl ↦ ?_
  · rw [htable, Kernel.setCont, modify_other _ _ hne]
  · obtain ⟨hbooks, hkids⟩ := h.books q p hp hl
    refine ⟨hbooks.mono rfl howed fun d _ hd ↦ ?_, hkids.mono rfl fun d _ hd ↦ ?_⟩
    · rw [DeadChild, htable]
      refine hd.modify ?_ q
      exact fun _ ↦ ⟨rfl, rfl⟩
    · rw [Child, htable]
      refine hd.modify ?_ q
      exact fun _ ↦ rfl

/-- `init` has a token, which it has not used yet. -/
theorem waited (h : FamilyInv s) (hz : ZombieInv s) (hcur : s.current = some (cur, p))
    (hcont : p.cont = .user) (hpos : 0 < (s.sems (.childTerminated p.inst)).sem.value) :
    FamilyInv ((s.take (.childTerminated p.inst)).setCont cur .polling) := by
  obtain ⟨-, hp⟩ := current_eq_some.mp hcur
  refine h.moves hz hp rfl (take_wf h.wf hpos) (fun inst hne ↦ ?_) rfl rfl ?_
  · show ((s.take _).sems _).granted = _
    rw [Kernel.take, setSem_other _ _ _ (by simpa using hne)]
  · have hgranted := take_granted (s := s) hpos
    show ((s.take (.childTerminated p.inst)).sems (.childTerminated p.inst)).granted + 1 = s.owed p
    simp only [owed, hcont]
    exact hgranted

/-- The running process returns from its `semWait`, and is not `init`. -/
theorem returned (h : FamilyInv s) (hcur : s.current = some (cur, p)) (hid : p.waitsOn = some id)
    (hcont : p.cont ≠ .waitAny) : FamilyInv ((s.returnFrom id cur).setCont cur .user) := by
  obtain ⟨-, hp⟩ := current_eq_some.mp hcur
  have hother : ∀ inst, id ≠ .childTerminated inst := by
    rintro inst rfl
    unfold ProcessCDT.waitsOn at hid
    split at hid
    · cases hid
    · cases hid
    · next hwaits => exact hcont hwaits
    all_goals cases hid
  have hpolling : p.cont ≠ .polling := by
    intro hpolling
    simp [ProcessCDT.waitsOn, hpolling] at hid
  have hmoved : FamilyInv (s.returnFrom id cur) := h.setSem hother _
  refine hmoved.other (sameTable_setCont (by simp) fun p' hp' ↦ ?_) (fun _ ↦ rfl) rfl rfl
  obtain rfl := Option.some.inj (hp.symm.trans hp')
  exact hpolling

/-- `init` returns from its `semWait`: the token that a post has granted is now one that it has not
used. -/
theorem returned_init (h : FamilyInv s) (hz : ZombieInv s)
    (hp : s.processTable INIT_PID = some p) (hone : p.inst = 1) (hcont : p.cont = .waitAny)
    (hmem : INIT_PID ∈ (s.sems (.childTerminated 1)).pending) :
    FamilyInv ((s.returnFrom (.childTerminated 1) INIT_PID).setCont INIT_PID .polling) := by
  refine h.moves hz hp rfl (fun inst ↦ ?_) (fun inst hne ↦ ?_) rfl rfl ?_
  · show ((s.returnFrom _ _).sems _).sem.Wf
    by_cases hj : SemId.childTerminated inst = .childTerminated 1
    · rw [hj, returnFrom, setSem_self]
      exact h.wf 1
    · rw [returnFrom, setSem_other _ _ _ hj]
      exact h.wf inst
  · show ((s.returnFrom _ _).sems _).granted = _
    rw [returnFrom, setSem_other _ _ _ (by simpa [hone] using hne)]
  · show ((s.returnFrom (.childTerminated 1) INIT_PID).sems
      (.childTerminated p.inst)).granted + 1 = s.owed p
    have hpos := List.length_pos_of_mem hmem
    rw [hone, returnFrom, setSem_self]
    simp only [owed, SemRec.granted, hone, hcont, List.length_erase_of_mem hmem]
    simp
    omega

end FamilyInv

/-! ## Runs -/

/-- The invariant of the dead and the living, of `init` and of the books. -/
structure Household (k : Kernel) : Prop where
  zombies : ZombieInv k
  init : InitInv k
  family : FamilyInv k

/-- Two states agree in what `Closes` reads. -/
theorem Closes.congr {parent : Option (Int × Nat)} (h : k.Closes pid parent)
    (htable : ∀ q p', s.processTable q = some p' → ∃ p, k.processTable q = some p ∧
      p'.inst = p.inst ∧ p'.kin = p.kin ∧ (p'.Live ↔ p.Live))
    (hstays : ∀ q, s.processTable q = none → k.processTable q = none)
    (hsems : ∀ inst, s.sems (.childTerminated inst) = k.sems (.childTerminated inst)) :
    s.Closes pid parent := by
  have hlists : ∀ {p p' : ProcessCDT}, p'.kin = p.kin → p'.ppid = p.ppid ∧
      p'.children = p.children ∧ p'.terminatedChildren = p.terminatedChildren := by
    intro p p' hkin
    simpa [ProcessCDT.kin] using hkin
  refine ⟨fun P hP ↦ ?_, fun x' hx' ↦ ?_⟩
  · obtain ⟨p₀, hp₀, hinst, hlisted⟩ := h.1 P hP
    cases hq : s.processTable P.1 with
    | none => cases (hstays _ hq).symm.trans hp₀
    | some p' =>
        obtain ⟨p, hp, heq, hkin, hiff⟩ := htable P.1 p' hq
        obtain rfl := Option.some.inj (hp.symm.trans hp₀)
        refine ⟨p', rfl, heq.trans hinst, fun hlive ↦ ?_⟩
        rw [hsems, (hlists hkin).2.2]
        exact hlisted (hiff.mp hlive)
  · obtain ⟨x, hx, -, hkin, -⟩ := htable pid x' hx'
    obtain ⟨hkillable, honly⟩ := h.2 x hx
    refine ⟨hkillable, fun w' hw' hlive hmem ↦ ?_⟩
    obtain ⟨w, hw, heq, hkin', hiff⟩ := htable x'.ppid w' hw'
    obtain ⟨-, hchildren, hterminated⟩ := hlists hkin'
    rw [(hlists hkin).1] at hw ⊢
    rw [hchildren, hterminated] at hmem
    rw [heq]
    exact honly w hw (hiff.mp hlive) hmem

theorem Event.Completes.closes {inst : Nat} {parent : Option (Int × Nat)}
    (h : e.Completes k s pid inst parent) (hok : ∀ c ∈ e.completes k, k.Closes c.1 c.2) :
    s.Closes pid parent := by
  have hcompletes : (pid, parent) ∈ e.completes k := by
    cases h with
    | immediate hvalid hp hpos =>
        rw [Event.completes, if_neg hvalid, hp, Option.bind_some, if_pos hpos]
        rfl
    | resumed hcur hcont =>
        rw [Event.completes, hcur, Option.bind_some, hcont]
        rfl
  refine Closes.congr (hok (pid, parent) hcompletes) (fun q p' hp' ↦ ?_) (fun q hq ↦ ?_) fun i ↦ ?_
  · cases h with
    | immediate hvalid hp hpos => exact ⟨p', hp', rfl, rfl, Iff.rfl⟩
    | resumed hcur hcont =>
        obtain ⟨p, hp, rfl⟩ := modify_eq_some.mp hp'
        refine ⟨p, hp, ?_⟩
        split
        · exact ⟨rfl, rfl, Iff.rfl⟩
        · exact ⟨rfl, rfl, Iff.rfl⟩
  · cases h with
    | immediate hvalid hp hpos => exact hq
    | resumed hcur hcont => exact modify_eq_none.mp hq
  · have hother : ∀ (r : SemRec) j, (k.setSem (.terminated j) r).sems (.childTerminated i) =
        k.sems (.childTerminated i) := fun r j ↦ setSem_other _ _ _ (by simp)
    cases h with
    | immediate hvalid hp hpos => exact hother _ _
    | @resumed cur _ _ _ _ hcur hcont =>
        show (k.returnFrom (.terminated inst) cur).sems (.childTerminated i) = _
        exact hother _ inst

/-- The core and the family make up the books. -/
theorem sameTable_of_core (hcore : SameCore s t) (hkin : SameKin s t) : SameTable s t := by
  intro q
  cases hs : s.processTable q with
  | none => rw [hcore.eq_none.mpr hs]
  | some p =>
      obtain ⟨p', hp', hinst, hstate, hcont⟩ := hcore.symm_table hs
      have hq := hkin.kin q
      rw [hs, hp', Option.map_some, Option.map_some] at hq
      obtain ⟨hppid, hchildren, hterminated⟩ : p'.ppid = p.ppid ∧ p'.children = p.children ∧
          p'.terminatedChildren = p.terminatedChildren := by
        simpa [ProcessCDT.kin] using Option.some.inj hq
      rw [hp', Option.map_some, Option.map_some]
      have hiff : p'.Live ↔ p.Live := by rw [ProcessCDT.Live, hstate, ProcessCDT.Live]
      by_cases hlive : p.Live
      · rw [ProcessCDT.family_live hlive, ProcessCDT.family_live (hiff.mpr hlive), hinst, hcont,
          hppid, hchildren, hterminated]
      · rw [ProcessCDT.family_dead hlive, ProcessCDT.family_dead (mt hiff.mp hlive), hinst, hppid]

/-- A child may be registered before it is created. -/
theorem started_addChild (hne : cur ≠ pid) (ppid : Int) :
    (s.addChild cur pid).started 1 pid ppid = (s.started 1 pid ppid).addChild cur pid := by
  simp only [started, addChild, modify, enqueueReady, enqueue]
  congr 1
  funext q
  by_cases hq : q = pid
  · rw [if_pos hq, if_neg fun hc ↦ hne (hc.symm.trans hq), if_pos hq]
    rfl
  · rw [if_neg hq, if_neg hq]

/-- Every update of the kernel keeps the books, except the steps of `init`. -/
theorem householdRule :
    StepRule (fun k e ↦ e.SparesInit k ∧ e.KeepsBooks k) Household where
  frame h hcore hkin := ⟨h.zombies.frame hcore, h.init.frame hcore,
    h.family.other (sameTable_of_core hcore hkin) (fun _ ↦ by rw [hcore.sems]) hcore.nextInst
      hkin.emptyPolls⟩
  schedule h ht := ⟨h.zombies.schedule ht, h.init.schedule ht, h.family.schedule h.zombies ht⟩
  post n h := ⟨h.zombies.post (by simp), h.init.post _, h.family.post (by simp)⟩
  take id h hid hpos := ⟨zombieRule.take id h.zombies hpos, h.init.take id,
    h.family.setSem hid _⟩
  semOpen {s} value h := by
    have hother : ∀ inst, (s.setSem (.user s.nextSem) (.new value)).sems (.childTerminated inst) =
        s.sems (.childTerminated inst) := fun inst ↦ setSem_other _ _ _ (by simp)
    exact ⟨h.zombies.semOpen value, h.init.semOpen value,
      h.family.other (.refl _) hother rfl rfl⟩
  heap nodes h hok :=
    ⟨zombieRule.heap nodes h.zombies hok.2.once.1, initRule.heap nodes h.init hok.1,
    h.family.other (.refl _) (fun _ ↦ rfl) rfl rfl⟩
  setBlocked {s} {t} {pid} {p} h hok hkillable hp ht := by
    refine ⟨(h.zombies.setBlocked hp ht).2, initRule.setBlocked h.init hok.1 hkillable hp ht, ?_⟩
    have hlive : p.Live := by
      rcases ht with ⟨hst, -⟩ | ⟨hst, -⟩
      · exact live_of_state hst (by simp)
      · exact live_of_state hst (by simp)
    have hsame : SameTable s (s.setState pid .BLOCKED) :=
      sameTable_live (f := fun p ↦ { p with state := .BLOCKED }) hp hlive State.noConfusion rfl rfl
        Iff.rfl
    rcases ht with ⟨-, rfl⟩ | ⟨-, rfl⟩
    · exact h.family.other hsame (fun _ ↦ rfl) rfl rfl
    · exact h.family.other hsame (fun _ ↦ rfl) rfl rfl
  unblock h hok hkillable hp hblocked :=
    ⟨zombieRule.unblock h.zombies hok.2.once.1 hkillable hp hblocked,
    initRule.unblock h.init hok.1 hkillable hp hblocked,
    h.family.other (sameTable_wake hp (live_of_state hblocked (by simp))) (fun _ ↦ rfl) rfl rfl⟩
  exit h hcur hcont hinst := by
    refine ⟨h.zombies.setCont _ _, initRule.exit h.init hcur hcont hinst,
      h.family.other (sameTable_setCont (by simp) fun p' hp' ↦ ?_) (fun _ ↦ rfl) rfl rfl⟩
    obtain rfl := Option.some.inj ((current_eq_some.mp hcur).2.symm.trans hp')
    simp [hcont]
  waited _ hok _ _ _ _ := by cases hok.1 rfl
  returned {s} {cur} {p} {id} {c} h hok hcur hid hc := by
    refine ⟨(h.zombies.returnFrom _ _).setCont _ _, h.init.returned hcur hid hc, ?_⟩
    rcases hc with ⟨rfl, hcont⟩ | ⟨rfl, hcont⟩
    · exact h.family.returned hcur hid hcont
    · have hone := h.init.conts _ _ (current_eq_some.mp hcur).2 (.inl hcont)
      exact absurd hone (resume_spares hok.1 hcur)
  block {s} {_} {e} {cur} {p} {id} {c} h hok hwaits hcur hcont hinst hle ht := by
    have hlive := hok.2.once.1.2 _ hwaits.waitsFor hle _ hcur
    have hz : ZombieInv (s.blockOn id cur c) := h.zombies.blockOn hcur hlive _ _
    refine ⟨hz.schedule ht, initRule.block h.init hok.1 hwaits hcur hcont hinst hle ht, ?_⟩
    obtain ⟨hid, hpolling⟩ := hwaits.other (hwaits.spares hok.1 hinst).2
    exact (h.family.blockOn hcur hlive hcont hpolling hle
      fun inst hinst' ↦ absurd hinst' (hid inst)).schedule hz ht
  terminate h hok hpid hkillable hp hprocess hinst hlive hvalid hparent hnodes := by
    have hl := hlive.mpr (hok.2.once.1.1 _ hpid _ hp)
    refine ⟨zombieRule.stepRule.terminate h.zombies hok.2.once.1 hpid hkillable hp hprocess hinst
      hlive hvalid hparent hnodes, initRule.terminate h.init hok.1 hpid hkillable hp hprocess hinst
      hlive hvalid hparent hnodes, h.family.terminate h.zombies h.init hkillable hprocess hl hparent
      ?_⟩
    rw [hnodes]
    exact hok.2.once.2 _ hpid hkillable (by simp [hp])
  afterTerminated h hok hcompletes ht := ⟨
    zombieRule.stepRule.afterTerminated h.zombies hok.2.once.1 hcompletes ht,
    initRule.afterTerminated h.init hok.1 hcompletes ht,
    h.family.afterTerminated h.zombies (hcompletes.closes hok.2.closes) ht⟩
  polled h hok hcur hcont := by
    have hone := h.init.conts _ _ (current_eq_some.mp hcur).2 (.inr hcont)
    exact absurd hone (resume_spares hok.1 hcur)
  reapRound {k} {s} {cur} {p} {p₀} h hok hcaller htoken hcur hinst hstate hpos := by
    refine ⟨zombieRule.stepRule.reapRound h.zombies hok.2.once.1 hcaller htoken hcur hinst hstate
      hpos, initRule.reapRound h.init hok.1 hcaller htoken hcur hinst hstate hpos, ?_⟩
    obtain ⟨-, hp⟩ := current_eq_some.mp hcur
    have hlive : p.Live := by
      rw [ProcessCDT.Live, hstate]
      exact hok.2.reaps _ (caller_eq_some hcaller).1 htoken
    refine h.family.pollAndReap h.zombies h.init hlive (zombieRule.take _ h.zombies hpos) ⟨hp, hp,
      rfl, rfl, rfl, fun _ _ ↦ rfl, FamilyInv.take_wf h.family.wf hpos, fun inst hne ↦ ?_, ?_, rfl,
      rfl⟩
    · rw [Kernel.take, setSem_other _ _ _ (by simpa using hne)]
    · have hgranted := FamilyInv.take_granted hpos
      simp only [owed]
      omega
  start {s} {cur} {p} {pid} h hok hcur hinst hfree := by
    refine ⟨zombieRule.stepRule.start h.zombies hok.2.once.1 hcur hinst hfree,
      initRule.start h.init hok.1 hcur hinst hfree, ?_⟩
    obtain ⟨hpointer, hp⟩ := current_eq_some.mp hcur
    obtain ⟨-, hnone⟩ := findFreePid_eq_some hfree
    simp only [registered, hpointer]
    split
    next hidle =>
      -- it makes no difference if the process is created before its parent has it as a child
      have hne : cur ≠ pid := by
        rintro rfl
        cases hnone.symm.trans hp
      have hslot : (s.started 1 pid cur).processTable cur = some p := by
        simp only [started, enqueueReady, if_neg hne, hp]
      have hchild : (s.started 1 pid cur).Child pid cur := by
        refine ⟨s.newCDT 1 cur, ?_, rfl⟩
        simp only [started, enqueueReady, if_true]
      rw [started_addChild hne]
      refine (h.family.start hnone cur).addChild (h.zombies.start hnone cur) hslot hchild
        fun hl hmem ↦ ?_
      obtain ⟨x, hx, -⟩ := (h.family.books cur p hp hl).2.own pid hmem
      cases hnone.symm.trans hx
    · exact h.family.start hnone _

theorem familyInv_init : FamilyInv initializeScheduler := by
  refine ⟨fun _ ↦ .new (Int.le_refl 0), fun _ _ ↦ rfl, ⟨_, rfl, rfl⟩, ⟨_, rfl, rfl⟩, rfl,
    fun q p hp _ ↦ ?_⟩
  rcases init_eq_some hp with ⟨-, rfl⟩ | ⟨-, rfl⟩
  · exact ⟨⟨List.nodup_nil, fun c hc ↦ (List.not_mem_nil hc).elim, rfl⟩, List.nodup_nil,
      fun c hc ↦ (List.not_mem_nil hc).elim⟩
  · exact ⟨⟨List.nodup_nil, fun c hc ↦ (List.not_mem_nil hc).elim, rfl⟩, List.nodup_nil,
      fun c hc ↦ (List.not_mem_nil hc).elim⟩

theorem household_init : Household initializeScheduler :=
  ⟨zombieInv_init, initInv_init, familyInv_init⟩

/-- The books of everybody alive agree with the tokens and the dead, no poll has found a queue
empty, and neither the idle process nor `init` has been freed. -/
structure BooksAgree (k : Kernel) : Prop where
  books : ∀ q p, k.processTable q = some p → p.Live → k.Books q p
  polls : k.log.emptyPolls = 0
  idle : ∃ p, k.processTable IDLE_PID = some p ∧ p.inst = 0
  init : ∃ p, k.processTable INIT_PID = some p ∧ p.inst = 1

namespace BooksAgree

theorem of_family (h : FamilyInv s) : BooksAgree s :=
  ⟨fun q p hp hlive ↦ (h.books q p hp hlive).1, h.polls, h.idle, h.init⟩

/-- An update outside the books. -/
theorem congr (h : BooksAgree s) (htable : SameTable s t)
    (hgranted : ∀ inst, (t.sems (.childTerminated inst)).granted =
      (s.sems (.childTerminated inst)).granted)
    (hpolls : t.log.emptyPolls = s.log.emptyPolls) : BooksAgree t where
  books q p' hp' hlive' := by
    obtain ⟨p, hp, heq⟩ := htable.eq_some hp'
    obtain ⟨hinst, -, hlive, hsame⟩ := family_eq heq
    obtain ⟨-, hterminated, hpolling⟩ := hsame (hlive.mp hlive')
    exact (h.books q p hp (hlive.mp hlive')).mono hterminated (owed_congr hgranted hinst hpolling)
      fun c _ ↦ htable.deadChild
  polls := hpolls.trans h.polls
  idle := by
    obtain ⟨p, hp, hinst⟩ := h.idle
    obtain ⟨p', hp', heq⟩ := htable.symm.eq_some hp
    exact ⟨p', hp', (family_eq heq).1.symm.trans hinst⟩
  init := by
    obtain ⟨p, hp, hinst⟩ := h.init
    obtain ⟨p', hp', heq⟩ := htable.symm.eq_some hp
    exact ⟨p', hp', (family_eq heq).1.symm.trans hinst⟩

end BooksAgree

end BareBones.Process.Kernel
