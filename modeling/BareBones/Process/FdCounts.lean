import BareBones.Process.FdTable

/-!
# The reference counts of the file descriptors

The counters of `FileAccess` and `Pipe` are exact in every state (`refcounts_exact`), so an
object is freed exactly when nothing refers to it, and none is used after that.

Within a system call the counters may differ from what the slots say: an end that has been
created has no slot yet.  The invariant `Inv` allows for such *fresh* objects, and every
function is specified by what it does to them.
-/

namespace BareBones.Process

open BareBones.Lib BareBones.IPC

namespace Fds

/-- The invariant, within a system call. -/
structure Inv (s : Fds) (fresh freshPipes : Set Nat) : Prop where
  valid : ∀ pid, s.processTable pid ≠ none → ¬invalidPID pid
  heap : s.heap.Sound s.refs fresh freshPipes

variable {s t : Fds} {fresh freshPipes : Set Nat} {pid p q : Int} {i j a b : Nat} {fd : Int}
  {f : Option Nat}

/-! ## Slots -/

theorem slot_of_none (hp : s.processTable p = none) : s.slot p i = none := by
  rw [slot, hp]
  rfl

theorem process_of_slot (h : s.slot p i = some a) : s.processTable p ≠ none := fun hp ↦ by
  cases (slot_of_none hp).symm.trans h

theorem setTable_self (s : Fds) (p : Int) (x : Option FdTable) :
    (s.setTable p x).processTable p = x := if_pos rfl

theorem setTable_other (x : Option FdTable) (hq : q ≠ p) :
    (s.setTable p x).processTable q = s.processTable q := if_neg hq

theorem slot_setFd (hp : s.processTable p ≠ none) (q : Int) (j : Nat) :
    (s.setFd p i f).slot q j = if q = p ∧ j = i then f else s.slot q j := by
  obtain ⟨t, ht⟩ := Option.ne_none_iff_exists'.mp hp
  by_cases hq : q = p
  · subst hq
    rw [slot, setFd, setTable, slot]
    simp only [if_true, ht, Option.map_some, Option.bind_some, true_and]
  · rw [slot, setFd, setTable, if_neg fun hqj ↦ hq hqj.1]
    simp only [if_neg hq]
    rfl

theorem processTable_setFd (s : Fds) (p : Int) (i : Nat) (f : Option Nat) (q : Int) :
    (s.setFd p i f).processTable q = none ↔ s.processTable q = none := by
  rw [setFd, setTable]
  by_cases hq : q = p
  · simp only [hq, if_true, Option.map_eq_none_iff]
  · simp only [hq, if_false]

/-- One slot is overwritten. -/
theorem refs_setFd (hvalid : ¬invalidPID p) (hp : s.processTable p ≠ none) (hi : i < MAX_FDS)
    (b : Nat) : (s.setFd p i f).refs b + (if s.slot p i = some b then 1 else 0) =
      s.refs b + if f = some b then 1 else 0 := by
  have hchange := count_change (P := fun x : Int × Nat ↦ s.slot x.1 x.2 = some b)
    (Q := fun x : Int × Nat ↦ (s.setFd p i f).slot x.1 x.2 = some b)
    (mem_descriptors.mpr ⟨hvalid, hi⟩) fun x hx ↦ by
      rw [slot_setFd hp, if_neg fun heq ↦ hx (Prod.ext heq.1 heq.2)]
  have hself : (s.setFd p i f).slot p i = f := by
    rw [slot_setFd hp]
    exact if_pos ⟨rfl, rfl⟩
  simp only [hself] at hchange
  rw [refs, refs]
  omega

theorem refs_congr (h : ∀ q j, j < MAX_FDS → t.slot q j = s.slot q j) (a : Nat) :
    t.refs a = s.refs a := by
  rw [refs, refs]
  exact congrArg (· + _) (count_congr_mem fun x hx ↦ by rw [h _ _ (mem_descriptors.mp hx).2])

namespace Inv

/-- **What a slot refers to is alive.** -/
theorem slot_live (h : Inv s fresh freshPipes) (hi : i < MAX_FDS) (ha : s.slot p i = some a) :
    ∃ f, s.heap.files a = some f := by
  have hpos : 0 < s.refs a := by
    refine Nat.lt_of_lt_of_le (Nat.pos_of_ne_zero fun hzero ↦ ?_) (Nat.le_add_right _ _)
    exact count_eq_zero.mp hzero (p, i)
      (mem_descriptors.mpr ⟨h.valid p (process_of_slot ha), hi⟩) ha
  obtain ⟨n, hn⟩ := h.heap.files.live_of_pos hpos
  obtain ⟨f, hf, -⟩ := Option.map_eq_some_iff.mp hn
  exact ⟨f, hf⟩

/-- An end is put into an empty slot. -/
theorem store (h : Inv s fresh freshPipes) (hp : s.processTable p ≠ none) (hi : i < MAX_FDS)
    (hnone : s.slot p i = none) (ha : s.heap.files a ≠ none) :
    ∃ t, ((s.setFd p i (some a)).onHeap fun h ↦ h.addFileRef a) = some t ∧
      Inv t (fresh \ {a}) freshPipes ∧
      t.processTable = (s.setFd p i (some a)).processTable := by
  have hrefs : ∀ b, (s.setFd p i (some a)).refs b = s.refs b + if some a = some b then 1 else 0 :=
    fun b ↦ by
      have hset := refs_setFd (f := some a) (h.valid p hp) hp hi b
      rw [hnone, if_neg (by simp : ¬(none : Option Nat) = some b)] at hset
      exact hset
  obtain ⟨f, hf⟩ := Option.ne_none_iff_exists'.mp ha
  obtain ⟨h', hadd, hs⟩ := h.heap.addFileRef (r := (s.setFd p i (some a)).refs) hf
    (by rw [hrefs, if_pos rfl]) fun b hb ↦ by rw [hrefs, if_neg fun heq ↦
      hb (Option.some.inj heq).symm, Nat.add_zero]
  refine ⟨{ s.setFd p i (some a) with heap := h' }, ?_, ⟨fun q hq ↦ ?_, hs⟩, rfl⟩
  · rw [onHeap]
    exact congrArg (Option.map _) hadd
  · exact h.valid q fun hnone ↦ hq ((processTable_setFd s p i _ q).mpr hnone)

/-- A slot is emptied. -/
theorem erase (h : Inv s fresh freshPipes) (hi : i < MAX_FDS) (ha : s.slot p i = some a) :
    ∃ t, ((s.setFd p i none).onHeap fun h ↦ h.removeFileRef a) = some t ∧
      Inv t fresh freshPipes ∧ t.processTable = (s.setFd p i none).processTable := by
  have hp := process_of_slot ha
  have hrefs : ∀ b, (s.setFd p i none).refs b + (if some a = some b then 1 else 0) = s.refs b :=
    fun b ↦ by
      have hset := refs_setFd (f := none) (h.valid p hp) hp hi b
      rw [ha, if_neg (by simp : ¬(none : Option Nat) = some b)] at hset
      exact hset
  obtain ⟨h', hremove, hs⟩ := h.heap.removeFileRef (a := a) (r := (s.setFd p i none).refs)
    (by rw [← hrefs a, if_pos rfl]) fun b hb ↦ by
      rw [← hrefs b, if_neg fun heq ↦ hb (Option.some.inj heq).symm, Nat.add_zero]
  refine ⟨{ s.setFd p i none with heap := h' }, ?_, ⟨fun q hq ↦ ?_, hs⟩, rfl⟩
  · rw [onHeap]
    exact congrArg (Option.map _) hremove
  · exact h.valid q fun hnone ↦ hq ((processTable_setFd s p i _ q).mpr hnone)

end Inv

/-! ## The functions of `process.c` -/

theorem getFd_eq_some (h : s.getFd p fd = some a) : 0 ≤ fd ∧ fd.toNat < MAX_FDS ∧
    s.slot p fd.toNat = some a := by
  rw [getFd] at h
  split at h
  next hvalid =>
      have hfd : fd ≥ 0 ∧ fd < MAX_FDS := of_decide_eq_true hvalid
      exact ⟨hfd.1, by omega, h⟩
  · cases h

/-- The result is a descriptor, and the end has lost its freshness, or nothing has
happened. -/
def Opened (s : Fds) (f : Option Nat) (fresh freshPipes : Set Nat) (r : Int) (t : Fds) : Prop :=
  (0 ≤ r ∧ ∃ a, f = some a ∧ Inv t (fresh \ {a}) freshPipes) ∨ (r < 0 ∧ t = s)

namespace Inv

/-- `openFd` -/
theorem openFd (h : Inv s fresh freshPipes) (hfa : ∀ a ∈ f, s.heap.files a ≠ none) (p fd : Int) :
    ∃ r t, s.openFd p f fd = some (r, t) ∧ Opened s f fresh freshPipes r t := by
  cases f with
  | none => exact ⟨-1, s, rfl, .inr ⟨by decide, rfl⟩⟩
  | some a =>
      simp only [Fds.openFd]
      split
      · exact ⟨-1, s, rfl, .inr ⟨by decide, rfl⟩⟩
      next hfree =>
          rw [not_or, not_or] at hfree
          obtain ⟨hp, hvalid, hopen⟩ := hfree
          have hfd : isValidFd fd = true := by simpa using hvalid
          have hbounds : fd ≥ 0 ∧ fd < MAX_FDS := of_decide_eq_true hfd
          have hnone : s.slot p fd.toNat = none := by
            simpa [isOpenFd, getFd, hfd] using hopen
          obtain ⟨t, ht, hinv, -⟩ := h.store (i := fd.toNat) (by simpa using hp) (by omega) hnone
            (hfa a rfl)
          exact ⟨fd, t, by rw [ht]; rfl, .inl ⟨hbounds.1, a, rfl, hinv⟩⟩

/-- `addFd` -/
theorem addFd (h : Inv s fresh freshPipes) (hfa : ∀ a ∈ f, s.heap.files a ≠ none) (p : Int) :
    ∃ r t, s.addFd p f = some (r, t) ∧ Opened s f fresh freshPipes r t := by
  rw [Fds.addFd]
  split
  · exact ⟨-1, s, rfl, .inr ⟨by decide, rfl⟩⟩
  · split
    · exact h.openFd hfa p _
    · exact ⟨-1, s, rfl, .inr ⟨by decide, rfl⟩⟩

/-- `closeFd` -/
theorem closeFd (h : Inv s fresh freshPipes) (p fd : Int) :
    ∃ r t, s.closeFd p fd = some (r, t) ∧ Inv t fresh freshPipes ∧
      (∀ q, t.processTable q = none ↔ s.processTable q = none) ∧
      ∀ q j, j < MAX_FDS → t.slot q j = if q = p ∧ (j : Int) = fd then none else s.slot q j := by
  rw [Fds.closeFd]
  split
  next hnone =>
      refine ⟨-1, s, rfl, h, fun _ ↦ Iff.rfl, fun q j hj ↦ ?_⟩
      split
      next heq =>
          obtain ⟨rfl, rfl⟩ := heq
          have hvalid : isValidFd j = true := decide_eq_true ⟨by omega, by omega⟩
          rw [getFd, if_pos hvalid] at hnone
          exact hnone
      · rfl
  next a ha =>
      obtain ⟨hfd, hlt, hslot⟩ := getFd_eq_some ha
      obtain ⟨t, ht, hinv, htable⟩ := h.erase hlt hslot
      refine ⟨0, t, by rw [ht]; rfl, hinv, fun q ↦ ?_, fun q j _ ↦ ?_⟩
      · rw [htable]
        exact processTable_setFd s p _ _ q
      · rw [slot, htable]
        refine (slot_setFd (process_of_slot hslot) q j).trans (if_congr ?_ rfl rfl)
        exact and_congr_right fun _ ↦ by omega

end Inv


namespace Inv

/-- `dupFd` -/
theorem dupFd (h : Inv s ∅ freshPipes) (p oldFd newFd : Int) :
    ∃ r t, s.dupFd p oldFd newFd = some (r, t) ∧ Inv t ∅ freshPipes := by
  simp only [Fds.dupFd]
  split
  · exact ⟨-1, s, rfl, h⟩
  next hok =>
      obtain ⟨hp, hvalid⟩ := not_or.mp hok
      have hfd : isValidFd newFd = true := by simpa using hvalid
      have hnew : newFd ≥ 0 ∧ newFd < MAX_FDS := of_decide_eq_true hfd
      split
      · exact ⟨newFd, s, rfl, h⟩
      next hne =>
          split
          · obtain ⟨r, t, ht, hinv, -⟩ := h.closeFd p newFd
            exact ⟨newFd, t, by rw [ht]; rfl, hinv⟩
          next a ha =>
              obtain ⟨hold, hlt, hslot⟩ := getFd_eq_some ha
              -- the slot of `newFd` is emptied; the end that is duplicated keeps its own
              have hclose : ∃ t, (if s.isOpenFd p newFd then (s.closeFd p newFd).map Prod.snd
                  else some s) = some t ∧ Inv t ∅ freshPipes ∧ t.processTable p ≠ none ∧
                  t.slot p newFd.toNat = none ∧ t.slot p oldFd.toNat = some a := by
                split
                · obtain ⟨r, t, ht, hinv, htable, hslots⟩ := h.closeFd p newFd
                  refine ⟨t, by rw [ht]; rfl, hinv, fun hnone ↦ ?_, ?_, ?_⟩
                  · exact process_of_slot hslot ((htable p).mp hnone)
                  · rw [hslots _ _ (by omega)]
                    exact if_pos ⟨rfl, by omega⟩
                  · rw [hslots _ _ hlt, if_neg fun heq ↦ hne (by omega)]
                    exact hslot
                next hclosed =>
                    refine ⟨s, rfl, h, process_of_slot hslot, ?_, hslot⟩
                    simpa [isOpenFd, getFd, hfd] using hclosed
              obtain ⟨t, ht, hinv, hp', hnone, hkept⟩ := hclose
              obtain ⟨f, hf⟩ := hinv.slot_live hlt hkept
              obtain ⟨u, hu, hinv', -⟩ := hinv.store hp' (by omega) hnone (by rw [hf]; simp)
              rw [Set.empty_sdiff] at hinv'
              exact ⟨newFd, u, by rw [ht, Option.bind_some, hu]; rfl, hinv'⟩

/-- The ends that have no pipe of their own yet do not matter any more. -/
theorem onHeap (h : Inv s fresh freshPipes) {heap : Heap} {fresh' freshPipes' : Set Nat}
    (hs : heap.Sound s.refs fresh' freshPipes') : Inv { s with heap := heap } fresh' freshPipes' :=
  ⟨h.valid, hs⟩

/-- `reopenFd` -/
theorem reopenFd (h : Inv s ∅ ∅) (p fd : Int) (room : Bool) :
    ∃ r t, s.reopenFd p fd room = some (r, t) ∧ Inv t ∅ ∅ := by
  simp only [Fds.reopenFd]
  split
  · exact ⟨-1, s, rfl, h⟩
  next a ha =>
      obtain ⟨-, hlt, hslot⟩ := getFd_eq_some ha
      obtain ⟨f, hf⟩ := h.slot_live hlt hslot
      obtain ⟨pipe, c, hpipe, hc⟩ := h.heap.pipe_live hf
      have hclone : s.heap.cloneFile a room = s.heap.newFileAccess (some pipe) f.flags room := by
        rw [Heap.cloneFile, hf]
        simp only [Option.bind_eq_bind, Option.bind_some, hpipe]
      rw [hclone]
      cases room with
      | false => exact ⟨-1, s, rfl, h⟩
      | true =>
          obtain ⟨heap, hnew, hlive, -, hs⟩ := h.heap.newFileAccess hc f.flags
          rw [insert_empty_eq, Set.empty_sdiff] at hs
          have hinv : Inv { s with heap := heap } {s.heap.nextFile} ∅ := h.onHeap hs
          obtain ⟨r, t, hadd, hopened⟩ := hinv.addFd (f := some s.heap.nextFile)
            (by rintro b ⟨⟩; obtain ⟨g, hg⟩ := hlive; simp [hg]) p
          rw [hnew, Option.bind_some]
          simp only [hadd, Option.bind_some]
          rcases hopened with ⟨hr, b, hb, hinv'⟩ | ⟨hr, rfl⟩
          · cases hb
            rw [Set.sdiff_self] at hinv'
            exact ⟨r, t, by rw [if_neg (by omega)], hinv'⟩
          · -- there was no slot for the new end
            obtain ⟨heap', hdiscard, hs'⟩ := hs.discard (Set.mem_singleton _)
            rw [Set.sdiff_self] at hs'
            refine ⟨r, _, by rw [if_pos hr, Fds.onHeap, hdiscard]; rfl, hinv.onHeap hs'⟩

/-- `closeAllFDs`, as far as the slots of a list. -/
theorem closeFds (h : Inv s ∅ ∅) (p : Int) (l : List Nat) (hl : ∀ i ∈ l, i < MAX_FDS) :
    ∃ t, l.foldlM (fun s (i : Nat) ↦ (s.closeFd p i).map Prod.snd) s = some t ∧ Inv t ∅ ∅ ∧
      ∀ j, j < MAX_FDS → j ∈ l ∨ s.slot p j = none → t.slot p j = none := by
  induction l generalizing s with
  | nil => exact ⟨s, rfl, h, fun j _ hj ↦ hj.resolve_left List.not_mem_nil⟩
  | cons i l ih =>
      obtain ⟨r, u, hu, hinv, -, hslots⟩ := h.closeFd p i
      obtain ⟨t, ht, hinv', hnone⟩ := ih hinv fun j hj ↦ hl j (List.mem_cons_of_mem _ hj)
      refine ⟨t, ?_, hinv', fun j hj hempty ↦ hnone j hj ?_⟩
      · rw [List.foldlM_cons, hu]
        exact ht
      · rw [List.mem_cons] at hempty
        rcases hempty with (rfl | hmem) | hempty
        · refine .inr ?_
          rw [hslots _ _ hj]
          exact if_pos ⟨rfl, rfl⟩
        · exact .inl hmem
        · refine .inr ?_
          rw [hslots _ _ hj, hempty, ite_self]

/-- `closeAllFDs` -/
theorem closeAllFDs (h : Inv s ∅ ∅) (p : Int) :
    ∃ t, s.closeAllFDs p = some t ∧ Inv t ∅ ∅ ∧ ∀ j < MAX_FDS, t.slot p j = none := by
  obtain ⟨t, ht, hinv, hnone⟩ := h.closeFds p (List.range MAX_FDS) fun i hi ↦ List.mem_range.mp hi
  exact ⟨t, ht, hinv, fun j hj ↦ hnone j hj (.inl (List.mem_range.mpr hj))⟩

/-- `copyFdTable` -/
theorem copyFdTable (h : Inv s ∅ ∅) (target source : Int) :
    ∃ t, s.copyFdTable target source = some t ∧ Inv t ∅ ∅ := by
  rw [Fds.copyFdTable]
  split
  · exact ⟨s, rfl, h⟩
  · suffices hfold : ∀ (l : List Nat) (s : Fds), (∀ i ∈ l, i < MAX_FDS) → Inv s ∅ ∅ →
        ∃ t, l.foldlM (fun s (i : Nat) ↦ ((s.closeFd target i).map Prod.snd).bind fun s ↦
          (s.openFd target (s.slot source i) i).map Prod.snd) s = some t ∧ Inv t ∅ ∅ from
      hfold _ s (fun i hi ↦ List.mem_range.mp hi) h
    intro l
    induction l with
    | nil => exact fun s _ h ↦ ⟨s, rfl, h⟩
    | cons i l ih =>
        intro s hl h
        obtain ⟨r, u, hu, hinv, -⟩ := h.closeFd target i
        obtain ⟨r', v, hv, hopened⟩ := hinv.openFd (f := u.slot source i) (fun a ha ↦ by
          obtain ⟨f, hf⟩ := hinv.slot_live (hl i List.mem_cons_self) ha
          rw [hf]
          simp) target i
        have hinv' : Inv v ∅ ∅ := by
          rcases hopened with ⟨-, a, -, hinv'⟩ | ⟨-, rfl⟩
          · rwa [Set.empty_sdiff] at hinv'
          · exact hinv
        obtain ⟨t, ht, hinv''⟩ := ih v (fun j hj ↦ hl j (List.mem_cons_of_mem _ hj)) hinv'
        refine ⟨t, ?_, hinv''⟩
        rw [List.foldlM_cons, hu]
        simp only [Option.map_some, Option.bind_some, hv]
        exact ht

end Inv


/-! ## Pipes and processes -/

namespace Inv

/-- An end that has no slot is freed. -/
theorem free (h : Inv s fresh freshPipes) (ha : a ∈ fresh) :
    ∃ t, (s.onHeap fun h ↦ h.freeFileAccess a) = some t ∧ Inv t (fresh \ {a}) freshPipes := by
  obtain ⟨heap, hfree, hs⟩ := h.heap.free ha
  exact ⟨_, by rw [Fds.onHeap, hfree]; rfl, h.onHeap hs⟩

/-- `sysPipe` with its two ends, which have no slots yet. -/
theorem sysPipe_ends (h : Inv s (insert b {a}) ∅) (hne : a ≠ b) (p : Int) : ∃ r t,
    ((s.addFd p (some a)).bind fun (readFD, s) ↦
      if readFD < 0 then
        (s.onHeap fun h ↦ (h.freeFileAccess a).bind fun h ↦ h.freeFileAccess b).map fun s ↦
          (((-1 : Int), (none : Option (Int × Int))), s)
      else
        (s.addFd p (some b)).bind fun (writeFD, s) ↦
        if writeFD < 0 then
          (s.closeFd p readFD).bind fun (_, s) ↦
            (s.onHeap fun h ↦ h.freeFileAccess b).map fun s ↦ ((-1, none), s)
        else some ((0, some (readFD, writeFD)), s)) = some (r, t) ∧ Inv t ∅ ∅ := by
  have hlive : ∀ c ∈ (insert b {a} : Set Nat), s.heap.files c ≠ none := fun c hc hnone ↦ by
    obtain ⟨n, hn⟩ := h.heap.files.live_of_fresh hc
    rw [hnone] at hn
    cases hn
  have ha : a ∈ (insert b {a} : Set Nat) := .inr rfl
  have hrest : (insert b {a} : Set Nat) \ {a} = {b} := by
    ext c
    simp only [Set.mem_sdiff, Set.mem_insert_iff, Set.mem_singleton_iff]
    constructor
    · rintro ⟨hc, hca⟩
      exact hc.resolve_right hca
    · rintro rfl
      exact ⟨.inl rfl, hne.symm⟩
  obtain ⟨r, t, hadd, hopened⟩ := h.addFd (f := some a) (by rintro c ⟨⟩; exact hlive a ha) p
  rw [hadd, Option.bind_some]
  rcases hopened with ⟨hr, c, hc, hinv⟩ | ⟨hr, rfl⟩
  · cases hc
    rw [hrest] at hinv
    have hb : t.heap.files b ≠ none := fun hnone ↦ by
      obtain ⟨n, hn⟩ := hinv.heap.files.live_of_fresh (Set.mem_singleton b)
      rw [hnone] at hn
      cases hn
    obtain ⟨w, u, hadd', hopened'⟩ := hinv.addFd (f := some b) (by rintro c ⟨⟩; exact hb) p
    simp only [if_neg (Int.not_lt.mpr hr), hadd', Option.bind_some]
    rcases hopened' with ⟨hw, c, hc, hinv'⟩ | ⟨hw, rfl⟩
    · cases hc
      rw [Set.sdiff_self] at hinv'
      exact ⟨_, u, by rw [if_neg (Int.not_lt.mpr hw)], hinv'⟩
    · -- no slot for the end to write to: the other one is closed again
      obtain ⟨r', v, hclose, hinv', -⟩ := hinv.closeFd p r
      obtain ⟨v', hfree, hinv''⟩ := hinv'.free (Set.mem_singleton b)
      rw [Set.sdiff_self] at hinv''
      exact ⟨_, v', by rw [if_pos hw, hclose, Option.bind_some, hfree]; rfl, hinv''⟩
  · -- no slot at all
    obtain ⟨heap, hfree, hs⟩ := h.heap.free ha
    rw [hrest] at hs
    obtain ⟨heap', hfree', hs'⟩ := hs.free (Set.mem_singleton b)
    rw [Set.sdiff_self] at hs'
    refine ⟨(-1, none), _, ?_, h.onHeap hs'⟩
    simp only [if_pos hr, Fds.onHeap, hfree, Option.bind_some, hfree', Option.map_some]

/-- `sysPipe` -/
theorem sysPipe (h : Inv s ∅ ∅) (p : Int) (userFds roomPipe roomRead roomWrite : Bool) :
    ∃ r t, s.sysPipe p userFds roomPipe roomRead roomWrite = some (r, t) ∧ Inv t ∅ ∅ := by
  rw [Fds.sysPipe]
  cases userFds with
  | false => exact ⟨_, s, rfl, h⟩
  | true =>
      cases roomPipe with
      | false => exact ⟨_, s, rfl, h⟩
      | true =>
          obtain ⟨h₁, hnew, hs₁⟩ := h.heap.newPipe
          set pipe := s.heap.nextPipe with hpipe
          rw [insert_empty_eq] at hs₁
          obtain ⟨n, hn⟩ := hs₁.pipes.live_of_fresh (Set.mem_singleton pipe)
          obtain ⟨c, hc, -⟩ := Option.map_eq_some_iff.mp hn
          have hnone : ∀ (h : Heap) flags,
              h.newFileAccess (some pipe) flags false = some (none, h) := fun _ _ ↦ rfl
          simp only [Bool.not_true, Bool.false_eq_true, if_false, hnew]
          -- one end of the two
          have hone : ∀ flags, ∃ h₂, h₁.newFileAccess (some pipe) flags true =
              some (some h₁.nextFile, h₂) ∧ ∃ t,
              (Fds.onHeap { s with heap := h₂ } fun h ↦ h.freeFileAccess h₁.nextFile) = some t ∧
                Inv t ∅ ∅ := by
            intro flags
            obtain ⟨h₂, hend, -, -, hs₂⟩ := hs₁.newFileAccess hc flags
            rw [insert_empty_eq, Set.sdiff_self] at hs₂
            obtain ⟨t, ht, hinv⟩ := (h.onHeap hs₂).free (Set.mem_singleton _)
            rw [Set.sdiff_self] at hinv
            exact ⟨h₂, hend, t, ht, hinv⟩
          cases roomRead with
          | false =>
              cases roomWrite with
              | false =>
                  obtain ⟨heap, hfree, hs⟩ := hs₁.freePipe (Set.mem_singleton pipe)
                  rw [Set.sdiff_self] at hs
                  refine ⟨(-1, none), _, ?_, h.onHeap hs⟩
                  simp only [hnone, Option.bind_some, Fds.onHeap, hfree, Option.map_some]
              | true =>
                  obtain ⟨h₂, hend, t, ht, hinv⟩ := hone FILE_WRITE
                  refine ⟨(-1, none), t, ?_, hinv⟩
                  simp only [hnone, Option.bind_some, hend, ht, Option.map_some]
          | true =>
              cases roomWrite with
              | false =>
                  obtain ⟨h₂, hend, t, ht, hinv⟩ := hone FILE_READ
                  refine ⟨(-1, none), t, ?_, hinv⟩
                  simp only [hnone, Option.bind_some, hend, ht, Option.map_some]
              | true =>
                  obtain ⟨h₂, hend, ⟨f, hf⟩, hlive, hs₂⟩ := hs₁.newFileAccess hc FILE_READ
                  obtain ⟨c', hc'⟩ := Option.ne_none_iff_exists'.mp hlive
                  obtain ⟨h₃, hend', -, -, hs₃⟩ := hs₂.newFileAccess hc' FILE_WRITE
                  rw [insert_empty_eq, Set.sdiff_self, Set.empty_sdiff] at hs₃
                  simp only [hend, Option.bind_some, hend']
                  exact (h.onHeap hs₃).sysPipe_ends (hs₂.lt_nextFile hf).ne p

end Inv


theorem findFreePid_eq_some (h : s.findFreePid = some pid) :
    ¬invalidPID pid ∧ s.processTable pid = none := by
  rw [findFreePid] at h
  have hnone := List.find?_some h
  have hmem := List.mem_of_find?_eq_some h
  rw [List.mem_map] at hmem
  obtain ⟨n, hn, rfl⟩ := hmem
  exact ⟨mem_pids.mp (Finset.mem_image.mpr ⟨n, Finset.mem_range.mpr (List.mem_range.mp hn), rfl⟩),
    Option.isNone_iff_eq_none.mp hnone⟩

namespace Inv

/-- A table without descriptors comes or goes. -/
theorem setTable (h : Inv s ∅ ∅) {x : Option FdTable} (hx : ∀ t ∈ x, t = .empty)
    (hempty : ∀ j < MAX_FDS, s.slot pid j = none) (hvalid : x ≠ none → ¬invalidPID pid) :
    Inv (s.setTable pid x) ∅ ∅ := by
  have hslot : ∀ q j, j < MAX_FDS → (s.setTable pid x).slot q j = s.slot q j := fun q j hj ↦ by
    by_cases hq : q = pid
    · subst hq
      rw [hempty j hj, slot, setTable_self]
      cases x with
      | none => rfl
      | some t =>
          obtain rfl := hx t rfl
          rfl
    · rw [slot, setTable_other _ hq]
      rfl
  refine ⟨fun q hq ↦ ?_, ?_⟩
  · by_cases hqp : q = pid
    · subst hqp
      rw [setTable_self] at hq
      exact hvalid hq
    · rw [setTable_other _ hqp] at hq
      exact h.valid q hq
  · have hrefs : (s.setTable pid x).refs = s.refs := funext fun a ↦ refs_congr hslot a
    rw [hrefs]
    exact h.heap

/-- `startNewProcessWithPid` -/
theorem startNewProcessWithPid (h : Inv s ∅ ∅) (currentProcess : Option Int)
    (hvalid : ¬invalidPID pid) (hnone : s.processTable pid = none) :
    ∃ t, s.startNewProcessWithPid currentProcess pid = some t ∧ Inv t ∅ ∅ := by
  have hnew : Inv (s.setTable pid (some .empty)) ∅ ∅ :=
    h.setTable (by rintro t ⟨⟩; rfl) (fun j _ ↦ slot_of_none hnone) fun _ ↦ hvalid
  cases currentProcess with
  | none => exact ⟨_, rfl, hnew⟩
  | some cur =>
      simp only [Fds.startNewProcessWithPid]
      split
      · exact ⟨_, rfl, hnew⟩
      · exact hnew.copyFdTable pid cur

/-- `startNewProcessWithFds` -/
theorem startNewProcessWithFds (h : Inv s ∅ ∅) (currentProcess : Option Int)
    (overrides : List FdOverride) (room : Bool) :
    ∃ r t, s.startNewProcessWithFds currentProcess overrides room = some (r, t) ∧ Inv t ∅ ∅ := by
  rw [Fds.startNewProcessWithFds]
  cases hfree : s.findFreePid with
  | none => exact ⟨-1, s, rfl, h⟩
  | some pid =>
      obtain ⟨hvalid, hnone⟩ := findFreePid_eq_some hfree
      cases room with
      | false => exact ⟨-1, s, rfl, h⟩
      | true =>
          obtain ⟨t, ht, hinv⟩ := h.startNewProcessWithPid currentProcess hvalid hnone
          have hoverrides : ∀ (l : List FdOverride) (s : Fds), Inv s ∅ ∅ →
              ∃ t, l.foldlM (fun (s : Fds) o ↦ s.override pid o) s = some t ∧ Inv t ∅ ∅ := by
            intro l
            induction l with
            | nil => exact fun s h ↦ ⟨s, rfl, h⟩
            | cons o l ih =>
                intro s h
                have hone : ∃ t, s.override pid o = some t ∧ Inv t ∅ ∅ := by
                  rw [override]
                  split
                  · obtain ⟨r, t, ht, hinv, -⟩ := h.closeFd pid o.affectedFd
                    exact ⟨t, by rw [ht]; rfl, hinv⟩
                  · obtain ⟨r, t, ht, hinv⟩ := h.dupFd pid o.targetFd o.affectedFd
                    exact ⟨t, by rw [ht]; rfl, hinv⟩
                obtain ⟨t, ht, hinv⟩ := hone
                obtain ⟨u, hu, hinv'⟩ := ih t hinv
                exact ⟨u, by rw [List.foldlM_cons, ht]; exact hu, hinv'⟩
          obtain ⟨u, hu, hinv'⟩ := hoverrides overrides t hinv
          refine ⟨pid, u, ?_, hinv'⟩
          simp only [if_true, ht, Option.bind_some, hu, Option.map_some]

/-- A process goes. -/
theorem removeProcess (h : Inv s ∅ ∅) (p : Int) : ∃ t, s.removeProcess p = some t ∧ Inv t ∅ ∅ := by
  obtain ⟨t, ht, hinv, hnone⟩ := h.closeAllFDs p
  exact ⟨_, by rw [Fds.removeProcess, ht]; rfl,
    hinv.setTable (fun x hx ↦ by cases hx) hnone fun hx ↦ absurd rfl hx⟩

/-! ## Runs -/

/-- **Every event keeps the invariant, and uses no object that has been freed.** -/
theorem step (h : Inv s ∅ ∅) {e : Event} (hok : e.Passes s) :
    ∃ t, Fds.step s e = some t ∧ Inv t ∅ ∅ := by
  have hopened : ∀ {f : Option Nat} {r : Int} {t : Fds}, Opened s f ∅ ∅ r t → Inv t ∅ ∅ := by
    rintro f r t (⟨-, a, -, hinv⟩ | ⟨-, rfl⟩)
    · rwa [Set.empty_sdiff] at hinv
    · exact h
  cases e with
  | openFd p f fd =>
      obtain ⟨r, t, ht, ho⟩ := h.openFd hok p fd
      exact ⟨t, by rw [Fds.step, ht]; rfl, hopened ho⟩
  | addFd p f =>
      obtain ⟨r, t, ht, ho⟩ := h.addFd hok p
      exact ⟨t, by rw [Fds.step, ht]; rfl, hopened ho⟩
  | closeFd p fd =>
      obtain ⟨r, t, ht, hinv, -⟩ := h.closeFd p fd
      exact ⟨t, by rw [Fds.step, ht]; rfl, hinv⟩
  | dupFd p oldFd newFd =>
      obtain ⟨r, t, ht, hinv⟩ := h.dupFd p oldFd newFd
      exact ⟨t, by rw [Fds.step, ht]; rfl, hinv⟩
  | reopenFd p fd room =>
      obtain ⟨r, t, ht, hinv⟩ := h.reopenFd p fd room
      exact ⟨t, by rw [Fds.step, ht]; rfl, hinv⟩
  | copyFdTable target source => exact h.copyFdTable target source
  | closeAllFDs p =>
      obtain ⟨t, ht, hinv, -⟩ := h.closeAllFDs p
      exact ⟨t, ht, hinv⟩
  | sysPipe p userFds roomPipe roomRead roomWrite =>
      obtain ⟨r, t, ht, hinv⟩ := h.sysPipe p userFds roomPipe roomRead roomWrite
      exact ⟨t, by rw [Fds.step, ht]; rfl, hinv⟩
  | create currentProcess overrides room =>
      obtain ⟨r, t, ht, hinv⟩ := h.startNewProcessWithFds currentProcess overrides room
      exact ⟨t, by rw [Fds.step, ht]; rfl, hinv⟩
  | remove p => exact h.removeProcess p

theorem exact (h : Inv s ∅ ∅) : Exact s := by
  refine ⟨fun a f hf ↦ ?_, fun p c hc ↦ ⟨?_, h.heap.writers p c hc⟩, fun pid i a hi ha ↦ ?_,
    fun a ↦ ?_, fun p ↦ ?_⟩
  · exact h.heap.files.count a f.refCount (by rw [hf]; rfl)
  · exact h.heap.pipes.count p c.refCount (by rw [hc]; rfl)
  · obtain ⟨f, hf⟩ := h.slot_live hi ha
    obtain ⟨p, c, hp, hc⟩ := h.heap.pipe_live hf
    exact ⟨f, p, c, hf, hp, hc⟩
  · rw [← h.heap.files.none_iff a, Option.map_eq_none_iff]
  · rw [← h.heap.pipes.none_iff p, Option.map_eq_none_iff]

end Inv


/-! ## The keyboard -/

theorem init_refs (a : Nat) : init.refs a = if a = 0 ∨ a = keyboardBuffer then 1 else 0 := by
  have hslot : ∀ p i b, init.slot p i = some b → b = 0 := by
    intro p i b hb
    simp only [slot, init] at hb
    split at hb
    · cases hb
    · split at hb
      · simp only [Option.bind_some] at hb
        split at hb
        · exact (Option.some.inj hb).symm
        · cases hb
      · cases hb
  by_cases ha : a = 0
  · subst ha
    decide +kernel
  · have hzero : count descriptors (fun x ↦ init.slot x.1 x.2 = some a) = 0 :=
      count_eq_zero.mpr fun x _ hx ↦ ha (hslot _ _ _ hx)
    rw [refs, hzero, Nat.zero_add]
    exact if_congr (or_iff_right ha).symm rfl rfl

theorem init_pipeOf {p : Nat} (h : init.heap.pipeOf a = some p) : p = 0 := by
  simp only [Heap.pipeOf, init] at h
  split at h
  · exact (Option.some.inj h).symm
  · split at h
    · exact (Option.some.inj h).symm
    · cases h

theorem init_ends (p : Nat) : init.heap.ends p = if p = 0 then 2 else 0 := by
  by_cases hp : p = 0
  · subst hp
    decide
  · rw [if_neg hp]
    exact count_eq_zero.mpr fun a _ ha ↦ hp (init_pipeOf ha)

theorem init_writers (p : Nat) : init.heap.writers p = if p = 0 then 1 else 0 := by
  by_cases hp : p = 0
  · subst hp
    decide
  · rw [if_neg hp]
    exact count_eq_zero.mpr fun a _ ha ↦ hp (init_pipeOf ha.1)

theorem init_file {f : FileAccess} (h : init.heap.files a = some f) :
    (a = 0 ∨ a = keyboardBuffer) ∧ f.pipe = some 0 ∧ f.refCount = 1 := by
  simp only [init] at h
  split at h
  next ha =>
      cases h
      exact ⟨.inl ha, rfl, rfl⟩
  · split at h
    next ha =>
        cases h
        exact ⟨.inr ha, rfl, rfl⟩
    · cases h

/-- The pipe of the keyboard is counted right. -/
theorem Inv.init : Inv Fds.init ∅ ∅ := by
  have hfile : ∀ a, Fds.init.heap.files a ≠ none ↔ a = 0 ∨ a = keyboardBuffer := fun a ↦ by
    constructor
    · intro ha
      obtain ⟨f, hf⟩ := Option.ne_none_iff_exists'.mp ha
      exact (init_file hf).1
    · rintro (rfl | rfl) <;> simp [Fds.init, keyboardBuffer]
  have hpipe : ∀ p c, Fds.init.heap.pipes p = some c → p = 0 ∧ c = ⟨2, 1⟩ := fun p c hc ↦ by
    simp only [Fds.init] at hc
    split at hc
    next hp => exact ⟨hp, (Option.some.inj hc).symm⟩
    · cases hc
  refine ⟨fun pid hpid hinvalid ↦ ?_, ⟨⟨fun a n ha ↦ ?_, fun a ↦ ?_, fun a ha ↦ ha.elim⟩,
    ⟨fun p n hp ↦ ?_, fun p ↦ ?_, fun p hp ↦ hp.elim⟩, fun p c hp ↦ ?_, fun a f ha ↦ ?_,
    fun a ha ↦ ?_, fun p hp ↦ ?_⟩⟩
  · have hidle : pid ≠ IDLE_PID := by
      rintro rfl
      exact absurd hinvalid (by decide)
    have hinit : pid ≠ INIT_PID := by
      rintro rfl
      exact absurd hinvalid (by decide)
    simp only [Fds.init, if_neg hidle, if_neg hinit] at hpid
    exact hpid rfl
  · obtain ⟨f, hf, rfl⟩ := Option.map_eq_some_iff.mp ha
    obtain ⟨hmem, -, hcount⟩ := init_file hf
    rw [init_refs, if_pos hmem, hcount]
    rfl
  · rw [or_iff_left (Set.notMem_empty a), init_refs, ne_eq, Option.map_eq_none_iff]
    refine (hfile a).trans ⟨fun hmem ↦ ?_, fun hpos ↦ ?_⟩
    · rw [if_pos hmem]
      exact Nat.one_pos
    · by_contra hmem
      rw [if_neg hmem] at hpos
      exact absurd hpos (Nat.lt_irrefl 0)
  · obtain ⟨c, hc, rfl⟩ := Option.map_eq_some_iff.mp hp
    obtain ⟨rfl, rfl⟩ := hpipe p c hc
    rw [init_ends]
    rfl
  · rw [or_iff_left (Set.notMem_empty p), init_ends, ne_eq, Option.map_eq_none_iff]
    by_cases hp : p = 0
    · subst hp
      exact iff_of_true (by simp [Fds.init]) (by decide)
    · refine iff_of_false (fun hlive ↦ hlive ?_) (by simp [hp])
      simp [Fds.init, hp]
  · obtain ⟨rfl, rfl⟩ := hpipe p c hp
    rw [init_writers]
    rfl
  · rw [(init_file ha).2.1]
    simp
  · by_contra hlive
    rcases (hfile a).mp hlive with rfl | rfl
    · cases ha
    · exact absurd ha (by decide)
  · by_contra hlive
    obtain ⟨c, hc⟩ := Option.ne_none_iff_exists'.mp hlive
    obtain ⟨rfl, -⟩ := hpipe p c hc
    exact absurd hp (by decide)

theorem Inv.of_reach (h : Reach Fds.step (fun s e ↦ e.Passes s) Fds.init s) : Inv s ∅ ∅ :=
  h.invariant (I := fun s ↦ Inv s ∅ ∅) .init fun _ _ _ hu hok ht ↦ by
    obtain ⟨v, hv, hinv⟩ := hu.step hok
    obtain rfl := Option.some.inj (hv.symm.trans ht)
    exact hinv

/-- **The reference counts are exact.**  Whatever the processes do with their descriptors,
every counter is the number of references, every slot refers to a live end of a live pipe, an
object is freed exactly when its counter drops to zero, and the next call uses no object that
has been freed. -/
theorem refcounts_exact (h : Reach step (fun s e ↦ e.Passes s) init s) :
    Exact s ∧ ∀ e : Event, e.Passes s → ∃ t, step s e = some t := by
  have hinv : Inv s ∅ ∅ := .of_reach h
  refine ⟨hinv.exact, fun e hok ↦ ?_⟩
  obtain ⟨t, ht, -⟩ := hinv.step hok
  exact ⟨t, ht⟩

/-- A process makes a pipe, duplicates its reading end over the keyboard and reopens the
other one; its child closes the reading end that it has inherited, and has the other end in
place of the keyboard. -/
theorem refcounts_exact_pipe : ∃ s : Fds,
    ((s.heap.files 0).map FileAccess.refCount = some 1 ∧
      (s.heap.files 2).map FileAccess.refCount = some 2 ∧
      (s.heap.files 3).map FileAccess.refCount = some 3 ∧
      (s.heap.pipes 1).map PipeRefs.writerCount = some 2) ∧
      Exact s ∧ ∀ e : Event, e.Passes s → ∃ t, step s e = some t := by
  let es : List Event := [.create (some 1) [] true, .sysPipe 2 true true true true,
    .dupFd 2 1 0, .reopenFd 2 2 true, .create (some 2) [⟨1, -1⟩, ⟨0, 2⟩] true, .closeFd 3 3]
  have hrun : (run step init es).map (fun s ↦
      decide ((s.heap.files 0).map FileAccess.refCount = some 1 ∧
        (s.heap.files 2).map FileAccess.refCount = some 2 ∧
        (s.heap.files 3).map FileAccess.refCount = some 3 ∧
        (s.heap.pipes 1).map PipeRefs.writerCount = some 2)) = some true := by
    decide +kernel
  have hguard : Guarded step (fun s e ↦ e.Passes s) init es := by
    decide +kernel
  obtain ⟨s, hrun, hobs⟩ := Option.map_eq_some_iff.mp hrun
  exact ⟨s, of_decide_eq_true hobs, refcounts_exact (.of_run hrun hguard)⟩

end Fds

end BareBones.Process
