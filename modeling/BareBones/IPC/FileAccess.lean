import BareBones.Lib.Refcount
import BareBones.Lib.Sums
import Mathlib.Data.Finset.Range

/-!
# Ends of pipes

The model of `fileAccess.c`, and of the counters of `pipe.c` that decide when a pipe is
freed.  A `FileAccess` is one end of a pipe: it is counted by the pipe, and counts itself
the places that refer to it, the descriptors of the processes and what the kernel keeps.

Objects live at addresses that are never given out twice.  A function returns `none` when
it uses an object that has been freed.
-/

namespace BareBones.IPC

open BareBones.Lib

/-- `FILE_READ` -/
def FILE_READ : UInt8 := 0x01

/-- `FILE_WRITE` -/
def FILE_WRITE : UInt8 := 0x02

/-- The counters of `pipeCDT`. -/
structure PipeRefs where
  refCount : Int
  writerCount : Int
deriving DecidableEq

/-- `fileAccessCDT` -/
structure FileAccess where
  pipe : Option Nat
  flags : UInt8
  refCount : Int
deriving DecidableEq

/-- `flags & FILE_WRITE` -/
def FileAccess.writes (f : FileAccess) : Bool := f.flags &&& FILE_WRITE ≠ 0

/-- The objects, and the next addresses. -/
structure Heap where
  files : Nat → Option FileAccess
  pipes : Nat → Option PipeRefs
  nextFile : Nat
  nextPipe : Nat

namespace Heap

/-- Overwrite a `FileAccess`; `none` for one that is freed. -/
def setFile (h : Heap) (a : Nat) (f : Option FileAccess) : Heap :=
  { h with files := fun b ↦ if b = a then f else h.files b }

/-- Overwrite a pipe. -/
def setPipe (h : Heap) (p : Nat) (c : Option PipeRefs) : Heap :=
  { h with pipes := fun q ↦ if q = p then c else h.pipes q }

/-! ## Pipes -/

/-- `newPipe`, if the heap has room for the pipe, its buffer and its semaphores. -/
def newPipe (h : Heap) (room : Bool) : Option Nat × Heap :=
  if room then
    (some h.nextPipe, { h with nextPipe := h.nextPipe + 1 }.setPipe h.nextPipe (some ⟨0, 0⟩))
  else (none, h)

/-- `freePipe` -/
def freePipe (h : Heap) (p : Nat) : Option Heap :=
  (h.pipes p).map fun _ ↦ h.setPipe p none

/-- `addPipeRef` -/
def addPipeRef (h : Heap) (p : Nat) : Option Heap :=
  (h.pipes p).map fun c ↦ h.setPipe p (some { c with refCount := c.refCount + 1 })

/-- `addPipeWriter` -/
def addPipeWriter (h : Heap) (p : Nat) : Option Heap :=
  (h.pipes p).map fun c ↦ h.setPipe p (some { c with writerCount := c.writerCount + 1 })

/-- `removePipeRef` -/
def removePipeRef (h : Heap) (p : Nat) : Option Heap := do
  let c ← h.pipes p
  let h := h.setPipe p (some { c with refCount := c.refCount - 1 })
  if c.refCount - 1 ≤ 0 then h.freePipe p else some h

/-- `removePipeWriter`, without the posts of `forceReadersWakeUp`, which touch no counter. -/
def removePipeWriter (h : Heap) (p : Nat) : Option Heap :=
  (h.pipes p).map fun c ↦ h.setPipe p (some { c with writerCount := c.writerCount - 1 })

/-! ## Ends -/

/-- `newFileAccess`, if the heap has room. -/
def newFileAccess (h : Heap) (pipe : Option Nat) (flags : UInt8) (room : Bool) :
    Option (Option Nat × Heap) :=
  if room then do
    let a := h.nextFile
    let h := { h with nextFile := a + 1 }.setFile a (some ⟨pipe, flags, 0⟩)
    match pipe with
    | none => some (some a, h)
    | some p =>
        let h ← h.addPipeRef p
        (if flags &&& FILE_WRITE ≠ 0 then h.addPipeWriter p else some h).map fun h ↦ (some a, h)
  else some (none, h)

/-- `addFileRef` -/
def addFileRef (h : Heap) (a : Nat) : Option Heap :=
  (h.files a).map fun f ↦ h.setFile a (some { f with refCount := f.refCount + 1 })

/-- `freeFileAccess` -/
def freeFileAccess (h : Heap) (a : Nat) : Option Heap := do
  let f ← h.files a
  match f.pipe with
  | none => some (h.setFile a none)
  | some p =>
      (if f.flags &&& FILE_WRITE ≠ 0 then h.removePipeWriter p else some h).bind fun h ↦
        (h.removePipeRef p).map fun h ↦ h.setFile a none

/-- `removeFileRef` -/
def removeFileRef (h : Heap) (a : Nat) : Option Heap := do
  let f ← h.files a
  let h := h.setFile a (some { f with refCount := f.refCount - 1 })
  if f.refCount - 1 ≤ 0 then h.freeFileAccess a else some h

/-- `cloneFile` -/
def cloneFile (h : Heap) (a : Nat) (room : Bool) : Option (Option Nat × Heap) := do
  let f ← h.files a
  h.newFileAccess f.pipe f.flags room

/-! ## What the counters count -/

/-- The pipe that a live end belongs to. -/
def pipeOf (h : Heap) (a : Nat) : Option Nat := (h.files a).bind FileAccess.pipe

/-- The end writes to its pipe. -/
def writes (h : Heap) (a : Nat) : Bool := (h.files a).any FileAccess.writes

/-- The number of ends of a pipe. -/
def ends (h : Heap) (p : Nat) : Nat :=
  count (Finset.range h.nextFile) fun a ↦ h.pipeOf a = some p

/-- The number of ends that write to it. -/
def writers (h : Heap) (p : Nat) : Nat :=
  count (Finset.range h.nextFile) fun a ↦ h.pipeOf a = some p ∧ h.writes a = true

/-- The counters are right, given the number of references to each end, for all objects but
those that have just been created. -/
structure Sound (h : Heap) (refs : Nat → Nat) (fresh freshPipes : Set Nat) : Prop where
  files : Counted (fun a ↦ (h.files a).map FileAccess.refCount) refs fresh
  pipes : Counted (fun p ↦ (h.pipes p).map PipeRefs.refCount) h.ends freshPipes
  writers : ∀ p c, h.pipes p = some c → c.writerCount = h.writers p
  piped : ∀ a f, h.files a = some f → f.pipe ≠ none
  nextFile : ∀ a, h.nextFile ≤ a → h.files a = none
  nextPipe : ∀ p, h.nextPipe ≤ p → h.pipes p = none

variable {h h' : Heap} {refs r : Nat → Nat} {fresh freshPipes : Set Nat} {a b p q : Nat}
  {f : FileAccess} {c : PipeRefs}

@[simp] theorem setFile_self (x : Option FileAccess) : (h.setFile a x).files a = x := if_pos rfl

theorem setFile_other (x : Option FileAccess) (hb : b ≠ a) : (h.setFile a x).files b = h.files b :=
  if_neg hb

theorem setFile_setFile (x y : Option FileAccess) :
    (h.setFile a x).setFile a y = h.setFile a y := by
  have hfiles : ((h.setFile a x).setFile a y).files = (h.setFile a y).files := by
    funext b
    by_cases hb : b = a
    · subst hb
      rw [setFile_self, setFile_self]
    · rw [setFile_other _ hb, setFile_other _ hb, setFile_other _ hb]
  exact congrArg (fun files ↦ ({ h with files := files } : Heap)) hfiles

theorem setFile_eq_self {x : Option FileAccess} (ha : h.files a = x) : h.setFile a x = h := by
  have hfiles : (h.setFile a x).files = h.files := by
    funext b
    by_cases hb : b = a
    · subst hb
      rw [setFile_self, ha]
    · rw [setFile_other _ hb]
  exact congrArg (fun files ↦ ({ h with files := files } : Heap)) hfiles

@[simp] theorem setPipe_self (x : Option PipeRefs) : (h.setPipe p x).pipes p = x := if_pos rfl

theorem setPipe_other (x : Option PipeRefs) (hq : q ≠ p) : (h.setPipe p x).pipes q = h.pipes q :=
  if_neg hq

namespace Sound

theorem lt_nextFile (hs : h.Sound refs fresh freshPipes) (ha : h.files a = some f) :
    a < h.nextFile := by
  by_contra hle
  cases (hs.nextFile a (by omega)).symm.trans ha

theorem lt_nextPipe (hs : h.Sound refs fresh freshPipes) (hp : h.pipes p = some c) :
    p < h.nextPipe := by
  by_contra hle
  cases (hs.nextPipe p (by omega)).symm.trans hp

/-- **Every end belongs to a live pipe.** -/
theorem pipe_live (hs : h.Sound refs fresh freshPipes) (ha : h.files a = some f) :
    ∃ p c, f.pipe = some p ∧ h.pipes p = some c := by
  obtain ⟨p, hp⟩ := Option.ne_none_iff_exists'.mp (hs.piped a f ha)
  have hpos : 0 < h.ends p := by
    refine Nat.pos_of_ne_zero fun hzero ↦ ?_
    refine count_eq_zero.mp hzero a (Finset.mem_range.mpr (hs.lt_nextFile ha)) ?_
    rw [pipeOf, ha]
    exact hp
  obtain ⟨n, hn⟩ := hs.pipes.live_of_pos hpos
  obtain ⟨c, hc, -⟩ := Option.map_eq_some_iff.mp hn
  exact ⟨p, c, hp, hc⟩

/-- Only the counter of one end has changed. -/
theorem setRefCount (hs : h.Sound refs fresh freshPipes) (ha : h.files a = some f) (n : Int)
    {fresh' : Set Nat} (hcounted : Counted (fun b ↦
      ((h.setFile a (some { f with refCount := n })).files b).map FileAccess.refCount) r fresh') :
    (h.setFile a (some { f with refCount := n })).Sound r fresh' freshPipes := by
  set g := h.setFile a (some { f with refCount := n }) with hg
  have hpipe : ∀ b, g.pipeOf b = h.pipeOf b := fun b ↦ by
    by_cases hb : b = a
    · subst hb
      rw [pipeOf, pipeOf, hg, setFile_self, ha]
      rfl
    · rw [pipeOf, pipeOf, hg, setFile_other _ hb]
  have hwrites : ∀ b, g.writes b = h.writes b := fun b ↦ by
    by_cases hb : b = a
    · subst hb
      rw [writes, writes, hg, setFile_self, ha]
      rfl
    · rw [writes, writes, hg, setFile_other _ hb]
  refine ⟨hcounted, hs.pipes.congr (fun _ ↦ rfl) fun p ↦ ?_, fun p c hp ↦ ?_, fun b x hb ↦ ?_,
    fun b hb ↦ ?_, hs.nextPipe⟩
  · exact count_congr fun b ↦ by rw [hpipe]
  · rw [hs.writers p c hp]
    exact congrArg Nat.cast (count_congr fun b ↦ by rw [hpipe, hwrites]).symm
  · by_cases hba : b = a
    · subst hba
      rw [hg, setFile_self] at hb
      cases hb
      exact hs.piped b f ha
    · rw [hg, setFile_other _ hba] at hb
      exact hs.piped b x hb
  · by_cases hba : b = a
    · subst hba
      cases (hs.nextFile b hb).symm.trans ha
    · rw [hg, setFile_other _ hba]
      exact hs.nextFile b hb

/-- `addFileRef` -/
theorem addFileRef (hs : h.Sound refs fresh freshPipes) (ha : h.files a = some f)
    (hrefs : r a = refs a + 1) (hrest : ∀ b, b ≠ a → r b = refs b) :
    ∃ h', h.addFileRef a = some h' ∧ h'.Sound r (fresh \ {a}) freshPipes := by
  refine ⟨_, by rw [Heap.addFileRef, ha]; rfl, hs.setRefCount ha _ ?_⟩
  refine hs.files.acquire (a := a) (n := f.refCount) ?_ ?_ (fun b hb ↦ ?_) hrefs hrest
  · rw [ha]
    rfl
  · rw [setFile_self]
    rfl
  · rw [setFile_other _ hb]

end Sound

/-- One end has changed, and how many there are of a pipe. -/
theorem count_pipeOf {n : Nat} (ha : a < n) (hother : ∀ b, b ≠ a → h'.files b = h.files b)
    (q : Nat) :
    count (Finset.range n) (fun b ↦ h'.pipeOf b = some q) +
        (if h.pipeOf a = some q then 1 else 0) =
      count (Finset.range n) (fun b ↦ h.pipeOf b = some q) +
        if h'.pipeOf a = some q then 1 else 0 :=
  count_change (P := fun b ↦ h.pipeOf b = some q) (Q := fun b ↦ h'.pipeOf b = some q)
    (Finset.mem_range.mpr ha) fun b hb ↦ by rw [pipeOf, pipeOf, hother b hb]

/-- One end has changed, and how many write to a pipe. -/
theorem count_writes {n : Nat} (ha : a < n) (hother : ∀ b, b ≠ a → h'.files b = h.files b)
    (q : Nat) :
    count (Finset.range n) (fun b ↦ h'.pipeOf b = some q ∧ h'.writes b = true) +
        (if h.pipeOf a = some q ∧ h.writes a = true then 1 else 0) =
      count (Finset.range n) (fun b ↦ h.pipeOf b = some q ∧ h.writes b = true) +
        if h'.pipeOf a = some q ∧ h'.writes a = true then 1 else 0 :=
  count_change (P := fun b ↦ h.pipeOf b = some q ∧ h.writes b = true)
    (Q := fun b ↦ h'.pipeOf b = some q ∧ h'.writes b = true) (Finset.mem_range.mpr ha) fun b hb ↦ by
      rw [pipeOf, pipeOf, writes, writes, hother b hb]

/-- What `freeFileAccess` leaves behind. -/
theorem freeFileAccess_eq (ha : h.files a = some f) (hf : f.pipe = some p)
    (hp : h.pipes p = some c) :
    ∃ h', h.freeFileAccess a = some h' ∧ h'.files a = none ∧ (∀ b, b ≠ a → h'.files b = h.files b) ∧
      h'.nextFile = h.nextFile ∧ h'.nextPipe = h.nextPipe ∧
      h'.pipes p = (if c.refCount - 1 ≤ 0 then none
        else some ⟨c.refCount - 1, c.writerCount - if f.writes then 1 else 0⟩) ∧
      ∀ q, q ≠ p → h'.pipes q = h.pipes q := by
  have hwriter : ∃ h₁ : Heap,
      (if f.flags &&& FILE_WRITE ≠ 0 then h.removePipeWriter p else some h) =
      some h₁ ∧ h₁.files = h.files ∧ h₁.nextFile = h.nextFile ∧ h₁.nextPipe = h.nextPipe ∧
      h₁.pipes p = some ⟨c.refCount, c.writerCount - if f.writes then 1 else 0⟩ ∧
      ∀ q, q ≠ p → h₁.pipes q = h.pipes q := by
    by_cases hw : f.flags &&& FILE_WRITE ≠ 0
    · have hwrites : f.writes = true := decide_eq_true hw
      refine ⟨h.setPipe p (some { c with writerCount := c.writerCount - 1 }),
        by rw [if_pos hw, removePipeWriter, hp]; rfl, rfl, rfl, rfl, ?_,
        fun q hq ↦ setPipe_other _ hq⟩
      rw [setPipe_self, hwrites]
      rfl
    · have hwrites : f.writes = false := decide_eq_false hw
      refine ⟨h, if_neg hw, rfl, rfl, rfl, ?_, fun _ _ ↦ rfl⟩
      rw [hp, hwrites]
      exact congrArg some (congrArg (PipeRefs.mk c.refCount) (Int.sub_zero _).symm)
  obtain ⟨h₁, hw, hfiles, hnextFile, hnextPipe, hp₁, hother⟩ := hwriter
  have hremove : ∃ h₂ : Heap, h₁.removePipeRef p = some h₂ ∧ h₂.files = h₁.files ∧
      h₂.nextFile = h₁.nextFile ∧ h₂.nextPipe = h₁.nextPipe ∧
      h₂.pipes p = (if c.refCount - 1 ≤ 0 then none
        else some ⟨c.refCount - 1, c.writerCount - if f.writes then 1 else 0⟩) ∧
      ∀ q, q ≠ p → h₂.pipes q = h₁.pipes q := by
    rw [removePipeRef, hp₁]
    simp only [Option.bind_eq_bind, Option.bind_some]
    set h₂ :=
      h₁.setPipe p (some ⟨c.refCount - 1, c.writerCount - if f.writes then 1 else 0⟩) with hh₂
    by_cases hlast : c.refCount - 1 ≤ 0
    · rw [if_pos hlast, if_pos hlast]
      refine ⟨h₂.setPipe p none, by rw [freePipe, hh₂, setPipe_self]; rfl, rfl, rfl, rfl,
        setPipe_self _, fun q hq ↦ ?_⟩
      rw [setPipe_other _ hq, setPipe_other _ hq]
    · rw [if_neg hlast, if_neg hlast]
      exact ⟨_, rfl, rfl, rfl, rfl, setPipe_self _, fun q hq ↦ setPipe_other _ hq⟩
  obtain ⟨h₂, hremove, hfiles', hnextFile', hnextPipe', hp₂, hother'⟩ := hremove
  refine ⟨h₂.setFile a none, ?_, setFile_self _, fun b hb ↦ ?_, hnextFile'.trans hnextFile,
    hnextPipe'.trans hnextPipe, hp₂, fun q hq ↦ (hother' q hq).trans (hother q hq)⟩
  · rw [freeFileAccess, ha]
    simp only [Option.bind_eq_bind, Option.bind_some, hf, hw, hremove, Option.map_some]
  · rw [setFile_other _ hb, hfiles', hfiles]

namespace Sound

/-- An end that nobody refers to is freed, whatever its counter has become. -/
theorem freeFileAccess (hs : h.Sound refs fresh freshPipes) (ha : a ∈ fresh)
    (hf : h.files a = some f) (n : Int) :
    ∃ h', (h.setFile a (some { f with refCount := n })).freeFileAccess a = some h' ∧
      h'.Sound refs (fresh \ {a}) freshPipes := by
  obtain ⟨p, c, hpipe, hp⟩ := hs.pipe_live hf
  obtain ⟨h', hfree, hself, hother', hnextFile, hnextPipe, hpself, hpother⟩ :=
    freeFileAccess_eq (h := h.setFile a (some { f with refCount := n })) (setFile_self _) hpipe hp
  have hother : ∀ b, b ≠ a → h'.files b = h.files b := fun b hb ↦
    (hother' b hb).trans (setFile_other _ hb)
  replace hnextFile : h'.nextFile = h.nextFile := hnextFile
  replace hnextPipe : h'.nextPipe = h.nextPipe := hnextPipe
  replace hpself : h'.pipes p = if c.refCount - 1 ≤ 0 then none
    else some ⟨c.refCount - 1, c.writerCount - if f.writes then 1 else 0⟩ := hpself
  replace hpother : ∀ q, q ≠ p → h'.pipes q = h.pipes q := hpother
  have hpipeOf_self : h.pipeOf a = some p := by
    rw [pipeOf, hf]
    exact hpipe
  have hpipeOf_self' : h'.pipeOf a = none := by
    rw [pipeOf, hself]
    rfl
  have hwrites_self : h.writes a = f.writes := by
    rw [Heap.writes, hf]
    rfl
  have hends : ∀ q, h'.ends q + (if some p = some q then 1 else 0) = h.ends q := fun q ↦ by
    have hchange := count_pipeOf (hs.lt_nextFile hf) hother q
    rw [hpipeOf_self, hpipeOf_self', if_neg (by simp : ¬(none : Option Nat) = some q)] at hchange
    rw [ends, hnextFile]
    exact hchange
  have hwriters : ∀ q, h'.writers q + (if some p = some q ∧ f.writes = true then 1 else 0) =
      h.writers q := fun q ↦ by
    have hchange := count_writes (hs.lt_nextFile hf) hother q
    rw [hpipeOf_self, hpipeOf_self', hwrites_self,
      if_neg (by simp : ¬((none : Option Nat) = some q ∧ h'.writes a = true))] at hchange
    rw [Heap.writers, hnextFile]
    exact hchange
  refine ⟨h', hfree, ⟨hs.files.free ha ?_ fun b hb ↦ ?_, ?_, fun q x hq ↦ ?_, fun b x hb ↦ ?_,
    fun b hb ↦ ?_, fun q hq ↦ ?_⟩⟩
  · rw [hself]
    rfl
  · rw [hother b hb]
  · refine hs.pipes.release (a := p) (n := c.refCount) (by rw [hp]; rfl) ?_ (fun q hq ↦ ?_) ?_
      fun q hq ↦ ?_
    · rw [hpself]
      split <;> rfl
    · rw [hpother q hq]
    · have hchange := hends p
      rw [if_pos rfl] at hchange
      exact hchange.symm
    · have hchange := hends q
      rw [if_neg fun heq ↦ hq (Option.some.inj heq).symm] at hchange
      exact hchange
  · have hchange := hwriters q
    by_cases hqp : q = p
    · subst hqp
      have hold := hs.writers q c hp
      rw [hpself] at hq
      split at hq
      · cases hq
      · cases hq
        by_cases hw : f.writes = true
        · rw [if_pos ⟨rfl, hw⟩] at hchange
          simp only [if_pos hw]
          omega
        · rw [if_neg fun hq ↦ hw hq.2] at hchange
          simp only [if_neg hw]
          omega
    · rw [hpother q hqp] at hq
      rw [if_neg fun heq ↦ hqp (Option.some.inj heq.1).symm] at hchange
      rw [hs.writers q x hq, ← hchange]
      rfl
  · by_cases hba : b = a
    · subst hba
      cases hself.symm.trans hb
    · exact hs.piped b x ((hother b hba).symm.trans hb)
  · by_cases hba : b = a
    · exact hba ▸ hself
    · exact (hother b hba).trans (hs.nextFile b (hnextFile ▸ hb))
  · by_cases hqp : q = p
    · subst hqp
      have hlt := hs.lt_nextPipe hp
      omega
    · exact (hpother q hqp).trans (hs.nextPipe q (hnextPipe ▸ hq))

/-- `removeFileRef` -/
theorem removeFileRef (hs : h.Sound refs fresh freshPipes) (hrefs : refs a = r a + 1)
    (hrest : ∀ b, b ≠ a → r b = refs b) :
    ∃ h', h.removeFileRef a = some h' ∧ h'.Sound r fresh freshPipes := by
  obtain ⟨n, hn⟩ := hs.files.live_of_pos (a := a) (by omega)
  obtain ⟨f, hf, -⟩ := Option.map_eq_some_iff.mp hn
  have hnot := hs.files.notMem_fresh (a := a) (by omega)
  have hdrop := hs.setRefCount hf (f.refCount - 1) (hs.files.drop (a := a) (n := f.refCount)
    (by rw [hf]; rfl) (by rw [setFile_self]; rfl) (fun b hb ↦ by rw [setFile_other _ hb]) hrefs
      hrest)
  rw [Heap.removeFileRef, hf]
  simp only [Option.bind_eq_bind, Option.bind_some]
  split at hdrop
  next hlast =>
      obtain ⟨h', hfree, hs'⟩ :=
        hdrop.freeFileAccess (Set.mem_insert a fresh) (setFile_self _) (f.refCount - 1)
      rw [setFile_setFile] at hfree
      rw [Set.insert_sdiff_of_mem _ (Set.mem_singleton a), Set.sdiff_singleton_eq_self hnot] at hs'
      exact ⟨h', by rw [if_pos hlast]; exact hfree, hs'⟩
  next hlast => exact ⟨_, by rw [if_neg hlast], hdrop⟩

/-- `removeFileRef`, of an end that nobody refers to. -/
theorem discard (hs : h.Sound refs fresh freshPipes) (ha : a ∈ fresh) :
    ∃ h', h.removeFileRef a = some h' ∧ h'.Sound refs (fresh \ {a}) freshPipes := by
  obtain ⟨n, hn⟩ := hs.files.live_of_fresh ha
  obtain ⟨f, hf, -⟩ := Option.map_eq_some_iff.mp hn
  have hzero : f.refCount = refs a := hs.files.count a f.refCount (by rw [hf]; rfl)
  rw [hs.files.unused a ha] at hzero
  obtain ⟨h', hfree, hs'⟩ := hs.freeFileAccess ha hf (f.refCount - 1)
  refine ⟨h', ?_, hs'⟩
  rw [Heap.removeFileRef, hf]
  simp only [Option.bind_eq_bind, Option.bind_some]
  rw [if_pos (by omega)]
  exact hfree

/-- `freeFileAccess` -/
theorem free (hs : h.Sound refs fresh freshPipes) (ha : a ∈ fresh) :
    ∃ h', h.freeFileAccess a = some h' ∧ h'.Sound refs (fresh \ {a}) freshPipes := by
  obtain ⟨n, hn⟩ := hs.files.live_of_fresh ha
  obtain ⟨f, hf, -⟩ := Option.map_eq_some_iff.mp hn
  have hfree := hs.freeFileAccess ha hf f.refCount
  rwa [setFile_eq_self hf] at hfree

end Sound


/-! ## New objects -/

namespace Sound

/-- `newPipe` -/
theorem newPipe (hs : h.Sound refs fresh freshPipes) :
    ∃ h', h.newPipe true = (some h.nextPipe, h') ∧
      h'.Sound refs fresh (insert h.nextPipe freshPipes) := by
  have hnone := hs.nextPipe h.nextPipe le_rfl
  set g := ({ h with nextPipe := h.nextPipe + 1 } : Heap).setPipe h.nextPipe (some ⟨0, 0⟩) with hg
  have hself : g.pipes h.nextPipe = some ⟨0, 0⟩ := setPipe_self _
  have hother : ∀ q, q ≠ h.nextPipe → g.pipes q = h.pipes q := fun q hq ↦ setPipe_other _ hq
  have hzero : h.ends h.nextPipe = 0 := hs.pipes.refs_eq_zero (by rw [hnone]; rfl)
  refine ⟨g, rfl, ⟨hs.files, hs.pipes.alloc ?_ ?_ fun q hq ↦ ?_, fun q c hq ↦ ?_, hs.piped,
    hs.nextFile, fun q hq ↦ ?_⟩⟩
  · rw [hnone]
    rfl
  · rw [hself]
    rfl
  · rw [hother q hq]
  · by_cases hqp : q = h.nextPipe
    · subst hqp
      rw [hself] at hq
      cases hq
      have hnobody : h.writers h.nextPipe = 0 := by
        refine count_eq_zero.mpr fun a ha hwrites ↦ ?_
        exact count_eq_zero.mp hzero a ha hwrites.1
      exact (congrArg Nat.cast hnobody).symm
    · rw [hother q hqp] at hq
      exact hs.writers q c hq
  · have hlt : h.nextPipe + 1 ≤ q := hq
    rw [hother q (by omega)]
    exact hs.nextPipe q (by omega)

/-- `freePipe`, of a pipe without ends. -/
theorem freePipe (hs : h.Sound refs fresh freshPipes) (hp : p ∈ freshPipes) :
    ∃ h', h.freePipe p = some h' ∧ h'.Sound refs fresh (freshPipes \ {p}) := by
  obtain ⟨n, hn⟩ := hs.pipes.live_of_fresh hp
  obtain ⟨c, hc, -⟩ := Option.map_eq_some_iff.mp hn
  refine ⟨h.setPipe p none, by rw [Heap.freePipe, hc]; rfl,
    ⟨hs.files, hs.pipes.free hp ?_ fun q hq ↦
    ?_, fun q x hq ↦ ?_, hs.piped, hs.nextFile, fun q hq ↦ ?_⟩⟩
  · rw [setPipe_self]
    rfl
  · rw [setPipe_other _ hq]
  · by_cases hqp : q = p
    · subst hqp
      cases (setPipe_self _).symm.trans hq
    · rw [setPipe_other _ hqp] at hq
      exact hs.writers q x hq
  · by_cases hqp : q = p
    · exact hqp ▸ setPipe_self _
    · rw [setPipe_other _ hqp]
      exact hs.nextPipe q hq

/-- `newFileAccess` -/
theorem newFileAccess (hs : h.Sound refs fresh freshPipes) (hp : h.pipes p = some c)
    (flags : UInt8) :
    ∃ h', h.newFileAccess (some p) flags true = some (some h.nextFile, h') ∧
      (∃ f, h'.files h.nextFile = some f) ∧ h'.pipes p ≠ none ∧
      h'.Sound refs (insert h.nextFile fresh) (freshPipes \ {p}) := by
  set a := h.nextFile with ha
  set f : FileAccess := ⟨some p, flags, 0⟩ with hf
  set c' : PipeRefs := ⟨c.refCount + 1, c.writerCount + if f.writes then 1 else 0⟩ with hc'
  -- the heap that the calls leave
  have hnew : ∃ g : Heap, h.newFileAccess (some p) flags true = some (some a, g) ∧
      g.files a = some f ∧ (∀ b, b ≠ a → g.files b = h.files b) ∧ g.nextFile = a + 1 ∧
      g.nextPipe = h.nextPipe ∧ g.pipes p = some c' ∧ ∀ q, q ≠ p → g.pipes q = h.pipes q := by
    set h₁ := ({ h with nextFile := a + 1 } : Heap).setFile a (some f) with hh₁
    set h₂ := h₁.setPipe p (some { c with refCount := c.refCount + 1 }) with hh₂
    have href : h₁.addPipeRef p = some h₂ := by
      rw [addPipeRef, show h₁.pipes p = some c from hp]
      rfl
    have hcall : h.newFileAccess (some p) flags true =
        (if flags &&& FILE_WRITE ≠ 0 then h₂.addPipeWriter p else some h₂).map fun h ↦
          (some a, h) := by
      rw [Heap.newFileAccess, if_pos rfl]
      simp only [Option.bind_eq_bind]
      rw [← ha, ← hf, ← hh₁, href, Option.bind_some]
    rw [hcall]
    by_cases hw : flags &&& FILE_WRITE ≠ 0
    · have hwrites : f.writes = true := decide_eq_true hw
      refine ⟨h₂.setPipe p (some c'), ?_, setFile_self _, fun b hb ↦ setFile_other _ hb, rfl, rfl,
        setPipe_self _, fun q hq ↦ ?_⟩
      · rw [if_pos hw, addPipeWriter, hh₂, setPipe_self, hc', hwrites]
        rfl
      · rw [setPipe_other _ hq, hh₂, setPipe_other _ hq]
        rfl
    · have hwrites : f.writes = false := decide_eq_false hw
      refine ⟨h₂, by rw [if_neg hw]; rfl, setFile_self _, fun b hb ↦ setFile_other _ hb, rfl, rfl,
        ?_, fun q hq ↦ setPipe_other _ hq⟩
      rw [hh₂, setPipe_self, hc', hwrites]
      exact congrArg some (congrArg (PipeRefs.mk _) (Int.add_zero _).symm)
  obtain ⟨g, hcall, hself, hother, hnextFile, hnextPipe, hpself, hpother⟩ := hnew
  have hnone : h.files a = none := hs.nextFile a le_rfl
  have hpipeOf_self : h.pipeOf a = none := by
    rw [pipeOf, hnone]
    rfl
  have hpipeOf_self' : g.pipeOf a = some p := by
    rw [pipeOf, hself]
    rfl
  have hwrites_self' : g.writes a = f.writes := by
    rw [Heap.writes, hself]
    rfl
  have hends : ∀ q, g.ends q = h.ends q + if some p = some q then 1 else 0 := fun q ↦ by
    have hchange := count_pipeOf (Nat.lt_succ_self a) hother q
    rw [count_range_succ (P := fun b ↦ h.pipeOf b = some q), hpipeOf_self, hpipeOf_self',
      if_neg (by simp : ¬(none : Option Nat) = some q)] at hchange
    rw [ends, hnextFile]
    exact hchange
  have hwriters : ∀ q, g.writers q =
      h.writers q + if some p = some q ∧ f.writes = true then 1 else 0 := fun q ↦ by
    have hchange := count_writes (Nat.lt_succ_self a) hother q
    have hout : ¬(h.pipeOf a = some q ∧ h.writes a = true) := by simp [hpipeOf_self]
    rw [count_range_succ (P := fun b ↦ h.pipeOf b = some q ∧ h.writes b = true), if_neg hout,
      hpipeOf_self', hwrites_self'] at hchange
    rw [Heap.writers, hnextFile]
    exact hchange
  refine ⟨g, hcall, ⟨f, hself⟩, by rw [hpself]; simp, ⟨hs.files.alloc ?_ ?_ fun b hb ↦ ?_,
    hs.pipes.acquire (a := p) (n := c.refCount) ?_ ?_ (fun q hq ↦ ?_) ?_ fun q hq ↦ ?_,
    fun q x hq ↦ ?_, fun b x hb ↦ ?_, fun b hb ↦ ?_, fun q hq ↦ ?_⟩⟩
  · rw [hnone]
    rfl
  · rw [hself]
    rfl
  · rw [hother b hb]
  · rw [hp]
    rfl
  · rw [hpself]
    rfl
  · rw [hpother q hq]
  · rw [hends, if_pos rfl]
  · rw [hends, if_neg fun heq ↦ hq (Option.some.inj heq).symm]
    rfl
  · rw [hwriters]
    by_cases hqp : q = p
    · subst hqp
      have hold := hs.writers q c hp
      obtain rfl := Option.some.inj (hpself.symm.trans hq)
      by_cases hw : f.writes = true
      · rw [if_pos ⟨rfl, hw⟩]
        simp only [hc', if_pos hw]
        omega
      · rw [if_neg fun hq ↦ hw hq.2]
        simp only [hc', if_neg hw]
        omega
    · rw [hpother q hqp] at hq
      rw [if_neg fun heq ↦ hqp (Option.some.inj heq.1).symm]
      exact hs.writers q x hq
  · by_cases hba : b = a
    · subst hba
      obtain rfl := Option.some.inj (hself.symm.trans hb)
      simp [hf]
    · exact hs.piped b x ((hother b hba).symm.trans hb)
  · rw [hother b (by omega)]
    exact hs.nextFile b (by omega)
  · by_cases hqp : q = p
    · subst hqp
      have hlt := hs.lt_nextPipe hp
      omega
    · exact (hpother q hqp).trans (hs.nextPipe q (hnextPipe ▸ hq))

end Sound


end Heap

end BareBones.IPC
