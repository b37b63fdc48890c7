import BareBones.Drivers.Keyboard

/-!
# The pipe of the keyboard in every run

What the calls on the pipe do to the rest of the system, one specification for each of them,
and the invariant of the console that follows: nobody holds `readMutex` across a blocking
point, so that whoever is stopped in a read is stopped at `dataAvailable`.
-/

namespace BareBones.Drivers

open BareBones.Lib BareBones.Process BareBones.Process.Kernel BareBones.Semaphores
open BareBones.IPC (PipeSem bufferHasData bufferRead bufferWrite)

namespace KbdPipe

variable {p p' p'' : KbdPipe} {k k' k'' : Kernel} {c : UInt8} {count fuel : Nat} {x : PipeSem}
  {α : Type}

/-- A semaphore of the pipe. -/
def Own (p : KbdPipe) (id : SemId) : Prop := ∃ x, id = p.semId x

/-- Nobody holds `readMutex` or waits for it. -/
def Free (p : KbdPipe) (k : Kernel) : Prop := (k.sems (p.semId .readMutex)).sem = ⟨1, []⟩

/-- The running process holds `readMutex`, and nobody waits for it. -/
def Held (p : KbdPipe) (k : Kernel) : Prop := (k.sems (p.semId .readMutex)).sem = ⟨0, []⟩

theorem semId_congr (h : p'.sem = p.sem) (x : PipeSem) : p'.semId x = p.semId x := by
  rw [semId, h, semId]

theorem own_congr (h : p'.sem = p.sem) (id : SemId) : p'.Own id ↔ p.Own id := by
  simp only [Own, semId_congr h]

theorem semId_ne {y : PipeSem} (h : x ≠ y) : p.semId x ≠ p.semId y := by
  intro heq
  exact h (p.distinct (SemId.user.inj heq))

/-! ## Pieces that do not take `readMutex` -/

/-- The pipe has the same semaphores, only they have been touched, but not `readMutex`, and
at most the running process has been blocked. -/
structure Kept (p : KbdPipe) (k : Kernel) (p' : KbdPipe) (k' : Kernel) : Prop where
  sem : p'.sem = p.sem
  gentle : Gentle p.Own k k'
  mutex : (k'.sems (p.semId .readMutex)).sem = (k.sems (p.semId .readMutex)).sem

namespace Kept

theorem refl (p : KbdPipe) (k : Kernel) : Kept p k p k := ⟨rfl, .refl k, rfl⟩

theorem trans (h : Kept p k p' k') (h' : Kept p' k' p'' k'') : Kept p k p'' k'' where
  sem := h'.sem.trans h.sem
  gentle := h.gentle.trans (h'.gentle.mono fun id ↦ (own_congr h.sem id).mp)
  mutex := by
    have hmutex := h'.mutex
    rw [semId_congr h.sem] at hmutex
    exact hmutex.trans h.mutex

/-- The buffer changes. -/
theorem buffer (p : KbdPipe) (k : Kernel) (cb : IPC.CircularBuffer) :
    Kept p k { p with buffer := cb } k := ⟨rfl, .refl k, rfl⟩

theorem wait (hx : x ≠ .readMutex) : Kept p k p (p.wait x k).1 where
  sem := rfl
  gentle := .wait ⟨x, rfl⟩
  mutex := by
    have hgentle : Gentle (· = p.semId x) k (p.wait x k).1 := .wait rfl
    exact hgentle.sem _ (semId_ne hx.symm)

theorem post (hx : x ≠ .readMutex) : Kept p k p (p.post x k) where
  sem := rfl
  gentle := (Undisturbed.post ⟨x, rfl⟩).gentle
  mutex := by
    have hpost : Undisturbed (· = p.semId x) k (p.post x k) := .post rfl
    exact hpost.sem _ (semId_ne hx.symm)

theorem free (h : Kept p k p' k') (hfree : p.Free k) : p'.Free k' := by
  rw [Free, semId_congr h.sem, h.mutex]
  exact hfree

theorem held (h : Kept p k p' k') (hheld : p.Held k) : p'.Held k' := by
  rw [Held, semId_congr h.sem, h.mutex]
  exact hheld

end Kept

/-! ### Writing -/

theorem afterFreeSpaces_kept {loop : KbdPipe → Kernel → Option (Result Unit)} {r : Result Unit}
    (hloop : ∀ r, loop p k = some r → Kept p k r.1 r.2.1)
    (h : afterFreeSpaces loop c p k = some r) : Kept p k r.1 r.2.1 := by
  unfold afterFreeSpaces at h
  dsimp only at h
  split at h
  · obtain rfl := Option.some.inj h
    have hbuffer := Kept.buffer p k (bufferWrite p.buffer c).1
    refine hbuffer.trans (.trans ?_ (.post (by decide)))
    split
    · exact .post (by decide)
    · exact .refl _ _
  · exact hloop r h

theorem writeLoop_kept (fuel : Nat) : ∀ {k} {r : Result Unit}, writeLoop c fuel p k = some r →
    Kept p k r.1 r.2.1 := by
  induction fuel with
  | zero => exact fun h ↦ by cases h
  | succ fuel ih =>
      intro k r h
      have hwait : Kept p k p (p.wait .freeSpaces k).1 := .wait (by decide)
      rw [writeLoop] at h
      dsimp only at h
      split at h
      · obtain rfl := Option.some.inj h
        exact hwait
      · exact hwait.trans (afterFreeSpaces_kept (fun _ ↦ ih) h)

theorem pipeWrite_kept {r : Result Unit} (h : p.pipeWrite c k = some r) : Kept p k r.1 r.2.1 := by
  have hwait : Kept p k p (p.wait .writeMutex k).1 := .wait (by decide)
  unfold pipeWrite at h
  dsimp only at h
  split at h
  · obtain rfl := Option.some.inj h
    exact hwait
  · exact hwait.trans (writeLoop_kept _ h)

theorem continueWrite_kept {r : Result Unit} (h : p.continueWrite c k x = some r) :
    Kept p k r.1 r.2.1 := by
  cases x with
  | writeMutex => exact writeLoop_kept _ h
  | freeSpaces => exact afterFreeSpaces_kept (fun _ ↦ writeLoop_kept _) h
  | dataAvailable => cases h
  | readMutex => cases h

/-! ### Reading -/

theorem drainBuffer_kept (count : Nat) : ∀ p k,
    Kept p k (drainBuffer count p k).1 (drainBuffer count p k).2.1 := by
  induction count with
  | zero => exact fun p k ↦ .refl p k
  | succ count ih =>
      intro p k
      rw [drainBuffer]
      split
      · have hread := Kept.buffer p k (bufferRead p.buffer).1
        have hpost : Kept { p with buffer := (bufferRead p.buffer).1 } k
            { p with buffer := (bufferRead p.buffer).1 } (p.post .freeSpaces k) :=
          .post (by decide)
        exact (hread.trans hpost).trans (ih _ _)
      · exact .refl p k

/-- There is at least one byte if there is data. -/
theorem drainBuffer_ne_nil (hcount : 0 < count) (hdata : bufferHasData p.buffer = true) :
    (drainBuffer count p k).2.2 ≠ [] := by
  obtain ⟨n, rfl⟩ := Nat.exists_eq_succ_of_ne_zero (Nat.ne_of_gt hcount)
  rw [drainBuffer, if_pos hdata]
  exact List.cons_ne_nil _ _

/-! ## Calls that take `readMutex` -/

/-- `readMutex` is free, and is taken at once. -/
theorem wait_free (h : p.Free k) :
    p.wait .readMutex k = (k.take (p.semId .readMutex), false) ∧
      p.Held (k.take (p.semId .readMutex)) := by
  have hpos : ¬(k.sems (p.semId .readMutex)).sem.value - 1 < 0 := by
    rw [show (k.sems (p.semId .readMutex)).sem = ⟨1, []⟩ from h]
    decide
  constructor
  · simp only [KbdPipe.wait, Kernel.wait, semWait, if_neg hpos, Bool.false_eq_true, if_false]
    rfl
  · rw [Held, Kernel.take, setSem_self, show (k.sems (p.semId .readMutex)).sem = ⟨1, []⟩ from h]
    rfl

/-- Whoever holds `readMutex` sets it free again. -/
theorem post_held (h : p.Held k) : p.Free (p.post .readMutex k) := by
  have hsem : (k.sems (p.semId .readMutex)).sem = ⟨0, []⟩ := h
  rcases post_cases k (p.semId .readMutex) with ⟨dead, rest, hqueue, -, -, hpost⟩ |
    ⟨dead, pid, rest, pr, hqueue, -, -, -, -, -, -⟩
  · rw [hsem] at hqueue
    obtain ⟨rfl, rfl⟩ := List.append_eq_nil_iff.mp hqueue.symm
    rw [Free, KbdPipe.post, hpost, posted_self, hsem]
    rfl
  · rw [hsem] at hqueue
    cases (List.append_eq_nil_iff.mp hqueue.symm).2

/-- What a read does: only the semaphores of the pipe are touched, `readMutex` is free
afterwards, and a reader is only ever stopped at `dataAvailable`. -/
structure Reads (p : KbdPipe) (k : Kernel) (r : Result α) : Prop where
  sem : r.1.sem = p.sem
  gentle : Gentle p.Own k r.2.1
  free : r.1.Free r.2.1
  stopped : ∀ x, r.2.2 = .inl x → x = .dataAvailable

theorem Reads.after {r : Result α} (h : Gentle p.Own k k') (hr : Reads p k' r) : Reads p k r :=
  { hr with gentle := h.trans hr.gentle }

/-- The mutex is given back at the end. -/
theorem Reads.release {r : Result α} (hkept : Kept p k p' k') (hheld : p.Held k)
    (hr : r.1 = p' ∧ r.2.1 = p'.post .readMutex k') (hstop : ∀ x, r.2.2 ≠ .inl x) :
    Reads p k r where
  sem := hr.1 ▸ hkept.sem
  gentle := by
    have hpost : Undisturbed p.Own k' (p'.post .readMutex k') :=
      .post ⟨.readMutex, semId_congr hkept.sem _⟩
    rw [hr.2]
    exact hkept.gentle.trans hpost.gentle
  free := by
    rw [hr.1, hr.2]
    exact post_held (hkept.held hheld)
  stopped x hx := absurd hx (hstop x)

theorem afterReadMutex_reads {loop : KbdPipe → Kernel → Option (Result (List UInt8))}
    {r : Result (List UInt8)} (hloop : ∀ k r, p.Free k → loop p k = some r → Reads p k r)
    (hheld : p.Held k) (h : afterReadMutex loop count p k = some r) : Reads p k r := by
  unfold afterReadMutex at h
  split at h
  · have hdrained := drainBuffer_kept count p k
    obtain rfl := Option.some.inj h
    refine .release (hdrained.trans ?_) hheld ⟨rfl, rfl⟩ fun _ hx ↦ by cases hx
    split
    · exact .post (by decide)
    · exact .refl _ _
  · split at h
    · obtain rfl := Option.some.inj h
      exact .release (.refl p k) hheld ⟨rfl, rfl⟩ fun _ hx ↦ by cases hx
    · have hpost : Undisturbed p.Own k (p.post .readMutex k) := .post ⟨_, rfl⟩
      exact .after hpost.gentle (hloop _ r (post_held hheld) h)

theorem afterDataAvailable_reads {loop : KbdPipe → Kernel → Option (Result (List UInt8))}
    {r : Result (List UInt8)} (hloop : ∀ k r, p.Free k → loop p k = some r → Reads p k r)
    (hfree : p.Free k) (h : afterDataAvailable loop count p k = some r) : Reads p k r := by
  obtain ⟨hwait, hheld⟩ := wait_free hfree
  have htaken : Gentle p.Own k (k.take (p.semId .readMutex)) := by
    have := Gentle.wait (k := k) (show p.Own (p.semId .readMutex) from ⟨_, rfl⟩)
    rwa [show k.wait (p.semId .readMutex) = _ from hwait] at this
  unfold afterDataAvailable at h
  rw [hwait] at h
  exact .after htaken (afterReadMutex_reads hloop hheld h)

theorem readLoop_reads (fuel : Nat) : ∀ {k} {r : Result (List UInt8)}, p.Free k →
    readLoop count fuel p k = some r → Reads p k r := by
  induction fuel with
  | zero => exact fun _ h ↦ by cases h
  | succ fuel ih =>
      intro k r hfree h
      have hwait : Kept p k p (p.wait .dataAvailable k).1 := .wait (by decide)
      rw [readLoop] at h
      dsimp only at h
      split at h
      · obtain rfl := Option.some.inj h
        refine ⟨rfl, hwait.gentle, hwait.free hfree, fun x hx ↦ ?_⟩
        exact (Sum.inl.inj hx).symm
      · exact .after hwait.gentle
          (afterDataAvailable_reads (fun _ _ ↦ ih) (hwait.free hfree) h)

theorem readAll_reads {r : Result (List UInt8)} (hfree : p.Free k)
    (h : readAll count p k = some r) : Reads p k r := readLoop_reads _ hfree h

/-- A call that returns at once. -/
theorem Reads.pure (hfree : p.Free k) (a : α) : Reads p k (p, k, .inr a) :=
  ⟨rfl, .refl k, hfree, fun _ hx ↦ by cases hx⟩

theorem pipeRead_reads {r : Result (List UInt8)} (hfree : p.Free k)
    (h : p.pipeRead count k = some r) : Reads p k r ∧ (∀ x, r.2.2 = .inl x → 0 < count) := by
  unfold pipeRead at h
  split at h
  · exact Option.some.inj h ▸ ⟨.pure hfree _, fun _ hx ↦ by cases hx⟩
  next hcount =>
  have hpos : 0 < count := Nat.pos_of_ne_zero hcount
  split at h
  · exact Option.some.inj h ▸ ⟨.pure hfree _, fun _ hx ↦ by cases hx⟩
  · exact ⟨readAll_reads hfree h, fun _ _ ↦ hpos⟩

/-- A call that goes on where another one has returned. -/
theorem Reads.trans {β : Type} {r : Result α} {r' : Result β} (h : Reads p k r)
    (h' : Reads r.1 r.2.1 r') : Reads p k r' where
  sem := h'.sem.trans h.sem
  gentle := h.gentle.trans (h'.gentle.mono fun id ↦ (own_congr h.sem id).mp)
  free := h'.free
  stopped := h'.stopped

theorem continueRead_reads {r : Result (List UInt8)} (hfree : p.Free k)
    (h : p.continueRead count k .dataAvailable = some r) : Reads p k r :=
  afterDataAvailable_reads (fun _ _ ↦ readAll_reads) hfree h

/-! ### The descriptor -/

/-- What `readFd` does: it reads, it only waits if it has room for a byte, and it raises no
flag. -/
structure ReadsFd (count : Nat) (eof : Bool) (p : KbdPipe) (k : Kernel)
    (r : Result (List UInt8 × Bool)) : Prop extends Reads p k r where
  counted : ∀ x, r.2.2 = .inl x → 0 < count
  flag : ∀ out, r.2.2 = .inr (out, true) → eof = true

variable {eof : Bool} {r : Result (List UInt8 × Bool)}

theorem afterRead_reads {loop : KbdPipe → Kernel → Option (Result (List UInt8 × Bool))}
    (hloop : ∀ p k r, p.Free k → loop p k = some r → ReadsFd count eof p k r)
    {r₀ : Result (List UInt8)} (h₀ : Reads p k r₀) (hcount : ∀ x, r₀.2.2 = .inl x → 0 < count)
    (h : afterRead loop eof r₀ = some r) : ReadsFd count eof p k r := by
  rcases r₀ with ⟨p₀, k₀, x | bytes⟩
  · obtain rfl := Option.some.inj h
    exact ⟨⟨h₀.sem, h₀.gentle, h₀.free, fun y hy ↦ h₀.stopped y (congrArg _ (Sum.inl.inj hy))⟩,
      fun _ _ ↦ hcount x rfl, fun _ hr ↦ by cases hr⟩
  · have hdone : ∀ out e, (e = true → eof = true) →
        ReadsFd count eof p k (p₀, k₀, .inr (out, e)) := fun out e he ↦
      ⟨⟨h₀.sem, h₀.gentle, h₀.free, fun _ hx ↦ by cases hx⟩, fun _ hx ↦ (by cases hx),
        fun _ hr ↦ he (Prod.mk.inj (Sum.inr.inj hr)).2⟩
    simp only [afterRead] at h
    split at h
    · exact Option.some.inj h ▸ hdone _ _ id
    split at h
    · exact Option.some.inj h ▸ hdone _ _ id
    split at h
    · exact Option.some.inj h ▸ hdone _ _ fun he ↦ by cases he
    · have hrest := hloop p₀ k₀ r h₀.free h
      exact ⟨h₀.trans hrest.toReads, hrest.counted, hrest.flag⟩

theorem readFdLoop_reads (fuel : Nat) : ∀ p k r, p.Free k →
    readFdLoop count eof fuel p k = some r → ReadsFd count eof p k r := by
  induction fuel with
  | zero => exact fun p k r _ h ↦ by cases h
  | succ fuel ih =>
      intro p k r hfree h
      obtain ⟨r₀, hread, h⟩ := Option.bind_eq_some_iff.mp h
      obtain ⟨h₀, hcount⟩ := pipeRead_reads hfree hread
      exact afterRead_reads ih h₀ hcount h

theorem readFd_reads (hfree : p.Free k) (h : p.readFd count eof k = some r) :
    ReadsFd count eof p k r := by
  unfold readFd at h
  split at h
  · obtain rfl := Option.some.inj h
    exact ⟨.pure hfree _, fun _ hx ↦ (by cases hx), fun _ hr ↦ by cases hr⟩
  · exact readFdLoop_reads _ p k r hfree h

theorem continueReadFd_reads (hfree : p.Free k) (hcount : 0 < count)
    (h : p.continueReadFd count eof k .dataAvailable = some r) : ReadsFd count eof p k r := by
  obtain ⟨r₀, hread, h⟩ := Option.bind_eq_some_iff.mp h
  exact afterRead_reads (fun p k r ↦ readFdLoop_reads _ p k r) (continueRead_reads hfree hread)
    (fun _ _ ↦ hcount) h

end KbdPipe

/-! ## The console -/

namespace Console

variable {s t : Console} {p p' : KbdPipe} {k' : Kernel}

/-- Something that every action keeps is kept by `forEachInFG`. -/
theorem forEachInFG_rule {I : Console → Prop} {action : Int → Console → Console}
    (haction : ∀ pid s, I s → I (action pid s)) (h : I s) : I (s.forEachInFG action) := by
  unfold forEachInFG
  generalize (List.range MAX_PROCESSES.toNat).map Int.ofNat = pids
  induction pids generalizing s with
  | nil => exact h
  | cons pid pids ih =>
      rw [List.foldl_cons]
      refine ih ?_
      split
      · exact haction pid s h
      · exact h

/-- Whoever is stopped in a read has room for a byte and waits for data, and nobody holds
`readMutex` across a blocking point. -/
structure Quiet (s : Console) : Prop where
  reading : ∀ pid fd count x, s.inside pid = .reading fd count x → 0 < count ∧ x = .dataAvailable
  mutex : ∀ p ∈ s.keyboardBuffer, p.Free s.kernel
  fresh : ∀ p ∈ s.keyboardBuffer, ∀ x, p.sem x < s.kernel.nextSem

/-- The semaphores other than `readMutex` of the pipe. -/
def NotMutex (s : Console) (id : SemId) : Prop := ∀ p ∈ s.keyboardBuffer, id ≠ p.semId .readMutex

theorem notMutex_of_not_private {n : Nat} (h : s.isPrivate n = false) : s.NotMutex (.user n) := by
  intro p hp heq
  have hn : n = p.sem .readMutex := SemId.user.inj heq
  rw [isPrivate, show s.keyboardBuffer = some p from hp] at h
  simp [hn] at h

namespace Quiet

/-- The pipe stays, and `readMutex` is not touched. -/
theorem congr (h : Quiet s) (hinside : t.inside = s.inside)
    (hbuffer : t.keyboardBuffer = s.keyboardBuffer) (hk : Spares s.NotMutex s.kernel t.kernel) :
    Quiet t where
  reading := by
    rw [hinside]
    exact h.reading
  mutex p hp := by
    rw [hbuffer] at hp
    rw [KbdPipe.Free, hk.sem _ fun hnot ↦ hnot p hp rfl]
    exact h.mutex p hp
  fresh p hp x := by
    rw [hbuffer] at hp
    exact Nat.lt_of_lt_of_le (h.fresh p hp x) hk.nextSem

/-- A call on the pipe. -/
theorem setPipe (h : Quiet s) (hp : p ∈ s.keyboardBuffer) (hsem : p'.sem = p.sem)
    (hk : Spares p.Own s.kernel k') (hfree : p'.Free k') : Quiet (s.setPipe p' k') where
  reading := h.reading
  mutex q hq := by
    obtain rfl := Option.some.inj hq
    exact hfree
  fresh q hq x := by
    obtain rfl := Option.some.inj hq
    rw [hsem]
    exact Nat.lt_of_lt_of_le (h.fresh p hp x) hk.nextSem

theorem setInside (h : Quiet s) {pid : Int} {i : Inside}
    (hi : ∀ fd count x, i = .reading fd count x → 0 < count ∧ x = .dataAvailable) :
    Quiet (s.setInside pid i) where
  reading q fd count x hq := by
    simp only [Console.setInside] at hq
    split at hq
    · exact hi fd count x hq
    · exact h.reading q fd count x hq
  mutex := h.mutex
  fresh := h.fresh

theorem setKernel (h : Quiet s) (hk : Spares s.NotMutex s.kernel k') : Quiet (s.setKernel k') :=
  h.congr rfl rfl hk

/-- A process is stopped. -/
theorem stop (h : Quiet s) {x : PipeSem} {i : Inside}
    (hi : ∀ fd count x, i = .reading fd count x → 0 < count ∧ x = .dataAvailable)
    (ht : s.stop p x i = some t) : Quiet t := by
  obtain ⟨k', hk', rfl⟩ := Option.map_eq_some_iff.mp ht
  have hcont : Spares s.NotMutex s.kernel
      (s.kernel.setCont s.kernel.getCurrentPID (.semWait (p.sem x))) := .modify _
  exact (h.setKernel (hcont.trans (schedule_spares hk'))).setInside hi

theorem outside_reading : ∀ fd count x, Inside.outside = .reading fd count x →
    0 < count ∧ x = .dataAvailable := fun _ _ _ heq ↦ by cases heq

theorem interrupted_reading (c : UInt8) (y : PipeSem) (back : Cont) : ∀ fd count x,
    Inside.interrupted c y back = .reading fd count x → 0 < count ∧ x = .dataAvailable :=
  fun _ _ _ heq ↦ by cases heq

/-! ### What a process does -/

theorem finishRead (h : Quiet s) (hp : p ∈ s.keyboardBuffer) {fd count : Nat} {eof : Bool}
    {k : Kernel} {r : KbdPipe.Result (List UInt8 × Bool)} (hk : Spares p.Own s.kernel k)
    (hr : KbdPipe.ReadsFd count eof p k r) (ht : s.finishRead fd count r = some t) : Quiet t := by
  have hpipe : Quiet (s.setPipe r.1 r.2.1) :=
    h.setPipe hp hr.sem (hk.trans hr.gentle.toSpares) hr.free
  have hout : Quiet ((s.setPipe r.1 r.2.1).setInside s.kernel.getCurrentPID .outside) :=
    hpipe.setInside outside_reading
  unfold Console.finishRead at ht
  dsimp only at ht
  split at ht
  next x hx =>
      refine hout.stop (fun fd' count' x' heq ↦ ?_) ht
      obtain ⟨-, rfl, rfl⟩ := Inside.reading.inj heq
      exact ⟨hr.counted _ hx, hr.stopped _ hx⟩
  next out eof' _ =>
      obtain rfl := Option.some.inj ht
      exact hout.congr rfl rfl (.refl _)

/-- The kernel in which a process goes on that was stopped in the pipe. -/
theorem returned_spares (ids : SemId → Prop) (k : Kernel) (id : SemId) (cur : Int) (back : Cont) :
    Spares ids k ((k.returnFrom id cur).setCont cur back) :=
  ((Undisturbed.returnFrom k id cur).trans (.setCont _ cur back)).toSpares

/-- A process that was stopped finds `readMutex` as it is. -/
theorem returned_free {k : Kernel} (h : p.Free k) (x : PipeSem) (cur : Int) (back : Cont) :
    p.Free ((k.returnFrom (p.semId x) cur).setCont cur back) := by
  have hsem := (returned_spares (fun _ ↦ False) k (p.semId x) cur back).sem
    (p.semId .readMutex) id
  rw [KbdPipe.Free, hsem]
  exact h

theorem resume (h : Quiet s) {cur : Int} (ht : s.resume cur = some t) : Quiet t := by
  unfold Console.resume at ht
  split at ht
  · cases ht
  next p hp =>
  dsimp only at ht
  split at ht
  · cases ht
  next fd count x hin =>
      obtain ⟨hcount, rfl⟩ := h.reading cur fd count x hin
      obtain ⟨r, hr, ht⟩ := Option.bind_eq_some_iff.mp ht
      have hreads := KbdPipe.continueReadFd_reads
        (returned_free (h.mutex p hp) .dataAvailable cur .user) hcount hr
      exact h.finishRead hp (returned_spares _ _ _ _ _) hreads ht
  next c x back hin =>
      obtain ⟨r, hr, ht⟩ := Option.bind_eq_some_iff.mp ht
      have hkept := KbdPipe.continueWrite_kept hr
      have hpipe : Quiet (s.setPipe r.1 r.2.1) := h.setPipe hp hkept.sem
        ((returned_spares _ _ _ _ _).trans hkept.gentle.toSpares)
        (hkept.free (returned_free (h.mutex p hp) x cur back))
      have hout : Quiet ((s.setPipe r.1 r.2.1).setInside cur .outside) :=
        hpipe.setInside outside_reading
      split at ht
      next y _ => exact hout.stop (interrupted_reading c y back) ht
      next => exact Option.some.inj ht ▸ hout

/-! ### What an interrupt does -/

variable {scancode : UInt8} {closed : Int → List Nat} {r : Console × Option PipeSem × UInt8}

theorem fileWrite (h : Quiet s) {c : UInt8} {r : Console × Option PipeSem}
    (hr : s.fileWrite c = some r) : Quiet r.1 := by
  unfold Console.fileWrite at hr
  split at hr
  · exact Option.some.inj hr ▸ h
  next p hp =>
      obtain ⟨w, hw, rfl⟩ := Option.map_eq_some_iff.mp hr
      have hkept := KbdPipe.pipeWrite_kept hw
      exact h.setPipe hp hkept.sem hkept.gentle.toSpares (hkept.free (h.mutex p hp))

/-- Ctrl+C, when no descriptor that is closed posts a semaphore of the pipe. -/
theorem ctrlC (h : Quiet s) (hclosed : ∀ pid, ∀ n ∈ closed pid, s.isPrivate n = false) :
    Quiet (s.forEachInFG (killFromIsr closed)) := by
  refine (forEachInFG_rule (I := fun t ↦ Quiet t ∧ t.keyboardBuffer = s.keyboardBuffer)
    (fun pid t ht ↦ ?_) ⟨h, rfl⟩).1
  have hnot : t.NotMutex = s.NotMutex := by
    unfold NotMutex
    rw [ht.2]
  have hkill : Undisturbed t.NotMutex t.kernel (t.kernel.killFromIsr pid (closed pid)) := by
    rw [hnot]
    refine .killFromIsr ?_ ?_ fun n hn ↦ notMutex_of_not_private (hclosed pid n hn)
    · exact fun _ _ _ heq ↦ by cases heq
    · exact fun _ _ _ heq ↦ by cases heq
  exact ⟨ht.1.setKernel hkill.toSpares, ht.2⟩

theorem requestEof (h : Quiet s) : Quiet (s.forEachInFG requestEofOnKbdFg) := by
  refine forEachInFG_rule (fun pid t ht ↦ ?_) h
  unfold requestEofOnKbdFg
  split
  · exact ht.congr rfl rfl (.refl _)
  · exact ht

theorem keyboardInterrupt (h : Quiet s)
    (hclosed : ∀ pid, ∀ n ∈ closed pid, s.isPrivate n = false)
    (hr : s.keyboardInterrupt scancode closed = some r) : Quiet r.1 := by
  rcases hkey : s.keyboard.key scancode with ⟨key, keyboard⟩
  have hkb : Quiet { s with keyboard := keyboard } := h.congr rfl rfl (.refl _)
  have hctrlC : Quiet (forEachInFG (killFromIsr closed) { s with keyboard := keyboard }) :=
    hkb.ctrlC hclosed
  simp only [Console.keyboardInterrupt, hkey] at hr
  split at hr
  · exact Option.some.inj hr ▸ hkb
  split at hr
  · rw [← Option.some.inj hr]
    dsimp only
    exact hctrlC
  split at hr
  · obtain ⟨w, hw, rfl⟩ := Option.map_eq_some_iff.mp hr
    exact hkb.requestEof.fileWrite hw
  · obtain ⟨w, hw, rfl⟩ := Option.map_eq_some_iff.mp hr
    exact hkb.fileWrite hw

theorem irq01Handler (h : Quiet s) {back : Cont}
    (hclosed : ∀ pid, ∀ n ∈ closed pid, s.isPrivate n = false)
    (ht : s.irq01Handler scancode closed back = some t) : Quiet t := by
  obtain ⟨r, hr, ht⟩ := Option.bind_eq_some_iff.mp ht
  have hquiet := h.keyboardInterrupt hclosed hr
  split at ht
  · exact hquiet.stop (interrupted_reading _ _ back) ht
  · exact Option.some.inj ht ▸ hquiet

/-! ### Every event -/

/-- An event of the kernel that is not about the pipe. -/
theorem kernel (h : Quiet s) {e : Kernel.Event} (hout : s.outside e = true)
    (ht : s.kernel.step e = some k') : Quiet (s.setKernel k') := by
  have hnamed : ∀ n ∈ e.named, s.isPrivate n = false := by
    intro n hn
    cases e <;> simp_all [Event.named, Console.outside]
  have hk := step_spares ht
  refine h.setKernel ⟨fun id hid ↦ hk.sem id fun htouch ↦ hid fun p hp heq ↦ ?_, hk.nextSem⟩
  subst heq
  rcases htouch (p.sem .readMutex) rfl with hmem | hle
  · exact notMutex_of_not_private (hnamed _ hmem) p hp rfl
  · exact absurd (h.fresh p hp .readMutex) (Nat.not_lt.mpr hle)

theorem connect (h : Quiet s) (cur : Int) (data : Nat → UInt8) : Quiet (s.connect cur data) where
  reading := h.reading
  mutex p hp := by
    obtain rfl := Option.some.inj hp
    simp [KbdPipe.Free, KbdPipe.semId, newPipe, Console.connect, Console.setPipe, Console.setFd,
      Kernel.setSem, SemRec.new, newSemaphore]
  fresh p hp x := by
    obtain rfl := Option.some.inj hp
    have hnext : (s.connect cur data).kernel.nextSem = s.kernel.nextSem + 4 := rfl
    rw [hnext]
    cases x <;> simp only [newPipe] <;> omega

theorem startNewProcessWithFds (h : Quiet s) (cur : Int)
    (overrides : List (Option Nat × Nat)) :
    Quiet (s.startNewProcessWithFds cur overrides) := by
  unfold Console.startNewProcessWithFds
  split
  next pid k hpid hk =>
      have hcreated : Spares s.NotMutex s.kernel k := startNewProcess_spares hk
      have hquiet : Quiet { s with
          kernel := k
          fds := fun q fd ↦ if q = pid then s.fds cur fd else s.fds q fd
          eofRequests := fun q fd ↦ if q = pid then false else s.eofRequests q fd
          inside := fun q ↦ if q = pid then .outside else s.inside q } := by
        refine Quiet.congr (s := s.setInside pid .outside) ?_ rfl rfl hcreated
        exact h.setInside outside_reading
      generalize Console.mk _ _ _ _ _ _ = u at hquiet ⊢
      induction overrides generalizing u with
      | nil => exact hquiet
      | cons o overrides ih =>
          refine ih _ ?_
          unfold override
          split
          · exact hquiet.congr rfl rfl (.refl _)
          · split
            · exact hquiet
            · exact hquiet.congr rfl rfl (.refl _)
  · exact h

/-- **Nobody holds `readMutex` across a blocking point**: every event keeps it. -/
theorem step (h : Quiet s) {e : Event} (ht : s.step e = some t) : Quiet t := by
  cases e with
  | kernel e =>
      simp only [Console.step] at ht
      split at ht
      next hout =>
          obtain ⟨k', hk', rfl⟩ := Option.map_eq_some_iff.mp ht
          exact h.kernel hout hk'
      · cases ht
  | connect data =>
      simp only [Console.step] at ht
      split at ht
      · cases ht
      · obtain ⟨c, -, rfl⟩ := Option.map_eq_some_iff.mp ht
        exact h.connect _ _
  | create overrides =>
      obtain ⟨c, -, ht⟩ := Option.bind_eq_some_iff.mp ht
      obtain ⟨_, -, rfl⟩ := Option.map_eq_some_iff.mp ht
      exact h.startNewProcessWithFds _ _
  | dup oldFd newFd =>
      obtain ⟨c, -, rfl⟩ := Option.map_eq_some_iff.mp ht
      unfold override
      dsimp only
      split
      · exact h
      · exact h.congr rfl rfl (.refl _)
  | close fd =>
      obtain ⟨c, -, rfl⟩ := Option.map_eq_some_iff.mp ht
      exact h.congr rfl rfl (.refl _)
  | reopen fd newFd =>
      obtain ⟨c, -, rfl⟩ := Option.map_eq_some_iff.mp ht
      exact h.congr rfl rfl (.refl _)
  | read fd count =>
      obtain ⟨c, -, ht⟩ := Option.bind_eq_some_iff.mp ht
      split at ht
      · split at ht
        · cases ht
        next p hp =>
            obtain ⟨r, hr, ht⟩ := Option.bind_eq_some_iff.mp ht
            exact h.finishRead hp (.refl _) (KbdPipe.readFd_reads (h.mutex p hp) hr) ht
      · cases ht
  | resume =>
      obtain ⟨c, -, ht⟩ := Option.bind_eq_some_iff.mp ht
      exact h.resume ht
  | keyboard scancode closed =>
      have hclosed : ∀ pid, ∀ n ∈ (closed pid).filter fun n ↦ !s.isPrivate n,
          s.isPrivate n = false := by
        intro pid n hn
        simpa using (List.mem_filter.mp hn).2
      simp only [Console.step] at ht
      split at ht
      · split at ht
        · exact h.irq01Handler hclosed ht
        · cases ht
      · split at ht
        · exact h.irq01Handler hclosed ht
        · cases ht

theorem boot : Quiet Console.boot where
  reading := fun _ _ _ _ h ↦ by cases h
  mutex := fun _ h ↦ by cases h
  fresh := fun _ h ↦ by cases h

/-- `readMutex` is free between any two events of a run. -/
theorem of_reach (h : Reach Console.step (fun _ _ ↦ True) Console.boot s) : Quiet s :=
  h.invariant boot fun _ _ _ hu _ ht ↦ hu.step ht

end Quiet

end Console

end BareBones.Drivers
