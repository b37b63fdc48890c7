import BareBones.Semaphores.Semaphore

/-!
# Named semaphores

The model of `semaphores/sharedSemaphores.c`: a table of slots, each with a name, a
semaphore and a reference count, and the four operations on it.  Every operation looks its
name up in the slots that are in use; a slot that is closed keeps the bytes of its name,
and a new name is copied over them.

A `char` array is the list of its bytes, and what lies behind its end reads as zero.  A
name that does not fit would make the array of its slot longer than `SEM_NAME_MAX`; a
`SemName` is a name that fits.  The null pointer is refused like the empty name, and stands
for the empty list here.

Semaphores are objects of the heap: `sems` gives the object that a pointer points to, and
no pointer is used twice.  A step that follows a pointer to an object that has been freed
is `none`.  A reference count is an `int`, and counts on from `-2 ^ 31` where it overflows, as the
addition of the processor does.  The spinlock around the table is always free when an operation
starts, since system calls run with interrupts off, and is left out.
-/

namespace BareBones.Semaphores

open BareBones.Process Scheduler

/-- `MAX_SHARED_SEMS` -/
def MAX_SHARED_SEMS : Nat := 64

/-- `SEM_NAME_MAX` -/
def SEM_NAME_MAX : Nat := 32

/-! ## Strings -/

/-- `strcmp` of `lib.c` -/
def strcmp : List UInt8 → List UInt8 → Int
  | [], p2 => -(p2.headD 0).toNat
  | c1 :: p1, p2 =>
      if c1 = 0 then c1.toNat - (p2.headD 0).toNat
      else if c1 = p2.headD 0 then strcmp p1 p2.tail
      else c1.toNat - (p2.headD 0).toNat

/-- `strcpy` of `lib.c`: the array `dest` afterwards. -/
def strcpy : List UInt8 → List UInt8 → List UInt8
  | dest, [] => 0 :: dest.tail
  | dest, c :: src => if c = 0 then 0 :: dest.tail else c :: strcpy dest.tail src

/-- The string in an array: the bytes before the first zero. -/
def cstr (buf : List UInt8) : List UInt8 := buf.takeWhile (· ≠ 0)

theorem cstr_cons (c : UInt8) (buf : List UInt8) :
    cstr (c :: buf) = if c = 0 then [] else c :: cstr buf := by
  by_cases hc : c = 0
  · simp [cstr, hc]
  · simp [cstr, hc]

/-- The first byte of an array tells whether its string is empty. -/
theorem headD_eq_zero (buf : List UInt8) : buf.headD 0 = 0 ↔ cstr buf = [] := by
  cases buf with
  | nil => simp [cstr]
  | cons c buf =>
      rw [cstr_cons]
      by_cases hc : c = 0
      · simp [hc]
      · simp [hc]

theorem cstr_eq_headD_cons {buf : List UInt8} (h : buf.headD 0 ≠ 0) :
    cstr buf = buf.headD 0 :: cstr buf.tail := by
  cases buf with
  | nil => exact absurd rfl h
  | cons c buf =>
      rw [List.headD_cons] at h ⊢
      rw [cstr_cons, if_neg h, List.tail_cons]

/-- **`strcmp` compares strings.** -/
theorem strcmp_eq_zero (p1 p2 : List UInt8) : strcmp p1 p2 = 0 ↔ cstr p1 = cstr p2 := by
  have hzero : ∀ c : UInt8, (c.toNat : Int) = 0 ↔ c = 0 := fun c ↦ by
    rw [Int.natCast_eq_zero, ← UInt8.toNat_inj]
    rfl
  induction p1 generalizing p2 with
  | nil =>
      rw [strcmp, Int.neg_eq_zero, hzero, headD_eq_zero]
      exact eq_comm
  | cons c1 p1 ih =>
      rw [strcmp, cstr_cons]
      by_cases hc1 : c1 = 0
      · rw [if_pos hc1, if_pos hc1, hc1, show ((0 : UInt8).toNat : Int) = 0 from rfl, Int.zero_sub,
          Int.neg_eq_zero, hzero, headD_eq_zero]
        exact eq_comm
      rw [if_neg hc1, if_neg hc1]
      by_cases hc : c1 = p2.headD 0
      · rw [if_pos hc, cstr_eq_headD_cons fun h ↦ hc1 (hc.trans h), ← hc, List.cons_inj_right]
        exact ih p2.tail
      rw [if_neg hc]
      constructor
      · intro h
        refine absurd (UInt8.toNat_inj.mp ?_) hc
        omega
      · intro h
        cases p2 with
        | nil => cases h
        | cons c2 p2 =>
            rw [cstr_cons] at h
            split at h
            · cases h
            · exact absurd (List.cons_eq_cons.mp h).1 hc

/-- **`strcpy` copies strings**, and leaves what is behind the copy as it was. -/
theorem cstr_strcpy (dest src : List UInt8) : cstr (strcpy dest src) = cstr src := by
  induction src generalizing dest with
  | nil => rw [strcpy, cstr_cons, if_pos rfl, cstr, List.takeWhile_nil]
  | cons c src ih =>
      rw [strcpy, cstr_cons]
      split
      · rw [cstr_cons, if_pos rfl]
      next hc => rw [cstr_cons, if_neg hc, ih]

/-- A string that is shorter than the array fits. -/
theorem length_strcpy {dest src : List UInt8} (h : (cstr src).length < dest.length) :
    (strcpy dest src).length = dest.length := by
  induction src generalizing dest with
  | nil =>
      rw [strcpy, List.length_cons, List.length_tail]
      omega
  | cons c src ih =>
      rw [cstr_cons] at h
      rw [strcpy]
      split
      · rw [List.length_cons, List.length_tail]
        omega
      next hc =>
          rw [if_neg hc, List.length_cons] at h
          rw [List.length_cons, ih (by rw [List.length_tail]; omega), List.length_tail]
          omega

/-- A name that a slot can hold. -/
structure SemName where
  bytes : List UInt8
  nonempty : bytes ≠ []
  nonzero : 0 ∉ bytes
  short : bytes.length < SEM_NAME_MAX
deriving DecidableEq

/-- The argument of a system call that stands for the name. -/
def SemName.buffer (n : SemName) : List UInt8 := n.bytes ++ [0]

@[simp] theorem SemName.cstr_buffer (n : SemName) : cstr n.buffer = n.bytes := by
  have hbytes : ∀ c ∈ n.bytes, decide (c ≠ 0) = true := by
    intro c hc
    simp only [ne_eq, decide_eq_true_eq]
    rintro rfl
    exact n.nonzero hc
  rw [buffer, cstr, List.takeWhile_append_of_pos hbytes, List.takeWhile_cons_of_neg (by simp),
    List.append_nil]

/-- The name `s`. -/
def nameS : SemName := ⟨[115], by decide, by decide, by decide⟩

/-! ## The table -/

/-- `SharedSem` -/
structure SharedSem where
  used : Bool
  name : List UInt8
  sem : Option Nat
  refCount : Int32
deriving DecidableEq, Repr

/-- The table, the semaphores of the heap and the scheduler. -/
structure Shared (σ : Type*) where
  table : Nat → SharedSem
  sems : Nat → Option Sem
  /-- The pointers from here on have not been used. -/
  nextSem : Nat
  sched : σ

namespace Shared

variable {σ : Type*} [Scheduler σ]

/-- Overwrite a slot. -/
def setEntry (s : Shared σ) (idx : Nat) (e : SharedSem) : Shared σ :=
  { s with table := fun i ↦ if i = idx then e else s.table i }

/-- Overwrite a semaphore. -/
def setSem (s : Shared σ) (p : Nat) (sem : Option Sem) : Shared σ :=
  { s with sems := fun q ↦ if q = p then sem else s.sems q }

/-- `findByName` -/
def findByName (s : Shared σ) (name : List UInt8) : Option Nat :=
  (List.range MAX_SHARED_SEMS).find? fun i ↦
    (s.table i).used && strcmp (s.table i).name name == 0

/-- `findFreeSlot` -/
def findFreeSlot (s : Shared σ) : Option Nat :=
  (List.range MAX_SHARED_SEMS).find? fun i ↦ !(s.table i).used

/-- `newSemaphore`, if there is room in the heap. -/
def newSemaphore (initialValue : Int) (room : Bool) (s : Shared σ) : Option Nat × Shared σ :=
  if room then
    (some s.nextSem, { s.setSem s.nextSem (some (Semaphores.newSemaphore initialValue)) with
      nextSem := s.nextSem + 1 })
  else (none, s)

/-- `freeSemaphore` -/
def freeSemaphore (sem : Option Nat) (s : Shared σ) : Option (Shared σ) :=
  match sem with
  | none => some s
  | some p =>
      match s.sems p with
      | none => none
      | some r => if r.blockedQueue ≠ [] then some s else some (s.setSem p none)

/-- `sharedSemOpen` -/
def sharedSemOpen (name : List UInt8) (initialValue : Int) (room : Bool) (s : Shared σ) :
    Int × Shared σ :=
  if name.headD 0 = 0 then (-1, s)
  else
    match s.findByName name with
    | some idx =>
        (0, s.setEntry idx { s.table idx with refCount := (s.table idx).refCount + 1 })
    | none =>
        match s.findFreeSlot with
        | none => (-1, s)
        | some idx =>
            match s.newSemaphore initialValue room with
            | (none, s) => (-1, s)
            | (some p, s) => (0, s.setEntry idx {
                used := true
                name := strcpy (s.table idx).name name
                sem := some p
                refCount := 1 })

/-- `sharedSemClose` -/
def sharedSemClose (name : List UInt8) (s : Shared σ) : Option (Int × Shared σ) :=
  if name.headD 0 = 0 then some (-1, s)
  else
    match s.findByName name with
    | none => some (-1, s)
    | some idx =>
        let e := { s.table idx with refCount := (s.table idx).refCount - 1 }
        if e.refCount ≤ 0 then
          (freeSemaphore e.sem (s.setEntry idx { e with used := false, sem := none })).map (0, ·)
        else some (0, s.setEntry idx e)

/-- The semaphore of a name, in `sharedSemWait` and `sharedSemPost`. -/
def semOf (s : Shared σ) (name : List UInt8) : Option Nat :=
  match s.findByName name with
  | some idx => (s.table idx).sem
  | none => none

/-- `sharedSemWait`, up to the call of the scheduler: a caller that is blocked returns when
it runs again. -/
def sharedSemWait (name : List UInt8) (s : Shared σ) : Option (Int × Shared σ) :=
  if name.headD 0 = 0 then some (-1, s)
  else
    match s.semOf name with
    | none => some (-1, s)
    | some p =>
        match s.sems p with
        | none => none
        | some sem =>
            let (sem, sched, _) := semWait sem s.sched
            some (0, { s.setSem p (some sem) with sched := sched })

/-- `sharedSemPost` -/
def sharedSemPost (name : List UInt8) (s : Shared σ) : Option (Int × Shared σ) :=
  if name.headD 0 = 0 then some (-1, s)
  else
    match s.semOf name with
    | none => some (-1, s)
    | some p =>
        match s.sems p with
        | none => none
        | some sem =>
            let (sem, sched) := semPost sem s.sched
            some (0, { s.setSem p (some sem) with sched := sched })

/-- A system call. -/
inductive Call
  /-- `room` tells whether `newSemaphore` finds room in the heap. -/
  | sharedSemOpen (name : SemName) (initialValue : Int) (room : Bool)
  | sharedSemClose (name : SemName)
  | sharedSemWait (name : SemName)
  | sharedSemPost (name : SemName)
deriving DecidableEq

/-- A system call, and its result. -/
def exec (s : Shared σ) : Call → Option (Int × Shared σ)
  | .sharedSemOpen n initialValue room => some (s.sharedSemOpen n.buffer initialValue room)
  | .sharedSemClose n => s.sharedSemClose n.buffer
  | .sharedSemWait n => s.sharedSemWait n.buffer
  | .sharedSemPost n => s.sharedSemPost n.buffer

/-- The empty table. -/
def init (sched : σ) : Shared σ where
  table := fun _ ↦ ⟨false, List.replicate SEM_NAME_MAX 0, none, 0⟩
  sems := fun _ ↦ none
  nextSem := 0
  sched := sched

end Shared

end BareBones.Semaphores
