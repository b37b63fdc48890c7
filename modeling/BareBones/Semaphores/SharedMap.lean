import BareBones.Lib.SlotMap
import BareBones.Semaphores.SharedSemaphores

/-!
# The operations on named semaphores

`Tabled s m` says that the table of `s` stands for the map `m` from names to pointers and
reference counts, that every pointer in it points to a semaphore, and that no two names
share one.  Each operation has one specification in terms of `m`; these are all that the
other modules use of the table.
-/

namespace BareBones.Semaphores

open BareBones.Lib BareBones.Process Scheduler

namespace Shared

variable {σ : Type*} {s t : Shared σ} {m : Finmap fun _ : List UInt8 ↦ Nat × Int}
  {n n' : List UInt8} {i p p' : Nat} {c : Int} {c' : Int32}

/-- The name, the pointer and the count of a slot in use. -/
def view (s : Shared σ) (i : Nat) : Option (List UInt8 × (Nat × Int)) :=
  if (s.table i).used then
    (s.table i).sem.map fun p ↦ (cstr (s.table i).name, (p, (s.table i).refCount.toInt))
  else none

/-- The table stands for the map `m`. -/
structure Tabled (s : Shared σ) (m : Finmap fun _ : List UInt8 ↦ Nat × Int) : Prop where
  represents : Represents MAX_SHARED_SEMS s.view m
  length : ∀ i < MAX_SHARED_SEMS, (s.table i).name.length = SEM_NAME_MAX
  pointer : ∀ i < MAX_SHARED_SEMS, (s.table i).used = true → (s.table i).sem ≠ none
  names : ∀ n ∈ m, n ≠ [] ∧ n.length < SEM_NAME_MAX
  live : ∀ n p c, m.lookup n = some (p, c) →
    1 ≤ c ∧ p < s.nextSem ∧ ∃ sem, s.sems p = some sem
  unshared : ∀ n n' p c c', m.lookup n = some (p, c) → m.lookup n' = some (p, c') → n = n'

/-! ## Slots -/

theorem view_eq_some : s.view i = some (n, (p, c)) ↔ (s.table i).used = true ∧
    (s.table i).sem = some p ∧ cstr (s.table i).name = n ∧ (s.table i).refCount.toInt = c := by
  rw [view]
  split
  next hused =>
      rw [Option.map_eq_some_iff]
      constructor
      · rintro ⟨q, hq, heq⟩
        cases heq
        exact ⟨hused, hq, rfl, rfl⟩
      · rintro ⟨-, hp, rfl, rfl⟩
        exact ⟨p, hp, rfl⟩
  next hused =>
      constructor
      · intro h
        cases h
      · rintro ⟨h, -⟩
        exact absurd h hused

theorem view_eq_none (h : (s.table i).used = true → (s.table i).sem ≠ none) :
    s.view i = none ↔ (s.table i).used = false := by
  rw [view]
  split
  next hused => simp [hused, h hused]
  next hused => simpa using hused

theorem view_setEntry_other {e : SharedSem} {j : Nat} (h : j ≠ i) :
    (s.setEntry i e).view j = s.view j := by
  simp [view, setEntry, h]

/-- **A name is found in the slot that the map knows it by.** -/
theorem Tabled.findByName (h : Tabled s m) (n : SemName) :
    (∃ i p c, s.findByName n.buffer = some i ∧ i < MAX_SHARED_SEMS ∧
        s.view i = some (n.bytes, (p, c)) ∧ m.lookup n.bytes = some (p, c)) ∨
      (s.findByName n.buffer = none ∧ m.lookup n.bytes = none) := by
  have hP : ∀ i < MAX_SHARED_SEMS,
      ((s.table i).used && strcmp (s.table i).name n.buffer == 0) = true ↔
        ∃ v, s.view i = some (n.bytes, v) := by
    intro i hi
    rw [Bool.and_eq_true, beq_iff_eq, strcmp_eq_zero, SemName.cstr_buffer]
    constructor
    · rintro ⟨hused, hname⟩
      obtain ⟨p, hp⟩ := Option.ne_none_iff_exists'.mp (h.pointer i hi hused)
      exact ⟨(p, (s.table i).refCount.toInt), view_eq_some.mpr ⟨hused, hp, hname, rfl⟩⟩
    · rintro ⟨⟨p, c⟩, hv⟩
      obtain ⟨hused, -, hname, -⟩ := view_eq_some.mp hv
      exact ⟨hused, hname⟩
  rcases h.represents.find n.bytes hP with ⟨i, ⟨p, c⟩, hfind, hi, hv, hlookup⟩ | ⟨hfind, hlookup⟩
  · exact .inl ⟨i, p, c, hfind, hi, hv, hlookup⟩
  · exact .inr ⟨hfind, hlookup⟩

theorem Tabled.findFreeSlot (h : Tabled s m) :
    (∃ i, s.findFreeSlot = some i ∧ i < MAX_SHARED_SEMS ∧ s.view i = none ∧
        m.keys.card < MAX_SHARED_SEMS) ∨
      (s.findFreeSlot = none ∧ m.keys.card = MAX_SHARED_SEMS) := by
  refine h.represents.findFree fun i hi ↦ ?_
  rw [view_eq_none (h.pointer i hi), Bool.not_eq_true']

theorem buffer_ne (n : SemName) : ¬n.buffer.headD 0 = 0 := by
  rw [headD_eq_zero, SemName.cstr_buffer]
  exact n.nonempty

/-! ## The invariant -/

/-- The scheduler does not matter. -/
theorem Tabled.setSched (h : Tabled s m) (sched : σ) : Tabled { s with sched := sched } m :=
  ⟨h.represents, h.length, h.pointer, h.names, h.live, h.unshared⟩

/-- A semaphore is overwritten. -/
theorem Tabled.setSem (h : Tabled s m) (p : Nat) {sem : Option Sem}
    (hsem : sem = none → ∀ n c, m.lookup n ≠ some (p, c)) : Tabled (s.setSem p sem) m := by
  refine ⟨h.represents, h.length, h.pointer, h.names, fun n q c hq ↦ ?_, h.unshared⟩
  obtain ⟨hc, hlt, r, hr⟩ := h.live n q c hq
  refine ⟨hc, hlt, ?_⟩
  rw [Shared.setSem]
  by_cases hqp : q = p
  · subst hqp
    simp only [if_true]
    cases sem with
    | none => exact absurd hq (hsem rfl n c)
    | some sem => exact ⟨sem, rfl⟩
  · simp only [if_neg hqp]
    exact ⟨r, hr⟩

/-- A slot is overwritten, and the map changes as its `view` does. -/
theorem Tabled.setEntry (h : Tabled s m) {e : SharedSem}
    {m' : Finmap fun _ : List UInt8 ↦ Nat × Int}
    (hrep : Represents MAX_SHARED_SEMS (s.setEntry i e).view m')
    (hlength : e.name.length = SEM_NAME_MAX) (hpointer : e.used = true → e.sem ≠ none)
    (hlookup : ∀ n p c, m'.lookup n = some (p, c) → ∃ c', m.lookup n = some (p, c'))
    (hpos : ∀ n p c, m'.lookup n = some (p, c) → 1 ≤ c) : Tabled (s.setEntry i e) m' := by
  refine ⟨hrep, fun j hj ↦ ?_, fun j hj hused ↦ ?_, fun n hn ↦ ?_, fun n p c hp ↦ ?_, ?_⟩
  · by_cases hji : j = i
    · simp only [Shared.setEntry, if_pos hji, hlength]
    · simp only [Shared.setEntry, if_neg hji, h.length j hj]
  · by_cases hji : j = i
    · simp only [Shared.setEntry, if_pos hji] at hused ⊢
      exact hpointer hused
    · simp only [Shared.setEntry, if_neg hji] at hused ⊢
      exact h.pointer j hj hused
  · obtain ⟨⟨p, c⟩, hp⟩ := Finmap.mem_iff.mp hn
    obtain ⟨c', hp'⟩ := hlookup n p c hp
    exact h.names n (Finmap.mem_of_lookup_eq_some hp')
  · obtain ⟨c', hp'⟩ := hlookup n p c hp
    exact ⟨hpos n p c hp, (h.live n p c' hp').2⟩
  · intro n n' p c c' hp hp'
    obtain ⟨d, hd⟩ := hlookup n p c hp
    obtain ⟨d', hd'⟩ := hlookup n' p c' hp'
    exact h.unshared n n' p d d' hd hd'

/-- The count of a name changes. -/
theorem Tabled.setCount (h : Tabled s m) (hi : i < MAX_SHARED_SEMS)
    (hv : s.view i = some (n, (p, c))) (hpos : 1 ≤ c'.toInt) :
    Tabled (s.setEntry i { s.table i with refCount := c' }) (m.insert n (p, c'.toInt)) := by
  obtain ⟨hused, hp, hname, hc⟩ := view_eq_some.mp hv
  have hm := (h.represents.lookup n (p, c)).mpr ⟨i, hi, hv⟩
  refine h.setEntry (h.represents.update hi hv ?_ fun j _ hji ↦ view_setEntry_other hji)
    (h.length i hi) (fun _ ↦ h.pointer i hi hused) ?_ ?_
  · rw [view_eq_some]
    simp [Shared.setEntry, hused, hp, hname]
  · intro n' p' d hd
    by_cases hn : n' = n
    · subst hn
      rw [Finmap.lookup_insert] at hd
      cases hd
      exact ⟨c, hm⟩
    · rw [Finmap.lookup_insert_of_ne _ hn] at hd
      exact ⟨d, hd⟩
  · intro n' p' d hd
    by_cases hn : n' = n
    · subst hn
      rw [Finmap.lookup_insert] at hd
      cases hd
      exact hpos
    · rw [Finmap.lookup_insert_of_ne _ hn] at hd
      exact (h.live n' p' d hd).1

/-- The slot of a name is closed. -/
theorem Tabled.clear (h : Tabled s m) (hi : i < MAX_SHARED_SEMS)
    (hv : s.view i = some (n, (p, c))) :
    Tabled (s.setEntry i { s.table i with refCount := c', used := false, sem := none })
      (m.erase n) := by
  have hlookup : ∀ n' v, (m.erase n).lookup n' = some v → m.lookup n' = some v := by
    intro n' v hd
    by_cases hn : n' = n
    · subst hn
      rw [Finmap.lookup_erase] at hd
      cases hd
    · rwa [Finmap.lookup_erase_ne hn] at hd
  refine h.setEntry (h.represents.erase hi hv ?_ fun j _ hji ↦ view_setEntry_other hji)
    (h.length i hi) (fun hused ↦ ?_) (fun n' p' d hd ↦ ⟨d, hlookup n' _ hd⟩)
    fun n' p' d hd ↦ (h.live n' p' d (hlookup n' _ hd)).1
  · simp [view, Shared.setEntry]
  · cases hused

/-- A name gets a slot and a new semaphore. -/
theorem Tabled.fill (h : Tabled s m) (n : SemName) (sem : Sem) (hi : i < MAX_SHARED_SEMS)
    (hv : s.view i = none) (hn : m.lookup n.bytes = none) :
    Tabled ({ s.setSem s.nextSem (some sem) with nextSem := s.nextSem + 1 }.setEntry i
        ⟨true, strcpy (s.table i).name n.buffer, some s.nextSem, 1⟩)
      (m.insert n.bytes (s.nextSem, 1)) := by
  have hlookup : ∀ n' p' d, (m.insert n.bytes (s.nextSem, 1)).lookup n' = some (p', d) →
      (n' = n.bytes ∧ p' = s.nextSem ∧ d = 1) ∨
        (n' ≠ n.bytes ∧ m.lookup n' = some (p', d) ∧ p' < s.nextSem) := by
    intro n' p' d hd
    by_cases hn' : n' = n.bytes
    · rw [hn', Finmap.lookup_insert] at hd
      cases hd
      exact .inl ⟨hn', rfl, rfl⟩
    · rw [Finmap.lookup_insert_of_ne _ hn'] at hd
      exact .inr ⟨hn', hd, (h.live n' p' d hd).2.1⟩
  have hlength : (strcpy (s.table i).name n.buffer).length = SEM_NAME_MAX := by
    rw [length_strcpy, h.length i hi]
    rw [SemName.cstr_buffer, h.length i hi]
    exact n.short
  constructor
  · refine h.represents.insert hi hv hn ?_ fun j _ hji ↦ view_setEntry_other hji
    rw [view_eq_some]
    simp [Shared.setEntry, cstr_strcpy]
  · intro j hj
    by_cases hji : j = i
    · simp only [Shared.setEntry, if_pos hji, hlength]
    · simp only [Shared.setEntry, if_neg hji]
      exact h.length j hj
  · intro j hj hused
    by_cases hji : j = i
    · simp [Shared.setEntry, if_pos hji]
    · simp only [Shared.setEntry, if_neg hji] at hused ⊢
      exact h.pointer j hj hused
  · intro n' hn'
    rcases Finmap.mem_insert.mp hn' with rfl | hn'
    · exact ⟨n.nonempty, n.short⟩
    · exact h.names n' hn'
  · intro n' p' d hd
    rcases hlookup n' p' d hd with ⟨-, rfl, rfl⟩ | ⟨-, hd, hlt⟩
    · exact ⟨le_rfl, Nat.lt_succ_self _, sem, by simp [Shared.setEntry, Shared.setSem]⟩
    · obtain ⟨hd', -, r, hr⟩ := h.live n' p' d hd
      exact ⟨hd', Nat.lt_succ_of_lt hlt, r, by simp [Shared.setEntry, Shared.setSem, hlt.ne, hr]⟩
  · intro n₁ n₂ p' d d' hd hd'
    rcases hlookup n₁ p' d hd with ⟨rfl, hp, -⟩ | ⟨-, hd, hlt⟩
    · rcases hlookup n₂ p' d' hd' with ⟨rfl, -, -⟩ | ⟨-, -, hlt⟩
      · rfl
      · exact absurd hp hlt.ne
    · rcases hlookup n₂ p' d' hd' with ⟨rfl, hp, -⟩ | ⟨-, hd', -⟩
      · exact absurd hp hlt.ne
      · exact h.unshared n₁ n₂ p' d d' hd hd'

/-- The empty table stands for the empty map. -/
theorem Tabled.init (sched : σ) : Tabled (Shared.init sched) ∅ := by
  refine ⟨.empty fun _ _ ↦ rfl, fun _ _ ↦ List.length_replicate, fun _ _ hused ↦ ?_, fun n hn ↦ ?_,
    fun n p c hp ↦ ?_, fun n _ p c _ hp ↦ ?_⟩
  · cases hused
  · exact absurd hn Finmap.notMem_empty
  · rw [Finmap.lookup_empty] at hp
    cases hp
  · rw [Finmap.lookup_empty] at hp
    cases hp

/-! ## The operations -/

/-- A count that does not overflow. -/
theorem toInt_add_one {x : Int32} (h : x.toInt < 2 ^ 31 - 1) : (x + 1).toInt = x.toInt + 1 := by
  have hlow := x.le_toInt
  rw [Int32.toInt_add, show (1 : Int32).toInt = 1 from rfl]
  exact Int.bmod_eq_of_le (by omega) (by omega)

theorem toInt_sub_one {x : Int32} (h : 1 ≤ x.toInt) : (x - 1).toInt = x.toInt - 1 := by
  have hhigh := x.toInt_lt
  rw [Int32.toInt_sub, show (1 : Int32).toInt = 1 from rfl]
  exact Int.bmod_eq_of_le (by omega) (by omega)

/-- `sharedSemOpen` counts one more user of the name, if the count does not overflow, or gives the
name a new semaphore, or fails. -/
theorem Tabled.sharedSemOpen (h : Tabled s m) (n : SemName) (v : Int) (room : Bool)
    (hfits : ∀ p c, m.lookup n.bytes = some (p, c) → c < 2 ^ 31 - 1) :
    (∃ p c t, m.lookup n.bytes = some (p, c) ∧ s.sharedSemOpen n.buffer v room = (0, t) ∧
        Tabled t (m.insert n.bytes (p, c + 1)) ∧ t.sems = s.sems ∧ t.sched = s.sched) ∨
      (∃ t, m.lookup n.bytes = none ∧ m.keys.card < MAX_SHARED_SEMS ∧ room = true ∧
        s.sharedSemOpen n.buffer v room = (0, t) ∧
        Tabled t (m.insert n.bytes (s.nextSem, 1)) ∧
        t.sems = (s.setSem s.nextSem (some (Semaphores.newSemaphore v))).sems ∧
        t.sched = s.sched) ∨
      (m.lookup n.bytes = none ∧ (m.keys.card = MAX_SHARED_SEMS ∨ room = false) ∧
        s.sharedSemOpen n.buffer v room = (-1, s)) := by
  rw [Shared.sharedSemOpen, if_neg (buffer_ne n)]
  rcases h.findByName n with ⟨i, p, c, hfind, hi, hv, hlookup⟩ | ⟨hfind, hlookup⟩
  · obtain ⟨-, -, -, rfl⟩ := view_eq_some.mp hv
    have hpos := (h.live _ _ _ hlookup).1
    have hcount := toInt_add_one (hfits _ _ hlookup)
    simp only [hfind]
    refine .inl ⟨p, _, _, hlookup, rfl, ?_, rfl, rfl⟩
    rw [← hcount]
    exact h.setCount hi hv (by omega)
  · simp only [hfind]
    rcases h.findFreeSlot with ⟨i, hfree, hi, hv, hcard⟩ | ⟨hfree, hcard⟩
    · simp only [hfree, newSemaphore]
      cases room with
      | false => exact .inr (.inr ⟨hlookup, .inr rfl, rfl⟩)
      | true =>
          exact .inr (.inl ⟨_, hlookup, hcard, rfl, rfl,
            h.fill n (Semaphores.newSemaphore v) hi hv hlookup, rfl, rfl⟩)
    · exact .inr (.inr ⟨hlookup, .inl hcard, by simp only [hfree]⟩)

/-- `sharedSemClose` counts one user of the name less, and forgets a name without users. -/
theorem Tabled.sharedSemClose (h : Tabled s m) (n : SemName) :
    (∃ p c t, m.lookup n.bytes = some (p, c) ∧ 1 < c ∧
        s.sharedSemClose n.buffer = some (0, t) ∧ Tabled t (m.insert n.bytes (p, c - 1)) ∧
        t.sems = s.sems ∧ t.sched = s.sched) ∨
      (∃ p sem t, m.lookup n.bytes = some (p, 1) ∧ s.sems p = some sem ∧
        s.sharedSemClose n.buffer = some (0, t) ∧ Tabled t (m.erase n.bytes) ∧
        t.sems = (if sem.blockedQueue = [] then (s.setSem p none).sems else s.sems) ∧
        t.sched = s.sched) ∨
      (m.lookup n.bytes = none ∧ s.sharedSemClose n.buffer = some (-1, s)) := by
  rw [Shared.sharedSemClose, if_neg (buffer_ne n)]
  rcases h.findByName n with ⟨i, p, c, hfind, hi, hv, hlookup⟩ | ⟨hfind, hlookup⟩
  · obtain ⟨hused, hp, hname, hc⟩ := view_eq_some.mp hv
    obtain ⟨hpos, -, sem, hsem⟩ := h.live _ _ _ hlookup
    have hcount : ((s.table i).refCount - 1).toInt = c - 1 := by
      rw [toInt_sub_one (by omega), hc]
    have hiff : (s.table i).refCount - 1 ≤ 0 ↔ c = 1 := by
      rw [Int32.le_iff_toInt_le, hcount, show (0 : Int32).toInt = 0 from rfl]
      omega
    simp only [hfind]
    by_cases hlast : c = 1
    · subst hlast
      refine .inr (.inl ⟨p, sem, ?_⟩)
      have hclear : Tabled (s.setEntry i { s.table i with
          refCount := (s.table i).refCount - 1, used := false, sem := none })
          (m.erase n.bytes) := h.clear hi hv
      have hgone : ∀ n' c, (m.erase n.bytes).lookup n' ≠ some (p, c) := by
        intro n' c hn'
        by_cases hne : n' = n.bytes
        · rw [hne, Finmap.lookup_erase] at hn'
          cases hn'
        · rw [Finmap.lookup_erase_ne hne] at hn'
          exact hne (h.unshared _ _ _ _ _ hn' hlookup)
      have hsems : ∀ e, (s.setEntry i e).sems p = some sem := fun _ ↦ hsem
      simp only [hiff, if_true, freeSemaphore, hp, hsems]
      by_cases hempty : sem.blockedQueue = []
      · simp only [hempty, ne_eq, not_true_eq_false, if_false, if_true, Option.map_some]
        exact ⟨_, hlookup, hsem, rfl, hclear.setSem p fun _ ↦ hgone, rfl, rfl⟩
      · simp only [hempty, ne_eq, not_false_eq_true, if_true, if_false, Option.map_some]
        exact ⟨_, hlookup, hsem, rfl, hclear, rfl, rfl⟩
    · rw [if_neg (mt hiff.mp hlast)]
      refine .inl ⟨p, c, _, hlookup, by omega, rfl, ?_, rfl, rfl⟩
      rw [← hcount]
      exact h.setCount hi hv (by omega)
  · exact .inr (.inr ⟨hlookup, by simp only [hfind]⟩)

/-- The pointer that `sharedSemWait` and `sharedSemPost` follow. -/
theorem Tabled.semOf (h : Tabled s m) (n : SemName) :
    (∃ p c sem, m.lookup n.bytes = some (p, c) ∧ s.semOf n.buffer = some p ∧
        s.sems p = some sem) ∨
      (m.lookup n.bytes = none ∧ s.semOf n.buffer = none) := by
  rw [Shared.semOf]
  rcases h.findByName n with ⟨i, p, c, hfind, hi, hv, hlookup⟩ | ⟨hfind, hlookup⟩
  · obtain ⟨-, hp, -⟩ := view_eq_some.mp hv
    obtain ⟨-, -, sem, hsem⟩ := h.live _ _ _ hlookup
    exact .inl ⟨p, c, sem, hlookup, by simp only [hfind, hp], hsem⟩
  · exact .inr ⟨hlookup, by simp only [hfind]⟩

variable [Scheduler σ]

/-- `sharedSemWait` waits on the semaphore of the name. -/
theorem Tabled.sharedSemWait (h : Tabled s m) (n : SemName) :
    (∃ p c sem t, m.lookup n.bytes = some (p, c) ∧ s.sems p = some sem ∧
        s.sharedSemWait n.buffer = some (0, t) ∧ Tabled t m ∧
        t.sems = (s.setSem p (some (semWait sem s.sched).1)).sems ∧
        t.sched = (semWait sem s.sched).2.1) ∨
      (m.lookup n.bytes = none ∧ s.sharedSemWait n.buffer = some (-1, s)) := by
  rw [Shared.sharedSemWait, if_neg (buffer_ne n)]
  rcases h.semOf n with ⟨p, c, sem, hlookup, hp, hsem⟩ | ⟨hlookup, hp⟩
  · have ht :=
      (h.setSem p fun (hnone : some (semWait sem s.sched).1 = none) ↦ by cases hnone).setSched
      (semWait sem s.sched).2.1
    simp only [hp, hsem]
    exact .inl ⟨p, c, sem, _, hlookup, hsem, rfl, ht, rfl, rfl⟩
  · exact .inr ⟨hlookup, by simp only [hp]⟩

/-- `sharedSemPost` posts the semaphore of the name. -/
theorem Tabled.sharedSemPost (h : Tabled s m) (n : SemName) :
    (∃ p c sem t, m.lookup n.bytes = some (p, c) ∧ s.sems p = some sem ∧
        s.sharedSemPost n.buffer = some (0, t) ∧ Tabled t m ∧
        t.sems = (s.setSem p (some (semPost sem s.sched).1)).sems ∧
        t.sched = (semPost sem s.sched).2) ∨
      (m.lookup n.bytes = none ∧ s.sharedSemPost n.buffer = some (-1, s)) := by
  rw [Shared.sharedSemPost, if_neg (buffer_ne n)]
  rcases h.semOf n with ⟨p, c, sem, hlookup, hp, hsem⟩ | ⟨hlookup, hp⟩
  · have ht :=
      (h.setSem p fun (hnone : some (semPost sem s.sched).1 = none) ↦ by cases hnone).setSched
      (semPost sem s.sched).2
    simp only [hp, hsem]
    exact .inl ⟨p, c, sem, _, hlookup, hsem, rfl, ht, rfl, rfl⟩
  · exact .inr ⟨hlookup, by simp only [hp]⟩

end Shared

end BareBones.Semaphores
