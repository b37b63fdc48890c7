import BareBones.Semaphores.Conservation
import BareBones.Semaphores.SharedMap

/-!
# The table of named semaphores is a finite map

The abstract machine `SemMap` knows nothing of slots, bytes and pointers: it maps names to
semaphores and reference counts, which are numbers of any size.  **The table refines it** as long as
no count gets beyond an `int` (`table_refines`): whatever the calls, both return the same results
and leave the scheduler in the same states.  A count that overflows is negative, and the next
close removes a name that has users (`count_overflows`).
-/

namespace BareBones.Semaphores

open BareBones.Lib BareBones.Process Scheduler

/-! ## The abstract machine -/

/-- A finite map from names to semaphores and reference counts. -/
abbrev SemMap := Finmap fun _ : List UInt8 ↦ Sem × Int

namespace SemMap

variable {σ : Type*} [Scheduler σ]

/-- Opening a known name counts one more user; a new name gets a semaphore, if the map has
fewer than `MAX_SHARED_SEMS` names and there is room for it. -/
def sharedSemOpen (n : List UInt8) (initialValue : Int) (room : Bool) (M : SemMap) : Int × SemMap :=
  match M.lookup n with
  | some (sem, count) => (0, M.insert n (sem, count + 1))
  | none =>
      if M.keys.card < MAX_SHARED_SEMS ∧ room = true then
        (0, M.insert n (newSemaphore initialValue, 1))
      else (-1, M)

/-- Closing a name counts one user less; a name without users is removed. -/
def sharedSemClose (n : List UInt8) (M : SemMap) : Int × SemMap :=
  match M.lookup n with
  | some (sem, count) =>
      (0, if count - 1 = 0 then M.erase n else M.insert n (sem, count - 1))
  | none => (-1, M)

/-- Waiting changes the semaphore of the name, and the scheduler. -/
def sharedSemWait (n : List UInt8) (sched : σ) (M : SemMap) : Int × SemMap × σ :=
  match M.lookup n with
  | some (sem, count) =>
      (0, M.insert n ((semWait sem sched).1, count), (semWait sem sched).2.1)
  | none => (-1, M, sched)

/-- Posting changes the semaphore of the name, and the scheduler. -/
def sharedSemPost (n : List UInt8) (sched : σ) (M : SemMap) : Int × SemMap × σ :=
  match M.lookup n with
  | some (sem, count) => (0, M.insert n ((semPost sem sched).1, count), (semPost sem sched).2)
  | none => (-1, M, sched)

/-- A system call: its result, the map and the scheduler. -/
def exec (M : SemMap) (sched : σ) : Shared.Call → Int × SemMap × σ
  | .sharedSemOpen n initialValue room =>
      let (r, M) := M.sharedSemOpen n.bytes initialValue room
      (r, M, sched)
  | .sharedSemClose n =>
      let (r, M) := M.sharedSemClose n.bytes
      (r, M, sched)
  | .sharedSemWait n => M.sharedSemWait n.bytes sched
  | .sharedSemPost n => M.sharedSemPost n.bytes sched

/-- The call makes no count too large for an `int`. -/
def Fits (M : SemMap) : Shared.Call → Prop
  | .sharedSemOpen n _ _ => ∀ e ∈ M.lookup n.bytes, e.2 < 2 ^ 31 - 1
  | _ => True

instance (M : SemMap) : (call : Shared.Call) → Decidable (M.Fits call)
  | .sharedSemOpen n _ _ => inferInstanceAs (Decidable (∀ e ∈ M.lookup n.bytes, e.2 < 2 ^ 31 - 1))
  | .sharedSemClose _ | .sharedSemWait _ | .sharedSemPost _ => isTrue trivial

/-- None of the calls does, each with the scheduler that it finds. -/
def AllFit : List (σ × Shared.Call) → SemMap → Prop
  | [], _ => True
  | (sched, call) :: calls, M => M.Fits call ∧ AllFit calls (M.exec sched call).2.1

instance : (calls : List (σ × Shared.Call)) → (M : SemMap) → Decidable (AllFit calls M)
  | [], _ => isTrue trivial
  | (sched, call) :: calls, M =>
      have : Decidable (AllFit calls (M.exec sched call).2.1) := instDecidableAllFit calls _
      inferInstanceAs (Decidable (_ ∧ _))

/-- A sequence of calls, each with the scheduler that it finds: the results, the scheduler
after each call, and the map in the end. -/
def runCalls : List (σ × Shared.Call) → SemMap → List (Int × σ) × SemMap
  | [], M => ([], M)
  | (sched, call) :: calls, M =>
      let (r, M, sched') := M.exec sched call
      let (rs, M) := runCalls calls M
      ((r, sched') :: rs, M)

end SemMap

/-! ## The refinement -/

namespace Shared

variable {σ : Type*} {s t : Shared σ} {m : Finmap fun _ : List UInt8 ↦ Nat × Int}
  {M : SemMap} {n : List UInt8} {n' : SemName} {p : Nat} {c : Int} {sem : Sem}
  {sems sems' : Nat → Option Sem}

/-- The map `M` is `m` with the semaphores instead of the pointers to them. -/
structure Derefs (sems : Nat → Option Sem) (m : Finmap fun _ : List UInt8 ↦ Nat × Int)
    (M : SemMap) : Prop where
  keys : M.keys = m.keys
  lookup : ∀ n, M.lookup n = (m.lookup n).bind fun e ↦ (sems e.1).map fun sem ↦ (sem, e.2)

namespace Derefs

theorem lookup_some (h : Derefs sems m M) (hn : m.lookup n = some (p, c))
    (hp : sems p = some sem) : M.lookup n = some (sem, c) := by
  rw [h.lookup, hn, Option.bind_some, hp]
  rfl

theorem lookup_none (h : Derefs sems m M) (hn : m.lookup n = none) : M.lookup n = none := by
  rw [h.lookup, hn, Option.bind_none]

/-- An entry is inserted, or overwritten. -/
theorem insert (h : Derefs sems m M) (n : List UInt8) (c : Int) (hp : sems p = some sem) :
    Derefs sems (m.insert n (p, c)) (M.insert n (sem, c)) := by
  constructor
  · rw [keys_insert, keys_insert, h.keys]
  · intro n'
    by_cases hn : n' = n
    · rw [hn, Finmap.lookup_insert, Finmap.lookup_insert, Option.bind_some, hp]
      rfl
    · rw [Finmap.lookup_insert_of_ne _ hn, Finmap.lookup_insert_of_ne _ hn, h.lookup]

theorem erase (h : Derefs sems m M) (n : List UInt8) : Derefs sems (m.erase n) (M.erase n) := by
  constructor
  · rw [Finmap.keys_erase, Finmap.keys_erase, h.keys]
  · intro n'
    by_cases hn : n' = n
    · rw [hn, Finmap.lookup_erase, Finmap.lookup_erase, Option.bind_none]
    · rw [Finmap.lookup_erase_ne hn, Finmap.lookup_erase_ne hn, h.lookup]

/-- A semaphore that no name reaches is overwritten. -/
theorem congr (h : Derefs sems m M)
    (hsems : ∀ n p c, m.lookup n = some (p, c) → sems' p = sems p) : Derefs sems' m M := by
  refine ⟨h.keys, fun n ↦ ?_⟩
  rw [h.lookup]
  cases hn : m.lookup n with
  | none => rfl
  | some e => simp only [Option.bind_some, hsems n e.1 e.2 hn]

/-- The semaphore of one name is overwritten. -/
theorem setSem (h : Derefs s.sems m M) (htabled : Tabled s m) (hn : m.lookup n = some (p, c))
    (sem : Sem) : Derefs (s.setSem p (some sem)).sems m (M.insert n (sem, c)) := by
  constructor
  · rw [keys_insert, h.keys, Finset.insert_eq_of_mem]
    rw [Finmap.mem_keys]
    exact Finmap.mem_of_lookup_eq_some hn
  · intro n'
    by_cases heq : n' = n
    · rw [heq, Finmap.lookup_insert, hn]
      simp [Shared.setSem]
    · rw [Finmap.lookup_insert_of_ne _ heq, h.lookup]
      cases hn' : m.lookup n' with
      | none => rfl
      | some e =>
          have hne : e.1 ≠ p := by
            rintro rfl
            exact heq (htabled.unshared _ _ _ _ _ hn' hn)
          simp only [Option.bind_some, Shared.setSem, if_neg hne]

end Derefs

/-- **The table is the map**: the slots in use have different names, there is one for each
name of the map, and it has the semaphore and the count of the map. -/
structure Refines (s : Shared σ) (M : SemMap) : Prop where
  distinct : ∀ i < MAX_SHARED_SEMS, ∀ j < MAX_SHARED_SEMS, (s.table i).used = true →
    (s.table j).used = true → cstr (s.table i).name = cstr (s.table j).name → i = j
  entry : ∀ n sem c, M.lookup n = some (sem, c) ↔ ∃ i < MAX_SHARED_SEMS,
    (s.table i).used = true ∧ cstr (s.table i).name = n ∧ (s.table i).refCount.toInt = c ∧
      ∃ p, (s.table i).sem = some p ∧ s.sems p = some sem
  used : ∀ i < MAX_SHARED_SEMS, (s.table i).used = true → cstr (s.table i).name ∈ M
  count : ∀ n sem c, M.lookup n = some (sem, c) → 1 ≤ c
  size : M.keys.card ≤ MAX_SHARED_SEMS

theorem Tabled.view_of_used (h : Tabled s m) {i : Nat} (hi : i < MAX_SHARED_SEMS)
    (hused : (s.table i).used = true) :
    ∃ p, s.view i = some (cstr (s.table i).name, (p, (s.table i).refCount.toInt)) := by
  obtain ⟨p, hp⟩ := Option.ne_none_iff_exists'.mp (h.pointer i hi hused)
  exact ⟨p, view_eq_some.mpr ⟨hused, hp, rfl, rfl⟩⟩

theorem Tabled.refines (h : Tabled s m) (hderefs : Derefs s.sems m M) : Refines s M := by
  have hlookup : ∀ n sem c, M.lookup n = some (sem, c) ↔
      ∃ p, m.lookup n = some (p, c) ∧ s.sems p = some sem := by
    intro n sem c
    rw [hderefs.lookup, Option.bind_eq_some_iff]
    constructor
    · rintro ⟨⟨p, d⟩, hp, hsem⟩
      obtain ⟨r, hr, heq⟩ := Option.map_eq_some_iff.mp hsem
      cases heq
      exact ⟨p, hp, hr⟩
    · rintro ⟨p, hp, hsem⟩
      exact ⟨(p, c), hp, by rw [hsem]; rfl⟩
  refine ⟨fun i hi j hj husedi husedj hname ↦ ?_, fun n sem c ↦ ?_, fun i hi hused ↦ ?_,
    fun n sem c hn ↦ ?_, ?_⟩
  · obtain ⟨p, hp⟩ := h.view_of_used hi husedi
    obtain ⟨q, hq⟩ := h.view_of_used hj husedj
    exact h.represents.distinct i hi j hj _ _ _ hp (hname ▸ hq)
  · rw [hlookup]
    constructor
    · rintro ⟨p, hp, hsem⟩
      obtain ⟨i, hi, hv⟩ := (h.represents.lookup n (p, c)).mp hp
      obtain ⟨hused, hpi, hname, hc⟩ := view_eq_some.mp hv
      exact ⟨i, hi, hused, hname, hc, p, hpi, hsem⟩
    · rintro ⟨i, hi, hused, hname, hc, p, hpi, hsem⟩
      exact ⟨p, (h.represents.lookup n (p, c)).mpr
        ⟨i, hi, view_eq_some.mpr ⟨hused, hpi, hname, hc⟩⟩, hsem⟩
  · obtain ⟨p, hp⟩ := h.view_of_used hi hused
    rw [← Finmap.mem_keys, hderefs.keys, Finmap.mem_keys]
    exact Finmap.mem_of_lookup_eq_some ((h.represents.lookup _ _).mpr ⟨i, hi, hp⟩)
  · obtain ⟨p, hp, -⟩ := (hlookup n sem c).mp hn
    exact (h.live n p c hp).1
  · rw [hderefs.keys]
    exact h.represents.card_le

variable [Scheduler σ]

/-- **One call**: both machines return the same result and the same scheduler. -/
theorem Tabled.exec (h : Tabled s m) (hderefs : Derefs s.sems m M) {call : Call}
    (hfits : M.Fits call) :
    ∃ r t m' M', s.exec call = some (r, t) ∧ M.exec s.sched call = (r, M', t.sched) ∧
      Tabled t m' ∧ Derefs t.sems m' M' := by
  cases call with
  | sharedSemOpen n v room =>
      simp only [Shared.exec, SemMap.exec, SemMap.sharedSemOpen]
      have hfits' : ∀ p c, m.lookup n.bytes = some (p, c) → c < 2 ^ 31 - 1 := by
        intro p c hn
        obtain ⟨-, -, sem, hsem⟩ := h.live _ _ _ hn
        exact hfits _ (hderefs.lookup_some hn hsem)
      rcases h.sharedSemOpen n v room hfits' with ⟨p, c, t, hn, hopen, ht, hsems, hsched⟩ |
        ⟨t, hn, hcard, hroom, hopen, ht, hsems, hsched⟩ | ⟨hn, hfull, hopen⟩
      · obtain ⟨-, -, sem, hsem⟩ := h.live _ _ _ hn
        rw [hderefs.lookup_some hn hsem]
        refine ⟨0, t, _, _, by rw [hopen], by rw [hsched], ht, ?_⟩
        rw [hsems]
        exact hderefs.insert _ _ hsem
      · rw [hderefs.lookup_none hn, if_pos ⟨by rwa [hderefs.keys], hroom⟩]
        refine ⟨0, t, _, _, by rw [hopen], by rw [hsched], ht, ?_⟩
        rw [hsems]
        refine Derefs.insert (hderefs.congr fun n p c hp ↦ ?_) _ _ (by simp [Shared.setSem])
        simp only [Shared.setSem, if_neg (h.live n p c hp).2.1.ne]
      · rw [hderefs.lookup_none hn, if_neg]
        · exact ⟨-1, s, _, _, by rw [hopen], rfl, h, hderefs⟩
        · rintro ⟨hcard, hroom⟩
          rw [hderefs.keys] at hcard
          rcases hfull with hfull | hfull
          · exact hcard.ne hfull
          · rw [hroom] at hfull
            cases hfull
  | sharedSemClose n =>
      simp only [Shared.exec, SemMap.exec, SemMap.sharedSemClose]
      rcases h.sharedSemClose n with ⟨p, c, t, hn, hc, hclose, ht, hsems, hsched⟩ |
        ⟨p, sem, t, hn, hsem, hclose, ht, hsems, hsched⟩ | ⟨hn, hclose⟩
      · obtain ⟨-, -, sem, hsem⟩ := h.live _ _ _ hn
        rw [hderefs.lookup_some hn hsem]
        simp only [if_neg (show ¬c - 1 = 0 by omega)]
        refine ⟨0, t, _, _, by rw [hclose], by rw [hsched], ht, ?_⟩
        rw [hsems]
        exact hderefs.insert _ _ hsem
      · rw [hderefs.lookup_some hn hsem]
        simp only [if_pos (show (1 : Int) - 1 = 0 from rfl)]
        refine ⟨0, t, _, _, by rw [hclose], by rw [hsched], ht, ?_⟩
        rw [hsems]
        refine (hderefs.erase n.bytes).congr fun n' p' c' hp' ↦ ?_
        have hne : n' ≠ n.bytes := by
          rintro rfl
          rw [Finmap.lookup_erase] at hp'
          cases hp'
        rw [Finmap.lookup_erase_ne hne] at hp'
        split
        · have hpne : p' ≠ p := by
            rintro rfl
            exact hne (h.unshared _ _ _ _ _ hp' hn)
          simp only [Shared.setSem, if_neg hpne]
        · rfl
      · rw [hderefs.lookup_none hn]
        exact ⟨-1, s, _, _, by rw [hclose], rfl, h, hderefs⟩
  | sharedSemWait n =>
      simp only [Shared.exec, SemMap.exec, SemMap.sharedSemWait]
      rcases h.sharedSemWait n with ⟨p, c, sem, t, hn, hsem, hwait, ht, hsems, hsched⟩ |
        ⟨hn, hwait⟩
      · rw [hderefs.lookup_some hn hsem]
        refine ⟨0, t, _, _, by rw [hwait], by rw [hsched], ht, ?_⟩
        rw [hsems]
        exact hderefs.setSem h hn _
      · rw [hderefs.lookup_none hn]
        exact ⟨-1, s, _, _, by rw [hwait], rfl, h, hderefs⟩
  | sharedSemPost n =>
      simp only [Shared.exec, SemMap.exec, SemMap.sharedSemPost]
      rcases h.sharedSemPost n with ⟨p, c, sem, t, hn, hsem, hpost, ht, hsems, hsched⟩ |
        ⟨hn, hpost⟩
      · rw [hderefs.lookup_some hn hsem]
        refine ⟨0, t, _, _, by rw [hpost], by rw [hsched], ht, ?_⟩
        rw [hsems]
        exact hderefs.setSem h hn _
      · rw [hderefs.lookup_none hn]
        exact ⟨-1, s, _, _, by rw [hpost], rfl, h, hderefs⟩

/-- A sequence of calls, each with the scheduler that it finds: the results, the scheduler
after each call, and the table in the end. -/
def runCalls : List (σ × Call) → Shared σ → Option (List (Int × σ) × Shared σ)
  | [], s => some ([], s)
  | (sched, call) :: calls, s =>
      ({ s with sched := sched }.exec call).bind fun (r, s) ↦
        (runCalls calls s).map fun (rs, t) ↦ ((r, s.sched) :: rs, t)

theorem Tabled.runCalls (h : Tabled s m) (hderefs : Derefs s.sems m M)
    {calls : List (σ × Call)} (hfits : SemMap.AllFit calls M) :
    ∃ t m', s.runCalls calls = some ((M.runCalls calls).1, t) ∧
      Tabled t m' ∧ Derefs t.sems m' (M.runCalls calls).2 := by
  induction calls generalizing s m M with
  | nil => exact ⟨s, m, rfl, h, hderefs⟩
  | cons call calls ih =>
      obtain ⟨sched, call⟩ := call
      obtain ⟨r, t, m', M', hexec, hspec, ht, hderefs'⟩ :=
        (h.setSched sched).exec (M := M) hderefs hfits.1
      replace hspec : M.exec sched call = (r, M', t.sched) := hspec
      have hrest : SemMap.AllFit calls M' := by
        have hrest := hfits.2
        rwa [hspec] at hrest
      obtain ⟨u, m'', hrun, hu, hderefs''⟩ := ih ht hderefs' hrest
      refine ⟨u, m'', ?_, hu, ?_⟩
      · simp only [Shared.runCalls, hexec, Option.bind_some, hrun, SemMap.runCalls, hspec,
          Option.map_some]
      · simp only [SemMap.runCalls, hspec]
        exact hderefs''

/-- **Named semaphores refine a finite map** from names to semaphores and reference counts:
from the empty table on, every sequence of calls that makes no count overflow, by processes in any
state, gives the results and the scheduler states of the map. -/
theorem table_refines (sched : σ) {calls : List (σ × Call)} (hfits : SemMap.AllFit calls ∅) :
    ∃ t, (Shared.init sched).runCalls calls = some ((SemMap.runCalls calls ∅).1, t) ∧
      Refines t (SemMap.runCalls calls ∅).2 := by
  have hempty : Derefs (Shared.init sched).sems ∅ (∅ : SemMap) :=
    ⟨rfl, fun n ↦ by rw [Finmap.lookup_empty, Finmap.lookup_empty]; rfl⟩
  obtain ⟨t, m', hrun, ht, hderefs⟩ := (Tabled.init sched).runCalls hempty hfits
  exact ⟨t, hrun, ht.refines hderefs⟩

/-- Process 2, which is running, opens a name twice, closes it once and waits for it. -/
theorem table_refines_waits :
    let running : States := ⟨fun pid ↦ if pid = 2 then some .RUNNING else none, 2, true⟩
    let calls : List (States × Call) := [(running, .sharedSemOpen nameS 0 true),
      (running, .sharedSemOpen nameS 5 true), (running, .sharedSemClose nameS),
      (running, .sharedSemWait nameS)]
    SemMap.AllFit calls ∅ ∧
      ∃ t, (Shared.init running).runCalls calls = some ((SemMap.runCalls calls ∅).1, t) ∧
        Refines t (SemMap.runCalls calls ∅).2 := by
  intro running calls
  have hfits : SemMap.AllFit calls ∅ := by decide
  exact ⟨hfits, table_refines running hfits⟩

/-! ## A count that overflows -/

/-- Opening a name that the table has changes its count only. -/
theorem sharedSemOpen_found {i : Nat} (hfind : s.findByName n'.buffer = some i) (v : Int)
    (room : Bool) :
    s.sharedSemOpen n'.buffer v room =
      (0, s.setEntry i { s.table i with refCount := (s.table i).refCount + 1 }) := by
  rw [sharedSemOpen, if_neg (buffer_ne n'), hfind]

/-- The counts do not matter when a name is looked up. -/
theorem findByName_setEntry (s : Shared σ) (i : Nat) (c : Int32) (name : List UInt8) :
    (s.setEntry i { s.table i with refCount := c }).findByName name = s.findByName name := by
  have hslot : ∀ j, ((s.setEntry i { s.table i with refCount := c }).table j).used =
      (s.table j).used ∧ ((s.setEntry i { s.table i with refCount := c }).table j).name =
      (s.table j).name := by
    intro j
    by_cases hj : j = i
    · simp [setEntry, hj]
    · simp [setEntry, hj]
  simp only [findByName, (hslot _).1, (hslot _).2]

theorem setEntry_setEntry (s : Shared σ) (i : Nat) (e e' : SharedSem) :
    (s.setEntry i e).setEntry i e' = s.setEntry i e' := by
  simp only [setEntry]
  congr 1
  funext j
  split <;> rfl

theorem setEntry_self (s : Shared σ) (i : Nat) : s.setEntry i (s.table i) = s := by
  have htable : (fun j ↦ if j = i then s.table i else s.table j) = s.table := by
    funext j
    split
    next h => rw [h]
    next => rfl
  rw [setEntry, htable]

/-- Opening it `k` times adds `k`, as the addition of an `int` does. -/
theorem runCalls_opens {i : Nat} (hfind : s.findByName n'.buffer = some i) (v : Int) (room : Bool)
    (k : Nat) :
    s.runCalls (List.replicate k (s.sched, .sharedSemOpen n' v room)) =
      some (List.replicate k (0, s.sched),
        s.setEntry i { s.table i with refCount := (s.table i).refCount + Int32.ofNat k }) := by
  induction k generalizing s with
  | zero =>
      have hzero : (s.table i).refCount + Int32.ofNat 0 = (s.table i).refCount := by
        rw [show Int32.ofNat 0 = 0 from rfl, Int32.add_zero]
      rw [hzero, setEntry_self]
      rfl
  | succ k ih =>
      have hnext := ih (s := s.setEntry i { s.table i with refCount := (s.table i).refCount + 1 })
        (by rw [findByName_setEntry, hfind])
      rw [setEntry_setEntry] at hnext
      have hcount : (s.table i).refCount + 1 + Int32.ofNat k =
          (s.table i).refCount + Int32.ofNat (k + 1) := by
        rw [Int32.ofNat_add, Int32.add_assoc, Int32.add_comm (Int32.ofNat k)]
        rfl
      simp only [List.replicate_succ, runCalls, exec, sharedSemOpen_found hfind, Option.bind_some]
      rw [show (s.setEntry i { s.table i with refCount := (s.table i).refCount + 1 }).sched =
        s.sched from rfl] at hnext
      rw [hnext]
      simp [setEntry, hcount]

theorem runCalls_append (calls calls' : List (σ × Call)) (s : Shared σ) :
    s.runCalls (calls ++ calls') = (s.runCalls calls).bind fun (rs, t) ↦
      (t.runCalls calls').map fun (rs', u) ↦ (rs ++ rs', u) := by
  induction calls generalizing s with
  | nil => simp [runCalls]
  | cons call calls ih =>
      obtain ⟨sched, call⟩ := call
      simp only [List.cons_append, runCalls]
      cases Shared.exec { s with sched := sched } call with
      | none => rfl
      | some x =>
          simp only [Option.bind_some, ih]
          cases x.2.runCalls calls with
          | none => rfl
          | some y => simp [Option.map_map, Function.comp_def]

end Shared

namespace SemMap

variable {σ : Type*} [Scheduler σ] {M : SemMap} {n : SemName} {sem : Sem} {c : Int}

theorem runCalls_append (calls calls' : List (σ × Shared.Call)) (M : SemMap) :
    (M.runCalls (calls ++ calls')).1 =
      (M.runCalls calls).1 ++ ((M.runCalls calls).2.runCalls calls').1 := by
  induction calls generalizing M with
  | nil => rfl
  | cons call calls ih => simp only [List.cons_append, runCalls, ih]

/-- In the map, opening a name `k` times adds `k`. -/
theorem runCalls_opens (hn : M.lookup n.bytes = some (sem, c)) (v : Int) (room : Bool) (sched : σ)
    (k : Nat) :
    (M.runCalls (List.replicate k (sched, .sharedSemOpen n v room))).1 =
        List.replicate k (0, sched) ∧
      (M.runCalls (List.replicate k (sched, .sharedSemOpen n v room))).2.lookup n.bytes =
        some (sem, c + k) := by
  induction k generalizing M c with
  | zero => exact ⟨rfl, by simpa [runCalls] using hn⟩
  | succ k ih =>
      obtain ⟨hresults, hlookup⟩ := ih (M := M.insert n.bytes (sem, c + 1)) (c := c + 1)
        (Finmap.lookup_insert _)
      simp only [List.replicate_succ, runCalls, exec, sharedSemOpen, hn]
      refine ⟨by rw [hresults], ?_⟩
      rw [hlookup]
      congr 2
      push_cast
      omega

/-- A name that has more than two users is closed twice. -/
theorem runCalls_closes (hn : M.lookup n.bytes = some (sem, c)) (hc : 2 < c) (sched : σ) :
    (M.runCalls [(sched, .sharedSemClose n), (sched, .sharedSemClose n)]).1 =
      [(0, sched), (0, sched)] := by
  have hne : ¬c - 1 = 0 := by omega
  simp [runCalls, exec, sharedSemClose, hn, hne]

end SemMap

namespace Shared

/-- The processes do not matter. -/
def idle : States := ⟨fun _ ↦ none, 0, true⟩

/-- **A count that overflows removes a name that has users.**  After `2 ^ 31 + 1` opens the count
is negative, the first close removes the name, and the second one does not find it. -/
theorem count_overflows :
    let calls : List (States × Call) :=
      List.replicate (2 ^ 31 + 1) (idle, .sharedSemOpen nameS 0 true) ++
        [(idle, .sharedSemClose nameS), (idle, .sharedSemClose nameS)]
    ∃ rs t, (Shared.init idle).runCalls calls = some (rs, t) ∧
      rs ≠ (SemMap.runCalls calls ∅).1 := by
  intro calls
  let first : Shared States := ((Shared.init idle).sharedSemOpen nameS.buffer 0 true).2
  let closes : List (States × Call) :=
    [(idle, .sharedSemClose nameS), (idle, .sharedSemClose nameS)]
  obtain ⟨k, hk⟩ : ∃ k, k = 2 ^ 31 := ⟨_, rfl⟩
  have hcalls : calls = (idle, .sharedSemOpen nameS 0 true) ::
      (List.replicate k (idle, .sharedSemOpen nameS 0 true) ++ closes) := by
    rw [← List.cons_append, ← List.replicate_succ, hk]
  have hfind : first.findByName nameS.buffer = some 0 := by decide +kernel
  have hopens := runCalls_opens hfind 0 true k
  let full : Shared States :=
    first.setEntry 0 { first.table 0 with refCount := (first.table 0).refCount + Int32.ofNat k }
  have hcloses : (full.runCalls closes).map (fun (rs, _) ↦ rs.map Prod.fst) = some [0, -1] := by
    subst hk
    decide +kernel
  obtain ⟨⟨rs, t⟩, hrun, hrs⟩ := Option.map_eq_some_iff.mp hcloses
  refine ⟨(0, idle) :: (List.replicate k (0, idle) ++ rs), t, ?_, ?_⟩
  · rw [hcalls]
    show ((first.runCalls (List.replicate k (first.sched, .sharedSemOpen nameS 0 true) ++
      closes)).map fun (rs, t) ↦ ((0, idle) :: rs, t)) = _
    rw [runCalls_append, hopens]
    show (((full.runCalls closes).map fun (rs, t) ↦ (List.replicate k (0, idle) ++ rs, t)).map
      fun (rs, t) ↦ ((0, idle) :: rs, t)) = _
    rw [hrun]
    rfl
  · let M : SemMap := (SemMap.exec ∅ idle (.sharedSemOpen nameS 0 true)).2.1
    have hlookup : M.lookup nameS.bytes = some (Semaphores.newSemaphore 0, 1) := by decide +kernel
    obtain ⟨hresults, hcount⟩ := SemMap.runCalls_opens hlookup 0 true idle k
    have hmap : (SemMap.runCalls calls ∅).1 =
        (0, idle) :: (List.replicate k (0, idle) ++ [(0, idle), (0, idle)]) := by
      rw [hcalls]
      show (0, idle) :: (SemMap.runCalls (List.replicate k (idle, .sharedSemOpen nameS 0 true) ++
        closes) M).1 = _
      rw [SemMap.runCalls_append, hresults, SemMap.runCalls_closes hcount (by omega)]
    rw [hmap]
    intro heq
    have hends := List.append_cancel_left (List.cons_eq_cons.mp heq).2
    rw [hends] at hrs
    cases hrs

end Shared

end BareBones.Semaphores
