import BareBones.Process.Waiters

/-!
# Tokens are granted before they are used

As long as the posts of every semaphore wake those who wait for it, and nobody and nothing
else does, a semaphore never lets more waits return than it has tokens, and a post makes
`READY` only whom it should.  This does not depend on whether the heap has nodes for the
queues: a wait whose pid could not be queued has lowered the value, and its process sleeps
on.
-/

namespace BareBones.Process

open BareBones.Lib BareBones.Semaphores

/-- The counters of a semaphore add up.  `lost` counts the waits for which there was no node
in the heap: they have lowered the value, and no post can find them. -/
def SemRec.AddsUp (r : SemRec) : Prop :=
  ∃ lost : Nat,
    r.sem.value + r.sem.blockedQueue.length + lost + r.grants = r.initial + r.posts ∧
      (0 ≤ r.initial → 0 ≤ r.sem.value + r.sem.blockedQueue.length + lost) ∧
      r.returned + r.pending.length = r.grants

/-- No more waits return than there are tokens. -/
theorem SemRec.AddsUp.returned_le {r : SemRec} (h : r.AddsUp) (hinit : 0 ≤ r.initial) :
    (r.returned : Int) ≤ r.initial + r.posts := by
  obtain ⟨lost, htokens, hpos, hreturned⟩ := h
  have := hpos hinit
  omega

/-- The process that a post woke was blocked on that very semaphore. -/
def PostRecord.Proper (r : PostRecord) : Prop :=
  ∀ w ∈ r.woken, w.2.state = .BLOCKED ∧ w.2.waitsOn = some r.id

instance (r : PostRecord) : Decidable r.Proper := inferInstanceAs (Decidable (∀ _ ∈ _, _))

namespace Kernel

variable {k s t : Kernel} {e : Event} {pid q cur : Int} {p p' : ProcessCDT} {id : SemId}

/-- The counters of every semaphore add up, and all posts have woken whom they should. -/
structure GrantInv (k : Kernel) : Prop where
  counters : ∀ id, (k.sems id).AddsUp
  posts : ∀ r ∈ k.log.posts, r.Proper

namespace GrantInv

theorem congr (h : GrantInv s) (hsems : t.sems = s.sems) (hposts : t.log.posts = s.log.posts) :
    GrantInv t := by
  refine ⟨fun id ↦ ?_, ?_⟩
  · rw [hsems]
    exact h.counters id
  · rw [hposts]
    exact h.posts

theorem setSem (h : GrantInv s) {r : SemRec} (hr : r.AddsUp) : GrantInv (s.setSem id r) := by
  refine ⟨fun j ↦ ?_, h.posts⟩
  by_cases hj : j = id
  · subst hj
    rwa [setSem_self]
  · rw [setSem_other _ _ _ hj]
    exact h.counters j

theorem take (h : GrantInv s) (id : SemId) (hpos : 0 < (s.sems id).sem.value) :
    GrantInv (s.take id) := by
  refine h.setSem ?_
  obtain ⟨lost, htokens, hle, hreturned⟩ := h.counters id
  refine ⟨lost, ?_, fun hinit ↦ ?_, ?_⟩
  · push_cast
    omega
  · simp only
    omega
  · simp only
    omega

/-- A post drops pids from the queue, and maybe takes the first one left off it. -/
theorem posted (h : GrantInv s) {dead rest : List Int} {woken : Option (Int × ProcessCDT)}
    (hqueue : (s.sems id).sem.blockedQueue = dead ++ (woken.map Prod.fst).toList ++ rest)
    (hproper : (⟨id, woken⟩ : PostRecord).Proper) :
    GrantInv (s.posted id ((s.sems id).sem.value + 1 + dead.length) rest woken) := by
  have hset : GrantInv (s.setSem id { s.sems id with
      sem := ⟨(s.sems id).sem.value + 1 + dead.length, rest⟩
      posts := (s.sems id).posts + 1
      grants := (s.sems id).grants + woken.toList.length
      pending := (s.sems id).pending ++ (woken.map Prod.fst).toList }) := by
    refine h.setSem ?_
    obtain ⟨lost, htokens, hle, hreturned⟩ := h.counters id
    have hlength : (woken.map Prod.fst).toList.length = woken.toList.length := by
      cases woken with
      | none => rfl
      | some w => rfl
    have hone : woken.toList.length ≤ 1 := by
      cases woken with
      | none => exact Nat.zero_le 1
      | some w => exact Nat.le_refl 1
    rw [hqueue, List.length_append, List.length_append, hlength] at htokens hle
    refine ⟨lost, ?_, fun hinit ↦ ?_, ?_⟩
    · push_cast at htokens ⊢
      omega
    · have := hle hinit
      push_cast at *
      omega
    · simp only [List.length_append, hlength]
      omega
  refine ⟨hset.counters, fun r hr ↦ ?_⟩
  rcases List.mem_append.mp hr with hr | hr
  · exact h.posts r hr
  · rwa [List.mem_singleton.mp hr]

theorem post (h : GrantInv s) (hlisted : ListedInv (fun _ ↦ True) s) (id : SemId) :
    GrantInv (s.post id) := by
  rcases post_cases s id with ⟨dead, rest, hqueue, -, -, hpost⟩ |
    ⟨dead, pid, rest, p, hqueue, -, -, hp, hblocked, -, hpost⟩
  · rw [hpost]
    refine h.posted (by simpa using hqueue) fun w hw ↦ ?_
    cases hw
  · have hwaits : p.waitsOn = some id :=
      hlisted id trivial pid p (by rw [hqueue]; simp) hp hblocked
    have hqueue' : (s.sems id).sem.blockedQueue =
        dead ++ ((some (pid, p)).map Prod.fst).toList ++ rest := by simpa using hqueue
    rw [hpost]
    refine (h.posted hqueue' fun w hw ↦ ?_).congr rfl rfl
    obtain rfl := Option.some.inj hw
    exact ⟨hblocked, hwaits⟩

theorem semOpen (h : GrantInv s) (value : Int) :
    GrantInv { s.setSem (.user s.nextSem) (.new value) with nextSem := s.nextSem + 1 } := by
  have hset : GrantInv (s.setSem (.user s.nextSem) (.new value)) := by
    refine h.setSem ⟨0, ?_, fun hinit ↦ ?_, rfl⟩
    · simp [SemRec.new, newSemaphore]
    · simpa [SemRec.new, newSemaphore] using hinit
  exact hset.congr rfl rfl

/-- A process that was woken returns. -/
theorem returnFrom (h : GrantInv s) (hmem : cur ∈ (s.sems id).pending) :
    GrantInv (s.returnFrom id cur) := by
  refine h.setSem ?_
  obtain ⟨lost, htokens, hle, hreturned⟩ := h.counters id
  refine ⟨lost, htokens, hle, ?_⟩
  have hlength := List.length_erase_of_mem hmem
  have hpos := List.length_pos_of_mem hmem
  simp only
  omega

/-- A pid is queued, or there is no node for it. -/
theorem blockOn (h : GrantInv s) (id : SemId) (cur : Int) (c : Cont) :
    GrantInv (s.blockOn id cur c) := by
  have hset : GrantInv (s.setSem id { s.sems id with
      sem := ⟨(s.sems id).sem.value - 1,
        s.enqueue .blockedQueue (s.sems id).sem.blockedQueue cur⟩ }) := by
    refine h.setSem ?_
    obtain ⟨lost, htokens, hle, hreturned⟩ := h.counters id
    unfold enqueue
    split
    · refine ⟨lost, ?_, fun hinit ↦ ?_, hreturned⟩
      · simp only [List.length_append, List.length_singleton]
        push_cast
        omega
      · have := hle hinit
        simp only [List.length_append, List.length_singleton]
        push_cast
        omega
    · refine ⟨lost + 1, ?_, fun hinit ↦ ?_, hreturned⟩
      · push_cast
        omega
      · have := hle hinit
        push_cast
        omega
  exact hset.congr rfl rfl

theorem schedule (h : GrantInv s) (ht : s.schedule = some t) : GrantInv t := by
  refine CoreRule.schedule_induction id (fun h hsame ↦ h.congr hsame.sems hsame.posts)
    (fun h _ _ ↦ h.congr rfl rfl) (fun h _ _ ht ↦ ?_) h ht
  obtain ⟨next, p, rest, -, -, rfl⟩ := dispatch_cases ht
  exact h.congr rfl rfl

end GrantInv

/-! ## Runs -/

/-- Every update keeps the books of the semaphores. -/
theorem grantRule : CoreRule (fun k e ↦ e.KeepsWaiters (fun _ ↦ True) k) fun k ↦
    (WaitInv (fun _ ↦ True) k ∧ ListedInv (fun _ ↦ True) k) ∧ GrantInv k where
  frame h hsame := ⟨(listedRule _).frame h.1 hsame, h.2.congr hsame.sems hsame.posts⟩
  post id h hid := ⟨(listedRule _).post id h.1 hid, h.2.post h.1.2 id⟩
  take id h hpos := ⟨(listedRule _).take id h.1 hpos, h.2.take id hpos⟩
  semOpen value h := ⟨(listedRule _).semOpen value h.1, h.2.semOpen value⟩
  heap nodes h hok := ⟨(listedRule _).heap nodes h.1 hok, h.2.congr rfl rfl⟩
  setBlocked h hok hkillable hp ht := by
    refine ⟨(listedRule _).setBlocked h.1 hok hkillable hp ht, ?_⟩
    rcases ht with ⟨-, rfl⟩ | ⟨-, rfl⟩
    · exact h.2.congr rfl rfl
    · exact h.2.congr rfl rfl
  unblock h hok hkillable hp hblocked :=
    ⟨(listedRule _).unblock h.1 hok hkillable hp hblocked, h.2.congr rfl rfl⟩
  exit h hcur hcont hinst := ⟨(listedRule _).exit h.1 hcur hcont hinst, h.2.congr rfl rfl⟩
  waited h hok hcur hcont hinst :=
    ⟨(listedRule _).waited h.1 hok hcur hcont hinst, h.2.congr rfl rfl⟩
  polled h hok hcur hcont := ⟨(listedRule _).polled h.1 hok hcur hcont, h.2.congr rfl rfl⟩
  returned h hok hcur hid hc := by
    refine ⟨(listedRule _).returned h.1 hok hcur hid hc, ?_⟩
    exact (h.2.returnFrom (h.1.1.woken_current hcur trivial hid).1).congr rfl rfl
  block h hok hwaits hcur hcont hinst hle ht :=
    ⟨(listedRule _).block h.1 hok hwaits hcur hcont hinst hle ht, (h.2.blockOn _ _ _).schedule ht⟩
  preempt h hcur hrun := ⟨(listedRule _).preempt h.1 hcur hrun, h.2.congr rfl rfl⟩
  dispatch h hon hrun ht := by
    refine ⟨(listedRule _).dispatch h.1 hon hrun ht, ?_⟩
    obtain ⟨next, p, rest, -, -, rfl⟩ := dispatch_cases ht
    exact h.2.congr rfl rfl
  zombify h hok hpid hkillable hp hp' hinst hlive := by
    refine ⟨(listedRule _).zombify h.1 hok hpid hkillable hp hp' hinst hlive, ?_⟩
    refine GrantInv.post ?_ (h.1.2.zombify _ _ _) _
    exact h.2.congr rfl rfl
  free h hok hreaps hp := ⟨(listedRule _).free h.1 hok hreaps hp, h.2.congr rfl rfl⟩
  start h hok hsame hfree := ⟨(listedRule _).start h.1 hok hsame hfree, h.2.congr rfl rfl⟩

theorem grantInv_init : GrantInv initializeScheduler :=
  ⟨fun _ ↦ ⟨0, rfl, fun _ ↦ Int.le_refl _, rfl⟩, fun _ hr ↦ absurd hr List.not_mem_nil⟩

/-- No semaphore that started with tokens lets more waits return than it had tokens and
posts, and every post woke a process that was blocked on its semaphore, or nobody. -/
structure GrantsSafe (k : Kernel) : Prop where
  returned : ∀ id, 0 ≤ (k.sems id).initial →
    ((k.sems id).returned : Int) ≤ (k.sems id).initial + (k.sems id).posts
  proper : ∀ r ∈ k.log.posts, r.Proper

end Kernel

end BareBones.Process
