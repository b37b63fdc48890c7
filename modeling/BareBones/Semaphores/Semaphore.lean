import BareBones.Process.Basic
import Mathlib.Order.Defs.LinearOrder

/-!
# Counting semaphores

The model of `semaphores/semaphore.c`.  The three operations run with interrupts
off, so each one is a function; the spinlock around their bodies is always free
when they start and is left out.  What they need from the process table is the
interface `Scheduler`, so that the same code serves every system in this project
that has semaphores.

The counter is an `int` in the source and a number of any size here.  It falls by at most one for
each process that waits, and only overflows at a post that finds `2 ^ 31 - 1` tokens.

`blockedQueue` holds bare pids, each in a node of the heap.  `semWait` ignores what `enqueue`
returns: if there is no room for the node, the caller is blocked and in no queue.

`semPost` pops pids until `setReady` accepts one,
and counts one up for each pid that it refuses: a waiter that died in the queue.
`Sem.Wf` is the invariant of the counter and the queue, and `semPost_spec` says
what a post does under it.
-/

namespace BareBones.Semaphores

open BareBones.Process Scheduler

/-- The state of a semaphore. -/
structure Sem where
  value : Int
  blockedQueue : List Int
deriving DecidableEq, Repr

/-- `newSemaphore` -/
def newSemaphore (value : Int) : Sem := ⟨value, []⟩

variable {σ : Type*} [Scheduler σ]

/-- `semWait`, up to the call of the scheduler; the flag is `mustBlock`. -/
def semWait (sem : Sem) (s : σ) : Sem × σ × Bool :=
  if sem.value - 1 < 0 then
    (⟨sem.value - 1,
      if hasNode s then sem.blockedQueue ++ [getCurrentPID s] else sem.blockedQueue⟩,
      setCurrentBlocked s, true)
  else (⟨sem.value - 1, sem.blockedQueue⟩, s, false)

/-- The loop of `semPost`. -/
def wakeFirst (value : Int) (s : σ) : List Int → Sem × σ
  | [] => (⟨value, []⟩, s)
  | pid :: queue =>
      if value ≤ 0 then
        match setReady pid s with
        | some s => (⟨value, queue⟩, s)
        | none => wakeFirst (value + 1) s queue
      else (⟨value, pid :: queue⟩, s)

/-- `semPost` -/
def semPost (sem : Sem) (s : σ) : Sem × σ := wakeFirst (sem.value + 1) s sem.blockedQueue

/-- `semTryWait`; the flag is `got == 0`. -/
def semTryWait (sem : Sem) : Sem × Bool :=
  if sem.value > 0 then (⟨sem.value - 1, sem.blockedQueue⟩, true) else (sem, false)

/-! ## The counter and the queue -/

/-- The tokens that are available. -/
def Sem.tokens (sem : Sem) : Nat := sem.value.toNat

/-- Either nobody is queued and the value counts tokens, or there is no token and the
value counts the queue, the dead in it included. -/
structure Sem.Wf (sem : Sem) : Prop where
  empty : sem.blockedQueue = [] → 0 ≤ sem.value
  queued : sem.blockedQueue ≠ [] → sem.value = -sem.blockedQueue.length

namespace Sem.Wf

variable {sem : Sem}

theorem new {value : Int} (h : 0 ≤ value) : (newSemaphore value).Wf :=
  ⟨fun _ ↦ h, fun hne ↦ absurd rfl hne⟩

/-- The counter and the queue make up the tokens. -/
theorem value_add_length (h : sem.Wf) :
    sem.value + sem.blockedQueue.length = sem.tokens := by
  by_cases hq : sem.blockedQueue = []
  · have := h.empty hq
    rw [hq, List.length_nil, tokens]
    omega
  · have := h.queued hq
    rw [tokens]
    omega

/-- A token means that nobody waits. -/
theorem queue_eq_nil (h : sem.Wf) (hpos : 0 < sem.value) : sem.blockedQueue = [] := by
  by_contra hq
  have := h.queued hq
  omega

theorem tokens_eq (h : sem.Wf) (hq : sem.blockedQueue = []) : (sem.tokens : Int) = sem.value :=
  Int.toNat_of_nonneg (h.empty hq)

end Sem.Wf

/-- A well-formed semaphore without tokens, from its queue. -/
def Sem.waiting (queue : List Int) : Sem := ⟨-queue.length, queue⟩

@[simp] theorem Sem.waiting_queue (queue : List Int) : (waiting queue).blockedQueue = queue := rfl

@[simp] theorem Sem.waiting_value (queue : List Int) : (waiting queue).value = -queue.length := rfl

theorem Sem.waiting_wf (queue : List Int) : (waiting queue).Wf :=
  ⟨fun h ↦ by simp [waiting, show queue = [] from h], fun _ ↦ rfl⟩

theorem Sem.free_wf (n : Nat) : (⟨n, []⟩ : Sem).Wf :=
  ⟨fun _ ↦ by simp, fun h ↦ absurd rfl h⟩

section Specs

variable {sem : Sem} {s : σ}

/-- `semWait` takes a token if there is one, and otherwise queues the caller, if there is room
for the node. -/
theorem semWait_spec (h : sem.Wf) (hnode : sem.value ≤ 0 → hasNode s = true) :
    (0 < sem.value ∧ semWait sem s = (⟨sem.value - 1, []⟩, s, false)) ∨
      (sem.value ≤ 0 ∧ semWait sem s =
        (Sem.waiting (sem.blockedQueue ++ [getCurrentPID s]), setCurrentBlocked s, true)) := by
  by_cases hpos : 0 < sem.value
  · refine .inl ⟨hpos, ?_⟩
    rw [semWait, if_neg (by omega), h.queue_eq_nil hpos]
  · refine .inr ⟨by omega, ?_⟩
    have hvalue : sem.value = -sem.blockedQueue.length := by
      by_cases hq : sem.blockedQueue = []
      · have := h.empty hq
        rw [hq, List.length_nil]
        omega
      · exact h.queued hq
    rw [semWait, if_pos (by omega), if_pos (hnode (by omega)), Sem.waiting, List.length_append,
      List.length_singleton, hvalue]
    congr 2
    push_cast
    omega

/-- The loop over a queue that accounts for the missing tokens. -/
theorem wakeFirst_spec (queue : List Int) :
    (∃ dead pid rest s', queue = dead ++ pid :: rest ∧ (∀ d ∈ dead, setReady d s = none) ∧
        setReady pid s = some s' ∧
        wakeFirst (1 - queue.length) s queue = (Sem.waiting rest, s')) ∨
      ((∀ d ∈ queue, setReady d s = none) ∧
        wakeFirst (1 - queue.length) s queue = (⟨1, []⟩, s)) := by
  induction queue with
  | nil => exact .inr ⟨by simp, by simp [wakeFirst]⟩
  | cons pid queue ih =>
      have hvalue : (1 : Int) - (pid :: queue).length = -queue.length := by
        rw [List.length_cons]
        push_cast
        omega
      have hnext : -(queue.length : Int) + 1 = 1 - queue.length := by omega
      rw [hvalue]
      simp only [wakeFirst]
      rw [if_pos (by omega)]
      cases hready : setReady pid s with
      | some s' => exact .inl ⟨[], pid, queue, s', rfl, by simp, hready, rfl⟩
      | none =>
          simp only [hnext]
          rcases ih with ⟨dead, p, rest, s', hqueue, hdead, hp, hloop⟩ | ⟨hdead, hloop⟩
          · refine .inl ⟨pid :: dead, p, rest, s', by rw [hqueue]; rfl, ?_, hp, hloop⟩
            intro d hd
            rcases List.mem_cons.mp hd with rfl | hd
            · exact hready
            · exact hdead d hd
          · refine .inr ⟨?_, hloop⟩
            intro d hd
            rcases List.mem_cons.mp hd with rfl | hd
            · exact hready
            · exact hdead d hd

/-- **A post wakes the longest-waiting pid that `setReady` accepts, and drops the
ones in front of it.**  If `setReady` accepts none, the queue is emptied and there is
one more token than before. -/
theorem semPost_spec (h : sem.Wf) :
    (∃ dead pid rest s', sem.blockedQueue = dead ++ pid :: rest ∧
        (∀ d ∈ dead, setReady d s = none) ∧ setReady pid s = some s' ∧
        semPost sem s = (Sem.waiting rest, s')) ∨
      ((∀ d ∈ sem.blockedQueue, setReady d s = none) ∧
        semPost sem s = (⟨sem.tokens + 1, []⟩, s)) := by
  by_cases hq : sem.blockedQueue = []
  · refine .inr ⟨by simp [hq], ?_⟩
    rw [semPost, hq, wakeFirst, h.tokens_eq hq]
  · have hvalue := h.queued hq
    have htokens : sem.tokens = 0 := by
      rw [Sem.tokens, hvalue]
      omega
    have hstart : sem.value + 1 = 1 - sem.blockedQueue.length := by omega
    rw [semPost, hstart, htokens]
    exact wakeFirst_spec sem.blockedQueue

/-- The loop, whatever the counter: it drops pids that `setReady` refuses from the front of
the queue, as long as there is no token, and stops at the first one that it accepts. -/
theorem wakeFirst_cases (value : Int) (queue : List Int) :
    (∃ dead rest, queue = dead ++ rest ∧ (∀ d ∈ dead, setReady d s = none) ∧
        (rest ≠ [] → 0 < value + dead.length) ∧
        wakeFirst value s queue = (⟨value + dead.length, rest⟩, s)) ∨
      (∃ dead pid rest s', queue = dead ++ pid :: rest ∧ (∀ d ∈ dead, setReady d s = none) ∧
        value + dead.length ≤ 0 ∧ setReady pid s = some s' ∧
        wakeFirst value s queue = (⟨value + dead.length, rest⟩, s')) := by
  induction queue generalizing value with
  | nil => exact .inl ⟨[], [], rfl, by simp, by simp, by simp [wakeFirst]⟩
  | cons pid queue ih =>
      simp only [wakeFirst]
      by_cases hle : value ≤ 0
      · rw [if_pos hle]
        cases hready : setReady pid s with
        | some s' => exact .inr ⟨[], pid, queue, s', rfl, by simp, by simpa, hready, by simp⟩
        | none =>
            have hshift : ∀ dead : List Int,
                value + 1 + dead.length = value + (pid :: dead).length := fun dead ↦ by
              rw [List.length_cons]
              push_cast
              omega
            have hdrop : ∀ dead : List Int, (∀ d ∈ dead, setReady d s = none) →
                ∀ d ∈ pid :: dead, setReady d s = none := fun dead hdead d hd ↦ by
              rcases List.mem_cons.mp hd with rfl | hd
              · exact hready
              · exact hdead d hd
            rcases ih (value + 1) with ⟨dead, rest, hqueue, hdead, hrest, hloop⟩ |
              ⟨dead, p, rest, s', hqueue, hdead, hle', hp, hloop⟩
            · refine .inl ⟨pid :: dead, rest, by rw [hqueue]; rfl, hdrop dead hdead, ?_, ?_⟩
              · rwa [← hshift]
              · rwa [← hshift]
            · refine .inr ⟨pid :: dead, p, rest, s', by rw [hqueue]; rfl, hdrop dead hdead, ?_,
                hp, ?_⟩
              · rwa [← hshift]
              · rwa [← hshift]
      · rw [if_neg hle]
        exact .inl ⟨[], pid :: queue, rfl, by simp, fun _ ↦ by simpa using hle, by simp⟩

/-- `semPost`, whatever the counter. -/
theorem semPost_cases (sem : Sem) (s : σ) :
    (∃ dead rest, sem.blockedQueue = dead ++ rest ∧ (∀ d ∈ dead, setReady d s = none) ∧
        (rest ≠ [] → 0 < sem.value + 1 + dead.length) ∧
        semPost sem s = (⟨sem.value + 1 + dead.length, rest⟩, s)) ∨
      (∃ dead pid rest s', sem.blockedQueue = dead ++ pid :: rest ∧
        (∀ d ∈ dead, setReady d s = none) ∧ sem.value + 1 + dead.length ≤ 0 ∧
        setReady pid s = some s' ∧
        semPost sem s = (⟨sem.value + 1 + dead.length, rest⟩, s')) :=
  wakeFirst_cases (sem.value + 1) sem.blockedQueue

/-- `semTryWait` takes a token if there is one. -/
theorem semTryWait_spec (h : sem.Wf) :
    (0 < sem.value ∧ semTryWait sem = (⟨sem.value - 1, []⟩, true)) ∨
      (sem.value ≤ 0 ∧ semTryWait sem = (sem, false)) := by
  by_cases hpos : 0 < sem.value
  · exact .inl ⟨hpos, by rw [semTryWait, if_pos hpos, h.queue_eq_nil hpos]⟩
  · exact .inr ⟨by omega, by rw [semTryWait, if_neg hpos]⟩

end Specs

theorem Sem.Wf.take {sem : Sem} (hpos : 0 < sem.value) : (⟨sem.value - 1, []⟩ : Sem).Wf :=
  ⟨fun _ ↦ by simp only; omega, fun h ↦ absurd rfl h⟩

/-- `semPost` keeps the counter and the queue in step. -/
theorem semPost_wf {sem : Sem} (h : sem.Wf) (s : σ) : (semPost sem s).1.Wf := by
  rcases semPost_spec (s := s) h with ⟨dead, pid, rest, s', -, -, -, heq⟩ | ⟨-, heq⟩
  · rw [heq]
    exact Sem.waiting_wf _
  · rw [heq]
    exact Sem.free_wf (sem.tokens + 1)

end BareBones.Semaphores
