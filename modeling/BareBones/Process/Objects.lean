import BareBones.Lib.Blocks
import BareBones.Process.Basic
import Mathlib.Algebra.Order.Group.Multiset
import Mathlib.Tactic.Abel

/-!
# The objects of the kernel on the heap

The constructors and destructors of `queue.c` and `semaphore.c`, with every request for memory.
`mem_alloc` is `Blocks.alloc`, which may refuse any request, and `mem_free` is `Blocks.free`,
which has no step for a block that is not allocated.  An `Obj` is what a block holds; a pointer
is the number of a block, and the null pointer is `none`.

The nodes of a queue are the list of their blocks.  What a constructor returns, how many
requests it makes and what it leaves on the heap are functions of the refusals and the number
of its first request (`queueAt`, `semAt`), whether or not it succeeds, so that a sequence of
constructors has one specification for all its failures.
-/

namespace BareBones.Process.Objects

open BareBones.Lib BareBones.Lib.Blocks

/-- A pointer. -/
abbrev Ptr := Option Nat

/-- `processCDT` -/
structure ProcessCDT where
  pid : Int
  ppid : Int
  stackBase : Ptr
  stackSize : Nat
  rip : Nat
  state : State
  name : List UInt8
  priorityLevel : Nat
  remainingQuantums : Nat
  children : Ptr
  terminatedChildren : Ptr
  terminated : Ptr
  childTerminated : Ptr
  argc : Int
  argv : Ptr
  fdTable : Nat → Ptr
  eofRequests : Nat → Bool

/-- `pipeCDT` -/
structure PipeCDT where
  buffer : Ptr
  dataAvailable : Ptr
  freeSpaces : Ptr
  readMutex : Ptr
  writeMutex : Ptr
  refCount : Int
  writerCount : Int

/-- `fileAccessCDT` -/
structure FileAccessCDT where
  pipe : Ptr
  flags : UInt8
  refCount : Int

/-- What a block holds. -/
inductive Obj
  | node (data : Int)
  | queue (nodes : List Nat)
  | sem (value : Int) (blockedQueue : Ptr)
  | stack
  | array (entries : List Ptr)
  | str (chars : List UInt8)
  | process (p : ProcessCDT)
  | bytes
  | buffer (data : Ptr) (maxSize : Nat)
  | pipe (p : PipeCDT)
  | file (f : FileAccessCDT)

/-- A function of the kernel that uses the heap. -/
abbrev K := BlockM Obj

/-- `mem_free` -/
def mem_free : Ptr → K Unit
  | none => pure ()
  | some b => free b

/-- The fields of a process. -/
def processOf (process : Nat) : K ProcessCDT := do
  match ← load process with
  | .process p => pure p
  | _ => failure

/-! ## Queues -/

/-- The nodes of a queue. -/
def nodesOf (q : Nat) : K (List Nat) := do
  match ← load q with
  | .queue nodes => pure nodes
  | _ => failure

/-- `newQueue` -/
def newQueue : K Ptr := alloc (.queue [])

/-- `isQueueEmpty` -/
def isQueueEmpty : Ptr → K Bool
  | none => pure true
  | some q => do return (← nodesOf q).isEmpty

/-- `freeQueue` -/
def freeQueue : Ptr → K Unit
  | none => pure ()
  | some q => do
      (← nodesOf q).forM free
      free q

/-! ## Semaphores -/

/-- The fields of a semaphore. -/
def semOf (s : Nat) : K (Int × Ptr) := do
  match ← load s with
  | .sem value blockedQueue => pure (value, blockedQueue)
  | _ => failure

/-- `newSemaphore` -/
def newSemaphore (value : Int) : K Ptr := do
  match ← alloc (.sem value none) with
  | none => pure none
  | some sem => do
      let blockedQueue ← newQueue
      if blockedQueue = none then do
        free sem
        pure none
      else do
        store sem (.sem value blockedQueue)
        pure (some sem)

/-- `freeSemaphore`, which does nothing if processes wait. -/
def freeSemaphore : Ptr → K Unit
  | none => pure ()
  | some sem => do
      let (_, blockedQueue) ← semOf sem
      if !(← isQueueEmpty blockedQueue) then pure ()
      else do
        freeQueue blockedQueue
        free sem

/-! ## What is on the heap -/

/-- A block that is allocated in `h'` and was not in `h`. -/
def New (h h' : Blocks Obj) (b : Nat) : Prop := h.cells b = none ∧ h'.cells b ≠ none

/-- An empty queue. -/
def IsQueue (h : Blocks Obj) (q : Ptr) : Prop := ∃ b, q = some b ∧ h.cells b = some (.queue [])

/-- A semaphore that nobody waits on. -/
def IsSem (h : Blocks Obj) (value : Int) (s : Ptr) : Prop :=
  ∃ b q, s = some b ∧ h.cells b = some (.sem value q) ∧ IsQueue h q

theorem IsQueue.ne_none {h : Blocks Obj} {q : Ptr} (hq : IsQueue h q) : q ≠ none := by
  obtain ⟨b, rfl, -⟩ := hq
  exact Option.some_ne_none b

theorem IsSem.ne_none {h : Blocks Obj} {value : Int} {s : Ptr} (hs : IsSem h value s) :
    s ≠ none := by
  obtain ⟨b, q, rfl, -⟩ := hs
  exact Option.some_ne_none b

/-! ## What the constructors leave on the heap -/

/-- The blocks of nodes with their data. -/
def nodeCells (nodes : List (Nat × Int)) : Multiset (Nat × Obj) :=
  (nodes.map fun x ↦ (x.1, Obj.node x.2) : List (Nat × Obj))

theorem nodeCells_cons (x : Nat × Int) (nodes : List (Nat × Int)) :
    nodeCells (x :: nodes) = (x.1, .node x.2) ::ₘ nodeCells nodes := rfl

/-- The blocks of a queue. -/
def queueCells : Ptr → List (Nat × Int) → Multiset (Nat × Obj)
  | none, _ => 0
  | some q, nodes => (q, .queue (nodes.map Prod.fst)) ::ₘ nodeCells nodes

/-- The blocks of a semaphore that nobody waits on. -/
def semCells : Ptr → Int → Ptr → Multiset (Nat × Obj)
  | none, _, _ => 0
  | some sem, value, blockedQueue => (sem, .sem value blockedQueue) ::ₘ queueCells blockedQueue []

/-- The queue that the request `n` is for. -/
def queueAt (f : Nat → Bool) (n : Nat) : Ptr := if f n then none else some n

/-- The semaphore that the requests from `n` on are for. -/
def semAt (f : Nat → Bool) (n : Nat) : Ptr := if f n || f (n + 1) then none else some n

/-- How many requests they are: the queue is not requested if the semaphore is refused. -/
def semCalls (f : Nat → Bool) (n : Nat) : Nat := if f n then 1 else 2

variable {f : Nat → Bool} {n : Nat} {P : Multiset (Nat × Obj)} {q s : Ptr} {value : Int}
  {nodes : List (Nat × Int)} {ids : List Nat} {b : Nat}

theorem isQueue_of {h : Blocks Obj} (hq : q ≠ none)
    (hcells : ∀ x ∈ queueCells q [], h.cells x.1 = some x.2) : IsQueue h q := by
  cases q with
  | none => exact absurd rfl hq
  | some q => exact ⟨q, rfl, hcells (q, .queue []) (Multiset.mem_cons_self _ (nodeCells []))⟩

theorem isSem_of {h : Blocks Obj} (hs : s ≠ none)
    (hcells : ∀ x ∈ semCells s value (some b), h.cells x.1 = some x.2) : IsSem h value s := by
  cases s with
  | none => exact absurd rfl hs
  | some s =>
      have hsem : (s, Obj.sem value (some b)) ∈ semCells (some s) value (some b) :=
        Multiset.mem_cons_self _ (queueCells (some b) [])
      refine ⟨s, some b, rfl, hcells _ hsem, isQueue_of (Option.some_ne_none b) ?_⟩
      exact fun x hx ↦ hcells x (Multiset.mem_cons_of_mem hx)

theorem runs_processOf {p : ProcessCDT} (hmem : (b, .process p) ∈ P) :
    Runs f (processOf b) n P p n P := (Runs.load hmem).bind (.pure p)

theorem runs_newQueue :
    Runs f newQueue n P (queueAt f n) (n + 1) (queueCells (queueAt f n) [] + P) := by
  rw [queueAt]
  cases hn : f n with
  | true => exact (Runs.refused hn).of_eq rfl (zero_add P)
  | false => exact Runs.alloc hn

theorem runs_nodesOf (hmem : (b, .queue ids) ∈ P) : Runs f (nodesOf b) n P ids n P :=
  (Runs.load hmem).bind (.pure _)

theorem runs_isQueueEmpty :
    Runs f (isQueueEmpty q) n (queueCells q nodes + P) (q.isNone || nodes.isEmpty) n
      (queueCells q nodes + P) := by
  cases q with
  | none => exact .pure true
  | some q =>
      have hmem : (q, Obj.queue (nodes.map Prod.fst)) ∈ queueCells (some q) nodes + P := by
        rw [queueCells, Multiset.cons_add]
        exact Multiset.mem_cons_self _ _
      refine Runs.bind (runs_nodesOf hmem) ?_
      rw [List.isEmpty_map]
      exact .pure _

/-- The nodes of a queue are freed one after the other. -/
theorem runs_freeNodes :
    Runs f ((nodes.map Prod.fst).forM free) n (nodeCells nodes + P) () n P := by
  induction nodes with
  | nil => exact (Runs.pure ()).of_eq (zero_add P) rfl
  | cons x nodes ih =>
      refine Runs.bind (Runs.free (v := .node x.2) (Q := nodeCells nodes + P) ?_) ih
      rw [nodeCells_cons, Multiset.cons_add]

theorem runs_freeQueue : Runs f (freeQueue q) n (queueCells q nodes + P) () n P := by
  cases q with
  | none => exact (Runs.pure ()).of_eq (zero_add P) rfl
  | some q =>
      have hmem : (q, Obj.queue (nodes.map Prod.fst)) ∈ queueCells (some q) nodes + P := by
        rw [queueCells, Multiset.cons_add]
        exact Multiset.mem_cons_self _ _
      have hcells : queueCells (some q) nodes + P =
          nodeCells nodes + (q, Obj.queue (nodes.map Prod.fst)) ::ₘ P := by
        rw [queueCells, Multiset.cons_add, Multiset.add_cons]
      refine Runs.bind (runs_nodesOf hmem) ?_
      exact Runs.bind (Runs.of_eq runs_freeNodes hcells rfl) (Runs.free rfl)

theorem runs_newSemaphore :
    Runs f (newSemaphore value) n P (semAt f n) (n + semCalls f n)
      (semCells (semAt f n) value (some (n + 1)) + P) := by
  rw [semAt, semCalls]
  cases hn : f n with
  | true => exact (Runs.refused hn).bind (.of_eq (.pure none) rfl (zero_add P))
  | false =>
      refine (Runs.alloc hn).bind (runs_newQueue.bind ?_)
      rw [queueAt]
      cases hq : f (n + 1) with
      | true => exact (Runs.free (zero_add _)).bind (.of_eq (.pure none) rfl (zero_add P))
      | false =>
          have hcells : queueCells (some (n + 1)) [] + (n, Obj.sem value none) ::ₘ P =
              (n, Obj.sem value none) ::ₘ (queueCells (some (n + 1)) [] + P) :=
            Multiset.add_cons _ _ _
          simp only [Bool.false_eq_true, reduceIte, Bool.or_self]
          refine (Runs.store hcells _).bind (.of_eq (.pure (some n)) rfl ?_)
          rw [semCells, Multiset.cons_add]

theorem runs_semOf {blockedQueue : Ptr} (hmem : (b, .sem value blockedQueue) ∈ P) :
    Runs f (semOf b) n P (value, blockedQueue) n P :=
  (Runs.load hmem).bind (.pure _)

theorem runs_freeSemaphore {blockedQueue : Ptr} :
    Runs f (freeSemaphore s) n (semCells s value blockedQueue + P) () n P := by
  cases s with
  | none => exact (Runs.pure ()).of_eq (zero_add P) rfl
  | some sem =>
      have hcells : semCells (some sem) value blockedQueue + P =
          queueCells blockedQueue [] + (sem, Obj.sem value blockedQueue) ::ₘ P := by
        rw [semCells, Multiset.cons_add, Multiset.add_cons]
      have hmem : (sem, Obj.sem value blockedQueue) ∈
          semCells (some sem) value blockedQueue + P := by
        rw [semCells, Multiset.cons_add]
        exact Multiset.mem_cons_self _ _
      refine (runs_semOf hmem).bind (Runs.bind (Runs.of_eq runs_isQueueEmpty hcells rfl) ?_)
      rw [List.isEmpty_nil, Bool.or_true]
      exact runs_freeQueue.bind (.free rfl)

end BareBones.Process.Objects
