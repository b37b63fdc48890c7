import BareBones.Lib.Blocks
import Mathlib.Data.List.Nodup
import Mathlib.Data.List.Perm.Subperm

/-!
# The linked queue

`queue.c`: a queue is a header with the first node, the last node and a count, and a chain of
nodes, all of them blocks of the heap.  Every operation updates the three fields and the links
one by one.

The operations are programs on `BareBones.Lib.Blocks`, so any node may be refused, and a load
or a free of a block that is not allocated is no step.  The `count` is an unbounded number:
the heap has 256 MiB, and no more than `2 ^ 24` nodes.

**Key results**:
- `runs_removeNodeFromQueue`: taking out one node, wherever it stands, leaves the queue of the
  others.
- `runs_removeFromQueue`: the one pass takes out the nodes with an equal pid and keeps the
  others in their order.
- `queue_refines`: after any operations in any order, with any failures, the chain is the one
  of the nodes of a list, from the first to the last, the count is its length, the results are
  those of the operations on the list, and **nothing else is left on the heap**.
-/

namespace BareBones.Process.LinkedQueue

open BareBones.Lib BareBones.Lib.Blocks

/-! ## The code -/

/-- A pointer to a block; `none` is `NULL`. -/
abbrev Ptr := Option Nat

/-- `Node`; `data` is a `void *`. -/
structure Node where
  data : UInt64
  tail : Ptr

/-- `queueCDT` -/
structure QueueCDT where
  first : Ptr
  last : Ptr
  count : Int

/-- What the blocks hold. -/
inductive Obj
  | node (x : Node)
  | queue (c : QueueCDT)

/-- The programs of this module. -/
abbrev M := BlockM Obj

/-- `*node` -/
def nodeOf : Ptr → M Node
  | none => failure
  | some b => do
      match ← load b with
      | .node x => pure x
      | .queue _ => failure

/-- `*queue` -/
def queueOf : Ptr → M QueueCDT
  | none => failure
  | some b => do
      match ← load b with
      | .queue c => pure c
      | .node _ => failure

/-- `*node = x` -/
def setNode : Ptr → Node → M Unit
  | none, _ => failure
  | some b, x => store b (.node x)

/-- `*queue = c` -/
def setQueue : Ptr → QueueCDT → M Unit
  | none, _ => failure
  | some b, c => store b (.queue c)

/-- Assign to fields of a node. -/
def modifyNode (node : Ptr) (f : Node → Node) : M Unit := do
  let x ← nodeOf node
  setNode node (f x)

/-- Assign to fields of a queue. -/
def modifyQueue (queue : Ptr) (f : QueueCDT → QueueCDT) : M Unit := do
  let c ← queueOf queue
  setQueue queue (f c)

/-- `mem_free` of a node. -/
def mem_free : Ptr → M Unit
  | none => pure ()
  | some b => free b

/-- `getQueueSize` -/
def getQueueSize : Ptr → M Int
  | none => pure 0
  | some q => do
      let c ← queueOf (some q)
      pure c.count

/-- `isQueueEmpty` -/
def isQueueEmpty (queue : Ptr) : M Bool := do
  let size ← getQueueSize queue
  pure (size = 0)

/-- `newQueue` -/
def newQueue : M Ptr := alloc (.queue ⟨none, none, 0⟩)

/-- The two ways in which `enqueue` puts a node at the end. -/
def appendNode (queue newNode : Ptr) : M Unit := do
  if ← isQueueEmpty queue then
    modifyQueue queue fun c ↦ { c with first := newNode, last := newNode }
  else
    let c ← queueOf queue
    modifyNode c.last fun x ↦ { x with tail := newNode }
    modifyQueue queue fun c ↦ { c with last := newNode }

/-- `enqueue` -/
def enqueue (queue : Ptr) (elementToAdd : UInt64) : M Int := do
  match ← alloc (.node ⟨elementToAdd, none⟩) with
  | none => pure 0
  | some newNode =>
      appendNode queue newNode
      modifyQueue queue fun c ↦ { c with count := c.count + 1 }
      pure 1

/-- The last node is gone: `if (queue->count == 0) queue->last = NULL`. -/
def clearLast (queue : Ptr) : M Unit := do
  let c ← queueOf queue
  if c.count = 0 then modifyQueue queue fun c ↦ { c with last := none } else pure ()

/-- `pollQueue` -/
def pollQueue (queue : Ptr) : M UInt64 := do
  if ← isQueueEmpty queue then pure 0
  else
    let c ← queueOf queue
    let x ← nodeOf c.first
    mem_free c.first
    modifyQueue queue fun c ↦ { c with first := x.tail }
    modifyQueue queue fun c ↦ { c with count := c.count - 1 }
    clearLast queue
    pure x.data

/-- What pointed to a node that goes points to the next one: the header or the node before. -/
def linkPast (queue previousNode nextNode : Ptr) : M Unit :=
  if previousNode = none then modifyQueue queue fun c ↦ { c with first := nextNode }
  else modifyNode previousNode fun x ↦ { x with tail := nextNode }

/-- `if (nodeToRemove == queue->last) queue->last = previousNode` -/
def moveLast (queue nodeToRemove previousNode : Ptr) : M Unit := do
  let c ← queueOf queue
  if nodeToRemove = c.last then modifyQueue queue fun c ↦ { c with last := previousNode }
  else pure ()

/-- `removeNodeFromQueue` -/
def removeNodeFromQueue (queue nodeToRemove previousNode nextNode : Ptr) : M Unit := do
  linkPast queue previousNode nextNode
  moveLast queue nodeToRemove previousNode
  mem_free nodeToRemove
  modifyQueue queue fun c ↦ { c with count := c.count - 1 }

/-- The loop of `removeFromQueue`, for at most so many nodes. -/
def removeLoop (queue : Ptr) (elementToRemove : UInt64) (compare : UInt64 → UInt64 → Int) :
    (turns : Nat) → (previousNode currentNode : Ptr) → (removedCount : Int) → M Int
  | 0, _, _, _ => failure
  | turns + 1, previousNode, currentNode, removedCount =>
      if currentNode = none then pure removedCount
      else do
        let x ← nodeOf currentNode
        if compare elementToRemove x.data = 0 then
          removeNodeFromQueue queue currentNode previousNode x.tail
          removeLoop queue elementToRemove compare turns previousNode x.tail (removedCount + 1)
        else removeLoop queue elementToRemove compare turns currentNode x.tail removedCount

/-- The queue is empty: `if (isQueueEmpty(queue)) queue->first = queue->last = NULL`. -/
def clearEmpty (queue : Ptr) : M Unit := do
  if ← isQueueEmpty queue then modifyQueue queue fun c ↦ { c with first := none, last := none }
  else pure ()

/-- `removeFromQueue`.  A loop that takes more turns than blocks have ever been requested goes
round in circles, and is no step. -/
def removeFromQueue (queue : Ptr) (elementToRemove : UInt64)
    (compare : Option (UInt64 → UInt64 → Int)) : M Int :=
  match queue, compare with
  | some q, some compare => do
      let c ← queueOf (some q)
      let removedCount ← fun h ↦
        removeLoop (some q) elementToRemove compare (h.calls + 1) none c.first 0 h
      clearEmpty (some q)
      pure removedCount
  | _, _ => pure 0

/-- `(pid_t)(intptr_t)e` -/
def pidOf (e : UInt64) : Int16 := e.toInt64.toInt16

/-- `comparePIDs` -/
def comparePIDs (e1 e2 : UInt64) : Int := (pidOf e1).toInt - (pidOf e2).toInt

/-! ## The list -/

/-- An operation on a queue. -/
inductive Op
  | enqueue (e : UInt64)
  | pollQueue
  | removeFromQueue (e : UInt64)

/-- What an operation returns. -/
inductive Result
  | int (r : Int)
  | ptr (e : UInt64)
  deriving DecidableEq

/-- An operation of the code, with `comparePIDs`. -/
def Op.run (queue : Ptr) : Op → M Result
  | .enqueue e => do
      let r ← LinkedQueue.enqueue queue e
      pure (.int r)
  | .pollQueue => do
      let r ← LinkedQueue.pollQueue queue
      pure (.ptr r)
  | .removeFromQueue e => do
      let r ← LinkedQueue.removeFromQueue queue e (some comparePIDs)
      pure (.int r)

/-- A sequence of operations of the code. -/
def runAll (queue : Ptr) : List Op → M (List Result)
  | [] => pure []
  | op :: ops => do
      let r ← op.run queue
      let rs ← runAll queue ops
      pure (r :: rs)

/-- What an operation is on a list; `granted` tells whether a node is to be had. -/
def Op.spec (granted : Bool) (xs : List UInt64) : Op → Result × List UInt64
  | .enqueue e => if granted then (.int 1, xs ++ [e]) else (.int 0, xs)
  | .pollQueue => (.ptr (xs.head?.getD 0), xs.tail)
  | .removeFromQueue e =>
      (.int (xs.countP (pidOf · = pidOf e)), xs.filter (pidOf · ≠ pidOf e))

/-- The requests for a node that an operation makes. -/
def Op.requests : Op → Nat
  | .enqueue _ => 1
  | .pollQueue | .removeFromQueue _ => 0

/-- A sequence of operations on a list, from the request `n` on. -/
def specAll (refuses : Nat → Bool) : (n : Nat) → List UInt64 → List Op → List Result × List UInt64
  | _, xs, [] => ([], xs)
  | n, xs, op :: ops =>
      let (r, xs) := op.spec (!refuses n) xs
      let (rs, xs) := specAll refuses (n + op.requests) xs ops
      (r :: rs, xs)

/-! ## The queue of a list -/

/-- A list of nodes, each with its block and its data. -/
abbrev Nodes := List (Nat × UInt64)

/-- The first block of a chain that goes on at `stop`. -/
def start : Nodes → Ptr → Ptr
  | [], stop => stop
  | (b, _) :: _, _ => some b

/-- The last block of a chain. -/
def last (ns : Nodes) : Ptr := ns.getLast?.map Prod.fst

/-- The blocks of a chain that goes on at `stop`. -/
def chain : Nodes → Ptr → Multiset (Nat × Obj)
  | [], _ => 0
  | (b, d) :: ns, stop => (b, .node ⟨d, start ns stop⟩) ::ₘ chain ns stop

/-- The blocks of a queue. -/
def cells (q : Nat) (ns : Nodes) : Multiset (Nat × Obj) :=
  (q, .queue ⟨start ns none, last ns, ns.length⟩) ::ₘ chain ns none

section Chains

variable {b : Nat} {d : UInt64} {as bs ns : Nodes} {stop : Ptr}

@[simp] theorem start_nil : start [] stop = stop := rfl

@[simp] theorem start_cons : start ((b, d) :: ns) stop = some b := rfl

@[simp] theorem last_singleton : last [(b, d)] = some b := rfl

@[simp] theorem start_append (as bs : Nodes) (stop : Ptr) :
    start (as ++ bs) stop = start as (start bs stop) := by
  rcases as with - | ⟨⟨b, d⟩, as⟩
  · rfl
  · rfl

@[simp] theorem last_append_singleton (ns : Nodes) (b : Nat) (d : UInt64) :
    last (ns ++ [(b, d)]) = some b := by
  simp [last]

@[simp] theorem last_append_cons (as bs : Nodes) (x : Nat × UInt64) :
    last (as ++ x :: bs) = last (x :: bs) := by
  simp [last, List.getLast?_append, List.getLast?_cons]

theorem chain_append (as bs : Nodes) (stop : Ptr) :
    chain (as ++ bs) stop = chain as (start bs stop) + chain bs stop := by
  induction as with
  | nil => exact (Multiset.zero_add _).symm
  | cons x as ih =>
      rcases x with ⟨b, d⟩
      simp only [List.cons_append, chain, start_append, ih, Multiset.cons_add]

/-- The last node of a chain is the one that points to where it goes on. -/
theorem chain_append_singleton (ns : Nodes) (b : Nat) (d : UInt64) (stop : Ptr) :
    chain (ns ++ [(b, d)]) stop = (b, .node ⟨d, stop⟩) ::ₘ chain ns (some b) := by
  rw [chain_append, Multiset.add_comm]
  exact Multiset.singleton_add _ _

theorem map_fst_chain (ns : Nodes) (stop : Ptr) :
    (chain ns stop).map Prod.fst = ns.map Prod.fst := by
  induction ns with
  | nil => rfl
  | cons x ns ih =>
      rcases x with ⟨b, d⟩
      simp [chain, ih]

/-- A chain is empty, or it has a last node. -/
theorem eq_nil_or_append (ns : Nodes) : ns = [] ∨ ∃ as b d, ns = as ++ [(b, d)] := by
  rcases ns.eq_nil_or_concat' with h | ⟨as, ⟨b, d⟩, h⟩
  · exact .inl h
  · exact .inr ⟨as, b, d, h⟩

end Chains

/-! ## One operation -/

section Runs

variable {f : Nat → Bool} {n q b : Nat} {x : Node} {c : QueueCDT} {d e : UInt64}
  {P Q : Multiset (Nat × Obj)} {ks ns : Nodes} {p : Ptr}

theorem runs_nodeOf (hmem : (b, .node x) ∈ P) : Runs f (nodeOf (some b)) n P x n P :=
  (Runs.load hmem).bind (.pure x)

theorem runs_queueOf : Runs f (queueOf (some q)) n ((q, .queue c) ::ₘ P) c n
    ((q, .queue c) ::ₘ P) :=
  (Runs.load (Multiset.mem_cons_self _ _)).bind (.pure c)

theorem runs_modifyQueue (g : QueueCDT → QueueCDT) :
    Runs f (modifyQueue (some q) g) n ((q, .queue c) ::ₘ P) () n ((q, .queue (g c)) ::ₘ P) :=
  runs_queueOf.bind (.store rfl _)

theorem runs_modifyNode (g : Node → Node) (hP : P = (b, .node x) ::ₘ Q) :
    Runs f (modifyNode (some b) g) n P () n ((b, .node (g x)) ::ₘ Q) := by
  subst hP
  exact (runs_nodeOf (Multiset.mem_cons_self _ _)).bind (.store rfl _)

theorem runs_isQueueEmpty : Runs f (isQueueEmpty (some q)) n ((q, .queue c) ::ₘ P)
    (decide (c.count = 0)) n ((q, .queue c) ::ₘ P) :=
  (runs_queueOf.bind (.pure c.count)).bind (.pure _)

/-- A queue that is made has no nodes. -/
theorem runs_newQueue (hn : f n = false) : Runs f newQueue n 0 (some n) (n + 1) (cells n []) :=
  .alloc hn

theorem runs_isQueueEmpty_cells (ns : Nodes) :
    Runs f (isQueueEmpty (some q)) n (cells q ns + P) (decide (ns = [])) n (cells q ns + P) := by
  have hcount : decide (((ns.length : Nat) : Int) = 0) = decide (ns = []) := by
    simp
  rw [← hcount, cells, Multiset.cons_add]
  exact runs_isQueueEmpty

/-! ### `enqueue` -/

/-- The node that is appended becomes the last one. -/
theorem runs_appendNode (ns : Nodes) :
    Runs f (appendNode (some q) (some b)) n (cells q ns + {(b, .node ⟨d, none⟩)}) () n
      ((q, .queue ⟨start (ns ++ [(b, d)]) none, some b, ns.length⟩) ::ₘ
        chain (ns ++ [(b, d)]) none) := by
  refine (runs_isQueueEmpty_cells ns).bind ?_
  rcases eq_nil_or_append ns with rfl | ⟨as, p, e, rfl⟩
  · rw [decide_eq_true rfl, if_pos rfl, cells, Multiset.cons_add]
    refine (runs_modifyQueue _).of_eq rfl ?_
    simp [chain]
  · rw [decide_eq_false (by simp), if_neg Bool.false_ne_true, cells, Multiset.cons_add]
    refine runs_queueOf.bind ?_
    rw [last_append_singleton]
    -- the node that was the last one takes the new one for its tail
    have hlast : (q, .queue ⟨start (as ++ [(p, e)]) none, some p, (as ++ [(p, e)]).length⟩) ::ₘ
        (chain (as ++ [(p, e)]) none + {(b, Obj.node ⟨d, none⟩)})
        = (p, .node ⟨e, none⟩) ::ₘ
          (q, .queue ⟨start (as ++ [(p, e)]) none, some p, (as ++ [(p, e)]).length⟩) ::ₘ
            (chain as (some p) + {(b, .node ⟨d, none⟩)}) := by
      rw [chain_append_singleton, Multiset.cons_add, Multiset.cons_swap]
    refine (runs_modifyNode _ hlast).bind ?_
    rw [Multiset.cons_swap]
    refine (runs_modifyQueue _).of_eq rfl ?_
    rw [chain_append_singleton (as ++ [(p, e)]) b d, chain_append_singleton as p e,
      Multiset.add_comm, Multiset.singleton_add, Multiset.cons_swap (b, _)]
    simp

/-- The element is appended, -/
theorem runs_enqueue (hn : f n = false) (ns : Nodes) :
    Runs f (enqueue (some q) d) n (cells q ns) 1 (n + 1) (cells q (ns ++ [(n, d)])) := by
  refine (Runs.alloc hn).bind ?_
  have happend := runs_appendNode (f := f) (n := n + 1) (q := q) (b := n) (d := d) ns
  rw [Multiset.add_comm, Multiset.singleton_add] at happend
  refine happend.bind ((runs_modifyQueue _).bind ?_)
  refine Runs.of_eq (.pure 1) ?_ rfl
  simp [cells]

/-- or nothing is changed. -/
theorem runs_enqueue_refused (hn : f n = true) (ns : Nodes) :
    Runs f (enqueue (some q) d) n (cells q ns) 0 (n + 1) (cells q ns) :=
  (Runs.refused hn).bind (.pure 0)

/-! ### `pollQueue` -/

theorem runs_pollQueue_nil : Runs f (pollQueue (some q)) n (cells q []) 0 n (cells q []) := by
  have hempty := runs_isQueueEmpty_cells (f := f) (n := n) (q := q) (P := 0) []
  rw [Multiset.add_zero] at hempty
  refine hempty.bind ?_
  rw [decide_eq_true rfl, if_pos rfl]
  exact .pure 0

/-- The last node goes with the first. -/
theorem runs_clearLast (ns : Nodes) (hc : c.count = ns.length)
    (hlast : ns ≠ [] → c.last = last ns) :
    Runs f (clearLast (some q)) n ((q, .queue c) ::ₘ P) () n
      ((q, .queue { c with last := last ns }) ::ₘ P) := by
  refine runs_queueOf.bind ?_
  by_cases hns : ns = []
  · subst hns
    rw [if_pos (by simpa using hc)]
    exact runs_modifyQueue _
  · rw [if_neg (by simp [hc, hns]), ← hlast hns]
    exact .pure ()

/-- The head is taken out and returned. -/
theorem runs_pollQueue_cons (ns : Nodes) :
    Runs f (pollQueue (some q)) n (cells q ((b, d) :: ns)) d n (cells q ns) := by
  have hempty := runs_isQueueEmpty_cells (f := f) (n := n) (q := q) (P := 0) ((b, d) :: ns)
  rw [Multiset.add_zero] at hempty
  refine hempty.bind ?_
  rw [decide_eq_false (by simp), if_neg Bool.false_ne_true]
  refine runs_queueOf.bind ?_
  refine (runs_nodeOf (b := b) (x := ⟨d, start ns none⟩) ?_).bind ?_
  · exact Multiset.mem_cons_of_mem (Multiset.mem_cons_self _ _)
  refine (Runs.free (Multiset.cons_swap _ _ _)).bind ?_
  refine (runs_modifyQueue _).bind ((runs_modifyQueue _).bind ?_)
  refine (runs_clearLast ns ?_ ?_).bind (Runs.of_eq (.pure d) ?_ rfl)
  · simp
  · intro hns
    obtain ⟨x, ns, rfl⟩ := List.exists_cons_of_ne_nil hns
    exact last_append_cons [(b, d)] ns x
  · simp [cells]

/-! ### `removeFromQueue` -/

/-- What pointed to the node points past it, -/
theorem runs_linkPast (ks ns : Nodes) (b : Nat) (d : UInt64) :
    Runs f (linkPast (some q) (last ks) (start ns none)) n (cells q (ks ++ (b, d) :: ns)) () n
      ((q, .queue ⟨start (ks ++ ns) none, last (ks ++ (b, d) :: ns),
        (ks ++ (b, d) :: ns).length⟩) ::ₘ
          (b, .node ⟨d, start ns none⟩) ::ₘ chain (ks ++ ns) none) := by
  rcases eq_nil_or_append ks with rfl | ⟨as, p, e, rfl⟩
  · exact runs_modifyQueue _
  · rw [last_append_singleton]
    -- the block of the node before, in front of the others
    have hbefore : cells q (as ++ [(p, e)] ++ (b, d) :: ns) = (p, .node ⟨e, some b⟩) ::ₘ
        (q, .queue ⟨start (as ++ [(p, e)] ++ ns) none, last (as ++ [(p, e)] ++ (b, d) :: ns),
          (as ++ [(p, e)] ++ (b, d) :: ns).length⟩) ::ₘ
            (b, .node ⟨d, start ns none⟩) ::ₘ (chain as (some p) + chain ns none) := by
      rw [cells, chain_append, start_cons, chain_append_singleton, Multiset.cons_add, chain,
        Multiset.add_cons, Multiset.cons_swap]
      simp
    refine (runs_modifyNode _ hbefore).of_eq rfl ?_
    rw [chain_append, chain_append_singleton, Multiset.cons_add, Multiset.cons_swap (p, _),
      Multiset.cons_swap (p, _)]

theorem mem_blocks_of_last (h : last ns = some b) : b ∈ ns.map Prod.fst := by
  obtain ⟨x, hx, rfl⟩ := Option.map_eq_some_iff.1 h
  exact List.mem_map_of_mem (List.mem_of_getLast? hx)

/-- the last node is the one before, where it was the last, -/
theorem runs_moveLast (ks : Nodes) (hb : b ∉ ns.map Prod.fst)
    (hlast : c.last = last (ks ++ (b, d) :: ns)) :
    Runs f (moveLast (some q) (some b) (last ks)) n ((q, .queue c) ::ₘ P) () n
      ((q, .queue { c with last := last (ks ++ ns) }) ::ₘ P) := by
  refine runs_queueOf.bind ?_
  rcases ns with - | ⟨x, ns⟩
  · rw [hlast, last_append_cons, last_singleton, if_pos rfl, List.append_nil]
    exact runs_modifyQueue _
  · have hsame : last (ks ++ (b, d) :: x :: ns) = last (ks ++ x :: ns) := by
      rw [last_append_cons, last_append_cons]
      exact last_append_cons [(b, d)] ns x
    rw [hlast, hsame, if_neg, ← hsame, ← hlast]
    · exact .pure ()
    · intro heq
      rw [last_append_cons] at heq
      exact hb (mem_blocks_of_last heq.symm)

/-- **and the queue is the one of the other nodes.** -/
theorem runs_removeNodeFromQueue (ks ns : Nodes) (b : Nat) (d : UInt64) :
    Runs f (removeNodeFromQueue (some q) (some b) (last ks) (start ns none)) n
      (cells q (ks ++ (b, d) :: ns)) () n (cells q (ks ++ ns)) := by
  refine .of_owned fun hnodup _ ↦ ?_
  have hb : b ∉ ns.map Prod.fst := by
    rw [cells, Multiset.map_cons, map_fst_chain, Multiset.nodup_cons, Multiset.coe_nodup,
      List.map_append, List.nodup_append] at hnodup
    exact (List.nodup_cons.1 hnodup.2.2.1).1
  refine (runs_linkPast ks ns b d).bind ((runs_moveLast ks hb rfl).bind ?_)
  refine (Runs.free (Multiset.cons_swap _ _ _)).bind ?_
  refine (runs_modifyQueue _).of_eq rfl ?_
  simp [cells]
  omega

/-- The loop: `ks` are the nodes that it has kept, `ns` those that it has still to see. -/
theorem runs_removeLoop (compare : UInt64 → UInt64 → Int) (ns : Nodes) (turns : Nat) (ks : Nodes)
    (r : Int) (hturns : ns.length < turns) :
    Runs f (removeLoop (some q) e compare turns (last ks) (start ns none) r) n
      (cells q (ks ++ ns)) (r + ns.countP fun x ↦ compare e x.2 = 0) n
      (cells q (ks ++ ns.filter fun x ↦ compare e x.2 ≠ 0)) := by
  induction ns generalizing turns ks r with
  | nil =>
      obtain ⟨turns, rfl⟩ := Nat.exists_eq_succ_of_ne_zero (Nat.ne_of_gt hturns)
      rw [removeLoop, start_nil, if_pos rfl]
      simpa using Runs.pure r
  | cons x ns ih =>
      rcases x with ⟨b, d⟩
      obtain ⟨turns, rfl⟩ := Nat.exists_eq_succ_of_ne_zero (Nat.ne_zero_of_lt hturns)
      have hrest : ns.length < turns := Nat.lt_of_succ_lt_succ hturns
      rw [removeLoop, start_cons, if_neg (Option.some_ne_none b)]
      have hmem : (b, .node ⟨d, start ns none⟩) ∈ cells q (ks ++ (b, d) :: ns) := by
        rw [cells, chain_append]
        simp [chain]
      refine (runs_nodeOf hmem).bind ?_
      by_cases hd : compare e d = 0
      · rw [if_pos hd]
        refine (runs_removeNodeFromQueue ks ns b d).bind ?_
        have hloop := ih turns ks (r + 1) hrest
        simp only [List.countP_cons, List.filter_cons, hd]
        simpa [Int.add_assoc, Int.add_comm] using hloop
      · rw [if_neg hd]
        have hloop := ih turns (ks ++ [(b, d)]) r hrest
        simpa [hd] using hloop

theorem runs_clearEmpty (ns : Nodes) :
    Runs f (clearEmpty (some q)) n (cells q ns) () n (cells q ns) := by
  have hempty := runs_isQueueEmpty_cells (f := f) (n := n) (q := q) (P := 0) ns
  rw [Multiset.add_zero] at hempty
  refine hempty.bind ?_
  by_cases hns : ns = []
  · subst hns
    rw [decide_eq_true rfl, if_pos rfl]
    exact runs_modifyQueue _
  · rw [decide_eq_false hns, if_neg Bool.false_ne_true]
    exact .pure ()

/-- There are no more nodes than blocks that have been requested. -/
theorem length_le_of_owned (hnodup : ((cells q ns).map Prod.fst).Nodup)
    (hlt : ∀ b v, (b, v) ∈ cells q ns → b < n) : ns.length ≤ n := by
  rw [cells, Multiset.map_cons, map_fst_chain, Multiset.nodup_cons, Multiset.coe_nodup] at hnodup
  have hsub : ns.map Prod.fst ⊆ List.range n := by
    intro b hb
    have hchain : b ∈ (chain ns none).map Prod.fst := by
      rw [map_fst_chain]
      exact hb
    obtain ⟨⟨b, v⟩, hmem, rfl⟩ := Multiset.mem_map.1 hchain
    exact List.mem_range.2 (hlt b v (Multiset.mem_cons_of_mem hmem))
  simpa using (hnodup.2.subperm hsub).length_le

/-- **One pass takes out the nodes that compare equal**, keeps the others, and counts. -/
theorem runs_removeFromQueue (compare : UInt64 → UInt64 → Int) (ns : Nodes) :
    Runs f (removeFromQueue (some q) e (some compare)) n (cells q ns)
      (ns.countP fun x ↦ compare e x.2 = 0) n
      (cells q (ns.filter fun x ↦ compare e x.2 ≠ 0)) := by
  refine .of_owned fun hnodup hlt ↦ ?_
  have hturns : ns.length < n + 1 := Nat.lt_succ_of_le (length_le_of_owned hnodup hlt)
  have hloop := runs_removeLoop (f := f) (n := n) (q := q) (e := e) compare ns (n + 1) [] 0 hturns
  rw [Int.zero_add] at hloop
  refine runs_queueOf.bind ?_
  refine (Runs.of_calls
    (x := fun m ↦ removeLoop (some q) e compare (m + 1) none (start ns none) 0) hloop).bind ?_
  exact (runs_clearEmpty _).bind (.pure _)

theorem comparePIDs_eq_zero_iff {e1 e2 : UInt64} : comparePIDs e1 e2 = 0 ↔ pidOf e2 = pidOf e1 := by
  rw [comparePIDs, Int.sub_eq_zero, Int16.toInt_inj]
  exact eq_comm

/-! ## Sequences of operations -/

/-- One operation on the queue of a list is the operation on the list. -/
theorem runs_op (op : Op) (ns : Nodes) : ∃ ns' : Nodes,
    Runs f (op.run (some q)) n (cells q ns) (op.spec (!f n) (ns.map Prod.snd)).1
      (n + op.requests) (cells q ns') ∧
        ns'.map Prod.snd = (op.spec (!f n) (ns.map Prod.snd)).2 := by
  cases op with
  | enqueue e =>
      cases hn : f n with
      | true => exact ⟨ns, (runs_enqueue_refused hn ns).bind (.pure _), rfl⟩
      | false => exact ⟨ns ++ [(n, e)], (runs_enqueue hn ns).bind (.pure _), by simp [Op.spec]⟩
  | pollQueue =>
      rcases ns with - | ⟨⟨b, d⟩, ns⟩
      · exact ⟨[], runs_pollQueue_nil.bind (.pure _), rfl⟩
      · exact ⟨ns, (runs_pollQueue_cons ns).bind (.pure _), rfl⟩
  | removeFromQueue e =>
      have hcount : (ns.map Prod.snd).countP (pidOf · = pidOf e)
          = ns.countP fun x ↦ comparePIDs e x.2 = 0 := by
        simp only [List.countP_map, comparePIDs_eq_zero_iff]
        rfl
      refine ⟨ns.filter fun x ↦ comparePIDs e x.2 ≠ 0, ?_, ?_⟩
      · rw [Op.spec, hcount]
        exact (runs_removeFromQueue comparePIDs ns).bind (.pure _)
      · simp only [Op.spec, List.filter_map, ne_eq, comparePIDs_eq_zero_iff]
        rfl

/-- A sequence of operations on the queue of a list is the sequence on the list. -/
theorem runs_runAll (ops : List Op) (n : Nat) (ns : Nodes) : ∃ (n' : Nat) (ns' : Nodes),
    Runs f (runAll (some q) ops) n (cells q ns) (specAll f n (ns.map Prod.snd) ops).1 n'
      (cells q ns') ∧ ns'.map Prod.snd = (specAll f n (ns.map Prod.snd) ops).2 := by
  -- by induction on the operations that are still to come
  induction ops generalizing n ns with
  | nil => exact ⟨n, ns, .pure [], rfl⟩
  | cons op ops ih =>
      obtain ⟨ns₁, hop, hlist⟩ := runs_op (f := f) (n := n) (q := q) op ns
      obtain ⟨n', ns', hops, hlist'⟩ := ih (n + op.requests) ns₁
      rw [hlist] at hops hlist'
      exact ⟨n', ns', hop.bind (hops.bind (.pure _)), hlist'⟩

end Runs

/-! ## The heap -/

/-- The chain from `p` on: each node holds its data and points to the next one, and the last
one points to nothing. -/
def Linked (heap : Nat → Option Obj) : Ptr → Nodes → Prop
  | p, [] => p = none
  | p, (b, d) :: ns => p = some b ∧
      ∃ next, heap b = some (.node ⟨d, next⟩) ∧ Linked heap next ns

/-- On the heap there is a queue with these nodes. -/
structure IsQueue (heap : Nat → Option Obj) (q : Nat) (nodes : Nodes) : Prop where
  /-- The header points to the first and to the last node, and holds their number. -/
  header : ∃ first, heap q = some (.queue ⟨first, last nodes, nodes.length⟩) ∧
    Linked heap first nodes
  /-- The chain is acyclic, and the header is none of its nodes. -/
  distinct : (q :: nodes.map Prod.fst).Nodup

theorem linked_of_chain {heap : Nat → Option Obj} {ns : Nodes}
    (h : ∀ b v, (b, v) ∈ chain ns none → heap b = some v) : Linked heap (start ns none) ns := by
  induction ns with
  | nil => rfl
  | cons x ns ih =>
      rcases x with ⟨b, d⟩
      refine ⟨rfl, start ns none, h b _ (Multiset.mem_cons_self _ _), ih ?_⟩
      intro c v hmem
      exact h c v (Multiset.mem_cons_of_mem hmem)

theorem isQueue_of_owns {base : Nat → Option Obj} {h : Blocks Obj} {q : Nat} {ns : Nodes}
    (ho : Blocks.Owns base (cells q ns) h) : IsQueue h.cells q ns := by
  constructor
  · refine ⟨start ns none, ho.cell _ _ (Multiset.mem_cons_self _ _), ?_⟩
    exact linked_of_chain fun b v hmem ↦ ho.cell b v (Multiset.mem_cons_of_mem hmem)
  · have hnodup := ho.nodup
    rw [cells, Multiset.map_cons, map_fst_chain] at hnodup
    exact hnodup

/-- **The linked queue refines a list.**  If the header is granted, then after any operations,
with any pattern of failures: the results are those of the operations on the list; the queue
on the heap is the one of nodes that hold the list; and every other block is as it was before
the queue was made, so that a node that was taken out has been freed, and freed once, since a
second `mem_free` of it would be no step. -/
theorem queue_refines (h : Blocks Obj) (hfresh : h.Fresh) (hq : h.refuses h.calls = false)
    (ops : List Op) : ∃ h₀ h' nodes results,
      newQueue h = some (some h.calls, h₀) ∧
      runAll (some h.calls) ops h₀ = some (results, h') ∧
      (results, nodes.map Prod.snd) = specAll h.refuses (h.calls + 1) [] ops ∧
      IsQueue h'.cells h.calls nodes ∧
      ∀ b, b ≠ h.calls → b ∉ nodes.map Prod.fst → h'.cells b = h.cells b := by
  obtain ⟨h₀, hnew, hf, hn, ho⟩ := runs_newQueue hq h.cells h rfl rfl (.start h hfresh)
  obtain ⟨n', nodes, hrun, hlist⟩ :=
    runs_runAll (f := h.refuses) (q := h.calls) ops (h.calls + 1) []
  obtain ⟨h', hall, -, -, ho'⟩ := hrun h.cells h₀ hf hn ho
  refine ⟨h₀, h', nodes, _, hnew, hall, Prod.ext rfl hlist, isQueue_of_owns ho', ?_⟩
  intro b hb hnode
  refine ho'.other b fun v hmem ↦ ?_
  rcases Multiset.mem_cons.1 hmem with heq | hmem
  · exact hb (Prod.mk.inj heq).1
  · have hfst := Multiset.mem_map_of_mem Prod.fst hmem
    rw [map_fst_chain] at hfst
    exact hnode hfst

/-- A heap with nothing on it, that refuses its third request. -/
def thirdRefused : Blocks Obj := ⟨fun _ ↦ none, 0, (· == 2)⟩

/-- The second element is refused; the two others have the same pid, and go together. -/
theorem queue_refines_thirdRefused : ∃ h₀ h' nodes results,
    newQueue thirdRefused = some (some 0, h₀) ∧
    runAll (some 0) [.enqueue 5, .enqueue 6, .enqueue 65541, .removeFromQueue 5] h₀
      = some (results, h') ∧
    (results, nodes.map Prod.snd) = ([.int 1, .int 0, .int 1, .int 2], []) ∧
    IsQueue h'.cells 0 nodes ∧
    ∀ b, b ≠ 0 → b ∉ nodes.map Prod.fst → h'.cells b = none :=
  queue_refines thirdRefused (fun _ _ ↦ rfl) rfl _

end BareBones.Process.LinkedQueue
