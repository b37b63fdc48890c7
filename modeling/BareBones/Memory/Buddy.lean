import BareBones.Lib.Run
import BareBones.Lib.Word

/-!
# The buddy memory manager

The model of `memory/memoryManagerBuddy.c`: a lazily split binary tree of
power-of-two blocks, kept in a static pool of `BuddyNode` slots.  Indices into
the pool are `int`s with `-1` for "none"; a recycled slot uses `leftChild` as
the link to the next recycled slot and keeps its other fields as stale data,
exactly as in the source.

The recursive functions descend from a node to its children or climb from a
node to its parent, through indices read from the pool.  Here they take `fuel`,
one unit per level, and running out of it is `none`; that a reachable pool never
runs out is part of what is proved in `BareBones.Memory.BuddyRun`.  The two
mutually recursive pairs of the source, `findAndAllocate` with
`trySplitAndAllocate` and `tryMerge` with `mergeBuddies`, are one recursion each,
the partner taking the recursive call as an argument.
-/

namespace BareBones.Memory.Buddy

open BareBones.Lib

/-- `MIN_ORDER`: the smallest block has `2 ^ 4` bytes. -/
def MIN_ORDER : Nat := 4

/-- `MAX_NODES`: the slots of the pool. -/
def MAX_NODES : Int := 8192

/-- A slot of the pool. -/
structure BuddyNode where
  /-- Whether the whole subtree is free. -/
  isFree : Bool
  /-- The block has `2 ^ order` bytes. -/
  order : Nat
  /-- Displacement from `minAddress`. -/
  offset : Nat
  leftChild : Int
  rightChild : Int
  /-- The parent, or `-1` at the root and in recycled slots. -/
  parent : Int
deriving DecidableEq, Repr

/-- The statics of the manager. -/
structure Manager where
  minAddress : Nat
  totalSize : Nat
  maxOrder : Nat
  nodes : Int → BuddyNode
  nodeCount : Int
  rootIndex : Int
  /-- Head of the list of recycled slots, or `-1`. -/
  firstFreeNode : Int

namespace Manager

/-- Overwrite slot `i`. -/
def write (b : Manager) (i : Int) (n : BuddyNode) : Manager :=
  { b with nodes := fun j ↦ if j = i then n else b.nodes j }

/-- `nodes[i].isFree = f` -/
def setFree (b : Manager) (i : Int) (f : Bool) : Manager := b.write i { b.nodes i with isFree := f }

/-- `nodes[i].leftChild = l; nodes[i].rightChild = r` -/
def setChildren (b : Manager) (i l r : Int) : Manager :=
  b.write i { b.nodes i with leftChild := l, rightChild := r }

/-- Give slot `i` back to the pool. -/
def recycle (b : Manager) (i : Int) : Manager :=
  { b.write i { b.nodes i with parent := -1, leftChild := b.firstFreeNode } with
    firstFreeNode := i }

end Manager

/-- `1ULL << k` -/
def shl1 (k : Nat) : Nat := u64 (2 ^ k)

/-- The loop of `log2Int`; a 64-bit argument takes at most 64 rounds. -/
def log2Go : Nat → Nat → Nat → Nat
  | 0, _, r => r
  | fuel + 1, n, r => if n > 1 then log2Go fuel (n >>> 1) (r + 1) else r

/-- `log2Int` -/
def log2Int (n : Nat) : Nat := log2Go 64 n 0

/-- `createNode`: take a recycled slot if there is one, else the next fresh one;
`-1` when the pool is exhausted. -/
def createNode (b : Manager) (order offset : Nat) (parentIdx : Int) : Manager × Int :=
  let fresh : BuddyNode := ⟨true, order, offset, -1, -1, parentIdx⟩
  if b.firstFreeNode ≠ -1 then
    let idx := b.firstFreeNode
    ({ b with firstFreeNode := (b.nodes idx).leftChild }.write idx fresh, idx)
  else if b.nodeCount ≥ MAX_NODES then (b, -1)
  else
    let idx := b.nodeCount
    ({ b with nodeCount := b.nodeCount + 1 }.write idx fresh, idx)

/-- `splitNode`: `0` on success (or if already split), `-1` on failure. -/
def splitNode (b : Manager) (nodeIdx : Int) : Manager × Int :=
  if nodeIdx < 0 ∨ nodeIdx ≥ b.nodeCount then (b, -1)
  else if (b.nodes nodeIdx).order ≤ MIN_ORDER then (b, -1)
  else if (b.nodes nodeIdx).leftChild ≠ -1 then (b, 0)
  else
    let childOrder := (b.nodes nodeIdx).order - 1
    let childSize := shl1 childOrder
    let offset := (b.nodes nodeIdx).offset
    let (b, leftIdx) := createNode b childOrder offset nodeIdx
    if leftIdx < 0 then (b, -1)
    else
      let (b, rightIdx) := createNode b childOrder (u64 (offset + childSize)) nodeIdx
      if rightIdx < 0 then (b.recycle leftIdx, -1)
      else (b.setChildren nodeIdx leftIdx rightIdx, 0)

/-- The loop of `mem_init` that finds the largest order that fits. -/
def maxOrderGo (size capacity : Nat) : Nat → Nat → Nat
  | 0, order => order
  | fuel + 1, order =>
      if shl1 (order + 1) ≤ size ∧ order < capacity then maxOrderGo size capacity fuel (order + 1)
      else order

/-- `mem_init` -/
def mem_init (nodes : Int → BuddyNode) (rootIndex : Int) (startInclusive size : Nat) : Manager :=
  let maxOrder := maxOrderGo size (log2Int size) 64 MIN_ORDER
  let b : Manager :=
    { minAddress := startInclusive, totalSize := size, maxOrder := maxOrder, nodes := nodes
      nodeCount := 0, rootIndex := rootIndex, firstFreeNode := -1 }
  let (b, root) := createNode b (maxOrder % 256) 0 (-1)
  { b with rootIndex := root }

/-- The loop of `getOrder`. -/
def getOrderGo (size maxOrder : Nat) : Nat → Nat → Nat
  | 0, order => order
  | fuel + 1, order =>
      if shl1 order < size ∧ order < maxOrder then getOrderGo size maxOrder fuel (order + 1)
      else order

/-- `getOrder`: the least order that covers `size`, clamped to `maxOrder`. -/
def getOrder (b : Manager) (size : Nat) : Nat := getOrderGo size b.maxOrder 64 MIN_ORDER

/-- `updateNodeStatus` -/
def updateNodeStatus (b : Manager) (nodeIdx : Int) : Manager :=
  if nodeIdx < 0 ∨ nodeIdx ≥ b.nodeCount then b
  else if (b.nodes nodeIdx).leftChild = -1 then b
  else
    let leftIdx := (b.nodes nodeIdx).leftChild
    let rightIdx := (b.nodes nodeIdx).rightChild
    b.setFree nodeIdx ((b.nodes leftIdx).isFree && (b.nodes rightIdx).isFree)

/-- `tryAllocateExactSize` -/
def tryAllocateExactSize (b : Manager) (nodeIdx : Int) (requiredOrder : Nat) : Manager × Int :=
  if (b.nodes nodeIdx).order = requiredOrder ∧ (b.nodes nodeIdx).leftChild = -1 then
    if !(b.nodes nodeIdx).isFree then (b, -1) else (b.setFree nodeIdx false, nodeIdx)
  else (b, -1)

/-- The last lines of `trySplitAndAllocate` and of `findAndAllocate`: search the
left child, then the right one, and refresh the flag of the node on success. -/
def searchChildren (find : Manager → Int → Option (Manager × Int)) (b : Manager) (nodeIdx : Int) :
    Option (Manager × Int) := do
  let (b, result) ← find b (b.nodes nodeIdx).leftChild
  if result ≠ -1 then return (updateNodeStatus b nodeIdx, result)
  let (b, result) ← find b (b.nodes nodeIdx).rightChild
  if result ≠ -1 then return (updateNodeStatus b nodeIdx, result)
  return (b, result)

/-- `trySplitAndAllocate` -/
def trySplitAndAllocate (find : Manager → Int → Option (Manager × Int)) (b : Manager)
    (nodeIdx : Int) :
    Option (Manager × Int) :=
  if !(b.nodes nodeIdx).isFree then some (b, -1)
  else
    let (b, ok) := splitNode b nodeIdx
    if ok < 0 then some (b, -1) else searchChildren find b nodeIdx

/-- `findAndAllocate`: the index of the allocated slot, or `-1`. -/
def findAndAllocate (requiredOrder : Nat) : Nat → Manager → Int → Option (Manager × Int)
  | 0, _, _ => none
  | fuel + 1, b, nodeIdx =>
      if nodeIdx < 0 ∨ nodeIdx ≥ b.nodeCount then some (b, -1)
      else if (b.nodes nodeIdx).order < requiredOrder then some (b, -1)
      else
        let (b, exactResult) := tryAllocateExactSize b nodeIdx requiredOrder
        if exactResult ≠ -1 then some (b, exactResult)
        else if (b.nodes nodeIdx).leftChild = -1 then
          trySplitAndAllocate (findAndAllocate requiredOrder fuel) b nodeIdx
        else searchChildren (findAndAllocate requiredOrder fuel) b nodeIdx

/-- `findNodeByAddress`: the first slot, live or stale, that looks like an
occupied leaf at this address. -/
def findNodeByAddress (b : Manager) (address : Nat) : Int :=
  if address < b.minAddress ∨ address ≥ u64 (b.minAddress + b.totalSize) then -1
  else
    let offset := address - b.minAddress
    match (List.range b.nodeCount.toNat).find? fun i : Nat ↦
        (b.nodes (i : Int)).offset = offset ∧ !(b.nodes (i : Int)).isFree ∧
          (b.nodes (i : Int)).leftChild = -1 with
    | some i => (i : Int)
    | none => -1

/-- `recycleChildNodes` -/
def recycleChildNodes (b : Manager) (leftIdx rightIdx : Int) : Manager :=
  (b.recycle leftIdx).recycle rightIdx

/-- `mergeBuddies` -/
def mergeBuddies (tryMerge : Manager → Int → Option Manager) (b : Manager)
    (parentIdx leftIdx rightIdx : Int) : Option Manager :=
  if (b.nodes leftIdx).isFree ∧ (b.nodes rightIdx).isFree ∧
      (b.nodes leftIdx).leftChild = -1 ∧ (b.nodes rightIdx).leftChild = -1 then
    let b := b.setFree parentIdx true
    let b := recycleChildNodes b leftIdx rightIdx
    let b := b.setChildren parentIdx (-1) (-1)
    tryMerge b parentIdx
  else some b

/-- `tryMerge` -/
def tryMerge : Nat → Manager → Int → Option Manager
  | 0, _, _ => none
  | fuel + 1, b, nodeIdx =>
      if nodeIdx < 0 ∨ nodeIdx ≥ b.nodeCount then some b
      else
        let parentIdx := (b.nodes nodeIdx).parent
        if parentIdx < 0 then some b
        else if (b.nodes parentIdx).leftChild ≥ 0 ∧ (b.nodes parentIdx).rightChild ≥ 0 then
          mergeBuddies (tryMerge fuel) b parentIdx
            (b.nodes parentIdx).leftChild (b.nodes parentIdx).rightChild
        else some b

/-- `mem_alloc`: the new state and the address, `0` for `NULL`. -/
def mem_alloc (b : Manager) (bytes : Nat) : Option (Manager × Nat) :=
  if bytes = 0 then some (b, 0)
  else do
    let requiredOrder := getOrder b bytes % 256
    let (b, nodeIdx) ← findAndAllocate requiredOrder (b.maxOrder + 1) b b.rootIndex
    if nodeIdx < 0 then return (b, 0)
    return (b, u64 (b.minAddress + (b.nodes nodeIdx).offset))

/-- `mem_free` -/
def mem_free (b : Manager) (chunkStart : Nat) : Option Manager :=
  if chunkStart = 0 then some b
  else
    let nodeIdx := findNodeByAddress b chunkStart
    if nodeIdx < 0 then some b
    else
      let b := b.setFree nodeIdx true
      let parentIdx := (b.nodes nodeIdx).parent
      let b := if parentIdx ≥ 0 then updateNodeStatus b parentIdx else b
      tryMerge (b.maxOrder + 1) b nodeIdx

/-- The counters `countLeafNodes` accumulates. -/
structure LeafCount where
  allocatedCount : Nat
  allocatedMemory : Nat
  freeCount : Nat
  freeMemory : Nat
deriving DecidableEq, Repr

/-- `countLeafNodes` -/
def countLeafNodes : Nat → Manager → Int → LeafCount → Option LeafCount
  | 0, _, _, _ => none
  | fuel + 1, b, nodeIdx, c =>
      if nodeIdx < 0 ∨ nodeIdx ≥ b.nodeCount then some c
      else if (b.nodes nodeIdx).parent = -1 ∧ nodeIdx ≠ b.rootIndex then some c
      else if (b.nodes nodeIdx).leftChild = -1 then
        let blockSize := shl1 (b.nodes nodeIdx).order
        some (if (b.nodes nodeIdx).isFree then
            { c with freeCount := u64 (c.freeCount + 1)
                     freeMemory := u64 (c.freeMemory + blockSize) }
          else
            { c with allocatedCount := u64 (c.allocatedCount + 1)
                     allocatedMemory := u64 (c.allocatedMemory + blockSize) })
      else do
        let c ← countLeafNodes fuel b (b.nodes nodeIdx).leftChild c
        countLeafNodes fuel b (b.nodes nodeIdx).rightChild c

/-- `MemoryInfo` -/
structure MemoryInfo where
  total : Nat
  occupied : Nat
  free : Nat
  fragments : Nat
deriving DecidableEq, Repr

/-- `mem_status` -/
def mem_status (b : Manager) : Option MemoryInfo :=
  (countLeafNodes (b.maxOrder + 1) b b.rootIndex ⟨0, 0, 0, 0⟩).map fun c ↦
    ⟨b.totalSize, c.allocatedMemory, c.freeMemory, c.freeCount⟩

/-! ## Runs of the manager -/

/-- A call into the manager. -/
inductive Op
  /-- `mem_alloc(bytes)` -/
  | alloc (bytes : Nat)
  /-- `mem_free(chunkStart)` -/
  | free (chunkStart : Nat)
deriving DecidableEq, Repr

/-- The manager and the pointers handed out and not yet released. -/
structure State where
  buddy : Manager
  live : List Nat

/-- The state after `mem_init`; the pool holds whatever was there before. -/
def State.init (nodes : Int → BuddyNode) (rootIndex : Int) (start size : Nat) : State :=
  { buddy := mem_init nodes rootIndex start size, live := [] }

/-- One call. -/
def step (s : State) : Op → Option State
  | .alloc bytes => (mem_alloc s.buddy bytes).map fun r ↦
      { buddy := r.1, live := if r.2 = 0 then s.live else r.2 :: s.live }
  | .free chunkStart => (mem_free s.buddy chunkStart).map fun b ↦
      { buddy := b, live := s.live.erase chunkStart }

/-- Any 64-bit argument is a call. -/
def Valid (_ : State) : Op → Prop
  | .alloc bytes => bytes < 2 ^ 64
  | .free chunkStart => chunkStart < 2 ^ 64

end BareBones.Memory.Buddy
