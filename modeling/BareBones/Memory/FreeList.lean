import BareBones.Lib.Run
import BareBones.Lib.Word

/-!
# The free-list memory manager

The model of `memory/memoryManager.c`: first-fit allocation over a doubly
linked list of physical blocks, with splitting on allocation and two-sided
coalescing on release.

The list lives in memory, so the heap is a map `mem` from addresses to the
`Block` header found there; a header that a merge swallowed stays in `mem` as
stale data, just as it does in the real memory.  Addresses and sizes are
64-bit words, and `NULL` is address `0`.

The two `for` loops of the source follow `next` until `NULL`.  Here they take
`fuel`, and running out of it is `none`: that this never happens in a reachable
heap is part of what is proved in `BareBones.Memory.FreeListRun`.
-/

namespace BareBones.Memory.FreeList

open BareBones.Lib

/-- The header in front of every physical block. -/
structure Block where
  /-- Payload size in bytes, without the header. -/
  size : Nat
  /-- Whether the block is free. -/
  free : Bool
  /-- The physically previous block, or `NULL`. -/
  prev : Nat
  /-- The physically next block, or `NULL`. -/
  next : Nat
deriving DecidableEq, Repr

/-- `ALIGNMENT` -/
def ALIGNMENT : Nat := 8

/-- `HEADER_SIZE`, i.e. `sizeof(Block)`: an 8-byte size, a flag padded to 8
bytes and two pointers. -/
def HEADER_SIZE : Nat := 32

/-- `MEM_HEAP_START` -/
def MEM_HEAP_START : Nat := 0x1000000

/-- `MEM_HEAP_SIZE`: 256 MiB. -/
def MEM_HEAP_SIZE : Nat := 256 * 1024 * 1024

/-- The statics of the manager together with the headers in memory. -/
structure Heap where
  /-- The first block, or `NULL` before `mem_init`. -/
  baseBlock : Nat
  /-- The size given to `mem_init`. -/
  totalBytes : Nat
  /-- The header found at each address. -/
  mem : Nat → Block

namespace Heap

/-- Overwrite the header at `a`. -/
def write (h : Heap) (a : Nat) (b : Block) : Heap :=
  { h with mem := fun x ↦ if x = a then b else h.mem x }

/-- `a->size = n` -/
def setSize (h : Heap) (a : Nat) (n : Nat) : Heap := h.write a { h.mem a with size := n }

/-- `a->free = f` -/
def setFree (h : Heap) (a : Nat) (f : Bool) : Heap := h.write a { h.mem a with free := f }

/-- `a->prev = p` -/
def setPrev (h : Heap) (a p : Nat) : Heap := h.write a { h.mem a with prev := p }

/-- `a->next = n` -/
def setNext (h : Heap) (a n : Nat) : Heap := h.write a { h.mem a with next := n }

end Heap

/-- `alignUp`: the next multiple of `ALIGNMENT`, modulo `2 ^ 64`. -/
def alignUp (n : Nat) : Nat := u64 (n + (ALIGNMENT - 1)) &&& not64 (ALIGNMENT - 1)

/-- `mem_init` -/
def mem_init (mem : Nat → Block) (start : Nat) (size : Nat) : Heap :=
  Heap.write { baseBlock := start, totalBytes := size, mem := mem } start
    { size := sub64 size HEADER_SIZE, free := true, prev := 0, next := 0 }

/-- The body of the search loop at a block that fits: split off the remainder
when it holds another header and payload, then mark the block as taken. -/
def carve (h : Heap) (b : Nat) (size : Nat) : Heap :=
  let h :=
    if u64 (size + HEADER_SIZE + ALIGNMENT) ≤ (h.mem b).size then
      let split := u64 (b + HEADER_SIZE + size)
      let next := (h.mem b).next
      let h := h.write split
        { size := sub64 (sub64 (h.mem b).size size) HEADER_SIZE
          free := true, prev := b, next := next }
      let h := if next ≠ 0 then h.setPrev next split else h
      (h.setNext b split).setSize b size
    else h
  h.setFree b false

/-- The first-fit loop of `mem_alloc`, from block `b` on. -/
def allocFrom (h : Heap) (size : Nat) : Nat → Nat → Option (Heap × Nat)
  | 0, _ => none
  | fuel + 1, b =>
      if b = 0 then some (h, 0)
      else if !(h.mem b).free || (h.mem b).size < size then
        allocFrom h size fuel (h.mem b).next
      else some (carve h b size, u64 (b + HEADER_SIZE))

/-- `mem_alloc`: the new heap and the payload address, `0` for `NULL`. -/
def mem_alloc (h : Heap) (size : Nat) : Option (Heap × Nat) :=
  if size = 0 ∨ h.baseBlock = 0 then some (h, 0)
  else allocFrom h (alignUp size) (h.totalBytes + 1) h.baseBlock

/-- The first half of `mem_free`: absorb the physically next block if free. -/
def mergeNext (h : Heap) (b : Nat) : Heap :=
  let next := (h.mem b).next
  if next ≠ 0 ∧ (h.mem next).free then
    let h := h.setSize b (u64 ((h.mem b).size + (HEADER_SIZE + (h.mem next).size)))
    let h := h.setNext b (h.mem next).next
    if (h.mem b).next ≠ 0 then h.setPrev (h.mem b).next b else h
  else h

/-- The second half of `mem_free`: let the physically previous block absorb
`b` if it is free. -/
def mergePrev (h : Heap) (b : Nat) : Heap :=
  let prev := (h.mem b).prev
  if prev ≠ 0 ∧ (h.mem prev).free then
    let h := h.setSize prev (u64 ((h.mem prev).size + (HEADER_SIZE + (h.mem b).size)))
    let h := h.setNext prev (h.mem b).next
    if (h.mem b).next ≠ 0 then h.setPrev (h.mem b).next (h.mem b).prev else h
  else h

/-- `mem_free` -/
def mem_free (h : Heap) (ptr : Nat) : Heap :=
  if ptr = 0 then h
  else
    let b := sub64 ptr HEADER_SIZE
    mergePrev (mergeNext (h.setFree b true) b) b

/-- `MemoryInfo` -/
structure MemoryInfo where
  total : Nat
  occupied : Nat
  free : Nat
  fragments : Nat
deriving DecidableEq, Repr

/-- The loop of `mem_status`, from block `b` on. -/
def statusFrom (h : Heap) : Nat → Nat → MemoryInfo → Option MemoryInfo
  | 0, _, _ => none
  | fuel + 1, b, info =>
      if b = 0 then some info
      else statusFrom h fuel (h.mem b).next
        (if (h.mem b).free then
          { info with free := u64 (info.free + (h.mem b).size)
                      fragments := u64 (info.fragments + 1) }
        else info)

/-- `mem_status` -/
def mem_status (h : Heap) : Option MemoryInfo :=
  (statusFrom h (h.totalBytes + 1) h.baseBlock
      { total := h.totalBytes, occupied := 0, free := 0, fragments := 0 }).map
    fun info ↦ { info with occupied := sub64 h.totalBytes info.free }

/-! ## Runs of the manager -/

/-- A call into the manager. -/
inductive Op
  /-- `mem_alloc(size)` -/
  | alloc (size : Nat)
  /-- `mem_free(ptr)` -/
  | free (ptr : Nat)
deriving DecidableEq, Repr

/-- The heap and the pointers handed out and not yet released. -/
structure State where
  heap : Heap
  live : List Nat

/-- The state after `mem_init`. -/
def State.init (mem : Nat → Block) (start : Nat) (size : Nat) : State :=
  { heap := mem_init mem start size, live := [] }

/-- One call. -/
def step (s : State) : Op → Option State
  | .alloc size => (mem_alloc s.heap size).map fun r ↦
      { heap := r.1, live := if r.2 = 0 then s.live else r.2 :: s.live }
  | .free ptr => some { heap := mem_free s.heap ptr, live := s.live.erase ptr }

/-- The calls a correct client makes: any 64-bit size, and releases of `NULL`
or of a live pointer. -/
def Valid (s : State) : Op → Prop
  | .alloc size => size < 2 ^ 64
  | .free ptr => ptr = 0 ∨ ptr ∈ s.live

end BareBones.Memory.FreeList
