import ArcKernel.Foundation.Bytes
import ArcKernel.Foundation.Linked
import ArcKernel.Foundation.Run

/-!
# The arm64 kernel heap (`mk/vm/heap.c`)

A static region of 8 MiB between `__heap_start` and `__heap_end`.  A block is a header
of 16 bytes (magic number, size, next pointer) and its body.  Allocation is first fit
over a singly linked free list; a block that is much larger than the request is split,
and a free puts the block at the head of the list.  There is no merging.

The mark of a used block is its magic number, and only the branch of `kmalloc` that
does not split writes it.  The branch that splits writes the mark into the size.

Addresses are natural numbers and 0 is the null pointer; the region does not reach the
end of the address space, so pointer arithmetic inside it does not wrap.  Sizes are
32-bit.  `x & HEAP_SIZE_MASK` and `(x + 3) & ~3` are written as arithmetic.
-/

namespace ArcKernel.Heap.Arm64

open ArcKernel.Foundation

/-- `__heap_end - __heap_start`. -/
def heapBytes : Nat := 8 * 1024 * 1024

/-- The linker's choice of `__heap_start`. -/
structure HeapRegion where
  start : Nat
  start_pos : 0 < start
  aligned : 16 ∣ start
  inside : start + heapBytes ≤ 2 ^ 64

/-- `__heap_end`. -/
def HeapRegion.stop (r : HeapRegion) : Nat := r.start + heapBytes

def heapMagicFree : Nat := 0x48454150
def heapMagicUsed : Nat := 0x44454144

/-- `sizeof(heap_block_t)`. -/
def headerSize : Nat := 16

/-- `x & HEAP_SIZE_MASK`. -/
def heapSizeMask (x : Nat) : Nat := x % 2 ^ 31

/-! ## State -/

/-- The fields of `heap_block_t`. -/
inductive Field where
  | magic
  | size
  | next
  deriving DecidableEq

def Field.offset : Field → Nat
  | magic => 0
  | size => 4
  | next => 8

def Field.width : Field → Nat
  | magic => 4
  | size => 4
  | next => 8

structure StaticHeap where
  freeList : Nat
  initialized : Bool
  mem : ByteMem

/-- `b->f`. -/
def StaticHeap.get (h : StaticHeap) (f : Field) (b : Nat) : Nat := h.mem.load f.width (b + f.offset)

/-- `b->f = v`. -/
def StaticHeap.set (h : StaticHeap) (f : Field) (b v : Nat) : StaticHeap :=
  { h with mem := h.mem.store f.width (b + f.offset) v }

/-- `memset(lo, 0, len)`. -/
def StaticHeap.clear (h : StaticHeap) (lo len : Nat) : StaticHeap :=
  { h with mem := h.mem.fill lo (lo + len) 0 }

/-! ## Operations -/

/-- `heap_do_init`. -/
def heapDoInit (r : HeapRegion) (h : StaticHeap) : StaticHeap :=
  let base := r.start
  let h := h.clear base headerSize
  let h := h.set .magic base heapMagicFree
  let h := h.set .size base (r.stop - r.start - headerSize)
  let h := h.set .next base 0
  { h with freeList := base, initialized := true }

/-- `heap_init`, and the first lines of `kmalloc`. -/
def heapInit (r : HeapRegion) (h : StaticHeap) : StaticHeap :=
  if h.initialized then h else heapDoInit r h

/-- The rounding of a request, in 32 bits. -/
def heapRound (size : UInt32) : Nat :=
  let size := (size + 3) / 4 * 4
  if size < 16 then 16 else size.toNat

/-- A block of `blockSize` bytes is split for a request of `size`. -/
def splits (size blockSize : Nat) : Bool := decide (blockSize ≥ size + headerSize + 16)

/-- `kmalloc`, once a block that is large enough has been found. -/
def heapTake (h : StaticHeap) (size prev block blockSize : Nat) : StaticHeap :=
  let h :=
    if splits size blockSize then
      let newBlock := block + headerSize + size
      let h := h.set .magic newBlock heapMagicFree
      let h := h.set .size newBlock (blockSize - size - headerSize)
      let h := h.set .next newBlock (h.get .next block)
      let h := h.set .size block (size ||| heapMagicUsed)
      h.set .next block newBlock
    else h.set .magic block heapMagicUsed
  let h := if prev ≠ 0 then h.set .next prev (h.get .next block)
    else { h with freeList := h.get .next block }
  h.clear (block + headerSize) size

/-- The loop of `kmalloc` over the free list, `none` when it takes more than `rounds`
rounds.  A block without the free mark cuts off the list in front of it. -/
def kmallocWalk (size : Nat) : Nat → StaticHeap → Nat → Nat → Option (Nat × StaticHeap)
  | 0, _, _, _ => none
  | rounds + 1, h, prev, block =>
      if block = 0 then some (0, h)
      else if h.get .magic block ≠ heapMagicFree then
        let h := { h with freeList := h.get .next block }
        kmallocWalk size rounds h 0 h.freeList
      else
        let blockSize := heapSizeMask (h.get .size block)
        if blockSize ≥ size then some (block + headerSize, heapTake h size prev block blockSize)
        else kmallocWalk size rounds h block (h.get .next block)

/-- `kmalloc`: the pointer, 0 for none, and the heap after.  The bound on the loop is
never reached (`kmalloc_returns`). -/
def kmalloc (r : HeapRegion) (h : StaticHeap) (size : UInt32) : Option (Nat × StaticHeap) :=
  if size = 0 then some (0, h)
  else
    let h := heapInit r h
    kmallocWalk (heapRound size) heapBytes h 0 h.freeList

/-- `kfree`. -/
def kfree (h : StaticHeap) (addr : Nat) : StaticHeap :=
  if addr = 0 then h
  else
    let block := addr - headerSize
    if h.get .magic block ≠ heapMagicUsed then h
    else
      let h := h.set .magic block heapMagicFree
      let h := h.set .next block h.freeList
      { h with freeList := block }

/-! ## The heap and its callers -/

/-- A block that was handed out: the pointer and the bytes behind it. -/
structure Handed where
  ptr : Nat
  len : Nat
  deriving DecidableEq

/-- `live` are the blocks handed out and not freed, `handed` all blocks handed out. -/
structure ArmSys where
  heap : StaticHeap
  live : List Handed
  handed : List Handed

inductive ArmCall where
  | heapInit
  | kmalloc (size : UInt32)
  | kfree (addr : Nat)
  | write (ptr offset : Nat) (v : UInt8)

/-- The size of the block at `block` before the call that takes it. -/
def sizeBefore (r : HeapRegion) (h : StaticHeap) (ptr : Nat) : Nat :=
  heapSizeMask ((heapInit r h).get .size (ptr - headerSize))

/-- The block behind the result `ptr` of a request. -/
def handedBlock (r : HeapRegion) (h : StaticHeap) (size : UInt32) (ptr : Nat) : Handed :=
  ⟨ptr, if splits (heapRound size) (sizeBefore r h ptr) then heapRound size else sizeBefore r h ptr⟩

/-- Only live pointers are freed, and callers write inside their own block. -/
def armStep (r : HeapRegion) (s : ArmSys) : ArmCall → Option ArmSys
  | .heapInit => some { s with heap := heapInit r s.heap }
  | .kmalloc size =>
      match kmalloc r s.heap size with
      | none => none
      | some (ptr, h) =>
          if ptr = 0 then some { s with heap := h }
          else
            let e := handedBlock r s.heap size ptr
            some ⟨h, s.live ++ [e], s.handed ++ [e]⟩
  | .kfree addr =>
      if addr = 0 ∨ ∃ e ∈ s.live, e.ptr = addr then
        some { s with heap := kfree s.heap addr, live := s.live.filter (·.ptr ≠ addr) }
      else none
  | .write ptr offset v =>
      if ∃ e ∈ s.live, e.ptr = ptr ∧ offset < e.len then
        some { s with heap.mem := Function.update s.heap.mem (ptr + offset) v }
      else none

/-- The state at boot. -/
def atBoot (mem : ByteMem) : ArmSys := ⟨⟨0, false, mem⟩, [], []⟩

/-- The size of the first free block from `block` on that has room for `size` bytes, among
`rounds` blocks. -/
def StaticHeap.firstFit (h : StaticHeap) (size : Nat) : Nat → Nat → Option Nat
  | 0, _ => none
  | rounds + 1, block =>
      let blockSize := heapSizeMask (h.get .size block)
      if block = 0 then none
      else if h.get .magic block = heapMagicFree ∧ size ≤ blockSize then some blockSize
      else h.firstFit size rounds (h.get .next block)

/-- The first free block with room for the request is much larger than it. -/
def ArmSys.Splits (r : HeapRegion) (s : ArmSys) : ArmCall → Prop
  | .kmalloc size => size ≠ 0 ∧
      ∃ blockSize ∈ (heapInit r s.heap).firstFit (heapRound size) heapBytes
      (heapInit r s.heap).freeList, splits (heapRound size) blockSize = true
  | _ => False

instance (r : HeapRegion) (s : ArmSys) (c : ArmCall) : Decidable (s.Splits r c) :=
  match c with
  | .kmalloc _ => inferInstanceAs (Decidable (_ ∧ _))
  | .heapInit | .kfree _ | .write _ _ _ => isFalse id

end ArcKernel.Heap.Arm64
