import ArcKernel.Foundation.Run
import ArcKernel.Foundation.Bytes

/-!
# The x86 kernel heap (`mk/vm/heap.c`)

The heap is one run of blocks from `HEAP_START` to `heap_brk`.  A block starts with a
header of two words: its size, with the low bit set when it is free, and a word that
holds a magic number in a used block and the next free block in a free one.  Free
blocks are linked in address order.  Allocation is first fit, with a split when the
rest is large enough, and moves the break when no block fits; a free merges the block
with its free neighbours and gives a free block at the break back.

Addresses are natural numbers, 0 is the null pointer, and pointer arithmetic is taken
modulo the width of `uintptr_t`.  The memory is a byte memory: headers are written
into it and callers write between them.  `x & ~1` and `x | 1` are written as
arithmetic on the low bit, and `x & (n - 1)` for a power of two `n` as a remainder.

The outcomes of `pmm_alloc_page` and `vmm_map_page` are arguments, one answer for
each page a call asks for, with the contents the page happens to have.
-/

namespace ArcKernel.Heap

open ArcKernel.Foundation Function

/-! ## The two architectures -/

inductive X86 where
  | amd64
  | i386

namespace X86

/-- The size of `uintptr_t` in bytes. -/
def wordBytes : X86 → Nat
  | amd64 => 8
  | i386 => 4

def heapStart : X86 → Nat
  | amd64 => 0xFFFFFFFF90000000
  | i386 => 0xD0000000

def heapEnd : X86 → Nat
  | amd64 => 0xFFFFFFFFA0000000
  | i386 => 0xE0000000

def heapMagicUsed : X86 → Nat
  | amd64 => 0x4845415055534544
  | i386 => 0x48454150

def heapBlockAlign : X86 → Nat
  | amd64 => 16
  | i386 => 8

/-- One past the largest `uintptr_t`. -/
def wordSpan (arch : X86) : Nat := 256 ^ arch.wordBytes

def heapHeaderSize (arch : X86) : Nat := 2 * arch.wordBytes

/-- `HEAP_MIN_BLOCK`. -/
def heapMinBlock (arch : X86) : Nat := (arch.heapHeaderSize + 16 + 15) / 16 * 16

/-- Addition of `uintptr_t`. -/
def add (arch : X86) (a b : Nat) : Nat := (a + b) % arch.wordSpan

/-- Subtraction of `uintptr_t`. -/
def sub (arch : X86) (a b : Nat) : Nat := (a + arch.wordSpan - b) % arch.wordSpan

end X86

def pageSize : Nat := 4096
def heapInitialPages : Nat := 4
def heapMaxWalk : Nat := 8 * 1024 * 1024

/-- `HEAP_ALIGN` of a `uint32_t`, which is computed in 32 bits. -/
def heapAlign (size : UInt32) : UInt32 := (size + 15) / 16 * 16

/-- `x & HEAP_SIZE_MASK`. -/
def heapSizeMask (x : Nat) : Nat := x / 2 * 2

/-- `x | HEAP_BLOCK_FREE`. -/
def markFree (x : Nat) : Nat := x / 2 * 2 + 1

/-- `x & HEAP_BLOCK_FREE`. -/
def isFree (x : Nat) : Bool := x % 2 == 1

/-! ## State -/

/-- The answer to one request for a page: the physical page, 0 for none, whether it
could be mapped, and its contents. -/
structure PageAnswer where
  phys : Nat
  mapped : Bool
  contents : Nat → UInt8

/-- The three globals of the heap and the memory they describe.  `pages` is what
`vmm_get_physical` answers for a heap page; `taken` and `given` are the pages asked
from and returned to the page allocator. -/
structure HeapState where
  freeList : Nat
  mappedEnd : Nat
  brk : Nat
  mem : ByteMem
  pages : Nat → Nat
  taken : List Nat
  given : List Nat

variable (arch : X86)

/-- `b->size`. -/
def HeapState.size (h : HeapState) (b : Nat) : Nat := h.mem.load arch.wordBytes b

/-- `b->next` and `b->magic`, which share a word. -/
def HeapState.next (h : HeapState) (b : Nat) : Nat := h.mem.load arch.wordBytes (b + arch.wordBytes)

def HeapState.setSize (h : HeapState) (b v : Nat) : HeapState :=
  { h with mem := h.mem.store arch.wordBytes b v }

def HeapState.setNext (h : HeapState) (b v : Nat) : HeapState :=
  { h with mem := h.mem.store arch.wordBytes (b + arch.wordBytes) v }

/-- Make `x` the block after `prev`, or the first one. -/
def HeapState.link (h : HeapState) (prev x : Nat) : HeapState :=
  if prev = 0 then { h with freeList := x } else h.setNext arch prev x

/-! ## Pages -/

/-- The loop of `heap_map_until`, for at most `n` pages. -/
def heapMapLoop (addr : Nat) : Nat → (Nat → PageAnswer) → HeapState → Bool × HeapState
  | 0, _, h => (true, h)
  | n + 1, answers, h =>
      if h.mappedEnd < addr then
        let a := answers 0
        if a.phys = 0 then (false, h)
        else if a.mapped then
          heapMapLoop addr n (fun k => answers (k + 1)) { h with
            mappedEnd := h.mappedEnd + pageSize
            mem := fun x =>
              if h.mappedEnd ≤ x ∧ x < h.mappedEnd + pageSize then a.contents (x - h.mappedEnd)
              else h.mem x
            pages := update h.pages h.mappedEnd a.phys
            taken := h.taken ++ [a.phys] }
        else (false, { h with taken := h.taken ++ [a.phys], given := h.given ++ [a.phys] })
      else (true, h)

/-- `heap_map_until`. -/
def heapMapUntil (addr : Nat) (answers : Nat → PageAnswer) (h : HeapState) : Bool × HeapState :=
  heapMapLoop addr ((addr - h.mappedEnd + (pageSize - 1)) / pageSize) answers h

/-- The last loop of `heap_shrink`, for at most `n` pages. -/
def heapUnmapLoop (keep : Nat) : Nat → HeapState → HeapState
  | 0, h => h
  | n + 1, h =>
      if h.mappedEnd > keep then
        let addr := h.mappedEnd - pageSize
        let phys := h.pages addr
        heapUnmapLoop keep n { h with
          mappedEnd := addr
          pages := update h.pages addr 0
          given := if phys = 0 then h.given else h.given ++ [phys] }
      else h

/-- `heap_init`. -/
def heapInit (mem : ByteMem) (answers : Nat → PageAnswer) : HeapState :=
  (heapMapUntil (arch.heapStart + heapInitialPages * pageSize) answers {
    freeList := 0
    mappedEnd := arch.heapStart
    brk := arch.heapStart
    mem := mem
    pages := fun _ => 0
    taken := []
    given := [] }).2

/-! ## Checks -/

/-- The checks every walk makes on the address of a block. -/
def HeapState.addrSane (h : HeapState) (b : Nat) : Bool :=
  !(decide (b < arch.heapStart) || decide (arch.add b arch.heapHeaderSize > h.brk) ||
    b % arch.heapBlockAlign != 0)

/-- `heap_size_sane`. -/
def heapSizeSane (h : HeapState) (size baddr : Nat) : Bool :=
  let body := heapSizeMask size
  !(decide (body < arch.heapMinBlock) || body % arch.heapBlockAlign != 0 ||
    decide (body > arch.sub h.brk baddr))

/-! ## Allocation -/

/-- `kmalloc`, once a block that is large enough has been found. -/
def heapTake (h : HeapState) (need prev b blockSize bnext : Nat) : HeapState :=
  let remaining := blockSize - need
  if remaining ≥ arch.heapMinBlock then
    let split := arch.add b need
    ((((h.setSize arch split (markFree remaining)).setNext arch split bnext).link arch prev
      split).setSize arch b need).setNext arch b arch.heapMagicUsed
  else
    ((h.link arch prev bnext).setSize arch b blockSize).setNext arch b arch.heapMagicUsed

/-- The loop of `kmalloc` over the free list: the block it takes and the heap after,
`none` when the loop ends without one. -/
def kmallocWalk (h : HeapState) (need : Nat) : Nat → Nat → Nat → Option (Nat × HeapState)
  | 0, _, _ => none
  | steps + 1, prev, b =>
      if b = 0 then none
      else if !h.addrSane arch b then none
      else
        let raw := h.size arch b
        if !isFree raw then none
        else if !heapSizeSane arch h raw b then none
        else
          let blockSize := heapSizeMask raw
          let bnext := h.next arch b
          if bnext ≠ 0 ∧ (bnext < arch.heapStart ∨ bnext > h.brk ∨
              bnext % arch.heapBlockAlign ≠ 0 ∨ bnext ≤ b) then none
          else if blockSize ≥ need then some (b, heapTake arch h need prev b blockSize bnext)
          else kmallocWalk h need steps b bnext

/-- The size of the block for a request. -/
def heapNeed (size : UInt32) : Nat :=
  let need := arch.add arch.heapHeaderSize (heapAlign size).toNat
  if need < arch.heapMinBlock then arch.heapMinBlock else need

/-- `kmalloc`: the pointer, 0 for none, and the heap after. -/
def kmalloc (h : HeapState) (size : UInt32) (answers : Nat → PageAnswer) : Nat × HeapState :=
  if size = 0 then (0, h)
  else
    let need := heapNeed arch size
    match kmallocWalk arch h need heapMaxWalk 0 h.freeList with
    | some (b, h') => (arch.add b arch.heapHeaderSize, h')
    | none =>
        let addr := h.brk
        let newBrk := arch.add addr need
        if newBrk < addr ∨ newBrk > arch.heapEnd then (0, h)
        else
          match heapMapUntil newBrk answers h with
          | (false, h') => (0, h')
          | (true, h') =>
              (arch.add addr arch.heapHeaderSize,
                (({ h' with brk := newBrk }).setSize arch addr need).setNext arch addr
                  arch.heapMagicUsed)

/-- `kcalloc`.  The zeroing loop runs over the whole request; when that is more than is
mapped it ends in a page fault at the first address past the mapped end, and the
result is `none`. -/
def kcalloc (h : HeapState) (count size : UInt32) (answers : Nat → PageAnswer) :
    Option Nat × HeapState :=
  if count ≠ 0 ∧ size ≠ 0 ∧ size > 0xFFFFFFFF / count then (some 0, h)
  else
    let total := count * size
    let (ptr, h') := kmalloc arch h total answers
    if ptr = 0 then (some 0, h')
    else if ptr + total.toNat ≤ h'.mappedEnd then
      (some ptr, { h' with mem := h'.mem.fill ptr (ptr + total.toNat) 0 })
    else (none, { h' with mem := h'.mem.fill ptr h'.mappedEnd 0 })

/-! ## Release -/

/-- `heap_coalesce`. -/
def heapCoalesce (h : HeapState) (b : Nat) : HeapState :=
  let body := heapSizeMask (h.size arch b)
  let next := arch.add b body
  if next ≠ h.next arch b then h
  else if arch.add next arch.heapHeaderSize > h.brk then h
  else if next % arch.heapBlockAlign ≠ 0 then h
  else
    let nsize := h.size arch next
    if !isFree nsize then h
    else if !heapSizeSane arch h nsize next then h
    else
      (h.setSize arch b (markFree (arch.add body (heapSizeMask nsize)))).setNext arch b
        (h.next arch next)

/-- The search of `heap_shrink` for a free block that ends at the break: the block and
the one before it in the list. -/
def heapTail (h : HeapState) : Nat → Nat → Nat → Option (Nat × Nat)
  | 0, _, _ => none
  | steps + 1, prev, cur =>
      if cur = 0 then none
      else if !h.addrSane arch cur then none
      else if !isFree (h.size arch cur) then none
      else if !heapSizeSane arch h (h.size arch cur) cur then none
      else if arch.add cur (heapSizeMask (h.size arch cur)) = h.brk then some (cur, prev)
      else heapTail h steps cur (h.next arch cur)

/-- The first loop of `heap_shrink`, at most `n` times. -/
def heapRetract : Nat → HeapState → HeapState
  | 0, h => h
  | n + 1, h =>
      match heapTail arch h heapMaxWalk 0 h.freeList with
      | none => h
      | some (tail, prev) =>
          heapRetract n ({ h with brk := tail }.link arch prev (h.next arch tail))

/-- `heap_shrink`.  Every round of its first loop lowers the break. -/
def heapShrink (h : HeapState) : HeapState :=
  let h := heapRetract arch (h.brk + 1) h
  let keep := (h.brk + pageSize - 1) / pageSize * pageSize
  let floor := arch.heapStart + heapInitialPages * pageSize
  let keep := if keep < floor then floor else keep
  heapUnmapLoop keep ((h.mappedEnd - keep + (pageSize - 1)) / pageSize) h

/-- The result of the search of `kfree` for the place of a block in the free list. -/
inductive FreePlace where
  | doubleFree
  | between (prev cur : Nat)

/-- The loop of `kfree` over the free list. -/
def kfreeWalk (h : HeapState) (baddr : Nat) : Nat → Nat → Nat → FreePlace
  | 0, prev, cur => .between prev cur
  | steps + 1, prev, cur =>
      if cur = 0 then .between prev cur
      else if !h.addrSane arch cur then .between prev cur
      else if cur = baddr then .doubleFree
      else if cur > baddr then .between prev cur
      else kfreeWalk h baddr steps cur (h.next arch cur)

/-- `kfree`, once the place of the block in the free list is known. -/
def heapRelease (h : HeapState) (b blockSize prev cur : Nat) : HeapState :=
  let h := ((h.setSize arch b (markFree blockSize)).setNext arch b cur).link arch prev b
  let h := heapCoalesce arch h b
  let h := if prev ≠ 0 ∧ arch.add prev (heapSizeMask (h.size arch prev)) = b then
    heapCoalesce arch h prev else h
  heapShrink arch h

/-- `kfree`. -/
def kfree (h : HeapState) (addr : Nat) : HeapState :=
  if addr = 0 then h
  else if addr < arch.heapStart + arch.heapHeaderSize ∨ addr ≥ h.brk ∨
      addr % arch.heapBlockAlign ≠ arch.heapHeaderSize % arch.heapBlockAlign then h
  else
    let b := arch.sub addr arch.heapHeaderSize
    if !h.addrSane arch b then h
    else
      let raw := h.size arch b
      if isFree raw || h.next arch b != arch.heapMagicUsed then h
      else if !heapSizeSane arch h raw b then h
      else
        match kfreeWalk arch h b heapMaxWalk 0 h.freeList with
        | .doubleFree => h
        | .between prev cur => heapRelease arch h b (heapSizeMask raw) prev cur

/-! ## The heap and its callers -/

/-- `live` are the pointers that were handed out and not freed. -/
structure HeapSys where
  heap : HeapState
  live : List Nat

/-- A call, or a caller's write of one byte at an offset of its block. -/
inductive HeapCall where
  | kmalloc (size : UInt32) (answers : Nat → PageAnswer)
  | kcalloc (count size : UInt32) (answers : Nat → PageAnswer)
  | kfree (addr : Nat)
  | write (ptr offset : Nat) (v : UInt8)

/-- The bytes of the block of `ptr` behind its header. -/
def HeapState.usable (h : HeapState) (ptr : Nat) : Nat :=
  heapSizeMask (h.size arch (ptr - arch.heapHeaderSize)) - arch.heapHeaderSize

/-- `ptr` joins the live pointers unless it is null. -/
def handOut (live : List Nat) (ptr : Nat) : List Nat := if ptr = 0 then live else live ++ [ptr]

/-- Only live pointers are freed, and callers write inside their own block. -/
def heapStep (s : HeapSys) : HeapCall → Option HeapSys
  | .kmalloc size answers =>
      let (ptr, h) := kmalloc arch s.heap size answers
      some ⟨h, handOut s.live ptr⟩
  | .kcalloc count size answers =>
      match kcalloc arch s.heap count size answers with
      | (none, h) => some ⟨h, s.live⟩
      | (some ptr, h) => some ⟨h, handOut s.live ptr⟩
  | .kfree addr =>
      if addr = 0 ∨ addr ∈ s.live then some ⟨kfree arch s.heap addr, s.live.erase addr⟩
      else none
  | .write ptr offset v =>
      if ptr ∈ s.live ∧ offset < s.heap.usable arch ptr then
        some { s with heap := { s.heap with mem := update s.heap.mem (ptr + offset) v } }
      else none

end ArcKernel.Heap
