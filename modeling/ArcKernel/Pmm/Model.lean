import ArcKernel.Foundation.BitArray
import ArcKernel.Heap.X86

/-!
# The physical page allocator (`mk/vm/pmm.c`)

One bit per page frame, set for a page in use, in a bitmap that `pmm_init` places in low
memory.  `pmm_init` first builds a small bitmap of the pages below 16 MiB, looks there
for a run of free pages that is long enough for the real bitmap, marks every page used,
frees the pages of the available entries of the memory map and reserves the kernel
image, the bitmap, the modules and the boot information.

The boot information is a list of tags, as the loops over it see them; it is in other pages
than the bitmap.  The memory holds the bitmap.  Page numbers are `uint32_t`, addresses of
entries `uint64_t`, addresses of modules `uint32_t`, and all conversions truncate.
`refcounts` is never set, so the writes to it are left out.
-/

namespace ArcKernel.Pmm

open ArcKernel.Foundation ArcKernel.Heap

/-! ## Boot information -/

/-- `multiboot2_mmap_entry_t`. -/
structure MmapEntry where
  addr : UInt64
  len : UInt64
  type : UInt32

/-- `MULTIBOOT_MEMORY_AVAILABLE`. -/
def memoryAvailable : UInt32 := 1

inductive Tag where
  | mmap (entries : List MmapEntry)
  | module (modStart modEnd : UInt32)
  | other

/-- The boot information at `addr`, and the address of `_kernel_end`. -/
structure BootInfo where
  tags : List Tag
  addr : Nat
  totalSize : UInt32
  kernelEnd : Nat

def Tag.entries : Tag → List MmapEntry
  | .mmap entries => entries
  | _ => []

/-- The available entries of all memory map tags, in the order of the loops. -/
def BootInfo.available (b : BootInfo) : List MmapEntry :=
  (b.tags.flatMap Tag.entries).filter (·.type = memoryAvailable)

def Tag.modules : Tag → List (UInt32 × UInt32)
  | .module modStart modEnd => [(modStart, modEnd)]
  | _ => []

def BootInfo.modules (b : BootInfo) : List (UInt32 × UInt32) := b.tags.flatMap Tag.modules

/-! ## Page numbers -/

def MmapEntry.top (e : MmapEntry) : UInt64 := e.addr + e.len

/-- The first whole page of an entry. -/
def MmapEntry.startPage (e : MmapEntry) : Nat := ((e.addr + 4095) / 4096).toUInt32.toNat

/-- The page behind the last whole page of an entry. -/
def MmapEntry.endPage (e : MmapEntry) : Nat := (e.top / 4096).toUInt32.toNat

/-- The first page of a module. -/
def modStartPage (m : UInt32 × UInt32) : Nat := (m.1 / 4096).toNat

/-- The page behind the last page of a module. -/
def modEndPage (m : UInt32 × UInt32) : Nat := ((m.2 + 4095) / 4096).toNat

variable (arch : X86)

/-- The page behind an address, of type `uintptr_t`. -/
def pageAfter (a : Nat) : Nat := (a + 4095) % arch.wordSpan / 4096

def BootInfo.kernelEndPage (b : BootInfo) : Nat := pageAfter arch b.kernelEnd % 2 ^ 32

def BootInfo.mbootStartPage (b : BootInfo) : Nat := b.addr / 4096

def BootInfo.mbootEndPage (b : BootInfo) : Nat := pageAfter arch (b.addr + b.totalSize.toNat)

/-! ## The bootstrap bitmap -/

/-- `BOOTSTRAP_PAGES`. -/
def bootstrapPages : Nat := 4096

/-- The body of a loop, for the pages of `[start, stop)`. -/
def forPages {σ : Type} (start stop : Nat) (body : σ → Nat → σ) (s : σ) : σ :=
  (List.range' start (stop - start)).foldl body s

def bmapSet (bmap : ByteMem) (page : Nat) : ByteMem := BitArray.set bmap 0 page
def bmapClear (bmap : ByteMem) (page : Nat) : ByteMem := BitArray.clear bmap 0 page
def bmapTest (bmap : ByteMem) (page : Nat) : Bool := BitArray.test bmap 0 page

/-- `bmap_reserve`. -/
def bmapReserve (start stop : Nat) (bmap : ByteMem) : ByteMem :=
  forPages start (if stop > bootstrapPages then bootstrapPages else stop) bmapSet bmap

/-- The pages of an available entry are cleared in the bootstrap bitmap. -/
def bmapFree (bmap : ByteMem) (e : MmapEntry) : ByteMem :=
  if e.startPage ≥ bootstrapPages then bmap
  else forPages e.startPage (if e.endPage > bootstrapPages then bootstrapPages else e.endPage)
    bmapClear bmap

/-- The bootstrap bitmap when the search for a place begins. -/
def bootstrapBitmap (b : BootInfo) : ByteMem :=
  let bmap : ByteMem := fun _ => 0xFF
  let bmap := b.available.foldl bmapFree bmap
  let bmap := bmapReserve 0 (b.kernelEndPage arch) bmap
  let bmap := b.modules.foldl (fun bmap m => bmapReserve (modStartPage m) (modEndPage m) bmap) bmap
  bmapReserve (b.mbootStartPage % 2 ^ 32) (b.mbootEndPage arch % 2 ^ 32) bmap

/-! ## The place of the bitmap -/

/-- `mem_end`. -/
def BootInfo.memEnd (b : BootInfo) : UInt64 :=
  b.available.foldl (fun memEnd e => if e.top > memEnd then e.top else memEnd) 0

/-- The pages of a bitmap for `totalPages` bits. -/
def bitmapPagesFor (totalPages : Nat) : Nat :=
  let bitmapPages := (totalPages / 8 + 4095) / 4096
  if bitmapPages = 0 then 1 else bitmapPages

/-- The search for a run of `want` free pages, `n` pages from `i` on: the start and the
length of the last run that was looked at. -/
def findRun (bmap : ByteMem) (want : Nat) : Nat → Nat → Nat → Nat → Nat × Nat
  | 0, _, bstart, run => (bstart, run)
  | n + 1, i, bstart, run =>
      if !bmapTest bmap i then
        let bstart := if run = 0 then i else bstart
        if run + 1 = want then (bstart, run + 1) else findRun bmap want n (i + 1) bstart (run + 1)
      else findRun bmap want n (i + 1) bstart 0

/-- The length of the longest run of free pages. -/
def maxRun (bmap : ByteMem) : Nat :=
  (forPages 0 bootstrapPages (fun (r, max) i =>
    if !bmapTest bmap i then (r + 1, if r + 1 > max then r + 1 else max) else (0, max)) (0, 0)).2

structure Layout where
  totalPages : Nat
  bitmapPages : Nat
  bstart : Nat
  deriving DecidableEq

/-- How many pages are tracked, and where the bitmap is placed. -/
def pmmLayout (b : BootInfo) : Layout :=
  let bmap := bootstrapBitmap arch b
  let totalPages := (b.memEnd / 4096).toUInt32.toNat
  let bitmapPages := bitmapPagesFor totalPages
  let (bstart, run) := findRun bmap bitmapPages bootstrapPages 0 bootstrapPages 0
  if run ≠ bitmapPages then
    let capped := maxRun bmap * 8 * 4096
    let totalPages := capped / 4096 % 2 ^ 32
    let bitmapPages := bitmapPagesFor totalPages
    let (bstart, _) := findRun bmap bitmapPages bootstrapPages 0 bootstrapPages 0
    ⟨totalPages, bitmapPages, bstart⟩
  else ⟨totalPages, bitmapPages, bstart⟩

/-! ## The allocator -/

structure PmmState where
  mem : ByteMem
  bitmap : Nat
  totalPages : Nat
  freePages : UInt32

def PmmState.bitmapSet (p : PmmState) (page : Nat) : PmmState :=
  { p with mem := BitArray.set p.mem p.bitmap page }
def PmmState.bitmapClear (p : PmmState) (page : Nat) : PmmState :=
  { p with mem := BitArray.clear p.mem p.bitmap page }
def PmmState.bitmapTest (p : PmmState) (page : Nat) : Bool := BitArray.test p.mem p.bitmap page

/-- The body of the loops that free pages. -/
def PmmState.freeOne (p : PmmState) (i : Nat) : PmmState :=
  if p.bitmapTest i then { p.bitmapClear i with freePages := p.freePages + 1 } else p

/-- The body of the loops that reserve pages. -/
def PmmState.reserveOne (p : PmmState) (i : Nat) : PmmState :=
  if !p.bitmapTest i then { p.bitmapSet i with freePages := p.freePages - 1 } else p

/-- The pages of an available entry are freed. -/
def PmmState.freeEntry (p : PmmState) (e : MmapEntry) : PmmState :=
  if e.startPage ≥ p.totalPages then p
  else forPages e.startPage (if e.endPage > p.totalPages then p.totalPages else e.endPage)
    PmmState.freeOne p

/-- Reserve the pages of `[start, stop)` that are tracked. -/
def PmmState.reserveRange (start stop : Nat) (p : PmmState) : PmmState :=
  forPages start (min stop p.totalPages) PmmState.reserveOne p

/-- `pmm_init`. -/
def pmmInit (b : BootInfo) (mem : ByteMem) : PmmState :=
  let l := pmmLayout arch b
  let bitmap := l.bstart * 4096
  let p : PmmState :=
    ⟨mem.fill bitmap (bitmap + l.bitmapPages * 4096) 0xFF, bitmap, l.totalPages, 0⟩
  let p := b.available.foldl PmmState.freeEntry p
  let p := p.reserveRange 0 (b.kernelEndPage arch)
  let p := p.reserveRange (bitmap / 4096) (bitmap / 4096 + l.bitmapPages)
  let p := b.modules.foldl (fun p m => p.reserveRange (modStartPage m) (modEndPage m)) p
  p.reserveRange b.mbootStartPage (b.mbootEndPage arch)

/-- The address of a page, of type `void *`. -/
def pageAddr (i : Nat) : Nat := i * 4096 % arch.wordSpan

/-- The loop of `pmm_alloc_page`, `n` pages from `i` on. -/
def allocLoop : Nat → Nat → PmmState → Nat × PmmState
  | 0, _, p => (0, p)
  | n + 1, i, p =>
      if !p.bitmapTest i then
        let p := p.bitmapSet i
        if !p.bitmapTest i then allocLoop n (i + 1) p
        else (pageAddr arch i, { p with freePages := p.freePages - 1 })
      else allocLoop n (i + 1) p

/-- `pmm_alloc_page`. -/
def pmmAllocPage (p : PmmState) : Nat × PmmState :=
  if p.freePages = 0 then (0, p) else allocLoop arch p.totalPages 0 p

/-- All pages of `[i, i + count)` are free. -/
def PmmState.runFree (p : PmmState) (count i : Nat) : Bool :=
  (List.range count).all fun j => !p.bitmapTest (i + j)

/-- `pmm_alloc_pages`. -/
def pmmAllocPages (p : PmmState) (count : UInt32) : Nat × PmmState :=
  if count = 0 ∨ p.freePages < count then (0, p)
  else
    let last := (p.totalPages + 2 ^ 32 - count.toNat) % 2 ^ 32
    match (List.range (last + 1)).find? (p.runFree count.toNat) with
    | none => (0, p)
    | some i =>
        (pageAddr arch i, forPages i (i + count.toNat)
          (fun p k => { p.bitmapSet k with freePages := p.freePages - 1 }) p)

/-- `pmm_free_page`. -/
def pmmFreePage (p : PmmState) (page : Nat) : PmmState :=
  if page / 4096 < p.totalPages then p.freeOne (page / 4096) else p

/-- `pmm_free_pages`. -/
def pmmFreePages (p : PmmState) (addr : Nat) (count : UInt32) : PmmState :=
  forPages (addr / 4096) (addr / 4096 + count.toNat)
    (fun p i => if i < p.totalPages then p.freeOne i else p) p

/-! ## The allocator and the owners of pages -/

/-- `out` are the pages that were handed out and not freed. -/
structure PmmSys where
  pmm : PmmState
  out : List Nat

inductive PmmCall where
  | allocPage
  | allocPages (count : UInt32)
  | freePage (addr : Nat)
  | freePages (addr : Nat) (count : UInt32)
  | write (addr : Nat) (v : UInt8)

/-- Owners free and write only pages that they were handed. -/
def pmmStep (s : PmmSys) : PmmCall → Option PmmSys
  | .allocPage =>
      let (addr, p) := pmmAllocPage arch s.pmm
      some ⟨p, if addr = 0 then s.out else addr / 4096 :: s.out⟩
  | .allocPages count =>
      let (addr, p) := pmmAllocPages arch s.pmm count
      some ⟨p, if addr = 0 then s.out else List.range' (addr / 4096) count.toNat ++ s.out⟩
  | .freePage addr =>
      if addr / 4096 ∈ s.out then
        some ⟨pmmFreePage s.pmm addr, s.out.erase (addr / 4096)⟩
      else none
  | .freePages addr count =>
      if ∀ i ∈ List.range' (addr / 4096) count.toNat, i ∈ s.out then
        some ⟨pmmFreePages s.pmm addr count,
          s.out.filter (· ∉ List.range' (addr / 4096) count.toNat)⟩
      else none
  | .write addr v =>
      if addr / 4096 ∈ s.out then
        some { s with pmm.mem := Function.update s.pmm.mem addr v }
      else none

end ArcKernel.Pmm
