import ArcKernel.Foundation.Extent
import ArcKernel.Foundation.Run

/-!
# The mmap region table

Model of the region table of a process (`bsd/sys/sys_mmap.c`, `bsd/include/bsd/mman.h`):
`mmap_region_find`, `region_slot_alloc`, `region_slot_free`, `region_add`, `mmap_teardown`,
`mmap_fork`, `sys_mmap` and `sys_munmap`.

The table has `MMAP_MAX_REGIONS` slots.  Both calls walk it once and cut every region that
meets their range; each has its own cut, since they differ in what they do to the file
offset and in what they do when the table is full.  File offsets are 64-bit words, with the
wrap-around of the source.  The end of a region is a plain sum: regions end at or below
`USER_STACK_TOP`, which is below the size of a word.

Page tables are not part of this module.  The ranges whose pages go to `free_user_page` are
collected in `released`, and the references taken and dropped on vnodes in `refs`.
-/

namespace ArcKernel.Mmap

open ArcKernel.Foundation Function

/-- `MMAP_MAX_REGIONS` -/
def maxRegions : Nat := 32

/-- What the architectures do not share (`memory.h`). -/
structure Layout where
  /-- `2 ^ w` for a `uintptr_t` of `w` bits -/
  word : Nat
  userBase : Nat
  mmapStart : Nat
  stackTop : Nat
  /-- no fault hook: pages are mapped by `sys_mmap` itself -/
  eager : Bool
  word_le : word ≤ 2 ^ 64
  stackTop_lt : stackTop < word

def amd64 : Layout := ⟨2 ^ 64, 0x8000000, 0x50000000, 0x7FFFFFFFF000, false, by decide, by decide⟩
def i386 : Layout := ⟨2 ^ 32, 0x8000000, 0x50000000, 0xC0000000, true, by decide, by decide⟩

inductive Errno where
  | EBADF | ENOMEM | EACCES | ENODEV | EINVAL

structure MmapRegion where
  start : Nat
  len : Nat
  prot : BitVec 32
  flags : BitVec 32
  /-- the file, `none` for anonymous memory -/
  vnode : Option Nat
  offset : BitVec 64
  used : Bool

/-- A slot of a zeroed process. -/
def MmapRegion.zero : MmapRegion := ⟨0, 0, 0, 0, none, 0, false⟩

def MmapRegion.stop (r : MmapRegion) : Nat := r.start + r.len

structure MmapState where
  regions : List MmapRegion
  cursor : Nat
  /-- references held on each vnode by the process, as `vnode_ref` and `vnode_put` leave them -/
  refs : Nat → Int
  /-- ranges given to `free_user_page`, oldest first -/
  released : List (Nat × Nat)

namespace MmapState

def vnodeRef (s : MmapState) : Option Nat → MmapState
  | none => s
  | some v => { s with refs := update s.refs v (s.refs v + 1) }

def vnodePut (s : MmapState) : Option Nat → MmapState
  | none => s
  | some v => { s with refs := update s.refs v (s.refs v - 1) }

def setRegion (s : MmapState) (i : Nat) (r : MmapRegion) : MmapState :=
  { s with regions := s.regions.set i r }

/-- The loops `for (pg = lo; pg < hi; pg += PAGE_SIZE) free_user_page(p, pg)`. -/
def freeUserPages (s : MmapState) (lo hi : Nat) : MmapState :=
  { s with released := s.released ++ [(lo, hi)] }

end MmapState

def mmapRegionFind (s : MmapState) (addr : Nat) : Option MmapRegion :=
  s.regions.find? fun r => r.used && decide (r.start ≤ addr ∧ addr < r.stop)

def regionSlotAlloc (s : MmapState) : Option Nat := s.regions.findIdx? fun r => !r.used

def regionSlotFree (s : MmapState) (i : Nat) (r : MmapRegion) : MmapState :=
  (s.vnodePut r.vnode).setRegion i { r with vnode := none, used := false }

/-- `none` for `-ENOMEM` -/
def regionAdd (s : MmapState) (start len : Nat) (prot flags : BitVec 32) (vp : Option Nat)
    (offset : BitVec 64) : Option MmapState :=
  (regionSlotAlloc s).map fun i => s.setRegion i ⟨start, len, prot, flags, vp, offset, true⟩

def mmapTeardown (l : Layout) (s : MmapState) : MmapState :=
  let freed := (List.range maxRegions).foldl (fun t i =>
    match t.regions[i]? with
    | some r => if r.used then regionSlotFree t i r else t
    | none => t) s
  { freed with cursor := l.mmapStart }

/-- The body of the loop of `mmap_fork`. -/
def mmapForkOne (child : MmapState) (r : MmapRegion) : MmapState :=
  if r.used then
    match regionAdd child r.start r.len r.prot r.flags r.vnode r.offset with
    | none => child
    | some child => child.vnodeRef r.vnode
  else child

/-- `child` is the table of the new process; `refs` counts the references of both. -/
def mmapFork (parent child : MmapState) : MmapState :=
  { parent.regions.foldl mmapForkOne child with cursor := parent.cursor }

/-! ## The walk over the table -/

/-- The region is used and meets the range. -/
def MmapRegion.Overlaps (r : MmapRegion) (lo hi : Nat) : Prop :=
  r.used = true ∧ ¬ (r.stop ≤ lo ∨ hi ≤ r.start)

instance (r : MmapRegion) (lo hi : Nat) : Decidable (r.Overlaps lo hi) :=
  inferInstanceAs (Decidable (_ ∧ _))

/-- Visit the slots in order and cut each region that meets the range. -/
def cutLoop (cut : MmapState → Nat → MmapRegion → MmapState) (lo hi : Nat) :
    List Nat → MmapState → MmapState
  | [], s => s
  | i :: rest, s =>
      match s.regions[i]? with
      | none => cutLoop cut lo hi rest s
      | some r => cutLoop cut lo hi rest (if r.Overlaps lo hi then cut s i r else s)

/-! ## `sys_mmap` -/

def PROT_WRITE : BitVec 32 := 2
def PROT_EXEC : BitVec 32 := 4
def MAP_SHARED : BitVec 32 := 1
def MAP_PRIVATE : BitVec 32 := 2
def MAP_FIXED : BitVec 32 := 0x10
def MAP_ANONYMOUS : BitVec 32 := 0x20

/-- What the descriptor table says about the descriptor of a file mapping. -/
inductive FdLookup where
  | notOpen | notRegular | denied | file (v : Nat)

/-- The arguments, and the two outcomes the region table does not decide: the descriptor
lookup, and whether every page could be mapped at once where that is done eagerly. -/
structure MmapArgs where
  addr : Nat
  len : Nat
  prot : BitVec 32
  flags : BitVec 32
  fd : FdLookup
  offset : BitVec 64
  filled : Bool

def MmapArgs.fixed (a : MmapArgs) : Bool := a.flags &&& MAP_FIXED != 0

/-- `(len + PAGE_SIZE - 1) & ~(PAGE_SIZE - 1)` -/
def pageRound (l : Layout) (len : Nat) : Nat := (len + 4095) % l.word / 4096 * 4096

/-- The checks before a place is chosen: the rounded length and the file. -/
def mmapCheck (l : Layout) (a : MmapArgs) : Except Errno (Nat × Option Nat) :=
  let len := a.len % l.word
  let share := a.flags &&& (MAP_PRIVATE ||| MAP_SHARED)
  if len = 0 then .error .EINVAL
  else if a.prot &&& ~~~7 ≠ 0 then .error .EINVAL
  else if a.prot &&& PROT_WRITE ≠ 0 ∧ a.prot &&& PROT_EXEC ≠ 0 then .error .EACCES
  else if share = 0 ∨ share = MAP_PRIVATE ||| MAP_SHARED then .error .EINVAL
  else if a.offset &&& 4095 ≠ 0 then .error .EINVAL
  else if a.fixed ∧ a.addr % l.word % 4096 ≠ 0 then .error .EINVAL
  else if pageRound l len < len then .error .ENOMEM
  else if a.flags &&& MAP_ANONYMOUS ≠ 0 then .ok (pageRound l len, none)
  else
    match a.fd with
    | .notOpen => .error .EBADF
    | .notRegular => .error .ENODEV
    | .denied => .error .EACCES
    | .file v => .ok (pageRound l len, some v)

/-- The place of the mapping: the address given with `MAP_FIXED`, else the cursor. -/
def mmapPlace (l : Layout) (cursor : Nat) (a : MmapArgs) : Nat :=
  (if a.fixed then a.addr % l.word else cursor) / 4096 * 4096

/-- Take `[lo, hi)` out of a region that meets it, for a mapping that replaces it. -/
def mmapCut (lo hi : Nat) (s : MmapState) (i : Nat) (old : MmapRegion) : MmapState :=
  let oend := old.stop
  let ustart := max lo old.start
  let uend := min hi oend
  let s := s.freeUserPages ustart uend
  if ustart = old.start ∧ uend = oend then regionSlotFree s i old
  else if ustart = old.start then
    s.setRegion i { old with
      start := uend, len := oend - uend, offset := old.offset + BitVec.ofNat 64 (uend - ustart) }
  else if uend = oend then s.setRegion i { old with len := ustart - old.start }
  else
    let s :=
      match regionSlotAlloc s with
      | some j =>
          (s.setRegion j { old with
            start := uend, len := oend - uend,
            offset := old.offset + BitVec.ofNat 64 (uend - old.start), used := true }).vnodeRef
              old.vnode
      -- no slot left: the tail is given up
      | none => s.freeUserPages uend oend
    s.setRegion i { old with len := ustart - old.start }

/-- A plain mapping that meets a region is refused at the first such slot, before any
region has been cut. -/
def sysMmap (l : Layout) (s : MmapState) (a : MmapArgs) : MmapState × Except Errno Nat :=
  match mmapCheck l a with
  | .error e => (s, .error e)
  | .ok (pagelen, vp) =>
      let s := s.vnodeRef vp
      let start := mmapPlace l s.cursor a
      let stop := start + pagelen
      if start < l.userBase then (s, .error .ENOMEM)
      else if l.stackTop < stop then (s, .error .ENOMEM)
      else if ¬ a.fixed ∧ ∃ r ∈ s.regions, r.Overlaps start stop then
        (s.vnodePut vp, .error .EINVAL)
      else
        let s := cutLoop (mmapCut start stop) start stop (List.range maxRegions) s
        match regionAdd s start pagelen a.prot a.flags vp a.offset with
        | none => (s.vnodePut vp, .error .ENOMEM)
        | some s =>
            if l.eager ∧ ¬ a.filled then (s, .error .ENOMEM)
            else ({ s with cursor := if s.cursor < stop then pageRound l stop else s.cursor },
              .ok start)

/-! ## `sys_munmap` -/

/-- Take `[lo, hi)` out of a region that meets it. -/
def munmapCut (lo hi : Nat) (s : MmapState) (i : Nat) (rgn : MmapRegion) : MmapState :=
  let rstart := rgn.start
  let rend := rgn.stop
  let ustart := max lo rstart
  let uend := min hi rend
  let s := s.freeUserPages ustart uend
  if ustart = rstart ∧ uend = rend then regionSlotFree s i rgn
  -- the offset stays that of the old start
  else if ustart = rstart then s.setRegion i { rgn with start := uend, len := rend - uend }
  else if uend = rend then s.setRegion i { rgn with len := ustart - rstart }
  else
    match regionAdd s uend (rend - uend) rgn.prot rgn.flags rgn.vnode
        (rgn.offset + BitVec.ofNat 64 (uend - rstart)) with
    -- out of slots: the whole region is given up
    | none => regionSlotFree (s.freeUserPages uend rend) i rgn
    | some s => (s.vnodeRef rgn.vnode).setRegion i { rgn with len := ustart - rstart }

/-- The range of an acceptable call: every page of it lies in some region. -/
def munmapRange (l : Layout) (s : MmapState) (addr len : Nat) : Except Errno (Nat × Nat) :=
  let addr := addr % l.word
  let len := len % l.word
  let pagelen := pageRound l len
  if addr % 4096 ≠ 0 then .error .EINVAL
  else if len = 0 then .error .EINVAL
  else if pagelen < len then .error .EINVAL
  else if (addr + pagelen) % l.word < addr then .error .EINVAL
  else if ∃ k < pagelen / 4096, mmapRegionFind s (addr + k * 4096) = none then .error .EINVAL
  else .ok (addr, addr + pagelen)

def sysMunmap (l : Layout) (s : MmapState) (addr len : Nat) : MmapState × Except Errno Unit :=
  match munmapRange l s addr len with
  | .error e => (s, .error e)
  | .ok (lo, hi) => (cutLoop (munmapCut lo hi) lo hi (List.range maxRegions) s, .ok ())

end ArcKernel.Mmap
