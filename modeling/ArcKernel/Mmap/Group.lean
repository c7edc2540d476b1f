import ArcKernel.Mmap.Regions

/-!
# Threads on one address space

Model of what `proc_clone` with `CLONE_VM` (`bsd/proc/clone.c`) shares and what it does not.
The page directory is one for the whole group.  The region table and the mmap cursor of a new
thread are those of a zeroed process, and its break is a copy of its creator's.  Over that
state stand `sys_mmap`, `sys_munmap`, `sys_mprotect`, the page fault handler
(`bsd/sys/sys_mmap.c`) and `sys_brk` (`bsd/sys/sys_process.c`), each called by a member.

The page directory is read by page number.  An entry has its frame and the bits that decide
what happens to the frame; the no-execute bit and the contents of the frames are left out.
Each request for a frame is answered by the label of the step.

`owned` is read by no call: it holds the pages mapped by a successful call and not unmapped
since by the member that mapped them, each with that member.  A call that fails half way has
unmapped what it gave up until then.
-/

namespace ArcKernel.Mmap

open ArcKernel.Foundation Function

/-- A layout with the start of the heap. -/
structure SpaceLayout extends Layout where
  heapStart : Nat

def amd64Space : SpaceLayout := ⟨amd64, 0x40000000⟩
def i386Space : SpaceLayout := ⟨i386, 0x40000000⟩

/-! ## The page directory -/

structure Page where
  frame : Nat
  writable : Bool
  /-- `VMM_COW` -/
  cow : Bool
  /-- `VMM_CACHE_DISABLE`: device memory -/
  device : Bool
  deriving DecidableEq

structure Space where
  pages : Nat → Option Page
  /-- frames given back to the allocator, oldest first -/
  freed : List Nat

namespace Space

def present (m : Space) (pg : Nat) : Bool := (m.pages pg).isSome

def map (m : Space) (pg : Nat) (p : Page) : Space := { m with pages := update m.pages pg (some p) }

def unmap (m : Space) (pg : Nat) : Space := { m with pages := update m.pages pg none }

end Space

/-- The answer to one request for a frame. -/
inductive Grant where
  | page (frame : Nat)
  /-- a frame, but no temporary mapping to clear it through -/
  | noTemp
  /-- a frame, but no page table to map it in -/
  | noTable

/-- `for (pg = lo; pg < hi; pg += PAGE_SIZE)`, as page numbers -/
def pageSpan (lo hi : Nat) : List Nat := List.range' (lo / 4096) ((hi - lo + 4095) / 4096)

/-- The frame goes back to the allocator unless it is shared or a device's. -/
def freeUserPage (m : Space) (pg : Nat) : Space :=
  match m.pages pg with
  | none => m.unmap pg
  | some p =>
      if p.frame = 0 ∨ p.cow ∨ p.device then m.unmap pg
      else { m.unmap pg with freed := m.freed ++ [p.frame] }

def freeSpan (m : Space) (range : Nat × Nat) : Space :=
  (pageSpan range.1 range.2).foldl freeUserPage m

/-- Allocate a frame, clear it and map it, over whatever was mapped there. -/
def mapFresh (m : Space) (pg : Nat) (writable : Bool) : Option Grant → Option Space
  | some (.page frame) => some (m.map pg ⟨frame, writable, false, false⟩)
  | _ => none

def regionMaterialize (m : Space) (r : MmapRegion) (pg : Nat) (g : Option Grant) : Option Space :=
  mapFresh m pg (r.prot &&& PROT_WRITE != 0) g

/-- `none` when the page is not copy-on-write or there is no frame -/
def vmmCowBreak (m : Space) (pg : Nat) (g : Option Grant) : Option Space :=
  match m.pages pg, g with
  | some p, some (.page frame) =>
      if p.cow then some (m.map pg { p with frame := frame, writable := true, cow := false })
      else none
  | _, _ => none

/-! ## The calls of one member -/

/-- The loop that maps every page at once where there is no fault hook; `false` when it runs
out of memory. -/
def fill (mm : MmapState) : List Nat → List Grant → Space → Space × Bool
  | [], _, m => (m, true)
  | pg :: rest, gs, m =>
      match mmapRegionFind mm (pg * 4096) with
      | none => fill mm rest gs m
      | some r =>
          match regionMaterialize m r pg gs.head? with
          | none => (m, false)
          | some m => fill mm rest gs.tail m

/-- What a call leaves: the directory, the member's table, and the range it mapped or
unmapped if it succeeded. -/
structure Outcome where
  space : Space
  mm : MmapState
  range : Option (Nat × Nat)

/-- `sys_mmap` on the shared directory.  The table is asked for the mapping as if the pages
could be filled, and once more with what filling them gave. -/
def mmapShared (l : Layout) (m : Space) (mm : MmapState) (a : MmapArgs) (gs : List Grant) :
    Outcome :=
  let mm := { mm with released := [] }
  let done := sysMmap l mm { a with filled := true }
  let cleared := done.1.released.foldl freeSpan m
  match done.2 with
  | .error _ => ⟨cleared, done.1, none⟩
  | .ok start =>
      let stop := start + pageRound l (a.len % l.word)
      if l.eager then
        let filled := fill done.1 (pageSpan start stop) gs cleared
        ⟨filled.1, (sysMmap l mm { a with filled := filled.2 }).1,
          if filled.2 then some (start, stop) else none⟩
      else ⟨cleared, done.1, some (start, stop)⟩

def munmapShared (l : Layout) (m : Space) (mm : MmapState) (addr len : Nat) : Outcome :=
  let mm := { mm with released := [] }
  let done := sysMunmap l mm addr len
  ⟨done.1.released.foldl freeSpan m, done.1, (munmapRange l mm addr len).toOption⟩

/-- The loop of `sys_mprotect` over the pages of one region; the grants left, or `none` in
their place when a shared page cannot be copied. -/
def mprotectPages (prot : BitVec 32) : List Nat → List Grant → Space → Space × Option (List Grant)
  | [], gs, m => (m, some gs)
  | pg :: rest, gs, m =>
      match m.pages pg with
      -- not there yet: the fault will read the region
      | none => mprotectPages prot rest gs m
      | some p =>
          let write := prot &&& PROT_WRITE != 0
          if write ∧ p.cow then
            match vmmCowBreak m pg gs.head? with
            | none => (m, none)
            | some m => mprotectPages prot rest gs.tail m
          else mprotectPages prot rest gs (m.map pg { p with writable := write })

/-- The loop over the table. -/
def mprotectLoop (lo hi : Nat) (prot : BitVec 32) :
    List Nat → List Grant → Space → MmapState → Space × MmapState
  | [], _, m, mm => (m, mm)
  | i :: rest, gs, m, mm =>
      match mm.regions[i]? with
      | none => mprotectLoop lo hi prot rest gs m mm
      | some r =>
          if r.Overlaps lo hi then
            let mm := mm.setRegion i { r with prot := prot }
            match mprotectPages prot (pageSpan (max lo r.start) (min hi r.stop)) gs m with
            | (m, none) => (m, mm)
            | (m, some gs) => mprotectLoop lo hi prot rest gs m mm
          else mprotectLoop lo hi prot rest gs m mm

/-- The range is checked as `sys_munmap` checks it. -/
def sysMprotect (l : Layout) (m : Space) (mm : MmapState) (addr len : Nat) (prot : BitVec 32)
    (gs : List Grant) : Space × MmapState :=
  if prot &&& ~~~7 ≠ 0 then (m, mm)
  else if prot &&& PROT_WRITE ≠ 0 ∧ prot &&& PROT_EXEC ≠ 0 then (m, mm)
  else
    match munmapRange l mm addr len with
    | .error _ => (m, mm)
    | .ok (lo, hi) => mprotectLoop lo hi prot (List.range maxRegions) gs m mm

/-- A fault of a member; `false` when the member is sent `SIGSEGV`, or ended where there is
no fault hook. -/
def pageFault (l : Layout) (m : Space) (mm : MmapState) (addr : Nat) (write : Bool)
    (g : Option Grant) : Space × Bool :=
  let pg := addr / 4096
  match (if write then vmmCowBreak m pg g else none) with
  | some m => (m, true)
  | none =>
      if l.eager then (m, false)
      else
        match mmapRegionFind mm addr with
        | none => (m, false)
        | some r =>
            if m.present pg then (m, false)
            else
              match regionMaterialize m r pg g with
              | none => (m, false)
              | some m => (m, true)

/-! ## The break -/

/-- The break rounded up to a page. -/
def breakTop (brk : Nat) : Nat := (brk + 4095) / 4096 * 4096

/-- The loop that grows the heap, with the pages it did not reach. -/
def heapFill : List Nat → List Grant → Space → Space × List Nat
  | [], _, m => (m, [])
  | pg :: rest, gs, m =>
      match mapFresh m pg true gs.head? with
      | none => (m, pg :: rest)
      | some m => heapFill rest gs.tail m

/-- Pages between the old break and the new one, none when the heap shrinks. -/
def grownPages (old new : Nat) : List Nat := pageSpan (breakTop old) (breakTop new)

/-- `false` for `-ENOMEM` -/
def procBrkResize (m : Space) (heapEnd newBrk : Nat) (gs : List Grant) : Space × Bool :=
  let grown := grownPages heapEnd newBrk
  let filled := heapFill grown gs m
  if filled.2 ≠ [] then
    ((grown.take (grown.length - filled.2.length)).foldl freeUserPage filled.1, false)
  else ((grownPages newBrk heapEnd).foldl freeUserPage filled.1, true)

/-! ## The group -/

structure Member where
  mm : MmapState
  heapEnd : Nat

structure Group where
  members : List Member
  space : Space
  owned : List (Nat × Nat)

def own (i : Nat) (pgs : List Nat) (owned : List (Nat × Nat)) : List (Nat × Nat) :=
  pgs.map (fun pg => (pg, i)) ++ owned.filter fun o => !pgs.contains o.1

def disown (i : Nat) (pgs : List Nat) (owned : List (Nat × Nat)) : List (Nat × Nat) :=
  owned.filter fun o => !(o.2 == i && pgs.contains o.1)

/-- What `proc_clone` gives a thread: an empty table, the cursor at zero, a copy of the
break. -/
def cloneMember (parent : Member) : Member :=
  ⟨⟨List.replicate maxRegions .zero, 0, fun _ => 0, []⟩, parent.heapEnd⟩

/-- A call, by the member `i` of the group. -/
inductive GroupCall where
  | clone (i : Nat)
  | mmap (i : Nat) (args : MmapArgs) (grants : List Grant)
  | munmap (i addr len : Nat)
  | mprotect (i addr len : Nat) (prot : BitVec 32) (grants : List Grant)
  | brk (i newBrk : Nat) (grants : List Grant)
  | fault (i addr : Nat) (write : Bool) (grant : Option Grant)

/-- `sys_brk` does nothing: a query, or a break outside the heap. -/
def brkIdle (l : SpaceLayout) (heapEnd newBrk : Nat) : Prop :=
  newBrk = 0 ∨ newBrk = heapEnd ∨ newBrk < l.heapStart ∨ l.mmapStart < newBrk

instance (l : SpaceLayout) (heapEnd newBrk : Nat) : Decidable (brkIdle l heapEnd newBrk) :=
  inferInstanceAs (Decidable (_ ∨ _))

def groupMmap (l : SpaceLayout) (s : Group) (i : Nat) (p : Member) (a : MmapArgs)
    (gs : List Grant) : Group :=
  let out := mmapShared l.toLayout s.space p.mm a gs
  ⟨s.members.set i { p with mm := out.mm }, out.space,
    match out.range with
    | none => disown i (out.mm.released.flatMap fun r => pageSpan r.1 r.2) s.owned
    | some (lo, hi) => own i (pageSpan lo hi) s.owned⟩

def groupMunmap (l : SpaceLayout) (s : Group) (i : Nat) (p : Member) (addr len : Nat) : Group :=
  let out := munmapShared l.toLayout s.space p.mm addr len
  ⟨s.members.set i { p with mm := out.mm }, out.space,
    match out.range with
    | none => s.owned
    | some (lo, hi) => disown i (pageSpan lo hi) s.owned⟩

def sysBrk (l : SpaceLayout) (s : Group) (i : Nat) (p : Member) (newBrk : Nat)
    (gs : List Grant) : Group :=
  if brkIdle l p.heapEnd newBrk then s
  else
    let done := procBrkResize s.space p.heapEnd newBrk gs
    if done.2 then
      ⟨s.members.set i { p with heapEnd := newBrk }, done.1,
        disown i (grownPages newBrk p.heapEnd) (own i (grownPages p.heapEnd newBrk) s.owned)⟩
    else { s with space := done.1, owned := disown i (grownPages p.heapEnd newBrk) s.owned }

def groupStep (l : SpaceLayout) (s : Group) : GroupCall → Option Group
  | .clone i => s.members[i]?.map fun p => { s with members := s.members ++ [cloneMember p] }
  | .mmap i a gs => s.members[i]?.map fun p => groupMmap l s i p a gs
  | .munmap i addr len => s.members[i]?.map fun p => groupMunmap l s i p addr len
  | .mprotect i addr len prot gs => s.members[i]?.map fun p =>
      let done := sysMprotect l.toLayout s.space p.mm addr len prot gs
      { s with members := s.members.set i { p with mm := done.2 }, space := done.1 }
  | .brk i newBrk gs => s.members[i]?.map fun p => sysBrk l s i p (newBrk % 2 ^ 64) gs
  | .fault i addr write g => s.members[i]?.map fun p =>
      { s with space := (pageFault l.toLayout s.space p.mm addr write g).1 }

/-! ## Agreement -/

/-- An access of the member finds the page, or a region to make it from. -/
def resolves (l : Layout) (m : Space) (mm : MmapState) (addr : Nat) : Prop :=
  m.present (addr / 4096) = true ∨ l.eager = false ∧ (mmapRegionFind mm addr).isSome = true

instance (l : Layout) (m : Space) (mm : MmapState) (addr : Nat) :
    Decidable (resolves l m mm addr) := inferInstanceAs (Decidable (_ ∨ _))

/-- What one member has mapped is resolved for every other. -/
def Agree (l : SpaceLayout) (s : Group) : Prop :=
  ∀ addr i, (addr / 4096, i) ∈ s.owned → ∀ j p, s.members[j]? = some p → j ≠ i →
    resolves l.toLayout s.space p.mm addr

/-- The member that maps memory with the call, for `mmap` and `brk`. -/
def GroupCall.mapper : GroupCall → Option Nat
  | .mmap i _ _ => some i
  | .brk i _ _ => some i
  | _ => none

/-- The call, if it is an `mmap` or a `brk`, leaves every page another member has mapped as
it is. -/
def KeepsPages (l : SpaceLayout) (s : Group) (c : GroupCall) : Prop :=
  ∀ i, c.mapper = some i → ∀ t, groupStep l s c = some t →
    ∀ o ∈ s.owned, o.2 ≠ i → t.space.pages o.1 = s.space.pages o.1

end ArcKernel.Mmap
