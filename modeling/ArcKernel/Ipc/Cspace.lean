import ArcKernel.Foundation.Bitmap
import ArcKernel.Foundation.Block

/-!
# Capability spaces (`mk/vm/cspace.c`, `mk/include/task.h`)

A task's C-space is a slot table with a bitmap of used slots; both are
`kmalloc` blocks that grow by doubling up to `CSPACE_MAX_SLOTS`.  The model
keeps the two blocks as the source does: `slots` and `freeBitmap` are separate
arrays, and nothing but the code ties a bit to its slot.

The outcome of the two allocations of `cspace_grow` is an argument, `GrowMem`:
either allocation may fail, and a block that is returned has arbitrary
contents.

Locks are not modelled here.  Each operation runs under the spinlock of the
spaces it touches and is one atomic step.  `cspace_move` takes both locks, so
it cannot be called with one space twice: the second `spin_lock_irqsave` would
spin forever on the lock the same CPU holds.
-/

namespace ArcKernel.Ipc

open ArcKernel.Foundation

/-! ## Constants of `task.h` -/

def cspaceDefaultSlots : Nat := 256
def cspaceMaxSlots : Nat := 65536
def cspaceWordBits : Nat := 32

def capPort : Nat := 1
def capMemory : Nat := 2
def capThread : Nat := 3

def capSend : Nat := 1
def capRecv : Nat := 2
def capReply : Nat := 4
def capRead : Nat := 8
def capWrite : Nat := 16

/-! ## Data model -/

/-- `cslot_t`.  The type is whatever word the allocating call passed:
`sys_slot_alloc` takes it from user space unchecked. -/
structure CSlot where
  objectId : Nat
  type : Nat
  rights : Nat
  inUse : Bool
  deriving DecidableEq, Inhabited

/-- A slot whose fields are all zero, as `memset` and the freeing code leave it. -/
def CSlot.zero : CSlot := ⟨0, 0, 0, false⟩

/-- `cspace_t`. -/
structure CSpace where
  slots : List CSlot
  freeBitmap : List (BitVec 32)
  maxSlots : Nat
  bitmapWords : Nat
  deriving DecidableEq, Inhabited

/-- The outcome of the two `kmalloc` calls of `cspace_grow`: the new slot table
and the new bitmap, each with the contents the block happens to have. -/
structure GrowMem where
  slots : Option (Nat → CSlot)
  bitmap : Option (Nat → BitVec 32)

/-- Slot `i` of the table; the model never reads past the table. -/
def CSpace.slot (cs : CSpace) (i : Nat) : CSlot := cs.slots.getD i CSlot.zero

/-- The used bit of slot `i`. -/
def CSpace.used (cs : CSpace) (i : Nat) : Bool := Bitmap.test cs.freeBitmap i

/-! ## Operations -/

/-- `cspace_init`, when both allocations succeed: everything cleared, and bit 0
set because slot 0 is the null capability. -/
def cspaceInit : CSpace where
  slots := List.replicate cspaceDefaultSlots CSlot.zero
  freeBitmap := Bitmap.set (List.replicate (cspaceDefaultSlots / cspaceWordBits) 0#32) 0
  maxSlots := cspaceDefaultSlots
  bitmapWords := cspaceDefaultSlots / cspaceWordBits

/-- `cspace_grow`.  The old slots and the old bitmap words are copied and the
new bitmap words are cleared; the new slots keep the contents of the block. -/
def cspaceGrow (cs : CSpace) (mem : GrowMem) : Option CSpace :=
  let newMax := cs.maxSlots * 2
  if newMax > cspaceMaxSlots then none
  else
    let newWords := newMax / cspaceWordBits
    match mem.slots with
    | none => none
    | some freshSlots =>
        match mem.bitmap with
        | none => none
        | some _ =>
            some {
              slots := copyInto freshSlots newMax cs.slots cs.maxSlots
              freeBitmap := cs.freeBitmap.take cs.bitmapWords ++
                List.replicate (newWords - cs.bitmapWords) 0#32
              maxSlots := newMax
              bitmapWords := newWords }

/-- `bitmap_alloc`: find the first clear bit and set it. -/
def bitmapAlloc (cs : CSpace) : Option (Nat × CSpace) :=
  match Bitmap.firstClear cs.freeBitmap cs.bitmapWords with
  | none => none
  | some i => some (i, { cs with freeBitmap := Bitmap.set cs.freeBitmap i })

/-- `bitmap_alloc`, then `cspace_grow` and a second `bitmap_alloc` when the
first one found nothing: the sequence `cspace_alloc_slot` and `cspace_move`
share.  The second component is the space as the calls leave it, also when they
fail. -/
def allocOrGrow (cs : CSpace) (mem : GrowMem) : Option Nat × CSpace :=
  match bitmapAlloc cs with
  | some (i, cs') => (some i, cs')
  | none =>
      match cspaceGrow cs mem with
      | none => (none, cs)
      | some grown =>
          match bitmapAlloc grown with
          | some (i, cs') => (some i, cs')
          | none => (none, grown)

/-- `cspace_alloc_slot`; `none` is the result `-1`. -/
def cspaceAllocSlot (cs : CSpace) (type rights objectId : Nat) (mem : GrowMem) :
    Option Nat × CSpace :=
  match allocOrGrow cs mem with
  | (none, cs') => (none, cs')
  | (some i, cs') => (some i, { cs' with slots := cs'.slots.set i ⟨objectId, type, rights, true⟩ })

/-- The part of `cspace_free_slot` under the space's lock, for a slot in range:
the slot's contents before it was cleared, or `none` when it was not in use. -/
def clearSlot (cs : CSpace) (i : Nat) : Option (CSlot × CSpace) :=
  if (cs.slot i).inUse then
    some (cs.slot i,
      { cs with
        slots := cs.slots.set i CSlot.zero
        freeBitmap := Bitmap.clear cs.freeBitmap i })
  else none

/-- The range check every slot operation makes on its `int` argument. -/
def CSpace.inRange (cs : CSpace) (slot : Int) : Bool :=
  decide (0 ≤ slot) && decide (slot < cs.maxSlots)

/-- `cspace_free_slot`: the result is the capability that was freed (the caller
releases the port reference of a `CAP_PORT`), `none` for the result `-1`. -/
def cspaceFreeSlot (cs : CSpace) (slot : Int) : Option CSlot × CSpace :=
  if cs.inRange slot then
    match clearSlot cs slot.toNat with
    | none => (none, cs)
    | some (cap, cs') => (some cap, cs')
  else (none, cs)

/-- `cspace_lookup_snapshot` (and `cspace_lookup`, read at once). -/
def cspaceLookupSnapshot (cs : CSpace) (slot : Int) : Option CSlot :=
  if cs.inRange slot then
    if (cs.slot slot.toNat).inUse then some (cs.slot slot.toNat) else none
  else none

/-- `cspace_move` between two different spaces: the destination slot, and both
spaces as the call leaves them. -/
def cspaceMove (src dst : CSpace) (slot : Int) (mem : GrowMem) :
    Option Nat × CSpace × CSpace :=
  if src.inRange slot then
    if (src.slot slot.toNat).inUse then
      match allocOrGrow dst mem with
      | (none, dst') => (none, src, dst')
      | (some i, dst') =>
          (some i,
            { src with
              slots := src.slots.set slot.toNat CSlot.zero
              freeBitmap := Bitmap.clear src.freeBitmap slot.toNat },
            { dst' with slots := dst'.slots.set i (src.slot slot.toNat) })
    else (none, src, dst)
  else (none, src, dst)

/-! ## Handles (`task.h`) -/

/-- `task_make_handle`. -/
def taskMakeHandle (taskId slot : Nat) : Nat := taskId * 2 ^ 32 + slot % 2 ^ 31

/-- `handle_task_id`. -/
def handleTaskId (handle : Nat) : Nat := handle / 2 ^ 32 % 2 ^ 32

/-- `handle_slot`. -/
def handleSlot (handle : Nat) : Int := (handle % 2 ^ 31 : Nat)

end ArcKernel.Ipc
