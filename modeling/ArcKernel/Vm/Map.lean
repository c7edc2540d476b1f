import ArcKernel.Foundation.Block
import ArcKernel.Foundation.Shift

/-!
# Address maps (`mk/vm/vm_map.c`)

A task's address space is an array of entries sorted by start address.  The array
is a `kmalloc` block that doubles when it is full.  The model keeps the whole
block, with the cells behind the entries in use: they hold what earlier calls
left there, or what the block held before it was allocated.

`vm_map_unmap` and `vm_map_protect` keep a pointer `e` to the current entry across
`vm_map_ensure_capacity`, which may move the array.  From then on `e` points into
the freed block: what is read through it is still the old entry, and what is
written through it does not reach the array.  `VmMap.write` makes that explicit.

The reference counts of the mapped objects are kept by their own module; here the
calls list the references they take and drop.
-/

namespace ArcKernel.Vm

open ArcKernel.Foundation

/-! ## Constants -/

def vmMapInitCapacity : Nat := 64
def vmMapMaxCapacity : Nat := 65536
def pageSize : Nat := 4096

/-- `USER_BASE` and `USER_STACK_TOP` of an architecture. -/
structure UserRange where
  base : Nat
  top : Nat

def amd64User : UserRange := ⟨0x8000000, 0x7FFFFFFFF000⟩

/-! ## Data model -/

/-- `vm_entry_t`; an object is named by its address. -/
structure VmEntry where
  start : Nat
  stop : Nat
  obj : Nat
  objOffset : Nat
  prot : Nat
  inherit : Nat
  deriving DecidableEq, Inhabited

/-- `vm_map_t`. -/
structure VmMap where
  entries : List VmEntry
  entryCount : Nat
  maxEntries : Nat

/-- The outcomes of the allocations of one call, in order; none is left when
memory has run out. -/
abbrev MapMem := List (Option (Nat → VmEntry))

/-- A reference taken or dropped. -/
inductive RefEvent where
  | retain (obj : Nat)
  | release (obj : Nat)

def VmMap.entry (m : VmMap) (i : Nat) : VmEntry := m.entries.getD i default

/-- The entries in use. -/
def VmMap.live (m : VmMap) : List VmEntry := m.entries.take m.entryCount

/-- A `uint64_t` sum. -/
def add64 (a b : Nat) : Nat := (a + b) % 2 ^ 64

/-! ## Internal helpers -/

/-- `entry_overlaps`. -/
def entryOverlaps (e : VmEntry) (start stop : Nat) : Bool :=
  decide (e.start < stop) && decide (e.stop > start)

/-- `entries_shift_right`. -/
def entriesShiftRight (m : VmMap) (index : Nat) : VmMap :=
  { m with entries := shiftRight m.entries m.entryCount index }

/-- `entries_shift_left`. -/
def entriesShiftLeft (m : VmMap) (index : Nat) : VmMap :=
  { m with
    entries := shiftLeft m.entries (m.entryCount - 1 - index) index
    entryCount := m.entryCount - 1 }

def VmMap.setEntry (m : VmMap) (i : Nat) (e : VmEntry) : VmMap :=
  { m with entries := m.entries.set i e }

/-- A write through the pointer to entry `i` that was taken before the array
`moved`, or did not move. -/
def VmMap.write (m : VmMap) (moved : Bool) (i : Nat) (e : VmEntry) : VmMap :=
  if moved then m else m.setEntry i e

/-- `vm_map_grow`. -/
def vmMapGrow (m : VmMap) (block : Option (Nat → VmEntry)) : Option VmMap :=
  let newCap := if m.maxEntries < vmMapInitCapacity then vmMapInitCapacity else m.maxEntries * 2
  if newCap > vmMapMaxCapacity then none
  else
    match block with
    | none => none
    | some fresh =>
        some { m with
          entries := copyInto fresh newCap m.entries m.entryCount
          maxEntries := newCap }

/-- The result of `vm_map_ensure_capacity`: whether there is room, whether the
array moved, the map, and the allocation outcomes not used up. -/
structure Capacity where
  ok : Bool
  moved : Bool
  map : VmMap
  mem : MapMem

/-- `vm_map_ensure_capacity`: grow until there is room. -/
def vmMapEnsureCapacity (m : VmMap) (extra : Nat) : MapMem → Capacity
  | [] => ⟨decide (m.entryCount + extra ≤ m.maxEntries), false, m, []⟩
  | block :: mem =>
      if m.entryCount + extra > m.maxEntries then
        match vmMapGrow m block with
        | none => ⟨false, false, m, mem⟩
        | some grown => { vmMapEnsureCapacity grown extra mem with moved := true }
      else ⟨true, false, m, block :: mem⟩

/-! ## Calls -/

/-- What a call returns and leaves behind. -/
structure MapResult where
  ret : Int
  map : VmMap
  refs : List RefEvent

/-- `vm_map_init`, when the allocation succeeds. -/
def vmMapInit : VmMap where
  entries := List.replicate vmMapInitCapacity ⟨0, 0, 0, 0, 0, 0⟩
  entryCount := 0
  maxEntries := vmMapInitCapacity

/-- Make room at `index`, write the entry there and count it. -/
def VmMap.insertAt (m : VmMap) (index : Nat) (e : VmEntry) : VmMap :=
  let shifted := entriesShiftRight m index
  { shifted.setEntry index e with entryCount := m.entryCount + 1 }

/-- The insertion of two entries: the second shift still runs with the old count. -/
def VmMap.insertTwo (m : VmMap) (index : Nat) (x y : VmEntry) : VmMap :=
  let shifted := entriesShiftRight (entriesShiftRight m index) (index + 1)
  { (shifted.setEntry index x).setEntry (index + 1) y with entryCount := m.entryCount + 2 }

/-- `vm_map_map`. -/
def vmMapMap (user : UserRange) (m : VmMap) (addr : UInt64) (obj : Nat)
    (objOffset size : UInt64) (prot inherit : Nat) (mem : MapMem) : MapResult :=
  let start := addr.toNat
  let stop := add64 addr.toNat size.toNat
  if obj = 0 ∨ size.toNat = 0 then ⟨-1, m, []⟩
  else if start % pageSize ≠ 0 then ⟨-1, m, []⟩
  else if objOffset.toNat % pageSize ≠ 0 then ⟨-1, m, []⟩
  else if size.toNat % pageSize ≠ 0 then ⟨-1, m, []⟩
  else if stop < start then ⟨-1, m, []⟩
  else if start < user.base then ⟨-1, m, []⟩
  else if stop > user.top then ⟨-1, m, []⟩
  else if m.live.any (entryOverlaps · start stop) then ⟨-1, m, []⟩
  else
    let cap := vmMapEnsureCapacity m 1 mem
    if cap.ok then
      let index := cap.map.live.findIdx fun e => decide (e.start > start)
      ⟨0, cap.map.insertAt index ⟨start, stop, obj, objOffset.toNat, prot, inherit⟩, [.retain obj]⟩
    else ⟨-1, cap.map, []⟩

/-- The reference taken with a copy of an entry; `vm_object_retain` ignores NULL. -/
def retainOf (e : VmEntry) : List RefEvent := if e.obj = 0 then [] else [.retain e.obj]

def releaseOf (e : VmEntry) : List RefEvent := if e.obj = 0 then [] else [.release e.obj]

/-- The part of an entry from `cut` on. -/
def VmEntry.fromCut (e : VmEntry) (cut : Nat) : VmEntry :=
  { e with start := cut, objOffset := add64 e.objOffset (cut - e.start) }

/-- The loop of `vm_map_unmap` from entry `i` on.  Each turn deals with one entry
the call started with, so the number of entries is enough fuel. -/
def unmapLoop (addr stop : Nat) : Nat → Nat → VmMap → MapMem → List RefEvent → MapResult
  | 0, _, m, _, refs => ⟨0, m, refs⟩
  | fuel + 1, i, m, mem, refs =>
      if i < m.entryCount then
        let e := m.entry i
        if !entryOverlaps e addr stop then unmapLoop addr stop fuel (i + 1) m mem refs
        else if addr ≤ e.start ∧ stop ≥ e.stop then
          -- (a) full overwrite
          unmapLoop addr stop fuel i (entriesShiftLeft m i) mem (refs ++ releaseOf e)
        else if addr ≤ e.start ∧ stop < e.stop then
          -- (b) left partial
          unmapLoop addr stop fuel (i + 1) (m.setEntry i (e.fromCut stop)) mem refs
        else if addr > e.start ∧ stop ≥ e.stop then
          -- (c) right partial
          unmapLoop addr stop fuel (i + 1) (m.setEntry i { e with stop := addr }) mem refs
        else if addr > e.start ∧ stop < e.stop then
          -- (d) split
          let cap := vmMapEnsureCapacity m 1 mem
          if cap.ok then
            let left := cap.map.write cap.moved i { e with stop := addr }
            unmapLoop addr stop fuel (i + 2) (left.insertAt (i + 1) (e.fromCut stop)) cap.mem
              (refs ++ retainOf e)
          else ⟨-1, cap.map, refs⟩
        else unmapLoop addr stop fuel (i + 1) m mem refs
      else ⟨0, m, refs⟩

/-- `vm_map_unmap`. -/
def vmMapUnmap (m : VmMap) (addr size : UInt64) (mem : MapMem) : MapResult :=
  let stop := add64 addr.toNat size.toNat
  if size.toNat = 0 then ⟨-1, m, []⟩
  else if stop < addr.toNat then ⟨-1, m, []⟩
  else unmapLoop addr.toNat stop m.entryCount 0 m mem []

/-- The loop of `vm_map_protect` from entry `i` on. -/
def protectLoop (addr stop prot : Nat) : Nat → Nat → VmMap → MapMem → List RefEvent → MapResult
  | 0, _, m, _, refs => ⟨0, m, refs⟩
  | fuel + 1, i, m, mem, refs =>
      if i < m.entryCount then
        let e := m.entry i
        if !entryOverlaps e addr stop then protectLoop addr stop prot fuel (i + 1) m mem refs
        else if addr ≤ e.start ∧ stop ≥ e.stop then
          -- full cover
          protectLoop addr stop prot fuel (i + 1) (m.setEntry i { e with prot := prot }) mem refs
        else if addr ≤ e.start ∧ stop < e.stop then
          -- left partial
          let cap := vmMapEnsureCapacity m 1 mem
          if cap.ok then
            let left := cap.map.write cap.moved i { e with stop := stop, prot := prot }
            protectLoop addr stop prot fuel (i + 2) (left.insertAt (i + 1) (e.fromCut stop))
              cap.mem (refs ++ retainOf e)
          else ⟨-1, cap.map, refs⟩
        else if addr > e.start ∧ stop ≥ e.stop then
          -- right partial: the left fragment goes behind the shrunk entry
          let cap := vmMapEnsureCapacity m 1 mem
          if cap.ok then
            let right := cap.map.write cap.moved i { e.fromCut addr with prot := prot }
            protectLoop addr stop prot fuel (i + 2)
              (right.insertAt (i + 1) { e with stop := addr }) cap.mem (refs ++ retainOf e)
          else ⟨-1, cap.map, refs⟩
        else if addr > e.start ∧ stop < e.stop then
          -- three parts
          let cap := vmMapEnsureCapacity m 2 mem
          if cap.ok then
            let left := cap.map.write cap.moved i { e with stop := addr }
            let middle := { e.fromCut addr with stop := stop, prot := prot }
            protectLoop addr stop prot fuel (i + 3)
              (left.insertTwo (i + 1) middle (e.fromCut stop)) cap.mem
              (refs ++ retainOf e ++ retainOf e)
          else ⟨-1, cap.map, refs⟩
        else protectLoop addr stop prot fuel (i + 1) m mem refs
      else ⟨0, m, refs⟩

/-- `vm_map_protect`. -/
def vmMapProtect (m : VmMap) (addr size : UInt64) (prot : Nat) (mem : MapMem) : MapResult :=
  let stop := add64 addr.toNat size.toNat
  if size.toNat = 0 then ⟨-1, m, []⟩
  else if stop < addr.toNat then ⟨-1, m, []⟩
  else protectLoop addr.toNat stop prot m.entryCount 0 m mem []

end ArcKernel.Vm
