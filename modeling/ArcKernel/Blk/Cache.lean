import ArcKernel.Foundation.Run

/-!
# The block cache

`bsd/vfs/block.c`: 128 buckets of four slots, each holding one block of one device; a written
block stays in its slot until the slot is needed for another block or the device is synced.
What a block contains is no business of the cache, so it is a type variable.

A device is a record of two functions, as in the source.  The ones of a physical device store
blocks; each transfer succeeds or fails as an oracle `io` says, and a failed write may leave
anything in the blocks it was for.
-/

namespace ArcKernel.Blk

open Function

abbrev Lba : Type := BitVec 64

inductive Errno where
  | eio
  /-- A call that does not come back. -/
  | stack
  deriving DecidableEq

/-- `block_dev_t`: the fields the cache reads. -/
structure Dev where
  blockSize : Nat
  cacheKey : BitVec 32

variable {β : Type}

/-- `blk_cache_slot_t`; `dev` is `none` in a slot that was never used. -/
structure Slot (β : Type) where
  dev : Option Nat
  lba : Lba
  data : β
  refs : Nat
  populated : Bool
  dirty : Bool

/-- A slot after `memset`. -/
def Slot.zero [Inhabited β] : Slot β :=
  { dev := none, lba := 0, data := default, refs := 0, populated := false, dirty := false }

def Slot.holds (x : Slot β) (d : Nat) (l : Lba) : Bool := x.dev == some d && x.lba == l

/-- The devices, what is on them, the transfers made so far, and the cache. -/
structure BlkSys (β : Type) where
  devs : Nat → Dev
  disk : Nat → Lba → β
  tick : Nat
  enabled : Bool
  slots : Nat → Slot β

/-- How `blk_write` ends: with all blocks stored, or with a device write that failed after
`stored` blocks and was for the `asked` next ones. -/
inductive WriteEnd where
  | done
  | failed (e : Errno) (stored asked : Nat)
  deriving DecidableEq

/-- The functions of a device: blocks from an address on. -/
structure DevOps (β : Type) where
  read : BlkSys β → Nat → Lba → Nat → Except Errno (List β) × BlkSys β
  write : BlkSys β → Nat → Lba → List β → Except Errno Unit × BlkSys β

namespace BlkSys

/-! ## Physical devices -/

def put (s : BlkSys β) (d : Nat) (l : Lba) (x : β) : BlkSys β :=
  { s with disk := update s.disk d (update (s.disk d) l x) }

/-- Blocks stored from `l` on; `none` leaves the block alone. -/
def putAll (s : BlkSys β) (d : Nat) (l : Lba) : List (Option β) → BlkSys β
  | [] => s
  | none :: xs => s.putAll d (l + 1) xs
  | some x :: xs => (s.put d l x).putAll d (l + 1) xs

def getAll (s : BlkSys β) (d : Nat) (l : Lba) : Nat → List β
  | 0 => []
  | n + 1 => s.disk d l :: s.getAll d (l + 1) n

def ticked (s : BlkSys β) : BlkSys β := { s with tick := s.tick + 1 }

end BlkSys

/-- How a transfer of a physical device ends; `left` is what a failed write leaves in the blocks it
was for. -/
inductive Transfer (β : Type) where
  | done
  | failed (left : Nat → Option β)

/-- A device that stores what a successful write gave it. -/
def physical (io : Nat → Transfer β) : DevOps β where
  read := fun s d l n =>
    match io s.tick with
    | .done => (.ok (s.getAll d l n), s.ticked)
    | .failed _ => (.error .eio, s.ticked)
  write := fun s d l xs =>
    match io s.tick with
    | .done => (.ok (), (s.putAll d l (xs.map some)).ticked)
    | .failed left => (.error .eio, (s.putAll d l ((List.range xs.length).map left)).ticked)

namespace BlkSys

/-! ## Slots -/

/-- `BLK_CACHE_BUCKETS * BLK_CACHE_WAYS`. -/
def total : Nat := 512

/-- `blk_cache_hash`. -/
def hash (s : BlkSys β) (d : Nat) (l : Lba) : Nat :=
  let h := (s.devs d).cacheKey * 2654435761#32
  let h := h ^^^ l.truncate 32
  let h := h ^^^ (l >>> 32).truncate 32
  let h := h * 2654435761#32
  let h := h ^^^ (h >>> 13)
  let h := h * 2654435761#32
  let h := h ^^^ (h >>> 16)
  (h &&& 127#32).toNat

/-- The slots of the bucket of a block. -/
def ways (s : BlkSys β) (d : Nat) (l : Lba) : List Nat :=
  (List.range 4).map fun i => s.hash d l * 4 + i

def setSlot (s : BlkSys β) (i : Nat) (x : Slot β) : BlkSys β :=
  { s with slots := update s.slots i x }

/-- The slot that holds a block. -/
def hit (s : BlkSys β) (d : Nat) (l : Lba) : Option Nat :=
  (s.ways d l).find? fun i => (s.slots i).holds d l

/-- A slot of the bucket that can be given to another block: a clean one if there is one. -/
def victim (s : BlkSys β) (d : Nat) (l : Lba) : Option Nat :=
  ((s.ways d l).find? fun i => (s.slots i).refs == 0 && !(s.slots i).dirty).or
    ((s.ways d l).find? fun i => (s.slots i).refs == 0)

/-- The slot is given to a block, with one reference. -/
def install [Inhabited β] (s : BlkSys β) (i d : Nat) (l : Lba) : BlkSys β :=
  s.setSlot i { Slot.zero with dev := some d, lba := l, refs := 1 }

/-- `blk_cache_release`. -/
def release (s : BlkSys β) (i : Nat) : BlkSys β :=
  s.setSlot i { s.slots i with refs := (s.slots i).refs - 1 }

/-- What the first section under the lock finds. -/
inductive Found where
  | slot (i : Nat)
  | none
  /-- A dirty slot that must be written first. -/
  | evict (i : Nat)

/-- The first section of `blk_cache_get` under the lock. -/
def getFirst [Inhabited β] (s : BlkSys β) (d : Nat) (l : Lba) : Found × BlkSys β :=
  match s.hit d l with
  | some i => (.slot i, s.setSlot i { s.slots i with refs := (s.slots i).refs + 1 })
  | none =>
    match s.victim d l with
    | none => (.none, s)
    | some i => if (s.slots i).dirty then (.evict i, s) else (.slot i, s.install i d l)

/-- The second section, after a dirty victim was written: the slot may have been taken. -/
def getAgain [Inhabited β] (s : BlkSys β) (i d : Nat) (l : Lba) : Option Nat × BlkSys β :=
  if (s.slots i).refs ≠ 0 ∨ (s.slots i).dirty = true then (none, s)
  else (some i, s.install i d l)

/-- The end of `blk_cache_writeback`. -/
def cleaned (s : BlkSys β) (i : Nat) : BlkSys β := s.setSlot i { s.slots i with dirty := false }

/-- `blk_cache_writeback`. -/
def writeback (ops : DevOps β) (s : BlkSys β) (i : Nat) : Except Errno Unit × BlkSys β :=
  match (s.slots i).dev with
  | none => (.error .eio, s)
  | some d =>
    match ops.write s d (s.slots i).lba [(s.slots i).data] with
    | (.error e, s') => (.error e, s')
    | (.ok (), s') => (.ok (), s'.cleaned i)

/-- `blk_cache_get`. -/
def cacheGet [Inhabited β] (ops : DevOps β) (s : BlkSys β) (d : Nat) (l : Lba) :
    Option Nat × BlkSys β :=
  match s.getFirst d l with
  | (.slot i, s) => (some i, s)
  | (.none, s) => (none, s)
  | (.evict i, s) => (s.writeback ops i).2.getAgain i d l

/-! ## Reading and writing -/

/-- `blk_cacheable`. -/
def cacheable (s : BlkSys β) (d : Nat) : Bool :=
  let bsz := (s.devs d).blockSize
  decide (512 ≤ bsz) && decide (bsz ≤ 4096) && bsz &&& (bsz - 1) == 0

/-- `blk_cache_init`; `mem` says whether there is memory for the slots. -/
def cacheInit [Inhabited β] (s : BlkSys β) (mem : Bool) : BlkSys β :=
  if s.enabled then s
  else if mem then { s with enabled := true, slots := fun _ => .zero }
  else s

/-- One round of the loop of `blk_read`.  A failed transfer leaves the slot unpopulated; what it
left in the slot's buffer is never read. -/
def readBlock [Inhabited β] (ops : DevOps β) (s : BlkSys β) (d : Nat) (l : Lba) :
    Except Errno (List β) × BlkSys β :=
  match s.cacheGet ops d l with
  | (none, s) => ops.read s d l 1
  | (some i, s) =>
    if (s.slots i).populated then (.ok [(s.slots i).data], s.release i)
    else
      match ops.read s d l 1 with
      | (.error e, s) => (.error e, s.release i)
      | (.ok xs, s) =>
        let s := s.setSlot i { s.slots i with data := xs.headD (s.slots i).data, populated := true }
        (.ok [(s.slots i).data], s.release i)

def readLoop [Inhabited β] (ops : DevOps β) :
    BlkSys β → Nat → Lba → Nat → Except Errno (List β) × BlkSys β
  | s, _, _, 0 => (.ok [], s)
  | s, d, l, n + 1 =>
    match s.readBlock ops d l with
    | (.error e, s) => (.error e, s)
    | (.ok x, s) =>
      match readLoop ops s d (l + 1) n with
      | (.error e, s) => (.error e, s)
      | (.ok xs, s) => (.ok (x ++ xs), s)

/-- `blk_read`. -/
def blkRead [Inhabited β] (ops : DevOps β) (s : BlkSys β) (d : Nat) (l : Lba) (n : Nat)
    (mem : Bool) : Except Errno (List β) × BlkSys β :=
  if n = 0 then (.ok [], s)
  else if s.cacheable d = false then ops.read s d l n
  else if (s.cacheInit mem).enabled = false then ops.read (s.cacheInit mem) d l n
  else readLoop ops (s.cacheInit mem) d l n

/-- One round of the loop of `blk_write`. -/
def writeBlock [Inhabited β] (ops : DevOps β) (s : BlkSys β) (d : Nat) (l : Lba) (x : β) :
    Except Errno Unit × BlkSys β :=
  match s.cacheGet ops d l with
  | (none, s) => ops.write s d l [x]
  | (some i, s) =>
    (.ok (), (s.setSlot i { s.slots i with data := x, populated := true, dirty := true }).release i)

def writeLoop [Inhabited β] (ops : DevOps β) : BlkSys β → Nat → Lba → List β → WriteEnd × BlkSys β
  | s, _, _, [] => (.done, s)
  | s, d, l, x :: xs =>
    match s.writeBlock ops d l x with
    | (.error e, s) => (.failed e 0 1, s)
    | (.ok (), s) =>
      match writeLoop ops s d (l + 1) xs with
      | (.done, s) => (.done, s)
      | (.failed e stored asked, s) => (.failed e (stored + 1) asked, s)

/-- A write past the cache. -/
def writeDirect (ops : DevOps β) (s : BlkSys β) (d : Nat) (l : Lba) (xs : List β) :
    WriteEnd × BlkSys β :=
  match ops.write s d l xs with
  | (.ok (), s) => (.done, s)
  | (.error e, s) => (.failed e 0 xs.length, s)

/-- `blk_write`. -/
def blkWrite [Inhabited β] (ops : DevOps β) (s : BlkSys β) (d : Nat) (l : Lba) (xs : List β)
    (mem : Bool) : WriteEnd × BlkSys β :=
  if xs = [] then (.done, s)
  else if s.cacheable d = false then s.writeDirect ops d l xs
  else if (s.cacheInit mem).enabled = false then (s.cacheInit mem).writeDirect ops d l xs
  else writeLoop ops (s.cacheInit mem) d l xs

/-! ## Syncing -/

/-- The loop of `blk_sync`: the first error is kept. -/
def syncLoop (ops : DevOps β) :
    BlkSys β → Nat → Except Errno Unit → List Nat → Except Errno Unit × BlkSys β
  | s, _, err, [] => (err, s)
  | s, d, err, i :: is =>
    if (s.slots i).dev = some d ∧ (s.slots i).dirty = true then
      match s.writeback ops i with
      | (.ok (), s) => syncLoop ops s d err is
      | (.error e, s) => syncLoop ops s d (err.bind fun _ => .error e) is
    else syncLoop ops s d err is

/-- `blk_sync`. -/
def blkSync (ops : DevOps β) (s : BlkSys β) (d : Nat) : Except Errno Unit × BlkSys β :=
  if s.enabled = false then (.ok (), s) else syncLoop ops s d (.ok ()) (List.range total)

end BlkSys

/-! ## Calls -/

/-- A call; `mem` is for the allocation of the slots. -/
inductive BlkCall (β : Type) where
  | read (d : Nat) (l : Lba) (n : Nat) (mem : Bool)
  | write (d : Nat) (l : Lba) (xs : List β) (mem : Bool)
  | sync (d : Nat)

/-- What a call returns. -/
inductive BlkOut (β : Type) where
  | read (r : Except Errno (List β))
  | write (r : WriteEnd)
  | sync (r : Except Errno Unit)

namespace BlkSys

def blkCall [Inhabited β] (ops : DevOps β) (s : BlkSys β) : BlkCall β → BlkOut β × BlkSys β
  | .read d l n mem => ((s.blkRead ops d l n mem).1 |> .read, (s.blkRead ops d l n mem).2)
  | .write d l xs mem => ((s.blkWrite ops d l xs mem).1 |> .write, (s.blkWrite ops d l xs mem).2)
  | .sync d => ((s.blkSync ops d).1 |> .sync, (s.blkSync ops d).2)

/-- The cache before its first use. -/
def boot [Inhabited β] (devs : Nat → Dev) (disk : Nat → Lba → β) : BlkSys β :=
  { devs, disk, tick := 0, enabled := false, slots := fun _ => .zero }

end BlkSys

end ArcKernel.Blk
