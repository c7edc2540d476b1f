import ArcKernel.Foundation.BitArray
import ArcKernel.Foundation.Run

/-!
# The ext2 block and inode allocators

The mount check of `ext2_read_superblock` and the functions that hand out blocks and inodes
(`bsd/vfs/ext2/ext2.c`).  Blocks and inodes are allocated by the same code over different
fields, so one definition serves both kinds of `Item`: a `Kind` says how the items are numbered,
a `Pool` holds the bitmaps of the groups and the counters that go with them.

The superblock, the group descriptors, the bitmaps and the inode table are kept as records,
each with blocks of its own, apart from the blocks that hold file data.  `reserved` tells their
blocks; a volume on which one of these is written as if it were a file's is `spoiled`, and what
the records say of it is void.

A device or memory failure at any point of a call is part of the call's label: `Fault`.
-/

namespace ArcKernel.Ext2

open ArcKernel.Foundation Function

inductive Errno where
  | einval
  | eio
  | enomem
  | enospc
  | enoent
  | eexist
  | eisdir
  | enotdir
  | enotempty
  | eperm
  | efbig
  | enametoolong
  deriving DecidableEq

/-! ## Mounting -/

/-- The fields of the on-disk superblock that the mount reads. -/
structure SuperBlock where
  magic : BitVec 16
  logBlockSize : BitVec 32
  blocksPerGroup : BitVec 32
  inodesPerGroup : BitVec 32
  blocksCount : BitVec 32
  inodesCount : BitVec 32
  firstDataBlock : BitVec 32
  revLevel : BitVec 32
  inodeSize : BitVec 16

/-- `ext2_fs_t`: the geometry kept in memory. -/
structure Fs where
  blockSize : Nat
  blocksPerGroup : Nat
  inodesPerGroup : Nat
  totalInodes : Nat
  totalBlocks : Nat
  firstDataBlock : Nat
  inodeSize : Nat
  bgdtCount : Nat
  deriving DecidableEq

/-- `1024u << s_log_block_size`. -/
def SuperBlock.blockSize (sb : SuperBlock) : Nat := 1024 <<< sb.logBlockSize.toNat

/-- What the mount has checked. -/
structure Fs.Checked (fs : Fs) : Prop where
  block_size : ∃ k ≤ 6, fs.blockSize = 1024 <<< k
  blocks_pos : 0 < fs.blocksPerGroup
  blocks_fit : fs.blocksPerGroup ≤ fs.blockSize * 8
  inodes_pos : 0 < fs.inodesPerGroup
  inodes_fit : fs.inodesPerGroup ≤ fs.blockSize * 8
  total_blocks_pos : 0 < fs.totalBlocks
  total_blocks_lt : fs.totalBlocks < 2 ^ 32
  total_inodes_lt : fs.totalInodes < 2 ^ 32
  first_le : fs.firstDataBlock ≤ 1
  groups : fs.bgdtCount = (fs.totalBlocks + fs.blocksPerGroup - 1) / fs.blocksPerGroup
  groups_pos : 0 < fs.bgdtCount

/-- A guard that was passed. -/
theorem of_guard {α : Type} {c : Prop} [Decidable c] {e : Errno} {x : Except Errno α} {r : α}
    (h : (if c then .error e else x) = .ok r) : ¬ c ∧ x = .ok r := by
  split at h
  · cases h
  · exact ⟨‹_›, h⟩

/-- How one kind of item is numbered: `groups` groups of `perGroup` items, the first item of
group 0 having the number `first`; there are `total` items by the superblock, and the numbers
a free accepts are those below `limit`. -/
structure Kind where
  perGroup : Nat
  groups : Nat
  total : Nat
  first : Nat
  limit : Nat

/-- What is allocated. -/
inductive Item where
  | block
  | inode
  deriving DecidableEq

def Fs.kind (fs : Fs) : Item → Kind
  | .block =>
    { perGroup := fs.blocksPerGroup, groups := fs.bgdtCount, total := fs.totalBlocks,
      first := fs.firstDataBlock, limit := fs.totalBlocks }
  | .inode =>
    { perGroup := fs.inodesPerGroup, groups := fs.bgdtCount, total := fs.totalInodes,
      first := 1, limit := fs.totalInodes + 1 }

/-- `ext2_group_blocks` and `ext2_group_inodes`: the last group may be short.  The difference
is a 32-bit one. -/
def Kind.groupItems (k : Kind) (bg : Nat) : Nat :=
  if bg = k.groups - 1 then
    min k.perGroup ((k.total + 2 ^ 32 - bg * k.perGroup % 2 ^ 32) % 2 ^ 32)
  else k.perGroup

def ext2GroupBlocks (fs : Fs) (bg : Nat) : Nat := (fs.kind .block).groupItems bg

def ext2GroupInodes (fs : Fs) (bg : Nat) : Nat := (fs.kind .inode).groupItems bg

/-- The number of bit `bit` of group `bg`, in 32 bits. -/
def Kind.number (k : Kind) (bg bit : Nat) : Nat := (k.first + bg * k.perGroup + bit) % 2 ^ 32

/-- The group and the bit of a number, as the frees compute them. -/
def Kind.groupOf (k : Kind) (n : Nat) : Nat := (n - k.first) / k.perGroup

def Kind.bitOf (k : Kind) (n : Nat) : Nat := (n - k.first) % k.perGroup

/-! ## Pools -/

/-- Where a device access or a `kmalloc` fails in one call; the read before a block is changed
counts as its write.  What a write changes may have reached the device although it fails
(`stored`; of the zeroes that a fresh item gets, so many bytes). -/
inductive Fault where
  | none
  | descRead (bg : Nat)
  | bitmapAlloc (bg : Nat)
  | bitmapRead (bg : Nat)
  | bitmapWrite (stored : Bool)
  | descWrite (stored : Bool)
  | superAlloc
  | superWrite (stored : Bool)
  | slotAlloc
  | slotWrite (stored : Nat)
  deriving DecidableEq

/-- The bitmaps of one kind of item and the counters kept beside them: in each group
descriptor (16 bits) and in the superblock (32 bits). -/
structure Pool where
  bitmap : Nat → ByteMem
  groupFree : Nat → BitVec 16
  superFree : BitVec 32

namespace Pool

/-- The bit is set in the group's bitmap. -/
def used (p : Pool) (bg bit : Nat) : Bool := BitArray.test (p.bitmap bg) 0 bit

def setBit (p : Pool) (bg bit : Nat) : Pool :=
  { p with bitmap := update p.bitmap bg (BitArray.set (p.bitmap bg) 0 bit) }

/-- `bg_free_..._count` of a group, less one. -/
def lowerGroup (p : Pool) (bg : Nat) : Pool :=
  { p with groupFree := update p.groupFree bg (p.groupFree bg - 1#16) }

/-- The same, and then `s_free_..._count`. -/
def lower (p : Pool) (bg : Nat) : Pool :=
  { p.lowerGroup bg with superFree := p.superFree - 1#32 }

/-- The first clear bit below `max`. -/
def firstClear (p : Pool) (bg max : Nat) : Option Nat :=
  (List.range max).find? fun bit => !p.used bg bit

end Pool

/-- The group loop of the allocators: a group whose counter is zero is passed over, and so is
one whose bitmap has no clear bit in the group's range. -/
def searchGroups (k : Kind) (p : Pool) (fault : Fault) : List Nat → Except Errno (Nat × Nat)
  | [] => .error .enospc
  | bg :: rest =>
    if fault = .descRead bg then .error .eio
    else if p.groupFree bg = 0#16 then searchGroups k p fault rest
    else if fault = .bitmapAlloc bg then .error .enomem
    else if fault = .bitmapRead bg then .error .eio
    else
      match p.firstClear bg (k.groupItems bg) with
      | none => searchGroups k p fault rest
      | some bit => .ok (bg, bit)

/-! ## The volume -/

/-- The type bits of `i_mode`. -/
inductive FileType where
  | none
  | reg
  | dir
  | lnk
  deriving DecidableEq

/-- An inode of the table.  The 15 words of `block` are pointers, or the text of a short
symbolic link. -/
structure Inode where
  mode : FileType
  size : Nat
  linksCount : Nat
  block : Nat → Nat
  blocks : Nat

/-- A table slot of zeroes. -/
def Inode.zero : Inode :=
  { mode := .none, size := 0, linksCount := 0, block := fun _ => 0, blocks := 0 }

/-- A mounted volume: the geometry, the two pools with the counters of `fs->sb`, the counters of
the superblock on the device, the contents of the blocks and the inode table. -/
structure Volume where
  fs : Fs
  pool : Item → Pool
  diskFree : Item → BitVec 32
  disk : Nat → ByteMem
  inodeTable : Nat → Inode
  reserved : Nat → Bool
  spoiled : Bool

namespace Volume

def setPool (v : Volume) (item : Item) (p : Pool) : Volume :=
  { v with pool := update v.pool item p }

/-- `ext2_write_superblock` copies both counters, whichever call it was that changed one. -/
def writeSuperblock (v : Volume) (stored : Bool) : Volume :=
  if stored then { v with diskFree := fun item => (v.pool item).superFree } else v

/-- `ext2_write_block`, of a block that belongs to a file or is to belong to one. -/
def writeBlock (v : Volume) (blk : Nat) (buf : ByteMem) : Volume :=
  { v with
    disk := update v.disk blk buf
    spoiled := v.spoiled || v.reserved blk }

/-- A block, or an inode's slot of the table, is zeroed but for the bytes to `keep`. -/
def wipe (v : Volume) (keep : Nat → Bool) : Item → Nat → Volume
  | .block, blk => v.writeBlock blk fun i => bif keep i then v.disk blk i else 0
  | .inode, ino =>
    bif keep 0 then v else { v with inodeTable := update v.inodeTable ino .zero }

/-- The body shared by `ext2_alloc_block` and `ext2_alloc_inode`. -/
def alloc (v : Volume) (item : Item) (fault : Fault) : Except Errno Nat × Volume :=
  let k := v.fs.kind item
  match searchGroups k (v.pool item) fault (List.range k.groups) with
  | .error e => (.error e, v)
  | .ok (bg, bit) =>
    let n := k.number bg bit
    let marked := (v.pool item).setBit bg bit
    let w := v.setPool item (marked.lower bg)
    match fault with
    | .bitmapWrite stored => (.error .eio, if stored then v.setPool item marked else v)
    | .descWrite stored =>
      (.error .eio, v.setPool item (if stored then marked.lowerGroup bg else marked))
    | .superAlloc => (.error .eio, w)
    | .superWrite stored => (.error .eio, w.writeSuperblock stored)
    | .slotAlloc => (.error .enomem, w.writeSuperblock true)
    | .slotWrite stored => (.error .eio, (w.writeSuperblock true).wipe (stored ≤ ·) item n)
    | _ => (.ok n, (w.writeSuperblock true).wipe (fun _ => false) item n)

end Volume

/-- `ext2_alloc_block`: a fresh block reads as zero. -/
def ext2AllocBlock (v : Volume) (fault : Fault) : Except Errno Nat × Volume := v.alloc .block fault

end ArcKernel.Ext2
