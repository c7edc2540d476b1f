import ArcKernel.Ext2.Alloc

/-!
# Block mapping, reading and writing on ext2

`ext2_map_block`, `ext2_read_data` and `ext2_write_data` of `bsd/vfs/ext2/ext2.c`.  The source
writes the four levels of the mapping out one after the other; each of them reads a word of the
inode or of a pointer block, fills it if it is empty and blocks are asked for, and goes on with
what it found, so here it is one function over the list of words.

The device stores what is written to it; blocks run out, and so does memory for the data of a
block: `mem` says at which offsets `kmalloc` succeeds.  The mapping itself finds memory.
-/

namespace ArcKernel.Ext2

open ArcKernel.Foundation Function

/-- `EXT2_NDIR_BLOCKS`; the three words behind the direct ones are the indirect ones. -/
def ndirBlocks : Nat := 12

/-- Words in a pointer block. -/
def Fs.pointers (fs : Fs) : Nat := fs.blockSize / 4

/-- `EXT2_BLOCK_UNIT`s in a block. -/
def Fs.blockUnit (fs : Fs) : Nat := fs.blockSize / 512

namespace Volume

/-- Word `i` of a pointer block. -/
def ptr (v : Volume) (blk i : Nat) : Nat := ByteMem.load 4 (v.disk blk) (4 * i)

end Volume

/-! ## Mapping -/

/-- The words that lead to logical block `lblk`: one of the inode, and then one of each pointer
block. -/
def blockPath (fs : Fs) (lblk : Nat) : Option (Nat × List Nat) :=
  let p := fs.pointers
  if lblk < ndirBlocks then some (lblk, [])
  else
    let lblk := lblk - ndirBlocks
    if lblk < p then some (12, [lblk])
    else
      let lblk := lblk - p
      if lblk < p * p then some (13, [lblk / p, lblk % p])
      else
        let lblk := lblk - p * p
        if lblk < p * p * p then some (14, [lblk / (p * p), lblk / p % p, lblk % p])
        else none

/-- What a mapping leaves: the block or an error, the volume and the inode. -/
structure Mapped where
  result : Except Errno Nat
  vol : Volume
  ev : Inode

/-- A block was added to the file. -/
def Inode.counted (ev : Inode) (fs : Fs) : Inode :=
  { ev with blocks := (ev.blocks + fs.blockUnit) % 2 ^ 32 }

/-- A word of the inode, filled if it is empty and `alloc` is set. -/
def mapRoot (v : Volume) (ev : Inode) (slot : Nat) (alloc : Bool) : Mapped :=
  if alloc && ev.block slot == 0 then
    match ext2AllocBlock v .none with
    | (.error _, v') => ⟨.error .enospc, v', ev⟩
    | (.ok b, v') => ⟨.ok b, v', ({ ev with block := update ev.block slot b }).counted v.fs⟩
  else ⟨.ok (ev.block slot), v, ev⟩

/-- Word `i` of pointer block `blk`.  The block is read before a new one is allocated, and
written back as a whole. -/
def mapWord (v : Volume) (ev : Inode) (blk i : Nat) (alloc : Bool) : Mapped :=
  let buf := v.disk blk
  if alloc && ByteMem.load 4 buf (4 * i) == 0 then
    match ext2AllocBlock v .none with
    | (.error _, v') => ⟨.error .enospc, v', ev⟩
    | (.ok b, v') => ⟨.ok b, v'.writeBlock blk (ByteMem.store 4 buf (4 * i) b), ev.counted v.fs⟩
  else ⟨.ok (ByteMem.load 4 buf (4 * i)), v, ev⟩

/-- The rest of the way, from block `p`; a hole ends it. -/
def mapLevels (alloc : Bool) : Volume → Inode → Nat → List Nat → Mapped
  | v, ev, p, [] => ⟨.ok p, v, ev⟩
  | v, ev, p, i :: is =>
    if p = 0 then ⟨.ok 0, v, ev⟩
    else
      match mapWord v ev p i alloc with
      | ⟨.error e, v', ev'⟩ => ⟨.error e, v', ev'⟩
      | ⟨.ok q, v', ev'⟩ => mapLevels alloc v' ev' q is

/-- `ext2_map_block`: holes resolve to block 0. -/
def ext2MapBlock (v : Volume) (ev : Inode) (lblk : Nat) (alloc : Bool) : Mapped :=
  match blockPath v.fs lblk with
  | none => ⟨.error .efbig, v, ev⟩
  | some (slot, is) =>
    match mapRoot v ev slot alloc with
    | ⟨.error e, v', ev'⟩ => ⟨.error e, v', ev'⟩
    | ⟨.ok p, v', ev'⟩ => mapLevels alloc v' ev' p is

/-! ## Data -/

/-- The logical block of an offset, in 32 bits. -/
def Fs.lblk (fs : Fs) (offset : Nat) : Nat := offset / fs.blockSize % 2 ^ 32

/-- The bytes of a block from `off` on; those of a hole are zero. -/
def Volume.bytes (v : Volume) (phys off n : Nat) : List UInt8 :=
  if phys = 0 then List.replicate n 0 else (List.range n).map fun j => v.disk phys (off + j)

/-- The loop of `ext2_read_data`; each round reads at least one byte. -/
def readLoop (v : Volume) (ev : Inode) (mem : Nat → Bool) : Nat → Nat → Nat → List UInt8
  | 0, _, _ => []
  | fuel + 1, offset, count =>
    if count = 0 then []
    else
      let off := offset % v.fs.blockSize
      let n := min (v.fs.blockSize - off) count
      match (ext2MapBlock v ev (v.fs.lblk offset) false).result with
      | .error _ => []
      | .ok phys =>
        if phys ≠ 0 ∧ mem offset = false then []
        else v.bytes phys off n ++ readLoop v ev mem fuel (offset + n) (count - n)

/-- `ext2_read_data`: the bytes copied to the buffer. -/
def ext2ReadData (v : Volume) (ev : Inode) (offset count : Nat) (mem : Nat → Bool) :
    List UInt8 :=
  if ev.size ≤ offset then []
  else
    let count := if ev.size < offset + count then ev.size - offset else count
    readLoop v ev mem count offset count

/-- What a write leaves: the number of bytes written, the volume and the inode. -/
structure Written where
  count : Nat
  vol : Volume
  ev : Inode

/-- The loop of `ext2_write_data`; each round writes at least one byte. -/
def writeLoop (mem : Nat → Bool) : Nat → Volume → Inode → Nat → List UInt8 → Written
  | 0, v, ev, _, _ => ⟨0, v, ev⟩
  | fuel + 1, v, ev, offset, data =>
    if data = [] then ⟨0, v, ev⟩
    else
      let off := offset % v.fs.blockSize
      let n := min (v.fs.blockSize - off) data.length
      match ext2MapBlock v ev (v.fs.lblk offset) true with
      | ⟨.error _, v', ev'⟩ => ⟨0, v', ev'⟩
      | ⟨.ok phys, v', ev'⟩ =>
        if mem offset = false then ⟨0, v', ev'⟩
        else
          let v'' := v'.writeBlock phys (ByteMem.write (v'.disk phys) off (data.take n))
          let w := writeLoop mem fuel v'' ev' (offset + n) (data.drop n)
          { w with count := n + w.count }

/-- `ext2_write_data`. -/
def ext2WriteData (v : Volume) (ev : Inode) (offset : Nat) (data : List UInt8)
    (mem : Nat → Bool) : Written :=
  let w := writeLoop mem data.length v ev offset data
  { w with
    ev := { w.ev with
      size := if w.ev.size < offset + w.count then (offset + w.count) % 2 ^ 32 else w.ev.size } }

end ArcKernel.Ext2
