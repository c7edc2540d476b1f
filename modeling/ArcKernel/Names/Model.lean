import ArcKernel.Foundation.Run
import Mathlib.Algebra.BigOperators.Fin
import Mathlib.Algebra.BigOperators.Group.Finset.Basic

/-!
# The directory operations of ext2 and UFS

`ext2_dir_create`, `_mkdir`, `_unlink`, `_rmdir`, `_link` and `_rename` of
`bsd/vfs/ext2/ext2.c` and the functions of the same names in `bsd/vfs/ufs/ufs.c` do the same
to directories, inodes and cached vnodes, in the same order; one definition stands for both.

An inode lives in two places: its slot of the inode table, and, while its vnode is in the
vnode cache, the vnode's own copy, which the operations on directories change first and then
write back (`ext2_ev_flush`, `ufs_vnode_flush`).  `unlink` and the frees go to the slot alone.
When an inode is freed its vnode leaves the cache; a vnode that is still open then is
"doomed", and its copy can be written back for as long as it is open.

What a volume runs out of (inodes, directory blocks, vnodes) is part of the labels.  The
operations are written out for a device and an allocator that work below them; what they leave
behind when one fails there is a label of its own and is not followed.
-/

namespace ArcKernel.Names

open Function

inductive Errno where
  | einval
  | enoent
  | eexist
  | eisdir
  | enotdir
  | enotempty
  | eperm
  | eio
  | enospc
  | enomem

/-- The type bits of a mode; a freed slot is zeroed. -/
inductive Kind where
  | none
  | file
  | dir
  deriving DecidableEq

/-- The name in a directory entry. -/
inductive Name where
  | dot
  | dotdot
  | plain (s : List UInt8)
  deriving DecidableEq

structure Entry where
  name : Name
  ino : Nat
  deriving DecidableEq

/-- Where `..._dir_add_entry` finds room: `pos` entries from the start, possibly at the start of a
block it adds to the directory. -/
structure Place where
  pos : Nat
  newBlock : Bool
  deriving DecidableEq

/-- An entry put `pos` entries from the start. -/
def placeEntry (l : List Entry) (e : Entry) (pos : Nat) : List Entry :=
  l.take pos ++ e :: l.drop pos

/-- The first entry of that name taken out. -/
def dropEntry (l : List Entry) (n : Name) : List Entry := l.eraseP fun e => e.name == n

/-- The type and the 16-bit link count of an inode. -/
structure Attr where
  kind : Kind
  links : BitVec 16
  deriving DecidableEq

/-- The inodes `0 .. size - 1` of a volume: bitmap, table, contents of the directories, and
the vnodes; `held` counts the references to the cached vnode of an inode. -/
structure NameSys where
  blockSize : Nat
  size : Nat
  root : Nat
  used : Nat → Bool
  slot : Nat → Attr
  entries : Nat → List Entry
  cache : Nat → Option Attr
  held : Nat → Nat
  doomed : List (Nat × Attr)

namespace NameSys

/-! ## Entries -/

/-- `ext2_dir_find`, `ufs_dir_find`: the first entry of that name. -/
def find (s : NameSys) (d : Nat) (n : Name) : Option Nat :=
  ((s.entries d).find? fun e => e.name == n).map Entry.ino

def setEntries (s : NameSys) (d : Nat) (l : List Entry) : NameSys :=
  { s with entries := update s.entries d l }

/-- The one entry of a new block has the block's size as its 16-bit `rec_len`; no walk goes past a
zero. -/
def walks (s : NameSys) : Bool := s.blockSize % 2 ^ 16 != 0

def addEntry (s : NameSys) (d : Nat) (e : Entry) (pos : Nat) : NameSys :=
  s.setEntries d (placeEntry (s.entries d) e pos)

/-- `..._dir_add_entry`: the entry goes to the first place with room. -/
def dirAddEntry (s : NameSys) (d : Nat) (e : Entry) (place : Place) : NameSys :=
  if place.newBlock && !s.walks then s else s.addEntry d e place.pos

/-- `..._dir_remove_entry`. -/
def removeEntry (s : NameSys) (d : Nat) (n : Name) : NameSys :=
  s.setEntries d (dropEntry (s.entries d) n)

/-! ## Inodes and vnodes -/

def setSlot (s : NameSys) (i : Nat) (a : Attr) : NameSys := { s with slot := update s.slot i a }

def setCache (s : NameSys) (i : Nat) (c : Option Attr) : NameSys :=
  { s with cache := update s.cache i c }

/-- `ext2_vnode_make`, `ufs_vnode_make` from the table: the vnode is read in if it is not
cached. -/
def load (s : NameSys) (i : Nat) : NameSys :=
  match s.cache i with
  | some _ => s
  | none => s.setCache i (some (s.slot i))

/-- `ext2_ev_flush`, `ufs_vnode_flush`: the vnode's copy is written to the table. -/
def flush (s : NameSys) (i : Nat) : NameSys :=
  match s.cache i with
  | some c => s.setSlot i c
  | none => s

/-- The link count of the vnode's copy plus `k`. -/
def adjust (s : NameSys) (i : Nat) (k : BitVec 16) : NameSys :=
  match s.cache i with
  | some c => s.setCache i (some { c with links := c.links + k })
  | none => s

/-- `..._alloc_inode` and the first write of the slot. -/
def alloc (s : NameSys) (i : Nat) (a : Attr) : NameSys :=
  { s with used := update s.used i true, slot := update s.slot i a }

/-- `..._truncate` to zero and the free of the inode. -/
def free (s : NameSys) (i : Nat) : NameSys :=
  { s with
    used := update s.used i false
    slot := update s.slot i ⟨.none, 0⟩
    entries := update s.entries i [] }

/-- `vnode_cache_invalidate`: an open vnode lives on outside the cache. -/
def invalidate (s : NameSys) (i : Nat) : NameSys :=
  match s.cache i with
  | none => s
  | some c =>
    { s with
      cache := update s.cache i none
      held := update s.held i 0
      doomed := if s.held i = 0 then s.doomed else (i, c) :: s.doomed }

/-- An inode without names goes: its blocks, the inode and the vnode. -/
def discard (s : NameSys) (i : Nat) : NameSys := (s.free i).invalidate i

/-! ## The operations on a directory -/

/-- `ext2_dir_create`, `ufs_dir_create`: `made` says whether the new vnode could be
allocated. -/
def dirCreate (s : NameSys) (d : Nat) (n : Name) (ino : Option Nat) (place : Option Place)
    (made : Bool) : Except Errno Unit × NameSys :=
  if (s.find d n).isSome then (.error .eexist, s)
  else
    match ino with
    | none => (.error .enospc, s)
    | some i =>
      let s := s.alloc i ⟨.file, 1⟩
      match place with
      | none => (.error .enospc, s.free i)
      | some place =>
        let s := (s.dirAddEntry d ⟨n, i⟩ place).flush d
        if made then
          let s := match s.cache i with
            | some _ => s
            | none => s.setCache i (some ⟨.file, 1⟩)
          (.ok (), { s with held := update s.held i (s.held i + 1) })
        else (.error .enomem, s)

/-- `ext2_dir_mkdir`, `ufs_dir_mkdir`: `filled` says whether the entries for `.` and `..`, which
go to a new block, could be written. -/
def dirMkdir (s : NameSys) (d : Nat) (n : Name) (ino : Option Nat) (place : Option Place)
    (filled : Bool) : Except Errno Unit × NameSys :=
  if (s.find d n).isSome then (.error .eexist, s)
  else
    match ino with
    | none => (.error .enospc, s)
    | some i =>
      let s := s.alloc i ⟨.dir, 2⟩
      match place with
      | none => (.error .enospc, s.free i)
      | some place =>
        let s := s.dirAddEntry d ⟨n, i⟩ place
        if filled then
          let s := s.setEntries i (if s.walks then [⟨.dot, i⟩, ⟨.dotdot, d⟩] else [])
          (.ok (), (s.adjust d 1).flush d)
        else (.error .enospc, (s.removeEntry d n).free i)

/-- `ext2_dir_unlink`, `ufs_dir_unlink`: the count is taken from the table and goes back
there. -/
def dirUnlink (s : NameSys) (d : Nat) (n : Name) : Except Errno Unit × NameSys :=
  if n = .dot ∨ n = .dotdot then (.error .einval, s)
  else
    match s.find d n with
    | none => (.error .enoent, s)
    | some i =>
      if (s.slot i).kind = .dir then (.error .eisdir, s)
      else
        let links := (s.slot i).links - 1
        let s := s.removeEntry d n
        let s := if links = 0 then s.discard i else s.setSlot i { s.slot i with links }
        (.ok (), s.flush d)

/-- The directory has entries besides `.` and `..`. -/
def occupied (s : NameSys) (i : Nat) : Bool :=
  (s.entries i).any fun e => e.name != .dot && e.name != .dotdot

/-- `ext2_dir_rmdir`, `ufs_dir_rmdir`. -/
def dirRmdir (s : NameSys) (d : Nat) (n : Name) : Except Errno Unit × NameSys :=
  if n = .dot ∨ n = .dotdot then (.error .einval, s)
  else
    match s.find d n with
    | none => (.error .enoent, s)
    | some i =>
      if (s.slot i).kind ≠ .dir then (.error .enotdir, s)
      else if s.occupied i then (.error .enotempty, s)
      else
        let s := ((s.removeEntry d n).adjust d (-1)).flush d
        (.ok (), s.discard i)

/-- `ext2_dir_link`, `ufs_dir_link`: the count is the one of the target's vnode. -/
def dirLink (s : NameSys) (d : Nat) (n : Name) (t : Nat) (place : Option Place) :
    Except Errno Unit × NameSys :=
  if (s.cache t).map Attr.kind = some .dir then (.error .eperm, s)
  else if (s.find d n).isSome then (.error .eexist, s)
  else
    let s := (s.adjust t 1).flush t
    match place with
    | none => (.error .enospc, (s.adjust t (-1)).flush t)
    | some place => (.ok (), (s.dirAddEntry d ⟨n, t⟩ place).flush d)

/-- What `rename` does with an entry that is in its way. -/
def clearTarget (s : NameSys) (dd : Nat) (dn : Name) (srcDir : Bool) :
    Except Errno Unit × NameSys :=
  match s.find dd dn with
  | none => (.ok (), s)
  | some di =>
    if srcDir then
      if (s.slot di).kind ≠ .dir then (.error .enotdir, s)
      else
        match s.dirRmdir dd dn with
        | (.error _, s') => (.error .enotempty, s')
        | (.ok (), s') => (.ok (), s')
    else if (s.slot di).kind = .dir then (.error .eisdir, s)
    else
      match s.dirUnlink dd dn with
      | (.error _, s') => (.error .eio, s')
      | (.ok (), s') => (.ok (), s')

/-- The counts of the two parents, when a directory moves from one to the other. -/
def shift (s : NameSys) (moves : Bool) (sd dd : Nat) (k : BitVec 16) : NameSys :=
  if moves then (s.adjust sd (-k)).adjust dd k else s

/-- The end of `rename`: the entry goes from one directory to the other.  `place` is its place
in the target directory, or `none` if there is no room; then it goes back into its own
directory, at `back`, or is lost. -/
def moveEntry (s : NameSys) (sd : Nat) (sn : Name) (dd : Nat) (dn : Name) (si : Nat)
    (srcDir : Bool) (place back : Option Place) : Except Errno Unit × NameSys :=
  if (s.find sd sn).isNone then (.error .eio, s)
  else
    let moves := srcDir && dd != sd
    let s := (s.removeEntry sd sn).shift moves sd dd 1
    match place with
    | some place =>
      let s := (s.dirAddEntry dd ⟨dn, si⟩ place).flush sd
      (.ok (), if dd = sd then s else s.flush dd)
    | none =>
      let s := s.shift moves sd dd (-1)
      match back with
      | some back => (.error .enospc, s.dirAddEntry sd ⟨sn, si⟩ back)
      | none => (.error .enospc, s)

/-- `ext2_dir_rename`, `ufs_dir_rename`. -/
def dirRename (s : NameSys) (sd : Nat) (sn : Name) (dd : Nat) (dn : Name)
    (place back : Option Place) : Except Errno Unit × NameSys :=
  if (sn = .dot ∨ sn = .dotdot) ∨ dn = .dot ∨ dn = .dotdot then (.error .einval, s)
  else if sd = dd ∧ sn = dn then (.ok (), s)
  else
    match s.find sd sn with
    | none => (.error .enoent, s)
    | some si =>
      let srcDir := decide ((s.slot si).kind = .dir)
      match s.clearTarget dd dn srcDir with
      | (.error e, s') => (.error e, s')
      | (.ok (), s') => s'.moveEntry sd sn dd dn si srcDir place back

/-! ## Steps -/

end NameSys

inductive NameCall where
  | create (d : Nat) (n : Name) (ino : Option Nat) (place : Option Place) (made : Bool)
  | mkdir (d : Nat) (n : Name) (ino : Option Nat) (place : Option Place) (filled : Bool)
  | unlink (d : Nat) (n : Name)
  | rmdir (d : Nat) (n : Name)
  | link (d : Nat) (n : Name) (t : Nat) (place : Option Place)
  | rename (sd : Nat) (sn : Name) (dd : Nat) (dn : Name) (place back : Option Place)
  /-- A path lookup reads a vnode in. -/
  | lookup (i : Nat)
  | open (i : Nat)
  | close (i : Nat)
  /-- The cache drops a vnode that nobody holds; its copy is not written back. -/
  | evict (i : Nat)
  /-- A read, write, chmod or fsync writes a vnode's copy back. -/
  | flush (i : Nat)
  | flushDoomed (k : Nat)
  | closeDoomed (k : Nat)
  /-- A call below which a device access or an allocation fails, other than in the ways above.  The
  code looks at few of these failures: a `..._dir_find` that fails counts as "not there", a block
  that cannot be mapped as empty, `..._write_inode`, `..._free_inode`, `..._truncate` and the
  flushes are called for their effect alone, and a write that fails may have stored a part.  What
  is left is not followed; it may be any state. -/
  | faulty (left : NameSys)

namespace NameSys

/-- A path lookup can end at this directory. -/
def isDir (s : NameSys) (d : Nat) : Bool := s.used d && (s.slot d).kind == .dir

/-- An inode the allocators can return. -/
def fresh (s : NameSys) : Option Nat → Bool
  | none => true
  | some i => decide (i < s.size) && !s.used i

end NameSys

open NameSys in
/-- One call.  The parent directories, and the target of a link, come from path lookups, so
they exist and their vnodes are cached. -/
def nameStep (s : NameSys) : NameCall → Option NameSys
  | .create d n ino place made =>
    if s.isDir d && s.fresh ino then some ((s.load d).dirCreate d n ino place made).2 else none
  | .mkdir d n ino place filled =>
    if s.isDir d && s.fresh ino then some ((s.load d).dirMkdir d n ino place filled).2 else none
  | .unlink d n => if s.isDir d then some ((s.load d).dirUnlink d n).2 else none
  | .rmdir d n => if s.isDir d then some ((s.load d).dirRmdir d n).2 else none
  | .link d n t place =>
    if s.isDir d && s.used t then some (((s.load d).load t).dirLink d n t place).2 else none
  | .rename sd sn dd dn place back =>
    if s.isDir sd && s.isDir dd then
      some (((s.load sd).load dd).dirRename sd sn dd dn place back).2
    else none
  | .lookup i => if s.used i then some (s.load i) else none
  | .open i =>
    if (s.cache i).isSome then
      some { s with held := update s.held i (s.held i + 1) }
    else none
  | .close i => some { s with held := update s.held i (s.held i - 1) }
  | .evict i => if s.held i = 0 then some (s.setCache i none) else none
  | .flush i => some (s.flush i)
  | .flushDoomed k =>
    match s.doomed[k]? with
    | some (i, c) => some (s.setSlot i c)
    | none => none
  | .closeDoomed k => some { s with doomed := s.doomed.eraseIdx k }
  | .faulty left => some left

/-- The number of directory entries that name an inode. -/
def NameSys.names (s : NameSys) (i : Nat) : Nat :=
  ∑ d ∈ Finset.range s.size, (s.entries d).countP fun e => e.ino == i

end ArcKernel.Names
