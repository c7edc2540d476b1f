import ArcKernel.Foundation.Run

/-!
# Descriptor tables

Model of the per-process descriptor table (`bsd/proc/proc.c`: `proc_fd_alloc`,
`proc_fd_dealloc`, `proc_fd_get`, `proc_fd_dup`, `proc_fd_dup2`), of the loop that copies it
in `proc_fork` (`bsd/proc/fork.c`), and of the calls that open, close and move descriptors
(`bsd/vfs/vfs.c`: the end of `vfs_open`, `vfs_close`, `vfs_read`, `vfs_write`, `vfs_lseek`).

A table is the list of its `fd_capacity` slots.  Whether `kmalloc` grants a larger table is
an argument, as are the answers of the vnode operations.  Negative descriptors are refused
before the table is read, so descriptors are natural numbers here.  Permission and buffer
checks of reads and writes are left out: a call they refuse is one without any answer.
-/

namespace ArcKernel.Fd

open Function

/-- `FD_INITIAL` -/
def fdInitial : Nat := 16
/-- `FD_MAX` -/
def fdMax : Nat := 256
/-- `VFS_IO_CHUNK` -/
def ioChunk : Nat := 4096

def O_APPEND : BitVec 32 := 0x400
def O_CLOEXEC : BitVec 32 := 0x8000

structure FileDesc where
  fd : Nat
  vnode : Option Nat
  flags : BitVec 32
  offset : Int64
  mode : BitVec 32
  cloexec : Bool
  used : Bool
  /-- number of the `open` the descriptor comes from; no function reads it -/
  origin : Nat

def FileDesc.zero : FileDesc := ⟨0, none, 0, 0, 0, false, false, 0⟩

/-- The table of a new process. -/
def freshTable : List FileDesc := List.replicate fdInitial .zero

def markUsed (fds : List FileDesc) (i : Nat) : List FileDesc :=
  fds.modify i fun f => { f with used := true, fd := i }

/-- The lowest free descriptor, in a table of twice the size when there is none. -/
def procFdAlloc (granted : Bool) (fds : List FileDesc) : Option (List FileDesc × Nat) :=
  match fds.findIdx? fun f => !f.used with
  | some i => some (markUsed fds i, i)
  | none =>
      if fdMax ≤ fds.length then none
      else if granted then
        let newcap := min (fds.length * 2) fdMax
        let nf := fds ++ List.replicate (newcap - fds.length) .zero
        -- first slot of the grown half
        let fd := newcap / 2
        some (markUsed nf fd, fd)
      else none

def procFdGet (fds : List FileDesc) (fd : Nat) : Option FileDesc := fds[fd]?.filter fun f => f.used

def procFdDealloc (fds : List FileDesc) (fd : Nat) : List FileDesc :=
  fds.modify fd fun f => { f with used := false }

/-- References on vnodes, as `vnode_ref` and `vnode_put` leave them. -/
abbrev Refs := Nat → Int

def Refs.ref (refs : Refs) : Option Nat → Refs
  | none => refs
  | some v => update refs v (refs v + 1)

def Refs.put (refs : Refs) : Option Nat → Refs
  | none => refs
  | some v => update refs v (refs v - 1)

/-- Copy descriptor `fd` of `src` to the lowest free descriptor of `dst`. -/
def procFdDup (granted : Bool) (dst src : List FileDesc) (refs : Refs) (fd : Nat) :
    Option (List FileDesc × Refs × Nat) :=
  match procFdGet src fd with
  | none => none
  | some f =>
      match procFdAlloc granted dst with
      | none => none
      | some (dst, n) => some (dst.set n { f with fd := n }, refs.ref f.vnode, n)

/-- The loop that doubles the capacity until `newfd` fits. -/
def growCapacity (newfd : Nat) : Nat → Nat → Nat
  | 0, cap => cap
  | fuel + 1, cap => if cap ≤ newfd ∧ cap < fdMax then growCapacity newfd fuel (cap * 2) else cap

/-- `proc_fd_dup2` within one process, as all its callers use it. -/
def procFdDup2 (granted : Bool) (fds : List FileDesc) (refs : Refs) (oldfd newfd : Nat) :
    Option (List FileDesc × Refs × Nat) :=
  if fdMax ≤ newfd then none
  -- before the old descriptor is looked at
  else if oldfd = newfd then some (fds, refs, newfd)
  else
    match procFdGet fds oldfd with
    | none => none
    | some _ =>
        let cap := min (growCapacity newfd fdMax fds.length) fdMax
        let grown := if fds.length ≤ newfd then
            if cap ≤ newfd ∨ granted = false then none
            else some (fds ++ List.replicate (cap - fds.length) .zero)
          else some fds
        match grown with
        | none => none
        | some fds =>
            match fds[oldfd]? with
            | none => none
            | some f =>
                let refs := match procFdGet fds newfd with
                  | some g => refs.put g.vnode
                  | none => refs
                some (fds.set newfd { f with fd := newfd, used := true, cloexec := false },
                  refs.ref f.vnode, newfd)

/-- The body of the loop of `proc_fork` over the parent's table. -/
def forkFd (grants : Nat → Bool) (parent : List FileDesc) (child : List FileDesc × Refs) (i : Nat) :
    List FileDesc × Refs :=
  match procFdDup (grants i) child.1 parent child.2 i with
  | none => child
  | some (fds, refs, _) => (fds, refs)

/-- The loop of `proc_fork`; `grants i` is the answer of `kmalloc` when descriptor `i` is
copied. -/
def forkFds (grants : Nat → Bool) (parent : List FileDesc) (refs : Refs) : List FileDesc × Refs :=
  (List.range parent.length).foldl (forkFd grants parent) (freshTable, refs)

/-! ## Opening, closing, moving -/

/-- The end of `vfs_open`: the file is found and may be opened. -/
def vfsOpen (granted : Bool) (fds : List FileDesc) (origin v : Nat) (flags : BitVec 32) :
    Option (List FileDesc × Nat) :=
  (procFdAlloc granted fds).map fun (fds, fd) =>
    (fds.set fd ⟨fd, some v, flags, 0, 0, flags &&& O_CLOEXEC != 0, true, origin⟩, fd)

/-- The bytes `vfs_read` moves; each answer is the result of the vnode's `read` and whether
the bytes could be copied out. -/
def readLoop (count : Nat) : List (Int × Bool) → Nat → Nat
  | [], done => done
  | (n, copied) :: rest, done =>
      if count ≤ done ∨ n ≤ 0 ∨ copied = false then done
      else if n.toNat < min (count - done) ioChunk then done + n.toNat
      else readLoop count rest (done + n.toNat)

/-- What happens to one chunk of a write: whether it could be copied in, the result of the
vnode's `write` and the size of the file afterwards. -/
structure WriteAnswer where
  copied : Bool
  n : Int
  size : Int64

/-- The bytes `vfs_write` moves, and the size of the file. -/
def writeLoop (count : Nat) : List WriteAnswer → Nat → Int64 → Nat × Int64
  | [], done, size => (done, size)
  | a :: rest, done, size =>
      if count ≤ done ∨ a.copied = false then (done, size)
      else if a.n ≤ 0 then (done, a.size)
      else if a.n.toNat < min (count - done) ioChunk then (done + a.n.toNat, a.size)
      else writeLoop count rest (done + a.n.toNat) a.size

/-- The offset after a read that moved some bytes. -/
def readOffset (f : FileDesc) (count : Nat) (answers : List (Int × Bool)) : Option Int64 :=
  let done := readLoop count answers 0
  if 0 < done then some (f.offset + .ofNat done) else none

/-- The offset after a write that moved some bytes, and the size of the file. -/
def writeOffset (f : FileDesc) (size : Int64) (count : Nat) (answers : List WriteAnswer) :
    Option Int64 × Int64 :=
  let (done, size) := writeLoop count answers 0 size
  if 0 < done then
    (some (if f.flags &&& O_APPEND ≠ 0 then size else f.offset + .ofNat done), size)
  else (none, size)

inductive Whence where
  | seekSet | seekCur | seekEnd | other

/-- The offset after a successful `vfs_lseek`. -/
def seekOffset (f : FileDesc) (size offset : Int64) (whence : Whence) : Option Int64 :=
  let new := match whence with
    | .seekSet => some offset
    | .seekCur => some (f.offset + offset)
    | .seekEnd => some (size + offset)
    | .other => none
  new.filter fun o => 0 ≤ o

end ArcKernel.Fd
