import ArcKernel.Foundation.Chain
import ArcKernel.Foundation.Run

/-!
# The process table

Model of `proc_alloc`, `proc_free`, `proc_exit`, `proc_thread_exit`, `proc_waitpid`
(`bsd/proc/proc.c`), `proc_fork` (`bsd/proc/fork.c`) and `proc_clone` (`bsd/proc/clone.c`), as
far as they concern the table, the pid bitmap, the live list (`live_list`, `next`) and the
lists of children (`children`, `sibling`).

The slots of the table are numbered from 1, so that 0 is the null pointer.  Each call is one
step.  `proc_lock` covers the table, the bitmap and the live list; the lists of children have
no lock of their own.

`serial`, `forks` and `reaped` are read by nothing.  They number the forked processes: the
one in a slot, how many there were, and those that `proc_waitpid` has reaped.
-/

namespace ArcKernel.Proc

open ArcKernel.Foundation Function

/-- `PROC_MAX` -/
def procMax : Nat := 1024

structure ProcTable where
  /-- 0 is `PROC_NULL` -/
  pid : Nat → Nat
  ppid : Nat → Nat
  pgrp : Nat → Nat
  /-- `state == PRS_ZOMBIE` -/
  zombie : Nat → Bool
  isThread : Nat → Bool
  /-- `pid_bitmap` -/
  used : Nat → Bool
  /-- `live_list` and `next` -/
  live : Loc Unit → Nat
  /-- `children` and `sibling` -/
  kids : Loc Nat → Nat
  serial : Nat → Option Nat
  forks : Nat
  reaped : List Nat

def liveRoot : Loc Unit := .root ()

def liveList (s : ProcTable) : List Nat := cells s.live procMax liveRoot

def children (s : ProcTable) (q : Nat) : List Nat := cells s.kids procMax (.root q)

/-- `memset(p, 0, sizeof(proc_t))` -/
def clear (s : ProcTable) (p : Nat) : ProcTable :=
  { s with
    pid := update s.pid p 0
    ppid := update s.ppid p 0
    pgrp := update s.pgrp p 0
    zombie := update s.zombie p false
    isThread := update s.isThread p false
    live := update s.live (.link p) 0
    kids := update (update s.kids (.root p) 0) (.link p) 0
    serial := update s.serial p none }

/-! ## Allocation and release -/

/-- The first slot that is free. -/
def freeSlot (s : ProcTable) : Option Nat := (List.range' 1 procMax).find? fun p => s.pid p = 0

/-- `proc_alloc_pid` without the marking: the first pid that is not in use. -/
def freePid (s : ProcTable) : Option Nat := (List.range' 1 (procMax - 1)).find? fun k => !s.used k

/-- A slot filled in by `proc_alloc`, before the descriptors are allocated. -/
def fill (s : ProcTable) (p pid ppid : Nat) : ProcTable :=
  { clear s p with
    pid := update (clear s p).pid p pid
    ppid := update (clear s p).ppid p ppid
    pgrp := update (clear s p).pgrp p pid
    used := update s.used pid true }

/-- Put a slot at the front of the live list. -/
def pushLive (s : ProcTable) (p : Nat) : ProcTable :=
  { s with live := update (update s.live (.link p) (s.live liveRoot)) liveRoot p }

/-- `proc_alloc`; `granted` for its `kmalloc`.  When that fails the pid is released but the slot
keeps it. -/
def procAlloc (granted : Bool) (s : ProcTable) (ppid : Nat) : ProcTable × Option Nat :=
  match freeSlot s with
  | none => (s, none)
  | some p =>
      match freePid s with
      | none => (s, none)
      | some pid =>
          if granted then (pushLive (fill s p pid ppid) p, some p)
          else ({ fill s p pid ppid with used := update s.used pid false }, none)

/-- Take a slot off the live list. -/
def unlinkLive (s : ProcTable) (p : Nat) : ProcTable :=
  match locate s.live p procMax liveRoot with
  | some loc => { s with live := update s.live loc (s.live (.link p)) }
  | none => s

/-- The locked part that `proc_free` and `proc_thread_exit` share. -/
def release (s : ProcTable) (p : Nat) : ProcTable :=
  unlinkLive { s with
    pid := update s.pid p 0
    used := if 0 < s.pid p ∧ s.pid p < procMax then update s.used (s.pid p) false else s.used } p

def procFree (s : ProcTable) (p : Nat) : ProcTable := clear (release s p) p

def procFind (s : ProcTable) (pid : Nat) : Option Nat :=
  if pid = 0 ∨ procMax ≤ pid then none else (liveList s).find? fun q => s.pid q = pid

/-! ## Fork and clone -/

/-- The end of a successful `proc_fork`. -/
def adopt (s : ProcTable) (p c : Nat) : ProcTable :=
  { s with
    ppid := update s.ppid c (s.pid p)
    pgrp := update s.pgrp c (s.pgrp p)
    kids := update (update s.kids (.link c) (s.kids (.root p))) (.root p) c
    serial := update s.serial c (some s.forks)
    forks := s.forks + 1 }

/-- `proc_fork`; `ok` when the directory and the thread can be made. -/
def procFork (s : ProcTable) (p : Nat) (granted ok : Bool) : ProcTable :=
  match procAlloc granted s (s.pid p) with
  | (s, none) => s
  | (s, some c) => if ok then adopt s p c else procFree s c

/-- `proc_clone`; `ok` when all that follows the allocation succeeds, `thread` for a child with
`CLONE_VM` or `CLONE_THREAD`.  The child is on no list of children. -/
def procClone (s : ProcTable) (p : Nat) (granted ok thread : Bool) : ProcTable :=
  match procAlloc granted s (s.pid p) with
  | (s, none) => s
  | (s, some c) =>
      if ok then { s with
        ppid := update s.ppid c (s.pid p)
        pgrp := update s.pgrp c (s.pgrp p)
        isThread := update s.isThread c thread }
      else procFree s c

/-! ## The end of a process -/

/-- The pointer assignments of `proc_reparent_children`, when there is a child. -/
def spliceKids (m : Loc Nat → Nat) (p i last : Nat) : Loc Nat → Nat :=
  let m := update m (.link last) (m (.root i))
  let m := update m (.root i) (m (.root p))
  update m (.root p) 0

/-- `proc_reparent_children` -/
def reparentChildren (s : ProcTable) (p : Nat) : ProcTable :=
  match (children s p).getLast? with
  | none => s
  | some last =>
      { s with
        ppid := fun c => if c ∈ children s p then 1 else s.ppid c
        kids :=
          match procFind s 1 with
          | some i => spliceKids s.kids p i last
          | none => update s.kids (.root p) 0 }

def procExit (s : ProcTable) (p : Nat) : ProcTable :=
  let s := reparentChildren s p
  { s with zombie := update s.zombie p true }

def procThreadExit (s : ProcTable) (p : Nat) : ProcTable := release s p

/-! ## Reaping -/

/-- `proc_children_unlink` -/
def childrenUnlink (s : ProcTable) (q c : Nat) : ProcTable :=
  match locate s.kids c procMax (.root q) with
  | some loc => { s with kids := update (update s.kids loc (s.kids (.link c))) (.link c) 0 }
  | none => s

/-- The children `waitpid(which)` waits for. -/
def waitsFor (s : ProcTable) (p : Nat) (which : Int) (c : Nat) : Bool :=
  if which > 0 then (s.pid c : Int) = which
  else if which = 0 then s.pgrp c = s.pgrp p
  else if which = -1 then true
  else (s.pgrp c : Int) = -which

/-- One scan of `proc_waitpid`.  With no zombie to reap nothing in the table changes, whether it
reports a stopped child, returns or sleeps. -/
def procWaitpid (s : ProcTable) (p : Nat) (which : Int) : ProcTable :=
  match (children s p).find? fun c => waitsFor s p which c && s.zombie c with
  | some z => { procFree (childrenUnlink s p z) z with reaped := (s.serial z).toList ++ s.reaped }
  | none => s

/-! ## Runs -/

inductive Call where
  /-- `proc_alloc(0)` for the first process -/
  | boot (granted : Bool)
  | fork (p : Nat) (granted ok : Bool)
  | clone (p : Nat) (granted ok thread : Bool)
  | exit (p : Nat)
  | threadExit (p : Nat)
  | waitpid (p : Nat) (which : Int)
  | setpgid (p : Nat) (pgrp : Nat)

/-- A process that executes: found by `proc_current`, and not a zombie. -/
def Running (s : ProcTable) (p : Nat) : Prop := p ∈ liveList s ∧ s.zombie p = false

instance (s : ProcTable) (p : Nat) : Decidable (Running s p) := inferInstanceAs (Decidable (_ ∧ _))

def procStep (s : ProcTable) : Call → Option ProcTable
  | .boot granted => some (procAlloc granted s 0).1
  | .fork p granted ok => if Running s p then some (procFork s p granted ok) else none
  | .clone p granted ok thread =>
      if Running s p then some (procClone s p granted ok thread) else none
  | .exit p => if Running s p then some (procExit s p) else none
  | .threadExit p => if Running s p ∧ s.isThread p = true then some (procThreadExit s p) else none
  | .waitpid p which => if Running s p then some (procWaitpid s p which) else none
  | .setpgid p pgrp => some { s with pgrp := update s.pgrp p pgrp }

/-- `proc_init` -/
def procInit : ProcTable where
  pid := fun _ => 0
  ppid := fun _ => 0
  pgrp := fun _ => 0
  zombie := fun _ => false
  isThread := fun _ => false
  used := fun k => k = 0
  live := fun _ => 0
  kids := fun _ => 0
  serial := fun _ => none
  forks := 0
  reaped := []

end ArcKernel.Proc
