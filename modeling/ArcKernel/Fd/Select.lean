import ArcKernel.Tty.Input
import Mathlib

/-!
# `select` and `poll` (`bsd/sys/sys_file.c`)

Both scan the watched descriptors and, when none is ready, wait and scan again.  The objects
change in between, so a call runs over the list of what its rounds find.
-/

namespace ArcKernel.Select

open ArcKernel.Terminal Finset

abbrev Events := BitVec 16

/-- `POLLIN | POLLRDNORM` -/
def readable : Events := 0x041

/-- `POLLOUT | POLLWRNORM` -/
def writable : Events := 0x104

def pollErr : Events := 0x008
def pollHup : Events := 0x010
def pollNval : Events := 0x020

def bits (c : Bool) (e : Events) : Events := if c then e else 0

/-- A vnode, with what its `poll` reads: `dangling` is a pipe or socket vnode without its object,
`file` a regular file, a directory, `null` or `zero`, and `other` has no `poll`. -/
inductive Obj where
  | pipeRead (used : Nat) (writers : Int)
  | pipeWrite (space : Nat) (readers : Int)
  | console (tty : Option Tty)
  | socket (rd wr err closed : Bool)
  | dangling
  | file
  | other

/-- What holds of the object, asked for or not. -/
def Obj.holds : Obj → Events
  | .pipeRead used writers => bits (0 < used || writers ≤ 0) readable ||| bits (writers ≤ 0) pollHup
  | .pipeWrite space readers =>
      bits (0 < space || readers ≤ 0) writable ||| bits (readers ≤ 0) pollErr
  | .console none => pollNval
  | .console (some t) => bits (ttyPollIn t) readable ||| writable
  | .socket rd wr err closed =>
      bits err pollErr ||| bits closed pollHup ||| bits rd readable ||| bits wr writable
  | .dangling => pollErr
  | .file => readable ||| writable
  | .other => 0x005

/-- The vnode's `poll`: some answer more than they are asked. -/
def Obj.poll (events : Events) : Obj → Events
  | .dangling => pollErr
  | .console none => pollNval
  | .other => 0x005
  | o => o.holds &&& events

abbrev Table := Nat → Option Obj

def Table.holds (t : Table) (fd : Nat) : Events := (t fd).elim pollNval Obj.holds

def vfsFdPoll (t : Table) (fd : Nat) (events : Events) : Events :=
  (t fd).elim pollNval (Obj.poll events)

theorem vfsFdPoll_and (t : Table) (fd : Nat) (e : Events) :
    vfsFdPoll t fd e &&& e = t.holds fd &&& e := by
  unfold vfsFdPoll Table.holds
  rcases t fd with _ | o
  · rfl
  · rcases o with _ | _ | (_ | _) | _ | _ | _ | _ <;>
      simp [Obj.poll, Obj.holds, BitVec.and_assoc]

structure Sets where
  read : Finset Nat
  write : Finset Nat
  exc : Finset Nat

def Sets.all (k : Sets) : Finset Nat := k.read ∪ k.write ∪ k.exc

/-- What `select` does for one descriptor and one set; the number counts the ready ones. -/
def scanFd (t : Table) (m : Events) (fd : Nat) (x : Finset Nat × Nat) : Finset Nat × Nat :=
  if fd ∈ x.1 then
    if vfsFdPoll t fd m &&& m ≠ 0#16 then (x.1, x.2 + 1) else (x.1.erase fd, x.2)
  else x

def scan (t : Table) (k : Sets) : Nat → Sets × Nat
  | 0 => (k, 0)
  | fd + 1 =>
      let (left, n) := scan t k fd
      let r := scanFd t readable fd (left.read, n)
      let w := scanFd t writable fd (left.write, r.2)
      let e := scanFd t pollErr fd (left.exc, w.2)
      (⟨r.1, w.1, e.1⟩, e.2)

inductive Errno where
  | einval | efault | enomem | eintr | ebadf

/-- One round of a call: the descriptors at its scan, a signal before it, the timeout (also of a
call that is not to wait) and a signal during the sleep, which `poll` does not have. -/
structure Round where
  table : Table
  signalled : Bool
  timedOut : Bool
  interrupted : Bool

/-- The loop of both calls; a call that returns shows the table of its last scan too. -/
def rounds {α : Type} (found : Table → α × Nat) :
    List Round → Option (Except Errno (Table × α × Nat))
  | [] => none
  | x :: rest =>
      if x.signalled then some (.error .eintr)
      else if (found x.table).2 ≠ 0 ∨ x.timedOut then some (.ok (x.table, found x.table))
      else if x.interrupted then some (.error .eintr)
      else rounds found rest

/-- `refused`: a fault of a copy, a bad timeout or no memory. -/
def sysSelect (nfds : Int) (k : Sets) (refused : Option Errno) (l : List Round) :
    Option (Except Errno (Table × Sets × Nat)) :=
  if nfds < 0 ∨ 1024 < nfds then some (.error .einval)
  else refused.elim (rounds (scan · k nfds.toNat) l) fun e => some (.error e)

structure PollFd where
  fd : Int
  events : Events
  revents : Events

def pollEntry (answer : Nat → Events → Events) (e : PollFd) : PollFd :=
  { e with revents := if e.fd < 0 then 0 else answer e.fd.toNat e.events }

def pollAll (answer : Nat → Events → Events) (fds : List PollFd) : List PollFd × Nat :=
  let fds := fds.map (pollEntry answer)
  (fds, fds.countP (·.revents != 0))

def sysPoll (fds : List PollFd) (refused : Option Errno) (l : List Round) :
    Option (Except Errno (Table × List PollFd × Nat)) :=
  if 1024 < fds.length then some (.error .einval)
  else if fds = [] then some (.ok (fun _ => none, [], 0))
  else refused.elim (rounds (fun t => pollAll (fun fd e => vfsFdPoll t fd e &&& e) fds) l)
    fun e => some (.error e)

section

variable {t : Table} {m : Events} {n : Nat} {s : Finset Nat}

theorem rounds_ok {α : Type} {found : Table → α × Nat} {l : List Round} {out : α × Nat}
    (h : rounds found l = some (.ok (t, out))) : out = found t := by
  induction l with
  | nil => cases h
  | cons x rest ih =>
    unfold rounds at h
    split_ifs at h
    · cases h
    · cases h
      rfl
    · cases h
    · exact ih h

/-- The ready descriptors of a set below `n`. -/
def Table.ready (t : Table) (m : Events) (n : Nat) (s : Finset Nat) : Finset Nat :=
  s.filter fun fd => fd < n ∧ t.holds fd &&& m ≠ 0#16

/-- What a scan up to `n` leaves of a set. -/
def Table.left (t : Table) (m : Events) (n : Nat) (s : Finset Nat) : Finset Nat :=
  s.filter fun fd => fd < n → t.holds fd &&& m ≠ 0#16

theorem scanFd_left {b c : Nat} (hb : b = c + (t.ready m n s).card) :
    scanFd t m n (t.left m n s, b) = (t.left m (n + 1) s, c + (t.ready m (n + 1) s).card) := by
  have hleft : t.left m (n + 1) s =
      if n ∈ s ∧ t.holds n &&& m = 0#16 then (t.left m n s).erase n else t.left m n s := by
    ext fd
    grind [Table.left]
  have hready : t.ready m (n + 1) s =
      if n ∈ s ∧ t.holds n &&& m ≠ 0#16 then insert n (t.ready m n s) else t.ready m n s := by
    ext fd
    grind [Table.ready]
  have hmem : n ∈ t.left m n s ↔ n ∈ s := by simp [Table.left]
  have hnot : n ∉ t.ready m n s := by simp [Table.ready]
  rw [hleft, hready, hb]
  simp only [scanFd, vfsFdPoll_and, hmem]
  by_cases hn : n ∈ s <;> by_cases hr : t.holds n &&& m = 0#16 <;>
    simp [hn, hr, hnot, Nat.add_assoc]

/-- The ready descriptors of a request and their number. -/
def Table.found (t : Table) (n : Nat) (k : Sets) : Sets × Nat :=
  let s : Sets := ⟨t.ready readable n k.read, t.ready writable n k.write, t.ready pollErr n k.exc⟩
  (s, s.read.card + s.write.card + s.exc.card)

theorem scan_eq (t : Table) (k : Sets) (n : Nat) : scan t k n =
    (⟨t.left readable n k.read, t.left writable n k.write, t.left pollErr n k.exc⟩,
      (t.found n k).2) := by
  induction n with
  | zero => simp [scan, Table.found, Table.left, Table.ready]
  | succ n ih =>
    simp only [scan, ih, Table.found]
    rw [scanFd_left (c := (t.ready writable n k.write).card + (t.ready pollErr n k.exc).card),
      scanFd_left (c := (t.ready readable (n + 1) k.read).card + (t.ready pollErr n k.exc).card),
      scanFd_left] <;> omega

theorem ready_eq_left : t.ready m n s = t.left m n s ↔ ∀ fd ∈ s, fd < n := by
  simp only [Finset.ext_iff, Table.ready, Table.left, mem_filter]
  grind

/-- A scan finds what it is to find when nothing at or above `n` is asked for. -/
theorem found_eq_scan {k : Sets} : t.found n k = scan t k n ↔ ∀ fd ∈ k.all, fd < n := by
  simp only [scan_eq, Table.found, Prod.mk.injEq, Sets.mk.injEq, ready_eq_left, and_true, Sets.all,
    mem_union]
  grind

theorem and_or_eq_iff (x e m : Events) : x &&& (e ||| m) = x &&& e ↔ x &&& m &&& ~~~e = 0#16 := by
  constructor <;> intro h <;> ext i hi <;> have hbit := congrArg (BitVec.getLsbD · i) h <;>
    simp [hi] at hbit ⊢ <;> grind

end

/-- What `select` is to return. -/
def selectSpec (t : Table) (n : Nat) (k : Sets) : Except Errno (Sets × Nat) :=
  if ∀ fd ∈ k.all, fd < n → (t fd).isSome then .ok (t.found n k) else .error .ebadf

/-- The events `poll` is to report also when not asked for. -/
def unasked : Events := pollErr ||| pollHup ||| pollNval

def pollSpec (t : Table) : List PollFd → List PollFd × Nat :=
  pollAll fun fd e => t.holds fd &&& (e ||| unasked)

theorem select_poll_exact (nfds : Int) (k : Sets) (fds : List PollFd) (refused : Option Errno)
    (l : List Round) (t : Table) :
    (∀ out, sysSelect nfds k refused l = some (.ok (t, out)) →
      (selectSpec t nfds.toNat k = .ok out ↔ ∀ fd ∈ k.all, fd < nfds ∧ (t fd).isSome)) ∧
    ∀ out, sysPoll fds refused l = some (.ok (t, out)) →
      (pollSpec t fds = out ↔ ∀ e ∈ fds, 0 ≤ e.fd →
        t.holds e.fd.toNat &&& unasked &&& ~~~e.events = 0#16) := by
  refine ⟨fun out h => ?_, fun out h => ?_⟩
  · unfold sysSelect at h
    split_ifs at h
    · cases h
    cases refused with
    | some e => cases h
    | none =>
      obtain rfl := rounds_ok h
      have hn : ∀ fd : Nat, (fd : Int) < nfds ↔ fd < nfds.toNat := by omega
      simp only [selectSpec, hn]
      split_ifs with hopen
      · rw [Except.ok.injEq, found_eq_scan]
        exact forall₂_congr fun fd hfd => ⟨fun hlt => ⟨hlt, hopen fd hfd hlt⟩, And.left⟩
      · exact iff_of_false nofun fun hall => hopen fun fd hfd _ => (hall fd hfd).2
  · have hout : out = pollAll (fun fd e => t.holds fd &&& e) fds := by
      simp only [← vfsFdPoll_and]
      unfold sysPoll at h
      split_ifs at h with hlong hnil
      · cases h
      · cases h
        rw [hnil]
        rfl
      · cases refused with
        | some e => cases h
        | none => exact rounds_ok h
    have hentry (e : PollFd) : (pollEntry (fun fd e => t.holds fd &&& (e ||| unasked)) e =
        pollEntry (fun fd e => t.holds fd &&& e) e) ↔
        (0 ≤ e.fd → t.holds e.fd.toNat &&& unasked &&& ~~~e.events = 0#16) := by
      rw [← and_or_eq_iff]
      by_cases hfd : e.fd < 0
      · simp [pollEntry, hfd]
      · simp [pollEntry, hfd, not_lt.mp hfd]
    rw [hout, ← forall₂_congr fun e _ => hentry e, ← List.map_inj_left]
    exact ⟨congrArg Prod.fst, fun heq => by simp only [pollSpec, pollAll, heq]⟩

/-- A pipe with data and no writer at descriptor 0, nothing else open. -/
def onePipe : Table := fun fd => if fd = 0 then some (.pipeRead 1 0) else none

theorem select_poll_exact_pipe : (selectSpec onePipe 1 ⟨{0}, ∅, ∅⟩ = .ok (⟨{0}, ∅, ∅⟩, 1) ↔
      ∀ fd ∈ Sets.all ⟨{0}, ∅, ∅⟩, (fd : Int) < 1 ∧ (onePipe fd).isSome) ∧
    pollSpec onePipe [⟨0, readable ||| pollHup, 0⟩, ⟨-1, readable, 0⟩] =
      ([⟨0, readable ||| pollHup, readable ||| pollHup⟩, ⟨-1, readable, 0⟩], 1) := by
  have hexact := select_poll_exact 1 ⟨{0}, ∅, ∅⟩ [⟨0, readable ||| pollHup, 0⟩, ⟨-1, readable, 0⟩]
    none [⟨onePipe, false, true, false⟩] onePipe
  exact ⟨hexact.1 _ rfl, (hexact.2 _ rfl).mpr (by decide)⟩

/-- Descriptor 5, not below `nfds`, is returned; one that is not open is no error; the hang-up is
not reported. -/
theorem select_poll_wrong : sysSelect 1 ⟨{0, 5}, ∅, ∅⟩ none [⟨onePipe, false, false, false⟩] =
      some (.ok (onePipe, ⟨{0, 5}, ∅, ∅⟩, 1)) ∧
    sysSelect 2 ⟨{1}, ∅, ∅⟩ none [⟨onePipe, false, true, false⟩] =
      some (.ok (onePipe, ⟨∅, ∅, ∅⟩, 0)) ∧
    sysPoll [⟨0, readable, 0⟩] none [⟨onePipe, false, false, false⟩] =
      some (.ok (onePipe, [⟨0, readable, readable⟩], 1)) ∧
    onePipe.holds 0 = readable ||| pollHup :=
  ⟨rfl, rfl, rfl, rfl⟩

end ArcKernel.Select
