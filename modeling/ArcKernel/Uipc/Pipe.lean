import ArcKernel.Foundation.Ring
import ArcKernel.Foundation.Run

/-!
# Pipes

`pipe_read`, `pipe_write`, `pipe_close` and `waitq_sleep`, with every section that holds a lock
as one step of the party that runs it and every test made without a lock as a step of its own.
Parties are processes; each has its own descriptor table, so it closes a descriptor only
between its calls.  Both ends carry the same operations: a party may read or write through
either.

Counters are `size_t` values of `w` bits and run freely; the buffer is indexed by their
remainder.  `copied`, `returned`, `calls` and `log` are ghost fields: no step reads them.
-/

namespace ArcKernel.Uipc

open ArcKernel.Foundation Function Option BitVec

def pipeBufSize : Nat := 4096

/-- The most `vfs_write` passes to `pipe_write` in one call: `VFS_IO_CHUNK`. -/
def vfsIoChunk : Nat := 4096

def ePipe : Int := 32

def eRestartSys : Int := 512

/-- The two vnodes of a pipe. -/
inductive End where
  | read | write
  deriving DecidableEq

structure Pipe (w : Nat) where
  buf : Nat → UInt8
  head : BitVec w
  tail : BitVec w
  /-- `readers` and `writers` -/
  ends : End → Int
  freed : Bool
  /-- `rq` and `wq` -/
  queue : End → List Nat

namespace Pipe

variable {w : Nat}

def used (pp : Pipe w) : Nat := (pp.head - pp.tail).toNat

def space (pp : Pipe w) : Nat := (BitVec.ofNat w pipeBufSize - (pp.head - pp.tail)).toNat

/-- The copy loop of `pipe_read`. -/
def copyOut (pp : Pipe w) (n : Nat) : List UInt8 :=
  (List.range n).map fun i => pp.buf ((pp.tail + BitVec.ofNat w i).toNat % pipeBufSize)

/-- The copy loop of `pipe_write`. -/
def copyIn (pp : Pipe w) (src : List UInt8) : Nat → UInt8 :=
  src.zipIdx.foldl (fun buf x =>
    update buf ((pp.head + BitVec.ofNat w x.2).toNat % pipeBufSize) x.1) pp.buf

end Pipe

/-- A call under way, with the locals that live across its sections. -/
inductive PipeOp where
  | read (count : Nat)
  /-- `id` numbers the calls and is ghost data -/
  | write (id : Nat) (data : List UInt8) (written : Nat)
  deriving DecidableEq

/-- The queue the call sleeps on. -/
def PipeOp.queue : PipeOp → End
  | .read _ => .read
  | .write .. => .write

/-- Where a party is inside `waitq_sleep`. -/
inductive Stage where
  /-- called, before the test for a signal -/
  | tested
  | linking
  /-- on the queue, before `scheduler_block_current` -/
  | linked
  | asleep
  | woken
  /-- off the queue, before the last test for a signal -/
  | unlinked
  deriving DecidableEq

/-- What follows a `waitq_wake_all`; `bytes` is what the reader's buffer was filled with. -/
inductive After where
  | ret (count n : Nat) (bytes : List UInt8)
  | again (id : Nat) (data : List UInt8) (written : Nat)
  deriving DecidableEq

inductive PipePhase where
  | out
  | test (op : PipeOp)
  /-- a writer that found room, before its second section -/
  | copy (id : Nat) (data : List UInt8) (written : Nat)
  | wakeAll (queue : End) (after : After)
  | sleep (op : PipeOp) (stage : Stage)
  deriving DecidableEq

structure Party where
  phase : PipePhase
  /-- `signal_has_pending` -/
  pending : Bool
  /-- the thread is `THREAD_BLOCKED` -/
  blocked : Bool
  /-- the handler of `SIGPIPE` is `SIG_DFL` -/
  sigpipeDefault : Bool

/-- A return: of a read, with the bytes in the buffer of its process `p`, the write ends open and
the bytes not yet read at that moment, or of a write. -/
inductive PipeEvent where
  | read (p count : Nat) (ret : Int) (bytes : List UInt8) (writeEnds unread : Nat)
  | wrote (id : Nat) (data : List UInt8) (ret : Int)
  deriving DecidableEq

structure PipeSys (w : Nat) where
  pipe : Pipe w
  /-- the reference counts of the two vnodes -/
  refs : End → Int
  /-- who holds a descriptor on each end, once for each descriptor -/
  holders : End → List Nat
  parties : Nat → Party
  /-- the number of writes begun -/
  calls : Nat
  /-- the bytes copied in, each with the write it belongs to -/
  copied : List (Nat × UInt8)
  /-- the bytes handed out, each with the process whose read step took it -/
  returned : List (Nat × UInt8)
  log : List PipeEvent

namespace PipeSys

variable {w : Nat}

def setParty (s : PipeSys w) (p : Nat) (party : Party) : PipeSys w :=
  { s with parties := update s.parties p party }

def setPhase (s : PipeSys w) (p : Nat) (phase : PipePhase) : PipeSys w :=
  s.setParty p { s.parties p with phase := phase }

def setQueue (s : PipeSys w) (e : End) (q : List Nat) : PipeSys w :=
  { s with pipe := { s.pipe with queue := update s.pipe.queue e q } }

def finish (s : PipeSys w) (p : Nat) (event : PipeEvent) : PipeSys w :=
  { s.setPhase p .out with log := event :: s.log }

/-- The bytes in the pipe, by the record of what went in and out. -/
def unread (s : PipeSys w) : Nat := s.copied.length - s.returned.length

def finishRead (s : PipeSys w) (p count : Nat) (ret : Int) (bytes : List UInt8) : PipeSys w :=
  s.finish p (.read p count ret bytes (s.holders .write).length s.unread)

/-- `waitq_wake_all`: every process on the queue is unlinked, and its thread unblocked. -/
def waitqWakeAll (s : PipeSys w) (e : End) : PipeSys w :=
  { s.setQueue e [] with
    parties := fun p =>
      if p ∈ s.pipe.queue e then { s.parties p with blocked := false } else s.parties p }

/-- The test of the loop of `pipe_write`. -/
def writeLoop (s : PipeSys w) (p id : Nat) (data : List UInt8) (written : Nat) : PipeSys w :=
  if written < data.length then s.setPhase p (.test (.write id data written))
  else s.finish p (.wrote id data written)

/-- A write that stops early: what it has written, or the error. -/
def stopWrite (s : PipeSys w) (p id : Nat) (data : List UInt8) (written : Nat) (err : Int) :
    PipeSys w :=
  s.finish p (.wrote id data (if 0 < written then (written : Int) else -err))

/-- `waitq_sleep` returned `-EINTR`. -/
def interrupted (s : PipeSys w) (p : Nat) : PipeOp → PipeSys w
  | .read count => s.finishRead p count (-eRestartSys) []
  | .write id data written => s.stopWrite p id data written eRestartSys

/-- The section of `pipe_read`. -/
def readTest (s : PipeSys w) (p count : Nat) : PipeSys w :=
  if 0 < s.pipe.used then
    let n := if count < s.pipe.used then count else s.pipe.used
    let bytes := s.pipe.copyOut n
    { s with
      pipe := { s.pipe with tail := s.pipe.tail + BitVec.ofNat w n }
      returned := s.returned ++ bytes.map (p, ·) }.setPhase p (.wakeAll .write (.ret count n bytes))
  else if s.pipe.ends .write ≤ 0 then s.finishRead p count 0 []
  else s.setPhase p (.sleep (.read count) .tested)

/-- The first section of `pipe_write`. -/
def writeTest (s : PipeSys w) (p id : Nat) (data : List UInt8) (written : Nat) : PipeSys w :=
  if s.pipe.ends .read ≤ 0 then
    let party := s.parties p
    (s.setParty p { party with pending := party.pending || party.sigpipeDefault }).stopWrite
      p id data written ePipe
  else if s.pipe.space = 0 then s.setPhase p (.sleep (.write id data written) .tested)
  else s.setPhase p (.copy id data written)

/-- The second section of `pipe_write`, with the space there is now. -/
def writeCopy (s : PipeSys w) (p id : Nat) (data : List UInt8) (written : Nat) : PipeSys w :=
  let n := if s.pipe.space < data.length - written then s.pipe.space else data.length - written
  let src := (data.drop written).take n
  { s with
    pipe := { s.pipe with
      buf := s.pipe.copyIn src
      head := s.pipe.head + BitVec.ofNat w n }
    copied := s.copied ++ src.map (id, ·) }.setPhase p
      (.wakeAll .read (.again id data (written + n)))

/-- The rest of `pipe_read` or `pipe_write` after a wake-up call. -/
def resume (s : PipeSys w) (p : Nat) : After → PipeSys w
  | .ret count n bytes => s.finishRead p count n bytes
  | .again id data written => s.writeLoop p id data written

/-- One step of `waitq_sleep`. -/
def sleepStep (s : PipeSys w) (p : Nat) (op : PipeOp) : Stage → Option (PipeSys w)
  | .tested =>
      some (if (s.parties p).pending then s.interrupted p op else s.setPhase p (.sleep op .linking))
  | .linking =>
      some ((s.setQueue op.queue (p :: s.pipe.queue op.queue)).setPhase p (.sleep op .linked))
  | .linked => some (s.setParty p { s.parties p with phase := .sleep op .asleep, blocked := true })
  | .asleep => if (s.parties p).blocked then none else some (s.setPhase p (.sleep op .woken))
  | .woken =>
      some ((s.setQueue op.queue ((s.pipe.queue op.queue).erase p)).setPhase p
        (.sleep op .unlinked))
  | .unlinked =>
      some (if (s.parties p).pending then s.interrupted p op else s.setPhase p (.test op))

/-- The next step of a party that is inside a call. -/
def partyStep (s : PipeSys w) (p : Nat) : Option (PipeSys w) :=
  match (s.parties p).phase with
  | .out => none
  | .test (.read count) => some (s.readTest p count)
  | .test (.write id data written) => some (s.writeTest p id data written)
  | .copy id data written => some (s.writeCopy p id data written)
  | .wakeAll e after => some ((s.waitqWakeAll e).resume p after)
  | .sleep op stage => s.sleepStep p op stage

/-- `pipe_close`, called when the last reference to the vnode is dropped. -/
def pipeClose (s : PipeSys w) (e : End) : PipeSys w :=
  let s := { s with pipe := { s.pipe with
    ends := update s.pipe.ends e (s.pipe.ends e - 1) } }
  let s := if s.pipe.ends .write ≤ 0 then s.waitqWakeAll .read else s
  let s := if s.pipe.ends .read ≤ 0 then s.waitqWakeAll .write else s
  if s.pipe.ends .read ≤ 0 ∧ s.pipe.ends .write ≤ 0 then
    { s with pipe := { s.pipe with freed := true } }
  else s

/-- `vnode_put` on a descriptor of the party. -/
def close (s : PipeSys w) (p : Nat) (e : End) : PipeSys w :=
  let s := { s with
    refs := update s.refs e (s.refs e - 1)
    holders := update s.holders e ((s.holders e).erase p) }
  if s.refs e ≤ 0 then s.pipeClose e else s

end PipeSys

inductive PipeCall where
  | read (p : Nat) (e : End) (count : Nat)
  | write (p : Nat) (e : End) (data : List UInt8)
  /-- the descriptor is passed on, by `dup` or to a new process -/
  | dup (p : Nat) (e : End) (q : Nat)
  | close (p : Nat) (e : End)
  /-- a process is woken from outside, with or without a signal to handle -/
  | signal (p : Nat) (pending : Bool)
  /-- a signal is handled on the way out of the kernel -/
  | handle (p : Nat)
  | step (p : Nat)

/-- Calls are begun and descriptors given up by parties that are in no call and hold the
descriptor. -/
def pipeStep {w : Nat} (s : PipeSys w) : PipeCall → Option (PipeSys w)
  | .read p e count =>
      if p ∈ s.holders e ∧ (s.parties p).phase = .out then some (s.setPhase p (.test (.read count)))
      else none
  | .write p e data =>
      if p ∈ s.holders e ∧ (s.parties p).phase = .out ∧ data.length ≤ vfsIoChunk then
        some ({ s with calls := s.calls + 1 }.writeLoop p s.calls data 0)
      else none
  | .dup p e q =>
      if p ∈ s.holders e ∧ (s.parties p).phase = .out then
        some { s with
          refs := update s.refs e (s.refs e + 1)
          holders := update s.holders e (q :: s.holders e) }
      else none
  | .close p e => if p ∈ s.holders e ∧ (s.parties p).phase = .out then some (s.close p e) else none
  | .signal p pending =>
      some (s.setParty p { s.parties p with
        pending := (s.parties p).pending || pending, blocked := false })
  | .handle p =>
      if (s.parties p).phase = .out then
        some (s.setParty p { s.parties p with pending := false })
      else none
  | .step p => s.partyStep p

/-- Just after `pipe_create` by the process `p`: both counters zero, one descriptor on each
end. -/
def PipeSys.create (w : Nat) (p : Nat) (sigpipeDefault : Nat → Bool) : PipeSys w where
  pipe := ⟨fun _ => 0, 0, 0, fun _ => 1, false, fun _ => []⟩
  refs := fun _ => 1
  holders := fun _ => [p]
  parties := fun q => ⟨.out, false, false, sigpipeDefault q⟩
  calls := 0
  copied := []
  returned := []
  log := []

namespace PipeSys

variable {w : Nat}

@[simp] theorem parties_setParty_self (s : PipeSys w) (p : Nat) (party : Party) :
    (s.setParty p party).parties p = party := update_self ..

theorem parties_setParty_of_ne (s : PipeSys w) {p q : Nat} (party : Party) (h : q ≠ p) :
    (s.setParty p party).parties q = s.parties q := update_of_ne h ..

theorem phase_waitqWakeAll (s : PipeSys w) (e : End) (p : Nat) :
    ((s.waitqWakeAll e).parties p).phase = (s.parties p).phase := by
  unfold waitqWakeAll
  dsimp only
  split <;> rfl

end PipeSys

/-! ## What a step is -/

/-- Every step is one of these; a property of the state reached is shown for each. -/
theorem pipeStep_cases {w : Nat} {s t : PipeSys w} {call : PipeCall} {motive : PipeSys w → Prop}
    (hstep : pipeStep s call = some t)
    (read : ∀ p e count, p ∈ s.holders e → (s.parties p).phase = .out →
      motive (s.setPhase p (.test (.read count))))
    (write : ∀ p e data, p ∈ s.holders e → (s.parties p).phase = .out →
      motive ({ s with calls := s.calls + 1 }.writeLoop p s.calls data 0))
    (dup : ∀ p e q, p ∈ s.holders e → motive { s with
      refs := update s.refs e (s.refs e + 1)
      holders := update s.holders e (q :: s.holders e) })
    (close : ∀ p e, call = .close p e → p ∈ s.holders e → (s.parties p).phase = .out →
      motive (s.close p e))
    (signal : ∀ p pending, motive (s.setParty p { s.parties p with
      pending := pending, blocked := false }))
    (handle : ∀ p, (s.parties p).phase = .out →
      motive (s.setParty p { s.parties p with pending := false }))
    (readTest : ∀ p count, call = .step p → (s.parties p).phase = .test (.read count) →
      motive (s.readTest p count))
    (writeTest : ∀ p id data written, (s.parties p).phase = .test (.write id data written) →
      motive (s.writeTest p id data written))
    (writeCopy : ∀ p id data written, call = .step p → (s.parties p).phase = .copy id data written →
      motive (s.writeCopy p id data written))
    (wake : ∀ p e after, call = .step p → (s.parties p).phase = .wakeAll e after →
      motive ((s.waitqWakeAll e).resume p after))
    (interrupted : ∀ p op stage, (s.parties p).phase = .sleep op stage →
      stage = .tested ∨ stage = .unlinked → motive (s.interrupted p op))
    (linking : ∀ p op, (s.parties p).phase = .sleep op .tested →
      motive (s.setPhase p (.sleep op .linking)))
    (link : ∀ p op, (s.parties p).phase = .sleep op .linking →
      motive ((s.setQueue op.queue (p :: s.pipe.queue op.queue)).setPhase p (.sleep op .linked)))
    (block : ∀ p op, (s.parties p).phase = .sleep op .linked →
      motive (s.setParty p { s.parties p with phase := .sleep op .asleep, blocked := true }))
    (resume : ∀ p op, (s.parties p).phase = .sleep op .asleep → (s.parties p).blocked = false →
      motive (s.setPhase p (.sleep op .woken)))
    (unlink : ∀ p op, (s.parties p).phase = .sleep op .woken →
      motive ((s.setQueue op.queue ((s.pipe.queue op.queue).erase p)).setPhase p
        (.sleep op .unlinked)))
    (again : ∀ p op, (s.parties p).phase = .sleep op .unlinked → motive (s.setPhase p (.test op))) :
    motive t := by
  cases call with
  | read p e count =>
    obtain ⟨hok, rfl⟩ := of_guard hstep
    exact read p e count hok.1 hok.2
  | write p e data =>
    obtain ⟨hok, rfl⟩ := of_guard hstep
    exact write p e data hok.1 hok.2.1
  | dup p e q =>
    obtain ⟨hok, rfl⟩ := of_guard hstep
    exact dup p e q hok.1
  | close p e =>
    obtain ⟨hok, rfl⟩ := of_guard hstep
    exact close p e rfl hok.1 hok.2
  | signal p pending => exact some.inj hstep ▸ signal p _
  | handle p =>
    obtain ⟨hok, rfl⟩ := of_guard hstep
    exact handle p hok
  | step p =>
    rw [pipeStep, PipeSys.partyStep] at hstep
    split at hstep
    · cases hstep
    · rename_i count hphase
      exact some.inj hstep ▸ readTest p count rfl hphase
    · rename_i id data written hphase
      exact some.inj hstep ▸ writeTest p id data written hphase
    · rename_i id data written hphase
      exact some.inj hstep ▸ writeCopy p id data written rfl hphase
    · rename_i e after hphase
      exact some.inj hstep ▸ wake p e after rfl hphase
    · rename_i op stage hphase
      cases stage with
      | tested =>
        cases hstep
        split
        · exact interrupted p op .tested hphase (.inl rfl)
        · exact linking p op hphase
      | linking => exact some.inj hstep ▸ link p op hphase
      | linked => exact some.inj hstep ▸ block p op hphase
      | asleep =>
        rw [PipeSys.sleepStep, ite_none_left_eq_some] at hstep
        exact some.inj hstep.2 ▸ resume p op hphase (Bool.eq_false_iff.mpr hstep.1)
      | woken => exact some.inj hstep ▸ unlink p op hphase
      | unlinked =>
        cases hstep
        split
        · exact interrupted p op .unlinked hphase (.inr rfl)
        · exact again p op hphase

end ArcKernel.Uipc
