import ArcKernel.Ipc.PortFifo

/-!
# Capability transfer between tasks (`mk/vm/port.c`)

A message may offer capabilities to its receiver.  `port_send` looks every
offered slot up in the sender's C-space (`validate_dispose`), `port_recv` looks
it up again and moves it (`deliver_dispose`).  Each lookup, the enqueuing, the
dequeuing and each move is one lock section, and any other thread may run
between two of them; the steps below are exactly these sections.

Nothing reserves an offered slot between the two lookups.  Records that the code
does not have are kept beside the state: what each offered slot held when it was
validated and how often it had been filled by then, and what each delivery
installed.  No step reads them.
-/

namespace ArcKernel.Ipc

open ArcKernel.Foundation Function

/-! ## State -/

/-- An offered capability: the descriptor, and the record of what the slot it
names held when it was validated.  `gen` counts the fillings of that slot, so it
tells a capability from an equal one placed there later. -/
structure Offer where
  sender : Nat
  desc : IpcDispose
  cap : CSlot
  gen : Nat

/-- The slot number an offer names. -/
def Offer.slot (o : Offer) : Int := handleSlot o.desc.handle

/-- A capability installed by a delivery. -/
structure Install where
  offer : Offer
  receiver : Nat
  dstSlot : Nat
  cap : CSlot
  gen : Nat

/-- Where a thread is between two lock sections.

* `sending`: in `port_send`, with the descriptors still to validate; once there
  are none left it goes on to the section under the port's lock.
* `received`: in `port_recv`, before `task_find_hold`.
* `delivering`: in the loop of `deliver_dispose`, holding `task_lock`.
* `checked`: in that loop, between the type check and `cspace_move`. -/
inductive TransferPc where
  | idle
  | sending (port : Nat) (msg : IpcMsg) (done : List Offer) (rest : List IpcDispose)
  | received (sender : Nat) (rest : List Offer)
  | delivering (sender : Nat) (rest : List Offer)
  | checked (offer : Offer) (rest : List Offer)

/-- Tasks, ports and threads are named by numbers. -/
structure TransferState where
  spaces : Nat → CSpace
  linked : Nat → Bool
  taskLock : Option Nat
  ports : Nat → IpcPort
  threads : Nat → TransferPc
  fills : Nat → Nat → Nat
  queued : Nat → List (List Offer)
  installed : List Install

/-- One lock section of one thread, or one call of any thread of a task on its
own C-space. -/
inductive TransferLabel where
  | send (tid port : Nat) (msg : IpcMsg)
  | validate (tid : Nat)
  | enqueue (tid : Nat) (mem : QueueMem)
  | recv (tid port : Nat) (buf : IpcMsg)
  | hold (tid : Nat)
  | check (tid : Nat)
  | move (tid : Nat) (mem : GrowMem)
  | finish (tid : Nat)
  | alloc (task type rights objectId : Nat) (mem : GrowMem)
  | free (task : Nat) (slot : Int)
  | exit (task : Nat)

/-! ## Steps -/

def TransferState.goto (s : TransferState) (tid : Nat) (pc : TransferPc) : TransferState :=
  { s with threads := update s.threads tid pc }

/-- Descriptors with the records made when they were validated. -/
def withOffers : List IpcDispose → List Offer → List Offer
  | [], _ => []
  | d :: ds, os => { os.headD ⟨0, d, CSlot.zero, 0⟩ with desc := d } :: withOffers ds os.tail

/-- One more filling of a slot. -/
def recordFill (fills : Nat → Nat → Nat) (task : Nat) : Option Nat → Nat → Nat → Nat
  | none => fills
  | some i => update fills task (update (fills task) i (fills task i + 1))

section Step

-- `thread_current()->task` of each thread
variable (owner : Nat → Option Nat)

/-- The sender of a message, as `port_send` receives it. -/
def TransferState.sender (s : TransferState) (tid : Nat) : Option Task :=
  (owner tid).map fun t => ⟨t, s.spaces t⟩

/-- `port_send` up to the loop of `validate_dispose`. -/
def sendStep (s : TransferState) (tid port : Nat) (msg : IpcMsg) : Option TransferState :=
  match s.threads tid with
  | .idle =>
      if msg.ndispose = 0 then some (s.goto tid (.sending port msg [] []))
      else
        match owner tid with
        | none => some s
        | some _ =>
            if msg.ndispose > ipcDisposeMax then some s
            else some (s.goto tid (.sending port msg [] msg.descriptors))
  | _ => none

/-- One turn of the loop of `validate_dispose`; a failure ends the send. -/
def validateStep (s : TransferState) (tid : Nat) : Option TransferState :=
  match s.threads tid, owner tid with
  | .sending port msg done (d :: rest), some t =>
      match validateDescriptor ⟨t, s.spaces t⟩ d with
      | none => some (s.goto tid .idle)
      | some snap =>
          let offer : Offer := ⟨t, d, snap, s.fills t (handleSlot d.handle).toNat⟩
          some (s.goto tid (.sending port msg (done ++ [offer]) rest))
  | _, _ => none

/-- The section of `port_send` under the port's lock. -/
def enqueueStep (s : TransferState) (tid : Nat) (mem : QueueMem) : Option TransferState :=
  match s.threads tid with
  | .sending port msg done [] =>
      let (code, p) := portSendLocked (s.ports port) msg (s.sender owner tid) mem
      some { s.goto tid .idle with
          ports := update s.ports port p
          queued := update s.queued port
            (if code = ipcOk then s.queued port ++ [done] else s.queued port) }
  | _ => none

/-- The section of `port_recv` under the port's lock, and the two tests before
the capabilities are delivered. -/
def recvStep (s : TransferState) (tid port : Nat) (buf : IpcMsg) : Option TransferState :=
  match s.threads tid with
  | .idle =>
      let (result, p) := portRecv (s.ports port) buf (some tid)
      let s' := { s with ports := update s.ports port p }
      match result with
      | .message msg sender =>
          let offers := withOffers msg.descriptors ((s.queued port).headD [])
          let s'' := { s' with queued := update s.queued port (s.queued port).tail }
          if (owner tid).isSome ∧ msg.ndispose > 0 ∧ sender ≠ 0 then
            some (s''.goto tid (.received sender offers))
          else some s''
      | _ => some s'
  | _ => none

/-- `task_find_hold`: a sender that is gone ends the delivery. -/
def holdStep (s : TransferState) (tid : Nat) : Option TransferState :=
  match s.threads tid, s.taskLock with
  | .received sender rest, none =>
      if s.linked sender then
        some { s.goto tid (.delivering sender rest) with taskLock := some tid }
      else some (s.goto tid .idle)
  | _, _ => none

/-- The tests of one turn of the loop of `deliver_dispose`. -/
def checkStep (s : TransferState) (tid : Nat) : Option TransferState :=
  match s.threads tid with
  | .delivering sender (o :: rest) =>
      if handleTaskId o.desc.handle ≠ sender then some (s.goto tid (.delivering sender rest))
      else
        match cspaceLookupSnapshot (s.spaces sender) o.slot with
        | none => some (s.goto tid (.delivering sender rest))
        | some snap =>
            if snap.type ≠ o.desc.type then some (s.goto tid (.delivering sender rest))
            else some (s.goto tid (.checked { o with sender := sender } rest))
  | _ => none

/-- `cspace_move` of a checked offer.  Moving within one space takes the space's
lock twice and never returns, so it has no step. -/
def moveStep (s : TransferState) (tid : Nat) (mem : GrowMem) : Option TransferState :=
  match s.threads tid, owner tid with
  | .checked o rest, some receiver =>
      if o.sender = receiver then none
      else
        let src := s.spaces o.sender
        let (res, src', dst') := cspaceMove src (s.spaces receiver) o.slot mem
        let moved : List Install :=
          match res with
          | none => []
          | some i => [⟨o, receiver, i, src.slot o.slot.toNat, s.fills o.sender o.slot.toNat⟩]
        some { s.goto tid (.delivering o.sender rest) with
            spaces := update (update s.spaces o.sender src') receiver dst'
            fills := recordFill s.fills receiver res
            installed := s.installed ++ moved }
  | _, _ => none

/-- The end of the loop of `deliver_dispose`, and `task_put`. -/
def finishStep (s : TransferState) (tid : Nat) : Option TransferState :=
  match s.threads tid with
  | .delivering _ [] => some { s.goto tid .idle with taskLock := none }
  | _ => none

/-- One lock section. -/
def transferStep (s : TransferState) : TransferLabel → Option TransferState
  | .send tid port msg => sendStep owner s tid port msg
  | .validate tid => validateStep owner s tid
  | .enqueue tid mem => enqueueStep owner s tid mem
  | .recv tid port buf => recvStep owner s tid port buf
  | .hold tid => holdStep s tid
  | .check tid => checkStep s tid
  | .move tid mem => moveStep owner s tid mem
  | .finish tid => finishStep s tid
  | .alloc task type rights objectId mem =>
      let (res, cs) := cspaceAllocSlot (s.spaces task) type rights objectId mem
      some { s with
        spaces := update s.spaces task cs
        fills := recordFill s.fills task res }
  | .free task slot =>
      let (_, cs) := cspaceFreeSlot (s.spaces task) slot
      some { s with spaces := update s.spaces task cs }
  | .exit task =>
      match s.taskLock with
      | none => some { s with linked := update s.linked task false }
      | some _ => none

end Step

end ArcKernel.Ipc
