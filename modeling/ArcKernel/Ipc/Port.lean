import ArcKernel.Foundation.Ring
import ArcKernel.Ipc.Cspace

/-!
# IPC ports (`mk/vm/port.c`, `mk/include/port.h`)

A port holds a circular queue of messages, with the sender's task id of each
message in a second array, and a single pending-notification bit.  Both arrays
are `kmalloc` blocks that are re-laid out into blocks of twice the size when the
queue is full, up to `PORT_MAX_QUEUE_SIZE`.

The model keeps a queue slot as the source does: a send overwrites the message
id, the two lengths and the used prefixes of the two arrays of the slot, and
leaves the rest of the slot as it was.
-/

namespace ArcKernel.Ipc

open ArcKernel.Foundation

/-! ## Constants -/

def ipcDataSize : Nat := 64
def ipcDisposeMax : Nat := 4
def portWaitersMax : Nat := 8
def portMinQueueSize : Nat := 16
def portMaxQueueSize : Nat := 2048
def portMagic : Nat := 0x504F5254

def ipcOk : Int := 0
def ipcErrNoslot : Int := -1
def ipcErrFull : Int := -2
def ipcErrEmpty : Int := -3
def ipcErrInval : Int := -6

/-! ## Data model -/

/-- `ipc_dispose_t`: a capability the sender offers, named by its handle. -/
structure IpcDispose where
  type : Nat
  rights : Nat
  handle : Nat
  deriving Inhabited

/-- `ipc_msg_t`. -/
structure IpcMsg where
  msgId : Nat
  dataSize : Nat
  data : Vector UInt8 ipcDataSize
  ndispose : Nat
  dispose : Vector IpcDispose ipcDisposeMax
  deriving Inhabited

/-- `task_t`, as far as message passing reads it. -/
structure Task where
  taskId : Nat
  cspace : CSpace
  deriving Inhabited

/-- `ipc_port_t`.  `waiters` holds the first `waiter_count` cells of the C array. -/
structure IpcPort where
  magic : Nat
  refCount : Int
  queue : List IpcMsg
  queueSenders : List Nat
  queueSize : Nat
  queueHead : Nat
  queueTail : Nat
  queueCount : Nat
  pendingNotify : Bool
  waiters : List Nat
  deriving Inhabited

/-- `PORT_IS_VALID` of a non-null port. -/
def IpcPort.valid (p : IpcPort) : Bool := p.magic == portMagic

/-- The outcome of the two allocations of `port_create` and `port_grow_queue`. -/
structure QueueMem where
  queue : Option (Nat → IpcMsg)
  senders : Option (Nat → Nat)

/-! ## Creation -/

/-- The port `port_create` publishes once its three allocations and its table
slot were found; the two queue blocks are not cleared. -/
def portFresh (queue : Nat → IpcMsg) (senders : Nat → Nat) : IpcPort where
  magic := portMagic
  refCount := 1
  queue := (List.range portMinQueueSize).map queue
  queueSenders := (List.range portMinQueueSize).map senders
  queueSize := portMinQueueSize
  queueHead := 0
  queueTail := 0
  queueCount := 0
  pendingNotify := false
  waiters := []

/-! ## The queue -/

/-- Queue cell `i`. -/
def IpcPort.cell (p : IpcPort) (i : Nat) : IpcMsg := p.queue.getD i default

/-- Sender cell `i`. -/
def IpcPort.senderCell (p : IpcPort) (i : Nat) : Nat := p.queueSenders.getD i 0

/-- `port_grow_queue`: the messages are copied in queue order to the start of the
new blocks. -/
def portGrowQueue (p : IpcPort) (mem : QueueMem) : Option IpcPort :=
  let newSize := if p.queueSize < portMinQueueSize then portMinQueueSize else p.queueSize * 2
  if newSize > portMaxQueueSize then none
  else
    match mem.queue with
    | none => none
    | some freshQueue =>
        match mem.senders with
        | none => none
        | some freshSenders =>
            let src := fun i => (p.queueHead + i) % p.queueSize
            some { p with
              queue := (List.range newSize).map fun i =>
                if i < p.queueCount then p.cell (src i) else freshQueue i
              queueSenders := (List.range newSize).map fun i =>
                if i < p.queueCount then p.senderCell (src i) else freshSenders i
              queueSize := newSize
              queueHead := 0
              queueTail := p.queueCount }

/-! ## Waiters -/

/-- `port_wait_register_locked`. -/
def portWaitRegisterLocked (p : IpcPort) (tid : Nat) : IpcPort :=
  if tid ∈ p.waiters then p
  else if p.waiters.length ≥ portWaitersMax then p
  else { p with waiters := p.waiters ++ [tid] }

/-- `port_wake_all_locked`: the threads to unblock are the registered ones. -/
def portWakeAllLocked (p : IpcPort) : IpcPort := { p with waiters := [] }

/-! ## Send -/

/-- One turn of the loop of `validate_dispose`: the snapshot of the slot that
makes the descriptor acceptable. -/
def validateDescriptor (sender : Task) (d : IpcDispose) : Option CSlot :=
  if handleTaskId d.handle ≠ sender.taskId then none
  else
    match cspaceLookupSnapshot sender.cspace (handleSlot d.handle) with
    | none => none
    | some snap => if snap.inUse && snap.type == d.type then some snap else none

/-- The descriptors of a message that are in use. -/
def IpcMsg.descriptors (m : IpcMsg) : List IpcDispose := m.dispose.toList.take m.ndispose

/-- `validate_dispose`. -/
def validateDispose (sender : Option Task) (msg : IpcMsg) : Bool :=
  if msg.ndispose = 0 then true
  else
    match sender with
    | none => false
    | some t =>
        if msg.ndispose > ipcDisposeMax then false
        else msg.descriptors.all fun d => (validateDescriptor t d).isSome

/-- The task id recorded with a message. -/
def senderId : Option Task → Nat
  | none => 0
  | some t => t.taskId

/-- The part of `port_send` that fills the tail slot, for a queue with room. -/
def portEnqueue (p : IpcPort) (msg : IpcMsg) (sender : Option Task) : IpcPort :=
  let slot := p.cell p.queueTail
  let dataSize := if msg.dataSize > ipcDataSize then ipcDataSize else msg.dataSize
  let ndispose := if msg.ndispose > ipcDisposeMax then ipcDisposeMax else msg.ndispose
  let filled : IpcMsg := {
    msgId := msg.msgId
    dataSize := dataSize
    data := copyPrefix slot.data msg.data dataSize
    ndispose := ndispose
    dispose := copyPrefix slot.dispose msg.dispose ndispose }
  portWakeAllLocked { p with
    queue := p.queue.set p.queueTail filled
    queueSenders := p.queueSenders.set p.queueTail (senderId sender)
    queueTail := (p.queueTail + 1) % p.queueSize
    queueCount := p.queueCount + 1 }

/-- The part of `port_send` under the port's lock. -/
def portSendLocked (p : IpcPort) (msg : IpcMsg) (sender : Option Task) (mem : QueueMem) :
    Int × IpcPort :=
  if p.queueCount ≥ p.queueSize then
    match portGrowQueue p mem with
    | none => (ipcErrFull, p)
    | some grown => (ipcOk, portEnqueue grown msg sender)
  else (ipcOk, portEnqueue p msg sender)

/-- `port_send`. -/
def portSend (p : IpcPort) (msg : IpcMsg) (sender : Option Task) (mem : QueueMem) :
    Int × IpcPort :=
  if !p.valid then (ipcErrNoslot, p)
  else if !validateDispose sender msg then (ipcErrInval, p)
  else portSendLocked p msg sender mem

/-! ## Receive -/

/-- What `port_recv` hands to its caller.  A message comes with the recorded
sender, from which `deliver_dispose` resolves the source of its capabilities. -/
inductive RecvResult where
  | noslot
  | empty
  | notification (buf : IpcMsg)
  | message (buf : IpcMsg) (sender : Nat)

/-- The return code of a receive. -/
def RecvResult.code : RecvResult → Int
  | .noslot => ipcErrNoslot
  | .empty => ipcErrEmpty
  | .notification _ => ipcOk
  | .message _ _ => ipcOk

/-- The dequeuing part of `port_recv`, for a queue that is not empty. -/
def portDequeue (p : IpcPort) (buf : IpcMsg) : RecvResult × IpcPort :=
  let slot := p.cell p.queueHead
  (.message {
      msgId := slot.msgId
      dataSize := slot.dataSize
      data := copyPrefix buf.data slot.data slot.dataSize
      ndispose := slot.ndispose
      dispose := copyPrefix buf.dispose slot.dispose slot.ndispose }
    (p.senderCell p.queueHead),
    { p with
      queueHead := (p.queueHead + 1) % p.queueSize
      queueCount := p.queueCount - 1 })

/-- `port_recv` up to the delivery of capabilities.  `cur` is the thread that
would be parked; without one the caller just retries. -/
def portRecv (p : IpcPort) (buf : IpcMsg) (cur : Option Nat) : RecvResult × IpcPort :=
  if !p.valid then (.noslot, p)
  else if p.queueCount = 0 then
    if p.pendingNotify then
      (.notification { buf with msgId := 0, dataSize := 0, ndispose := 0 },
        { p with pendingNotify := false })
    else
      match cur with
      | none => (.empty, p)
      | some tid => (.empty, portWaitRegisterLocked p tid)
  else portDequeue p buf

/-! ## Notify -/

/-- `port_notify`. -/
def portNotify (p : IpcPort) : Int × IpcPort :=
  if !p.valid then (ipcErrNoslot, p)
  else (ipcOk, portWakeAllLocked { p with pendingNotify := true })

end ArcKernel.Ipc
