import ArcKernel.Foundation.Run

/-!
# I/O channels (`mk/vm/io_channel.c`, `mk/include/io_channel.h`)

A kernel thread queues a request in the ring of a channel, parks itself and polls its
ring entry.  A user-space driver fetches requests from the head of the ring and
completes them by request id, in any order.  The ring index of a request is free
again once the request has been fetched.

Each lock section is one step, and so is each access outside the lock: the test of
the count before a request is queued, the polls and the two reads of the waiting
thread, the copy of a fetched request to the driver, the wake-up after a completion.

Requests are numbered from 1 in the order they are queued; the request id is this
number modulo `2 ^ 64`.  The number in an entry and the records of what was completed
and returned are read by no step.
-/

namespace ArcKernel.Io

open ArcKernel.Foundation Function

/-! ## Data model -/

def ioReqMaxArg : Nat := 4
def ioChannelQueueDepth : Nat := 16

/-- `struct io_request`. -/
structure IoRequest where
  requestId : UInt64
  opcode : UInt32
  flags : UInt32
  arg : Vector UInt64 ioReqMaxArg
  bufPhys : UInt64
  bufSize : UInt64
  deriving Inhabited

/-- `struct io_channel_entry`, with the number of the request it was last filled
with, 0 for none. -/
structure IoChannelEntry where
  req : IoRequest
  completed : Bool
  result : Int
  waitingTid : UInt32
  number : Nat
  deriving Inhabited

/-- `io_channel_t`, without name, owner and lock. -/
structure IoChannel where
  queue : List IoChannelEntry
  head : Nat
  tail : Nat
  count : Nat
  nextSeq : UInt64

/-- What a thread in `io_channel_request` keeps: the caller's request, the ring slot
and the number of the request. -/
structure Ticket where
  number : Nat
  slot : Nat
  req : IoRequest

/-- Where a thread is in `io_channel_request`: past the test of the count, polling its
entry, past the loop, and with the request id it has read back. -/
inductive IoPc where
  | idle
  | checked (req : IoRequest)
  | waiting (tk : Ticket)
  | leaving (tk : Ticket)
  | reported (tk : Ticket) (requestId : UInt64)

/-- The ticket of a thread whose request is queued and has not returned. -/
def IoPc.ticket? : IoPc → Option Ticket
  | .idle => none
  | .checked _ => none
  | .waiting tk => some tk
  | .leaving tk => some tk
  | .reported tk _ => some tk

/-- How the request with this number ended: the request id the driver completed it
under, or the one written back to the caller, and the result. -/
structure Outcome where
  number : Nat
  requestId : UInt64
  result : Int

/-- `parked` says which threads are blocked; `wakes` are the threads a completion is
about to unblock; `copying` are the slots of fetched requests that are not copied to
the driver yet, and `fetched` the requests copied. -/
structure IoSys where
  ch : IoChannel
  pc : UInt32 → IoPc
  parked : UInt32 → Bool
  wakes : List UInt32
  copying : List Nat
  fetched : List IoRequest
  nextNumber : Nat
  completions : List Outcome
  returned : List Outcome

def IoSys.cell (s : IoSys) (i : Nat) : IoChannelEntry := s.ch.queue.getD i default

def IoSys.goto (s : IoSys) (tid : UInt32) (pc : IoPc) : IoSys := { s with pc := update s.pc tid pc }

/-! ## The channel's functions -/

/-- `io_channel_create`: the entries are cleared, so none of them is completed. -/
def ioChannelCreate : IoChannel where
  queue :=
    List.replicate ioChannelQueueDepth ⟨⟨0, 0, 0, Vector.replicate _ 0, 0, 0⟩, false, 0, 0, 0⟩
  head := 0
  tail := 0
  count := 0
  nextSeq := 1

/-- The part of `io_channel_request` under the channel's lock. -/
def ioChannelEnqueue (ch : IoChannel) (req : IoRequest) (tid : UInt32) (number : Nat) : IoChannel :=
  { ch with
    queue := ch.queue.set ch.tail ⟨{ req with requestId := ch.nextSeq }, false, 0, tid, number⟩
    tail := (ch.tail + 1) % ioChannelQueueDepth
    count := ch.count + 1
    nextSeq := ch.nextSeq + 1 }

/-- The part of `io_channel_get_request` under the lock: the slot it takes. -/
def ioChannelGetRequest (ch : IoChannel) : Option (Nat × IoChannel) :=
  if ch.count = 0 then none
  else
    some (ch.head, { ch with
      head := (ch.head + 1) % ioChannelQueueDepth
      count := ch.count - 1 })

/-- The scan of `io_channel_complete`. -/
def ioChannelFind (queue : List IoChannelEntry) (requestId : UInt64) : Option Nat :=
  queue.findIdx? fun e => !e.completed && e.req.requestId == requestId

/-- What `io_channel_complete` writes into the entry it found. -/
def IoChannelEntry.complete (e : IoChannelEntry) (result : Int) : IoChannelEntry :=
  { e with result := result, completed := true, waitingTid := 0 }

/-! ## Steps -/

/-- `check`, `enqueue`, `poll`, `report` and `ret` are the steps of a thread in
`io_channel_request`.  `getRequest` and `copyRequest` are the driver's
`io_channel_get_request`, `complete` and `wake` its `io_channel_complete`. -/
inductive IoStep where
  | check (tid : UInt32) (req : IoRequest)
  | enqueue (tid : UInt32)
  | poll (tid : UInt32)
  | report (tid : UInt32)
  | ret (tid : UInt32)
  | getRequest
  | copyRequest (slot : Nat) (ok : Bool)
  | complete (requestId : UInt64) (result : Int)
  | wake (tid : UInt32)

/-- One step.  A parked thread may still poll: on x86 it runs until its first yield,
on arm64 until the next timer tick.  Thread 0 is the idle thread, which the scheduler
does not park. -/
def ioStep (s : IoSys) : IoStep → Option IoSys
  | .check tid req =>
      match s.pc tid with
      | .idle =>
          if s.ch.count ≥ ioChannelQueueDepth then some s else some (s.goto tid (.checked req))
      | _ => none
  | .enqueue tid =>
      match s.pc tid with
      | .checked req =>
          some { s.goto tid (.waiting ⟨s.nextNumber, s.ch.tail, req⟩) with
            ch := ioChannelEnqueue s.ch req tid s.nextNumber
            parked := update s.parked tid (tid != 0)
            nextNumber := s.nextNumber + 1 }
      | _ => none
  | .poll tid =>
      match s.pc tid with
      | .waiting tk =>
          if (s.cell tk.slot).completed then
            some { s.goto tid (.leaving tk) with parked := update s.parked tid false }
          else some s
      | _ => none
  | .report tid =>
      match s.pc tid with
      | .leaving tk => some (s.goto tid (.reported tk (s.cell tk.slot).req.requestId))
      | _ => none
  | .ret tid =>
      match s.pc tid with
      | .reported tk requestId =>
          some { s.goto tid .idle with
            returned := s.returned ++ [⟨tk.number, requestId, (s.cell tk.slot).result⟩] }
      | _ => none
  | .getRequest =>
      match ioChannelGetRequest s.ch with
      | none => some s
      | some (slot, ch) => some { s with ch := ch, copying := s.copying ++ [slot] }
  | .copyRequest slot ok =>
      if slot ∈ s.copying then
        some { s with
          copying := s.copying.erase slot
          fetched := if ok then s.fetched ++ [(s.cell slot).req] else s.fetched }
      else none
  | .complete requestId result =>
      match ioChannelFind s.ch.queue requestId with
      | none => some s
      | some i =>
          let entry := s.cell i
          some { s with
            ch := { s.ch with queue := s.ch.queue.set i (entry.complete result) }
            wakes := if entry.waitingTid = 0 then s.wakes else s.wakes ++ [entry.waitingTid]
            completions := s.completions ++ [⟨entry.number, requestId, result⟩] }
  | .wake tid =>
      if tid ∈ s.wakes then
        some { s with
          wakes := s.wakes.erase tid
          parked := update s.parked tid false }
      else none

def ioStart : IoSys where
  ch := ioChannelCreate
  pc := fun _ => .idle
  parked := fun _ => false
  wakes := []
  copying := []
  fetched := []
  nextNumber := 1
  completions := []
  returned := []

end ArcKernel.Io
