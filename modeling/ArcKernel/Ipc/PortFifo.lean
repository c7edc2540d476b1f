import ArcKernel.Foundation.Run
import ArcKernel.Ipc.Port

/-!
# A port is a FIFO queue with a coalescing notification bit

The abstract port is a list of payloads, oldest first, and one flag.  A payload
is what the protocol promises to carry: the message id, the data prefix, the
transfer descriptors in use and the sender recorded by the kernel.  The ring of
`port.c` refines it: `IpcPort.contents` reads the list off the ring, and each
operation has one lemma saying what it does to the list.
-/

namespace ArcKernel.Ipc

open ArcKernel.Foundation List IpcPort RecvResult

variable {p : IpcPort}

/-! ## The abstract queue -/

/-- What one message carries. -/
structure Payload where
  msgId : Nat
  data : List UInt8
  dispose : List IpcDispose
  sender : Nat

/-- The payload of a message buffer and a recorded sender. -/
def IpcMsg.payload (m : IpcMsg) (sender : Nat) : Payload :=
  ⟨m.msgId, m.data.toList.take m.dataSize, m.descriptors, sender⟩

/-- The queue a port stands for, oldest message first. -/
def IpcPort.contents (p : IpcPort) : List Payload :=
  ringView (fun i => (p.cell i).payload (p.senderCell i)) p.queueSize p.queueHead p.queueCount

/-- The representation invariant of a live port's ring. -/
structure IpcPort.WellFormed (p : IpcPort) : Prop where
  magic_eq : p.magic = portMagic
  min_size : portMinQueueSize ≤ p.queueSize
  queue_length : p.queue.length = p.queueSize
  senders_length : p.queueSenders.length = p.queueSize
  head_lt : p.queueHead < p.queueSize
  count_le : p.queueCount ≤ p.queueSize
  tail_eq : p.queueTail = (p.queueHead + p.queueCount) % p.queueSize

theorem IpcPort.WellFormed.valid (h : p.WellFormed) : p.valid = true := by
  simp [IpcPort.valid, h.magic_eq]

theorem IpcPort.WellFormed.size_pos (h : p.WellFormed) : 0 < p.queueSize := by
  have := h.min_size
  simp only [portMinQueueSize] at this
  omega

theorem portFresh_wellFormed (queue : Nat → IpcMsg) (senders : Nat → Nat) :
    (portFresh queue senders).WellFormed where
  magic_eq := rfl
  min_size := le_refl _
  queue_length := by simp [portFresh]
  senders_length := by simp [portFresh]
  head_lt := by simp [portFresh, portMinQueueSize]
  count_le := by simp [portFresh]
  tail_eq := by simp [portFresh]

theorem portFresh_contents (queue : Nat → IpcMsg) (senders : Nat → Nat) :
    (portFresh queue senders).contents = [] := rfl

/-! ## Growth -/

/-- Re-laying the ring out keeps the queue, whatever the head position was. -/
theorem portGrowQueue_spec {grown : IpcPort} {mem : QueueMem} (hp : p.WellFormed)
    (h : portGrowQueue p mem = some grown) :
    grown.WellFormed ∧ grown.contents = p.contents ∧ grown.queueCount < grown.queueSize ∧
      grown.pendingNotify = p.pendingNotify := by
  have hmin := hp.min_size
  have hpos := hp.size_pos
  have hcount := hp.count_le
  unfold portGrowQueue at h
  simp only [if_neg (Nat.not_lt.mpr hmin)] at h
  split at h
  · simp at h
  split at h
  · simp at h
  split at h
  · simp at h
  cases h
  refine ⟨?_, ?_, by simp only; omega, rfl⟩
  · constructor
    · exact hp.magic_eq
    · simp only; omega
    · simp
    · simp
    · simp only; omega
    · simp only; omega
    · simp only [Nat.zero_add]
      rw [Nat.mod_eq_of_lt (by omega)]
  · show ringView _ (p.queueSize * 2) 0 p.queueCount = _
    apply ringView_linearise (by omega)
    intro i hi
    have hlt : i < p.queueSize * 2 := by omega
    simp [cell, senderCell, getD_eq_getElem?_getD, hlt, hi]

/-! ## Send -/

/-- The payload a message has once its lengths are clamped. -/
def clampedPayload (msg : IpcMsg) (sender : Option Task) : Payload :=
  ⟨msg.msgId, msg.data.toList.take (min msg.dataSize ipcDataSize),
    msg.dispose.toList.take (min msg.ndispose ipcDisposeMax), senderId sender⟩

section

variable (msg : IpcMsg) (sender : Option Task)

theorem portEnqueue_spec (hp : p.WellFormed) (hroom : p.queueCount < p.queueSize) :
    (portEnqueue p msg sender).WellFormed ∧
      (portEnqueue p msg sender).contents = p.contents ++ [clampedPayload msg sender] ∧
      (portEnqueue p msg sender).pendingNotify = p.pendingNotify := by
  have hpos := hp.size_pos
  have htail : p.queueTail < p.queueSize := by
    rw [hp.tail_eq]
    exact Nat.mod_lt _ hpos
  refine ⟨?_, ?_, rfl⟩
  · constructor
    · exact hp.magic_eq
    · exact hp.min_size
    · simpa [portEnqueue, portWakeAllLocked] using hp.queue_length
    · simpa [portEnqueue, portWakeAllLocked] using hp.senders_length
    · exact hp.head_lt
    · exact hroom
    · show (p.queueTail + 1) % p.queueSize = (p.queueHead + (p.queueCount + 1)) % p.queueSize
      rw [hp.tail_eq, Nat.mod_add_mod, Nat.add_assoc]
  · show ringView _ p.queueSize p.queueHead (p.queueCount + 1) = _
    apply ringView_push hroom
    · -- the tail cell holds the clamped copy of the message
      have hqueue : p.queueTail < p.queue.length := by rw [hp.queue_length]; exact htail
      have hsenders : p.queueTail < p.queueSenders.length := by rw [hp.senders_length]; exact htail
      rw [← hp.tail_eq]
      have hcell : (portEnqueue p msg sender).cell p.queueTail =
          { msgId := msg.msgId
            dataSize := min msg.dataSize ipcDataSize
            data := copyPrefix (p.cell p.queueTail).data msg.data (min msg.dataSize ipcDataSize)
            ndispose := min msg.ndispose ipcDisposeMax
            dispose := copyPrefix (p.cell p.queueTail).dispose msg.dispose
              (min msg.ndispose ipcDisposeMax) } := by
        have hd : (if msg.dataSize > ipcDataSize then ipcDataSize else msg.dataSize) =
            min msg.dataSize ipcDataSize := by split <;> omega
        have hn : (if msg.ndispose > ipcDisposeMax then ipcDisposeMax else msg.ndispose) =
            min msg.ndispose ipcDisposeMax := by split <;> omega
        simp only [portEnqueue, portWakeAllLocked, hd, hn]
        simp [cell, getD_eq_getElem?_getD, hqueue]
      have hsender : (portEnqueue p msg sender).senderCell p.queueTail = senderId sender := by
        simp [portEnqueue, portWakeAllLocked, senderCell, getD_eq_getElem?_getD, hsenders]
      simp only [hcell, hsender, IpcMsg.payload, IpcMsg.descriptors, take_copyPrefix,
        clampedPayload]
    · intro i hi
      rw [← hp.tail_eq] at hi
      have hcell : (portEnqueue p msg sender).cell i = p.cell i := by
        simp [portEnqueue, portWakeAllLocked, cell, getD_eq_getElem?_getD, Ne.symm hi]
      have hsender : (portEnqueue p msg sender).senderCell i = p.senderCell i := by
        simp [portEnqueue, portWakeAllLocked, senderCell, getD_eq_getElem?_getD, Ne.symm hi]
      simp only [hcell, hsender]

/-- The section of a send under the lock appends the clamped payload, or fails
and changes nothing. -/
theorem portSendLocked_spec (mem : QueueMem) (hp : p.WellFormed) :
    ((portSendLocked p msg sender mem).1 ≠ ipcOk ∧ (portSendLocked p msg sender mem).2 = p) ∨
    ((portSendLocked p msg sender mem).1 = ipcOk ∧
      (portSendLocked p msg sender mem).2.WellFormed ∧
      (portSendLocked p msg sender mem).2.contents =
        p.contents ++ [clampedPayload msg sender] ∧
      (portSendLocked p msg sender mem).2.pendingNotify = p.pendingNotify) := by
  unfold portSendLocked
  split
  · split
    · left
      exact ⟨by simp [ipcErrFull, ipcOk], rfl⟩
    · rename_i grown hgrow
      right
      obtain ⟨hwf, hcontents, hroom, hnotify⟩ := portGrowQueue_spec hp hgrow
      obtain ⟨hwf', hcontents', hnotify'⟩ := portEnqueue_spec msg sender hwf hroom
      exact ⟨rfl, hwf', by rw [hcontents', hcontents], by rw [hnotify', hnotify]⟩
  · right
    obtain ⟨hwf, hcontents, hnotify⟩ := portEnqueue_spec msg sender hp (by omega)
    exact ⟨rfl, hwf, hcontents, hnotify⟩

/-- A send appends the clamped payload, or changes nothing at all. -/
theorem portSend_spec (mem : QueueMem) (hp : p.WellFormed) :
    ((portSend p msg sender mem).1 ≠ ipcOk ∧ (portSend p msg sender mem).2 = p) ∨
    ((portSend p msg sender mem).1 = ipcOk ∧
      (portSend p msg sender mem).2.WellFormed ∧
      (portSend p msg sender mem).2.contents = p.contents ++ [clampedPayload msg sender] ∧
      (portSend p msg sender mem).2.pendingNotify = p.pendingNotify) := by
  unfold portSend
  rw [hp.valid]
  simp only [Bool.not_true, Bool.false_eq_true, if_false]
  split
  · left
    exact ⟨by simp [ipcErrInval, ipcOk], rfl⟩
  · exact portSendLocked_spec msg sender mem hp

end

/-! ## Receive -/

theorem portWaitRegisterLocked_spec (tid : Nat) (hp : p.WellFormed) :
    (portWaitRegisterLocked p tid).WellFormed ∧
      (portWaitRegisterLocked p tid).contents = p.contents ∧
      (portWaitRegisterLocked p tid).pendingNotify = p.pendingNotify := by
  unfold portWaitRegisterLocked
  split
  · exact ⟨hp, rfl, rfl⟩
  · split
    · exact ⟨hp, rfl, rfl⟩
    · exact ⟨{ hp with }, rfl, rfl⟩

/-- A receive returns the oldest message; from an empty queue it returns the
notification if one is pending, and nothing otherwise. -/
theorem portRecv_spec (buf : IpcMsg) (cur : Option Nat) (hp : p.WellFormed) :
    (portRecv p buf cur).2.WellFormed ∧
    match p.contents with
    | [] =>
        (portRecv p buf cur).2.contents = [] ∧
        (portRecv p buf cur).2.pendingNotify = false ∧
        if p.pendingNotify then ∃ buf', (portRecv p buf cur).1 = .notification buf'
        else (portRecv p buf cur).1 = .empty
    | x :: xs =>
        (portRecv p buf cur).2.contents = xs ∧
        (portRecv p buf cur).2.pendingNotify = p.pendingNotify ∧
        ∃ buf' sender, (portRecv p buf cur).1 = .message buf' sender ∧
          buf'.payload sender = x := by
  have hlen : p.contents.length = p.queueCount := length_ringView _ _ _ _
  unfold portRecv
  rw [hp.valid]
  simp only [Bool.not_true, Bool.false_eq_true, if_false]
  by_cases hcount : p.queueCount = 0
  · have hempty : p.contents = [] := length_eq_zero_iff.mp (by omega)
    simp only [if_pos hcount, hempty]
    by_cases hnotify : p.pendingNotify = true
    · simp only [if_pos hnotify]
      exact ⟨{ hp with }, hempty, trivial, _, rfl⟩
    simp only [if_neg hnotify]
    cases cur with
    | none => exact ⟨hp, hempty, by simpa using hnotify, rfl⟩
    | some tid =>
      obtain ⟨hwf, hcontents, hsame⟩ := portWaitRegisterLocked_spec tid hp
      exact ⟨hwf, by rw [hcontents, hempty], by rw [hsame]; simpa using hnotify, rfl⟩
  obtain ⟨n, hn⟩ := Nat.exists_eq_succ_of_ne_zero hcount
  simp only [if_neg hcount, portDequeue]
  have hpop : p.contents = (p.cell p.queueHead).payload (p.senderCell p.queueHead) ::
      ringView (fun i => (p.cell i).payload (p.senderCell i)) p.queueSize
        ((p.queueHead + 1) % p.queueSize) n := by
    rw [contents, hn, ringView_pop, Nat.mod_eq_of_lt hp.head_lt]
  rw [hpop]
  refine ⟨?_, ?_, trivial, _, _, rfl, ?_⟩
  · constructor
    · exact hp.magic_eq
    · exact hp.min_size
    · exact hp.queue_length
    · exact hp.senders_length
    · exact Nat.mod_lt _ hp.size_pos
    · have := hp.count_le
      simp only
      omega
    · show p.queueTail = ((p.queueHead + 1) % p.queueSize + (p.queueCount - 1)) % p.queueSize
      rw [hp.tail_eq, Nat.mod_add_mod]
      congr 1
      omega
  · rw [hn]
    rfl
  · simp only [IpcMsg.payload, IpcMsg.descriptors, take_copyPrefix]

theorem portNotify_spec (hp : p.WellFormed) :
    (portNotify p).2.WellFormed ∧ (portNotify p).2.contents = p.contents ∧
      (portNotify p).2.pendingNotify = true := by
  unfold portNotify
  rw [hp.valid]
  exact ⟨{ hp with }, rfl, rfl⟩

/-! ## Runs of one port -/

/-- A call on the port by some task, with everything the call depends on besides
the port: the message and the sender's C-space at that moment, the outcome of a
growth, the receiver's buffer and thread. -/
inductive PortCall where
  | send (msg : IpcMsg) (sender : Option Task) (mem : QueueMem)
  | recv (buf : IpcMsg) (cur : Option Nat)
  | notify

/-- What a call did, as its caller sees it. -/
inductive PortEvent where
  | sent (payload : Payload)
  | sendFailed (code : Int)
  | received (payload : Payload)
  | notification
  | recvFailed (code : Int)
  | notified

/-- A port with the history of the calls on it, oldest first. -/
structure PortState where
  port : IpcPort
  log : List PortEvent

/-- The event of a receive. -/
def RecvResult.event : RecvResult → PortEvent
  | .message buf sender => .received (buf.payload sender)
  | .notification _ => .notification
  | r => .recvFailed r.code

/-- One call.  The port stays registered, so every call finds it. -/
def portStep (s : PortState) : PortCall → Option PortState
  | .send msg sender mem =>
      let (code, port) := portSend s.port msg sender mem
      let event := if code = ipcOk then .sent (clampedPayload msg sender) else .sendFailed code
      some ⟨port, s.log ++ [event]⟩
  | .recv buf cur =>
      let (result, port) := portRecv s.port buf cur
      some ⟨port, s.log ++ [result.event]⟩
  | .notify => some ⟨(portNotify s.port).2, s.log ++ [.notified]⟩

/-- The payloads of the sends that returned success, in order. -/
def sentPayloads : List PortEvent → List Payload
  | [] => []
  | .sent x :: rest => x :: sentPayloads rest
  | _ :: rest => sentPayloads rest

/-- The payloads received, in order, notifications left out. -/
def receivedPayloads : List PortEvent → List Payload
  | [] => []
  | .received x :: rest => x :: receivedPayloads rest
  | _ :: rest => receivedPayloads rest

/-- Some notify happened after the last notification was received. -/
def NotifiedSince (log : List PortEvent) : Prop :=
  ∃ earlier later, log = earlier ++ .notified :: later ∧ .notification ∉ later

@[simp] theorem sentPayloads_append (a b : List PortEvent) :
    sentPayloads (a ++ b) = sentPayloads a ++ sentPayloads b := by
  induction a with
  | nil => rfl
  | cons e rest ih => cases e <;> simp [sentPayloads, ih]

@[simp] theorem receivedPayloads_append (a b : List PortEvent) :
    receivedPayloads (a ++ b) = receivedPayloads a ++ receivedPayloads b := by
  induction a with
  | nil => rfl
  | cons e rest ih => cases e <;> simp [receivedPayloads, ih]

theorem notifiedSince_nil : ¬ NotifiedSince [] := by
  rintro ⟨earlier, later, h, _⟩
  simp at h

theorem notifiedSince_snoc_notified (log : List PortEvent) : NotifiedSince (log ++ [.notified]) :=
  ⟨log, [], rfl, by simp⟩

theorem notifiedSince_snoc_notification (log : List PortEvent) :
    ¬ NotifiedSince (log ++ [.notification]) := by
  rintro ⟨earlier, later, h, hno⟩
  rcases eq_nil_or_concat later with rfl | ⟨later', last, rfl⟩
  · have := append_inj_right' h rfl
    simp at this
  have hlast : log ++ [PortEvent.notification] = (earlier ++ .notified :: later') ++ [last] := by
    rw [h]; simp
  have := append_inj_right' hlast rfl
  simp only [List.cons.injEq, and_true] at this
  apply hno
  rw [← this]
  simp

/-- Any other event leaves the question open as it was. -/
theorem notifiedSince_snoc_other {log : List PortEvent} {e : PortEvent} (hnotified : e ≠ .notified)
    (hnotification : e ≠ .notification) : NotifiedSince (log ++ [e]) ↔ NotifiedSince log := by
  constructor
  · rintro ⟨earlier, later, h, hno⟩
    rcases eq_nil_or_concat later with rfl | ⟨later', last, rfl⟩
    · have := append_inj_right' h rfl
      simp only [List.cons.injEq, and_true] at this
      exact absurd this hnotified
    · have hsplit : log ++ [e] = (earlier ++ .notified :: later') ++ [last] := by rw [h]; simp
      refine ⟨earlier, later', append_inj_left' hsplit rfl, ?_⟩
      intro hmem
      exact hno (by simp [hmem])
  · rintro ⟨earlier, later, rfl, hno⟩
    refine ⟨earlier, later ++ [e], by simp, ?_⟩
    simp [hno, Ne.symm hnotification]

/-- What holds of a port and its history after every call. -/
structure PortState.Refines (s : PortState) : Prop where
  wellFormed : s.port.WellFormed
  fifo : sentPayloads s.log = receivedPayloads s.log ++ s.port.contents
  pending_iff : s.port.pendingNotify = true ↔ NotifiedSince s.log

theorem portStep_refines {s t : PortState} {call : PortCall} (hs : s.Refines)
    (hstep : portStep s call = some t) : t.Refines := by
  cases call with
  | send msg sender mem =>
    simp only [portStep, Option.some.injEq] at hstep
    subst hstep
    rcases portSend_spec msg sender mem hs.wellFormed with
      ⟨hcode, hsame⟩ | ⟨hcode, hwf, hcontents, hnotify⟩
    · simp only [if_neg hcode, hsame]
      constructor
      · exact hs.wellFormed
      · simp [sentPayloads, receivedPayloads, hs.fifo]
      · rw [notifiedSince_snoc_other (by simp) (by simp)]
        exact hs.pending_iff
    · simp only [if_pos hcode]
      constructor
      · exact hwf
      · simp [sentPayloads, receivedPayloads, hs.fifo, hcontents]
      · rw [notifiedSince_snoc_other (by simp) (by simp)]
        simpa [hnotify] using hs.pending_iff
  | recv buf cur =>
    simp only [portStep, Option.some.injEq] at hstep
    subst hstep
    obtain ⟨hwf, hrecv⟩ := portRecv_spec buf cur hs.wellFormed
    cases hcontents : s.port.contents with
    | nil =>
      rw [hcontents] at hrecv
      obtain ⟨hafter, hpending, hresult⟩ := hrecv
      have hfifo := hs.fifo
      rw [hcontents] at hfifo
      by_cases hnotify : s.port.pendingNotify = true
      · simp only [hnotify, if_true] at hresult
        obtain ⟨buf', hresult⟩ := hresult
        constructor
        · exact hwf
        · simp [sentPayloads, receivedPayloads, hresult, event, hafter, hfifo]
        · simp only [hpending, hresult, event, Bool.false_eq_true, false_iff]
          exact notifiedSince_snoc_notification _
      · simp only [hnotify, Bool.false_eq_true, if_false] at hresult
        constructor
        · exact hwf
        · simp [sentPayloads, receivedPayloads, hresult, event, hafter, hfifo]
        · simp only [hresult, event]
          rw [notifiedSince_snoc_other (by simp) (by simp), hpending, ← hs.pending_iff]
          simp [hnotify]
    | cons x xs =>
      rw [hcontents] at hrecv
      obtain ⟨hafter, hpending, buf', sender, hresult, hpayload⟩ := hrecv
      constructor
      · exact hwf
      · simp [sentPayloads, receivedPayloads, hresult, event, hpayload, hafter, hs.fifo, hcontents]
      · simp only [hresult, event]
        rw [notifiedSince_snoc_other (by simp) (by simp), hpending]
        exact hs.pending_iff
  | notify =>
    simp only [portStep, Option.some.injEq] at hstep
    subst hstep
    obtain ⟨hwf, hcontents, hpending⟩ := portNotify_spec hs.wellFormed
    constructor
    · exact hwf
    · simp [sentPayloads, receivedPayloads, hs.fifo, hcontents]
    · simp [hpending, notifiedSince_snoc_notified]

/-- A port as `port_create` publishes it, before any call. -/
def portInit (queue : Nat → IpcMsg) (senders : Nat → Nat) : PortState :=
  ⟨portFresh queue senders, []⟩

theorem portInit_refines (queue : Nat → IpcMsg) (senders : Nat → Nat) :
    (portInit queue senders).Refines where
  wellFormed := portFresh_wellFormed queue senders
  fifo := by simp [portInit, sentPayloads, receivedPayloads, portFresh_contents]
  pending_iff := by simp [portInit, portFresh, notifiedSince_nil]

/-- Every run of sends, receives and notifies on a registered port.

* The payloads received, followed by those still queued, are the payloads of the
  successful sends, in order.
* A receive returns the oldest payload still queued and takes it off the queue.
* A send that reports the queue full leaves the whole port unchanged.
* When the queue is empty a receive returns a notification exactly when a notify
  happened since the last one was received. -/
theorem port_run_fifo (queue : Nat → IpcMsg) (senders : Nat → Nat) (calls : List PortCall)
    (s : PortState) (run : exec portStep (portInit queue senders) calls = some s) :
    sentPayloads s.log = receivedPayloads s.log ++ s.port.contents ∧
    (∀ x rest, s.port.contents = x :: rest → ∀ buf cur,
      (portRecv s.port buf cur).1.event = .received x ∧
        (portRecv s.port buf cur).2.contents = rest) ∧
    (∀ msg sender mem, (portSend s.port msg sender mem).1 = ipcErrFull →
      (portSend s.port msg sender mem).2 = s.port) ∧
    (s.port.contents = [] → ∀ buf cur,
      (portRecv s.port buf cur).1.event = .notification ↔ NotifiedSince s.log) := by
  have hs : s.Refines :=
    exec_invariant_all (fun _ _ _ hs hstep => portStep_refines hs hstep)
      (portInit_refines queue senders) run
  refine ⟨hs.fifo, ?_, ?_, ?_⟩
  · intro x rest hcons buf cur
    obtain ⟨_, hrecv⟩ := portRecv_spec buf cur hs.wellFormed
    rw [hcons] at hrecv
    obtain ⟨hrest, _, buf', sender, hresult, hpayload⟩ := hrecv
    exact ⟨by rw [hresult, event, hpayload], hrest⟩
  · intro msg sender mem hfull
    rcases portSend_spec msg sender mem hs.wellFormed with ⟨_, hsame⟩ | ⟨hcode, _⟩
    · exact hsame
    · rw [hcode] at hfull
      exact absurd hfull (by decide)
  intro hempty buf cur
  obtain ⟨_, hrecv⟩ := portRecv_spec buf cur hs.wellFormed
  rw [hempty] at hrecv
  obtain ⟨_, _, hresult⟩ := hrecv
  rw [← hs.pending_iff]
  by_cases hnotify : s.port.pendingNotify = true
  · simp only [hnotify, if_true] at hresult
    obtain ⟨buf', hresult⟩ := hresult
    simp [hresult, event, hnotify]
  · simp only [hnotify, Bool.false_eq_true, if_false] at hresult
    simp [hresult, event, hnotify]

/-- One message sent to a new port, which the next receive returns. -/
theorem port_run_fifo_round_trip :
    ∃ s x, exec portStep (portInit (fun _ => default) (fun _ => 0))
        [.send { (default : IpcMsg) with msgId := 7 } none ⟨none, none⟩] = some s ∧
      x.msgId = 7 ∧ s.port.contents = [x] ∧
      (portRecv s.port default none).1.event = .received x := by
  refine ⟨_, _, rfl, rfl, rfl, ?_⟩
  exact ((port_run_fifo _ _ [.send { (default : IpcMsg) with msgId := 7 } none ⟨none, none⟩] _
    rfl).2.1 _ _ rfl _ _).1

end ArcKernel.Ipc
