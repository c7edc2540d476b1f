import ArcKernel.Io.Channel

/-!
# Requests and their completions

A request occupies the ring slot of its number modulo the depth of the ring, and the
slot is filled again 16 requests later, whether or not the first request has been
completed.  As long as no request is that old when another one is queued, the slots
of the requests in progress are distinct: each keeps its entry until its thread has
returned, the driver's completion by request id reaches it and no other, and the
thread returns the result of that completion.
-/

namespace ArcKernel.Io

open ArcKernel.Foundation Function List Option Bool IoChannelEntry

/-- The request id of the request with this number. -/
def requestIdOf (number : Nat) : UInt64 := UInt64.ofNat number

/-- The ring slot of the request with this number. -/
def slotOf (number : Nat) : Nat := (number - 1) % ioChannelQueueDepth

/-! ## The property -/

/-- A thread that has returned got the one outcome its own request was completed
with; a request that was not completed still owns its ring slot, where the driver
finds it by its id; and a completed request finds its outcome in its slot, its
thread being awake or about to be woken. -/
structure IoSys.Faithful (s : IoSys) : Prop where
  own : ∀ r ∈ s.returned, r.requestId = requestIdOf r.number ∧ r ∈ s.completions ∧
    ∀ q ∈ s.completions, q.number = r.number → q = r
  kept : ∀ tid tk, (s.pc tid).ticket? = some tk →
    (∀ r ∈ s.completions, r.number ≠ tk.number) → s.pc tid = .waiting tk ∧
      (s.cell tk.slot).req = { tk.req with requestId := requestIdOf tk.number } ∧
      ioChannelFind s.ch.queue (requestIdOf tk.number) = some tk.slot
  answered : ∀ tid tk, (s.pc tid).ticket? = some tk →
    ∀ r ∈ s.completions, r.number = tk.number → (s.cell tk.slot).completed = true ∧
      r = ⟨tk.number, (s.cell tk.slot).req.requestId, (s.cell tk.slot).result⟩ ∧
      (s.parked tid = false ∨ tid ∈ s.wakes)

/-- A request is queued when every request in progress is less than 16 requests old. -/
def IoStep.Recent (s : IoSys) : IoStep → Prop
  | .enqueue _ => ∀ other tk, (s.pc other).ticket? = some tk →
      s.nextNumber < tk.number + ioChannelQueueDepth
  | _ => True

/-! ## The invariant -/

/-- What holds of a request in progress: its entry is its own, and the entry is
completed exactly when the request is. -/
structure IoSys.TicketOk (s : IoSys) (tid : UInt32) (tk : Ticket) : Prop where
  slot : tk.slot = slotOf tk.number
  positive : 1 ≤ tk.number
  queued : tk.number < s.nextNumber
  recent : s.nextNumber ≤ tk.number + ioChannelQueueDepth
  number : (s.cell tk.slot).number = tk.number
  req : (s.cell tk.slot).req = { tk.req with requestId := requestIdOf tk.number }
  pending : (s.cell tk.slot).completed = false → s.pc tid = .waiting tk ∧
    (s.cell tk.slot).waitingTid = tid ∧ ∀ r ∈ s.completions, r.number ≠ tk.number
  done : (s.cell tk.slot).completed = true →
    ⟨tk.number, requestIdOf tk.number, (s.cell tk.slot).result⟩ ∈ s.completions ∧
      (∀ r ∈ s.completions, r.number = tk.number →
        r = ⟨tk.number, requestIdOf tk.number, (s.cell tk.slot).result⟩) ∧
      (s.parked tid = false ∨ tid ∈ s.wakes)
  reported : ∀ requestId, s.pc tid = .reported tk requestId →
    requestId = requestIdOf tk.number

/-- The outcomes that were returned, and that no request in progress shares their
number. -/
structure IoSys.OutcomeOk (s : IoSys) (r : Outcome) : Prop where
  requestId : r.requestId = requestIdOf r.number
  completed : r ∈ s.completions
  once : ∀ q ∈ s.completions, q.number = r.number → q = r
  positive : 1 ≤ r.number
  queued : r.number < s.nextNumber
  retired : ∀ tid tk, (s.pc tid).ticket? = some tk → tk.number ≠ r.number

structure IoSys.Inv (s : IoSys) : Prop where
  depth : s.ch.queue.length = ioChannelQueueDepth
  positive : 1 ≤ s.nextNumber
  tail : s.ch.tail = slotOf s.nextNumber
  seq : s.ch.nextSeq = requestIdOf s.nextNumber
  unparkedZero : s.parked 0 = false
  tickets : ∀ tid tk, (s.pc tid).ticket? = some tk → s.TicketOk tid tk
  unique : ∀ tid other tk tk', (s.pc tid).ticket? = some tk →
    (s.pc other).ticket? = some tk' → tk.number = tk'.number → tid = other
  entries : ∀ i < ioChannelQueueDepth, (s.cell i).completed = false →
    (s.nextNumber ≤ i + 1 ∧ (s.cell i).req.requestId = 0 ∧ (s.cell i).number = 0) ∨
      ∃ tid tk, s.pc tid = .waiting tk ∧ tk.slot = i
  known : ∀ r ∈ s.completions, r.number < s.nextNumber
  outcomes : ∀ r ∈ s.returned, s.OutcomeOk r

variable {s t : IoSys} {tid : UInt32} {i n : Nat} {requestId : UInt64} {tk : Ticket}

theorem slotOf_lt (number : Nat) : slotOf number < ioChannelQueueDepth := Nat.mod_lt _ (by decide)

/-- Two numbers less than 16 apart have different slots. -/
theorem slotOf_ne {m : Nat} (hm : 1 ≤ m) (hlt : m < n)
    (hnear : n < m + ioChannelQueueDepth) : slotOf m ≠ slotOf n := by
  unfold slotOf
  simp only [ioChannelQueueDepth] at *
  omega

theorem slotOf_succ (hn : 1 ≤ n) :
    slotOf (n + 1) = (slotOf n + 1) % ioChannelQueueDepth := by
  unfold slotOf
  simp only [ioChannelQueueDepth]
  omega

/-- Two numbers close to each other have different request ids, also across the
wrap-around of the sequence number. -/
theorem requestIdOf_inj {m : Nat} (hmn : m ≤ n + ioChannelQueueDepth)
    (hnm : n ≤ m + ioChannelQueueDepth) (h : requestIdOf m = requestIdOf n) : m = n := by
  have hmod : m % 2 ^ 64 = n % 2 ^ 64 := by exact congrArg UInt64.toNat h
  simp only [ioChannelQueueDepth] at hmn hnm
  omega

theorem cell_set {x : IoChannelEntry} (h : s.Inv) (hi : i < ioChannelQueueDepth)
    (hqueue : t.ch.queue = s.ch.queue.set i x) (j : Nat) :
    t.cell j = if j = i then x else s.cell j := by
  have hi' : i < s.ch.queue.length := h.depth ▸ hi
  simp only [IoSys.cell, hqueue, getD_eq_getElem?_getD, getElem?_set]
  by_cases hij : i = j
  · subst hij
    simp [hi']
  · rw [if_neg hij, if_neg fun h => hij h.symm]

theorem IoPc.ticket?_waiting (h : s.pc tid = .waiting tk) :
    (s.pc tid).ticket? = some tk := by
  rw [h]
  rfl

theorem IoPc.ticket?_update {pc : IoPc} {other : UInt32}
    (h : (update s.pc tid pc other).ticket? = some tk) :
    other = tid ∧ pc.ticket? = some tk ∨ other ≠ tid ∧ (s.pc other).ticket? = some tk := by
  by_cases hself : other = tid
  · exact .inl ⟨hself, by rwa [hself, update_self] at h⟩
  · exact .inr ⟨hself, by rwa [update_of_ne hself] at h⟩

/-- The driver finds a request that is not completed by its id. -/
theorem IoSys.Inv.find (h : s.Inv) (hpc : s.pc tid = .waiting tk)
    (hpending : (s.cell tk.slot).completed = false) :
    ioChannelFind s.ch.queue (requestIdOf tk.number) = some tk.slot := by
  have hok := h.tickets tid tk (IoPc.ticket?_waiting hpc)
  have hcell : ∀ j (hj : j < s.ch.queue.length), s.cell j = s.ch.queue[j] := fun j hj => by
    rw [IoSys.cell, getD_eq_getElem?_getD, getElem?_eq_getElem hj, getD_some]
  have hi : tk.slot < s.ch.queue.length := by
    rw [h.depth, hok.slot]
    exact slotOf_lt _
  refine findIdx?_eq_some_iff_getElem.mpr ⟨hi, ?_, fun j hj => ?_⟩
  · rw [← hcell _ hi]
    simp [hpending, hok.req]
  have hjlen := hj.trans hi
  rw [← hcell j hjlen, not_eq_true, and_eq_false_iff]
  by_cases hdone : (s.cell j).completed = true
  · exact .inl (by simp [hdone])
  refine .inr (beq_eq_false_iff_ne.mpr fun hid => ?_)
  rw [not_eq_true] at hdone
  have hjdepth : j < ioChannelQueueDepth := h.depth ▸ hjlen
  rcases h.entries j hjdepth hdone with ⟨hfresh, hzero, _⟩ | ⟨other, tk', hpc', hslot'⟩
  · -- a slot that was never filled has id 0, which is no early request's id
    have hearly : requestIdOf tk.number = requestIdOf 0 := by rw [← hid, hzero]; rfl
    have hqueued := hok.queued
    have := requestIdOf_inj (by omega) (by omega) hearly
    exact absurd hok.positive (by omega)
  have hok' := h.tickets other tk' (IoPc.ticket?_waiting hpc')
  rw [← hslot', hok'.req] at hid
  have hq := hok.queued
  have hq' := hok'.queued
  have hr := hok.recent
  have hr' := hok'.recent
  have hnum := requestIdOf_inj (by omega) (by omega) hid
  have := hok'.slot
  rw [hnum, ← hok.slot] at this
  omega

theorem IoSys.Inv.faithful (h : s.Inv) : s.Faithful where
  own := fun r hr =>
    ⟨(h.outcomes r hr).requestId, (h.outcomes r hr).completed, (h.outcomes r hr).once⟩
  kept := fun tid tk htk hnone => by
    have hok := h.tickets tid tk htk
    have hpending : (s.cell tk.slot).completed = false := by
      by_contra hdone
      rw [not_eq_false] at hdone
      exact hnone _ (hok.done hdone).1 rfl
    have hpc := (hok.pending hpending).1
    exact ⟨hpc, hok.req, h.find hpc hpending⟩
  answered := fun tid tk htk r hr hnumber => by
    have hok := h.tickets tid tk htk
    have hdone : (s.cell tk.slot).completed = true := by
      by_contra hpending
      rw [not_eq_true] at hpending
      exact (hok.pending hpending).2.2 r hr hnumber
    obtain ⟨_, honce, hawake⟩ := hok.done hdone
    refine ⟨hdone, ?_, hawake⟩
    rw [hok.req]
    exact honce r hr hnumber

theorem ioStart_inv : ioStart.Inv where
  depth := length_replicate
  positive := le_rfl
  tail := rfl
  seq := rfl
  unparkedZero := rfl
  tickets := nofun
  unique := nofun
  entries := fun i hi _ => .inl ⟨Nat.le_add_left 1 i, by
    have hcell : ioStart.cell i = ioChannelCreate.queue.getD i default := rfl
    rw [hcell, getD_eq_getElem?_getD, ioChannelCreate, getElem?_replicate, if_pos hi]
    exact ⟨rfl, rfl⟩⟩
  known := nofun
  outcomes := nofun

/-! ## Steps that leave the ring alone -/

theorem IoSys.TicketOk.frame (h : s.TicketOk tid tk) (hpc : t.pc tid = s.pc tid)
    (hcell : t.cell tk.slot = s.cell tk.slot) (hnext : s.nextNumber ≤ t.nextNumber)
    (hrecent : t.nextNumber ≤ tk.number + ioChannelQueueDepth)
    (hkept : ∀ r ∈ s.completions, r ∈ t.completions)
    (hnew : ∀ r ∈ t.completions, r.number = tk.number → r ∈ s.completions)
    (hwake : s.parked tid = false ∨ tid ∈ s.wakes → t.parked tid = false ∨ tid ∈ t.wakes) :
    t.TicketOk tid tk where
  slot := h.slot
  positive := h.positive
  queued := h.queued.trans_le hnext
  recent := hrecent
  number := hcell ▸ h.number
  req := hcell ▸ h.req
  pending := fun hp => by
    rw [hcell] at hp ⊢
    obtain ⟨hwaits, hown, hnone⟩ := h.pending hp
    exact ⟨hpc.trans hwaits, hown, fun r hr hnumber => hnone r (hnew r hr hnumber) hnumber⟩
  done := fun hd => by
    rw [hcell] at hd ⊢
    obtain ⟨hmem, honce, hawake⟩ := h.done hd
    exact ⟨hkept _ hmem, fun r hr hnumber => honce r (hnew r hr hnumber) hnumber, hwake hawake⟩
  reported := fun requestId hr => h.reported requestId (hpc ▸ hr)

/-- The step leaves the ring's entries, the counters and the completions alone. -/
structure IoSys.Quiet (s t : IoSys) : Prop where
  queue : t.ch.queue = s.ch.queue
  tail : t.ch.tail = s.ch.tail
  seq : t.ch.nextSeq = s.ch.nextSeq
  next : t.nextNumber = s.nextNumber
  completions : t.completions = s.completions

theorem IoSys.Quiet.cell (h : s.Quiet t) (i : Nat) : t.cell i = s.cell i := by
  rw [IoSys.cell, IoSys.cell, h.queue]

/-- Such a step of thread `tid` keeps the invariant when the thread keeps its request,
or gives it up after its completion. -/
theorem IoSys.Inv.quiet {pc : IoPc} (h : s.Inv) (hquiet : s.Quiet t)
    (hpc : t.pc = update s.pc tid pc) (hzero : t.parked 0 = false)
    (hticket : ∀ tk, pc.ticket? = some tk → (s.pc tid).ticket? = some tk)
    (hself : ∀ tk, pc.ticket? = some tk → t.TicketOk tid tk)
    (hwaits : ∀ tk, s.pc tid = .waiting tk → pc = .waiting tk ∨ (s.cell tk.slot).completed = true)
    (hwake : ∀ other, other ≠ tid → s.parked other = false ∨ other ∈ s.wakes →
      t.parked other = false ∨ other ∈ t.wakes)
    (houtcomes : ∀ r ∈ t.returned, r ∈ s.returned ∨ t.OutcomeOk r) : t.Inv := by
  -- every ticket of the new state was there before
  have hold (other tk) (htk : (t.pc other).ticket? = some tk) : (s.pc other).ticket? = some tk := by
    rw [hpc] at htk
    rcases IoPc.ticket?_update htk with ⟨rfl, hpc'⟩ | ⟨-, hold⟩
    · exact hticket tk hpc'
    · exact hold
  refine
    { depth := hquiet.queue ▸ h.depth
      positive := hquiet.next ▸ h.positive
      tail := by rw [hquiet.tail, hquiet.next, h.tail]
      seq := by rw [hquiet.seq, hquiet.next, h.seq]
      unparkedZero := hzero
      tickets := fun other tk htk => ?_
      unique := fun a b tk tk' ha hb => h.unique a b tk tk' (hold a tk ha) (hold b tk' hb)
      entries := fun i hi hp => ?_
      known := fun r hr => hquiet.next ▸ h.known r (hquiet.completions ▸ hr)
      outcomes := fun r hr => ?_ }
  · rw [hpc] at htk
    rcases IoPc.ticket?_update htk with ⟨rfl, hpc'⟩ | ⟨hne, htk⟩
    · exact hself tk hpc'
    · have hok := h.tickets other tk htk
      exact hok.frame (hpc ▸ update_of_ne hne ..) (hquiet.cell _) hquiet.next.ge
        (hquiet.next ▸ hok.recent) (fun r hr => hquiet.completions ▸ hr)
        (fun r hr _ => hquiet.completions ▸ hr) (hwake other hne)
  · rw [hquiet.cell] at hp ⊢
    rw [hquiet.next]
    rcases h.entries i hi hp with hfresh | ⟨other, tk, hother, hslot⟩
    · exact .inl hfresh
    refine .inr ⟨other, tk, ?_, hslot⟩
    rw [hpc]
    rcases eq_or_ne other tid with rfl | hne
    · rcases hwaits tk hother with hstay | hdone
      · rw [update_self, hstay]
      · rw [hslot, hp] at hdone
        cases hdone
    · rw [update_of_ne hne, hother]
  · rcases houtcomes r hr with hr | hr
    · have hok := h.outcomes r hr
      exact ⟨hok.requestId, hquiet.completions ▸ hok.completed, hquiet.completions ▸ hok.once,
        hok.positive, hquiet.next ▸ hok.queued,
        fun other tk htk => hok.retired other tk (hold other tk htk)⟩
    · exact hr

/-- A quiet step of the driver: no thread moves. -/
theorem IoSys.Inv.quiet_driver (h : s.Inv) (hquiet : s.Quiet t) (hpc : t.pc = s.pc)
    (hreturned : t.returned = s.returned) (hzero : t.parked 0 = false)
    (hwake : ∀ other, s.parked other = false ∨ other ∈ s.wakes →
      t.parked other = false ∨ other ∈ t.wakes) : t.Inv := by
  have hstay : t.pc = update s.pc 0 (s.pc 0) := by rw [hpc, update_eq_self]
  refine h.quiet hquiet hstay hzero (fun _ htk => htk) (fun tk htk => ?_)
    (fun tk hw => .inl hw) (fun other _ => hwake other) (fun r hr => .inl (hreturned ▸ hr))
  have hok := h.tickets 0 tk htk
  exact hok.frame (congrFun hpc 0) (hquiet.cell _) hquiet.next.ge (hquiet.next ▸ hok.recent)
    (fun r hr => hquiet.completions ▸ hr) (fun r hr _ => hquiet.completions ▸ hr) (hwake 0)

theorem inv_check {req : IoRequest} (h : s.Inv) (hstep : ioStep s (.check tid req) = some t) :
    t.Inv := by
  simp only [ioStep] at hstep
  split at hstep
  on_goal 2 => cases hstep
  rename_i hpc
  split at hstep
  · exact some.inj hstep ▸ h
  cases hstep
  exact h.quiet ⟨rfl, rfl, rfl, rfl, rfl⟩ rfl h.unparkedZero nofun
    nofun (fun tk hw => nomatch hpc.symm.trans hw) (fun _ _ hw => hw)
    (fun _ hr => .inl hr)

/-- A thread past its loop has a completed entry. -/
theorem IoSys.TicketOk.completed (h : s.TicketOk tid tk)
    (hpc : s.pc tid ≠ .waiting tk) : (s.cell tk.slot).completed = true := by
  by_contra hpending
  rw [not_eq_true] at hpending
  exact hpc (h.pending hpending).1

theorem parked_update_false {parked : UInt32 → Bool} {other : UInt32}
    (h : parked other = false) (tid : UInt32) : update parked tid false other = false := by
  rw [update_apply]
  split
  · rfl
  · exact h

section

variable (h : s.Inv)
include h

theorem inv_poll (hstep : ioStep s (.poll tid) = some t) : t.Inv := by
  simp only [ioStep] at hstep
  split at hstep
  on_goal 2 => cases hstep
  rename_i tk hpc
  split at hstep
  on_goal 2 => exact some.inj hstep ▸ h
  rename_i hdone
  cases hstep
  have htk := IoPc.ticket?_waiting hpc
  have hok := h.tickets tid tk htk
  refine h.quiet ⟨rfl, rfl, rfl, rfl, rfl⟩ rfl (parked_update_false h.unparkedZero tid)
    (fun tk' htk' => htk.trans htk') ?_ ?_
    (fun other _ hw => hw.imp_left fun hp => parked_update_false hp tid) (fun _ hr => .inl hr)
  · intro tk' htk'
    cases htk'
    refine { hok with pending := fun hp => ?_, done := fun _ => ?_, reported := fun id hr => ?_ }
    · exact absurd hdone (by rw [show (s.cell tk.slot).completed = false from hp]; decide)
    · obtain ⟨hmem, honce, _⟩ := hok.done hdone
      exact ⟨hmem, honce, .inl (update_self ..)⟩
    · cases (update_self tid _ s.pc).symm.trans hr
  · intro tk' hw
    cases hpc.symm.trans hw
    exact .inr hdone

theorem inv_report (hstep : ioStep s (.report tid) = some t) : t.Inv := by
  simp only [ioStep] at hstep
  split at hstep
  on_goal 2 => cases hstep
  rename_i tk hpc
  cases hstep
  have htk : (s.pc tid).ticket? = some tk := by rw [hpc]; rfl
  have hok := h.tickets tid tk htk
  have hdone := hok.completed (by simp [hpc])
  refine h.quiet ⟨rfl, rfl, rfl, rfl, rfl⟩ rfl h.unparkedZero (fun tk' htk' => htk.trans htk') ?_
    (fun tk' hw => nomatch hpc.symm.trans hw) (fun _ _ hw => hw) (fun _ hr => .inl hr)
  intro tk' htk'
  cases htk'
  refine { hok with pending := fun hp => ?_, done := hok.done, reported := fun id hr => ?_ }
  · exact absurd hdone (by rw [show (s.cell tk.slot).completed = false from hp]; decide)
  · cases (update_self tid _ s.pc).symm.trans hr
    rw [hok.req]

/-- The thread returns: its outcome joins the returned ones, and no other thread has
its number. -/
theorem inv_ret (hstep : ioStep s (.ret tid) = some t) : t.Inv := by
  simp only [ioStep] at hstep
  split at hstep
  on_goal 2 => cases hstep
  rename_i tk id hpc
  cases hstep
  have htk : (s.pc tid).ticket? = some tk := by rw [hpc]; rfl
  have hok := h.tickets tid tk htk
  obtain ⟨hmem, honce, _⟩ := hok.done (hok.completed (by simp [hpc]))
  obtain rfl := hok.reported id hpc
  refine h.quiet ⟨rfl, rfl, rfl, rfl, rfl⟩ rfl h.unparkedZero nofun
    nofun (fun tk' hw => nomatch hpc.symm.trans hw) (fun _ _ hw => hw)
    (fun r hr => ?_)
  rcases mem_append.mp hr with hr | hr
  · exact .inl hr
  obtain rfl := mem_singleton.mp hr
  refine .inr ⟨rfl, hmem, honce, hok.positive, hok.queued, fun other tk' htk' hnumber => ?_⟩
  rcases IoPc.ticket?_update htk' with ⟨-, ⟨⟩⟩ | ⟨hne, htk'⟩
  exact hne (h.unique other tid tk' tk htk' htk hnumber)

theorem inv_getRequest (hstep : ioStep s .getRequest = some t) : t.Inv := by
  simp only [ioStep, ioChannelGetRequest] at hstep
  by_cases hempty : s.ch.count = 0
  · rw [if_pos hempty] at hstep
    exact some.inj hstep ▸ h
  · rw [if_neg hempty] at hstep
    cases hstep
    exact h.quiet_driver ⟨rfl, rfl, rfl, rfl, rfl⟩ rfl rfl h.unparkedZero (fun _ hw => hw)

theorem inv_copyRequest {slot : Nat} {ok : Bool}
    (hstep : ioStep s (.copyRequest slot ok) = some t) :
    t.Inv := by
  obtain ⟨-, rfl⟩ := of_guard hstep
  exact h.quiet_driver ⟨rfl, rfl, rfl, rfl, rfl⟩ rfl rfl h.unparkedZero (fun _ hw => hw)

theorem inv_wake (hstep : ioStep s (.wake tid) = some t) : t.Inv := by
  obtain ⟨-, rfl⟩ := of_guard hstep
  have hwake : ∀ other, s.parked other = false ∨ other ∈ s.wakes →
      update s.parked tid false other = false ∨ other ∈ s.wakes.erase tid := by
    intro other hw
    by_cases hne : other = tid
    · exact .inl (by rw [hne, update_self])
    · rw [update_of_ne hne, mem_erase_of_ne hne]
      exact hw
  exact h.quiet_driver ⟨rfl, rfl, rfl, rfl, rfl⟩ rfl rfl (parked_update_false h.unparkedZero tid)
    hwake

end

/-! ## Steps on the ring -/

/-- Queuing a request: the tail slot belongs to no request in progress, because all
of them are less than 16 requests old. -/
theorem inv_enqueue (h : s.Inv) (hrecent : IoStep.Recent s (.enqueue tid))
    (hstep : ioStep s (.enqueue tid) = some t) : t.Inv := by
  simp only [ioStep] at hstep
  split at hstep
  on_goal 2 => cases hstep
  rename_i req hpc
  have htail : s.ch.tail < ioChannelQueueDepth := h.tail ▸ slotOf_lt _
  have hcell : ∀ j, t.cell j = if j = s.ch.tail then
      ⟨{ req with requestId := s.ch.nextSeq }, false, 0, tid, s.nextNumber⟩ else s.cell j := by
    cases hstep
    exact cell_set h htail rfl
  cases hstep
  have hfree : ∀ other tk, (s.pc other).ticket? = some tk → tk.slot ≠ s.ch.tail := by
    intro other tk htk
    have hok := h.tickets other tk htk
    rw [hok.slot, h.tail]
    exact slotOf_ne hok.positive hok.queued (hrecent other tk htk)
  have hnew := hcell s.ch.tail
  rw [if_pos rfl] at hnew
  refine
    { depth := length_set.trans h.depth
      positive := Nat.le_add_left 1 _
      tail := by
        show (s.ch.tail + 1) % ioChannelQueueDepth = slotOf (s.nextNumber + 1)
        rw [slotOf_succ h.positive, h.tail]
      seq := by
        show s.ch.nextSeq + 1 = requestIdOf (s.nextNumber + 1)
        rw [h.seq, requestIdOf, requestIdOf, UInt64.ofNat_add]
        rfl
      unparkedZero := ?_
      tickets := fun other tk htk => ?_
      unique := fun a b tk tk' ha hb hnumber => ?_
      entries := fun i hi hp => ?_
      known := fun r hr => Nat.lt_succ_of_lt (h.known r hr)
      outcomes := fun r hr => ?_ }
  · show update s.parked tid (tid != 0) 0 = false
    rw [update_apply]
    split
    · rename_i hzero
      simp [← hzero]
    · exact h.unparkedZero
  · rcases IoPc.ticket?_update htk with ⟨rfl, ⟨⟩⟩ | ⟨hne, htk⟩
    · refine
        { slot := h.tail
          positive := h.positive
          queued := Nat.lt_succ_self _
          recent := Nat.add_le_add_left (by decide) _
          number := congrArg number hnew
          req := (congrArg IoChannelEntry.req hnew).trans (by rw [h.seq])
          pending := fun _ => ⟨update_self .., congrArg waitingTid hnew,
            fun r hr hnumber => absurd (h.known r hr) (by rw [hnumber]; exact lt_irrefl _)⟩
          done := fun hd => nomatch (congrArg completed hnew).symm.trans hd
          reported := fun id hr => nomatch (update_self other _ s.pc).symm.trans hr }
    · refine (h.tickets other tk htk).frame (update_of_ne hne ..)
        ((hcell _).trans (if_neg (hfree other tk htk))) (Nat.le_succ _) (hrecent other tk htk)
        (fun _ hr => hr) (fun _ hr _ => hr) (fun hw => ?_)
      exact hw.imp_left fun hp => (update_of_ne hne ..).trans hp
  · rcases IoPc.ticket?_update ha with ⟨hat, ⟨⟩⟩ | ⟨-, ha⟩ <;>
      rcases IoPc.ticket?_update hb with ⟨hbt, ⟨⟩⟩ | ⟨-, hb⟩
    · rw [hat, hbt]
    · exact absurd (h.tickets b tk' hb).queued (by rw [← hnumber]; exact lt_irrefl _)
    · exact absurd (h.tickets a tk ha).queued (by rw [hnumber]; exact lt_irrefl _)
    · exact h.unique a b tk tk' ha hb hnumber
  · by_cases hit : i = s.ch.tail
    · exact .inr ⟨tid, _, update_self .., hit.symm⟩
    rw [hcell i, if_neg hit] at hp ⊢
    rcases h.entries i hi hp with ⟨hfresh, hrest⟩ | ⟨other, tk, hother, hslot⟩
    · -- a slot after the tail is still unused after this request
      refine .inl ⟨?_, hrest⟩
      show s.nextNumber + 1 ≤ i + 1
      rw [h.tail, slotOf] at hit
      simp only [ioChannelQueueDepth] at hi hit
      omega
    · refine .inr ⟨other, tk, ?_, hslot⟩
      refine (update_of_ne ?_ ..).trans hother
      rintro rfl
      cases hpc.symm.trans hother
  · have hok := h.outcomes r hr
    refine { hok with queued := Nat.lt_succ_of_lt hok.queued, retired := ?_ }
    intro other tk htk
    rcases IoPc.ticket?_update htk with ⟨-, ⟨⟩⟩ | ⟨-, htk⟩
    · exact hok.queued.ne'
    · exact hok.retired other tk htk

theorem ioChannelFind_some (h : s.Inv)
    (hfind : ioChannelFind s.ch.queue requestId = some i) :
    i < ioChannelQueueDepth ∧ (s.cell i).completed = false ∧
      (s.cell i).req.requestId = requestId := by
  obtain ⟨hi, hmatch, _⟩ := findIdx?_eq_some_iff_getElem.mp hfind
  have hcell : s.cell i = s.ch.queue[i] := by
    rw [IoSys.cell, getD_eq_getElem?_getD, getElem?_eq_getElem hi, getD_some]
  rw [← hcell, and_eq_true, not_eq_true', beq_iff_eq] at hmatch
  exact ⟨h.depth ▸ hi, hmatch⟩

/-- The number of an entry that is not completed: that of the request in the slot, or 0. -/
theorem IoSys.Inv.pending_number (h : s.Inv) (hi : i < ioChannelQueueDepth)
    (hpending : (s.cell i).completed = false) :
    (s.cell i).number < s.nextNumber ∧
      (∀ tid tk, (s.pc tid).ticket? = some tk → (s.cell i).number = tk.number → tk.slot = i) ∧
      ∀ r ∈ s.returned, (s.cell i).number ≠ r.number := by
  rcases h.entries i hi hpending with ⟨-, -, hzero⟩ | ⟨other, tk', hpc, hslot⟩
  · rw [hzero]
    exact ⟨h.positive, fun tid tk htk hnumber =>
      absurd hnumber (Nat.ne_of_lt (h.tickets tid tk htk).positive),
      fun r hr => Nat.ne_of_lt (h.outcomes r hr).positive⟩
  · have htk' := IoPc.ticket?_waiting hpc
    have hok' := h.tickets other tk' htk'
    rw [← hslot, hok'.number]
    refine ⟨hok'.queued, fun tid tk htk hnumber => ?_,
      fun r hr => (h.outcomes r hr).retired other tk' htk'⟩
    rw [(h.tickets tid tk htk).slot, ← hnumber, hok'.slot]

/-- A completion reaches the request whose entry the driver's id names, or an entry
that was never used. -/
theorem inv_complete {result : Int} (h : s.Inv)
    (hstep : ioStep s (.complete requestId result) = some t) : t.Inv := by
  simp only [ioStep] at hstep
  split at hstep
  · exact some.inj hstep ▸ h
  rename_i i hfind
  obtain ⟨hi, hpending, hid⟩ := ioChannelFind_some h hfind
  have hcell : ∀ j, t.cell j = if j = i then (s.cell i).complete result else s.cell j := by
    cases hstep
    exact cell_set h hi rfl
  cases hstep
  have hwakes : ∀ other, other ∈ s.wakes → other ∈
      if (s.cell i).waitingTid = 0 then s.wakes else s.wakes ++ [(s.cell i).waitingTid] := by
    intro other hw
    split
    · exact hw
    · exact mem_append_left _ hw
  obtain ⟨hknown, hother, hretired⟩ := h.pending_number hi hpending
  have hmem : ∀ {r : Outcome}, r ∈ s.completions ++ [⟨(s.cell i).number, requestId, result⟩] →
      r ∈ s.completions ∨ r = ⟨(s.cell i).number, requestId, result⟩ := fun hr =>
    (mem_append.mp hr).imp_right mem_singleton.mp
  refine
    { h with
      depth := length_set.trans h.depth
      tickets := fun tid tk htk => ?_
      entries := fun j hj hp => ?_
      known := fun r hr => ?_
      outcomes := fun r hr => ?_ }
  · have hok := h.tickets tid tk htk
    by_cases hslot : tk.slot = i
    · subst hslot
      obtain ⟨hpc, htid, hnone⟩ := hok.pending hpending
      have hnew := hcell tk.slot
      rw [if_pos rfl] at hnew
      have hout : (⟨(s.cell tk.slot).number, requestId, result⟩ : Outcome) =
          ⟨tk.number, requestIdOf tk.number, result⟩ := by
        rw [hok.number, ← hid, hok.req]
      refine
        { hok with
          number := (congrArg number hnew).trans hok.number
          req := (congrArg req hnew).trans hok.req
          pending := fun hp => nomatch (congrArg completed hnew).symm.trans hp
          done := fun _ => ?_ }
      rw [hnew]
      refine ⟨mem_append_right _ (mem_singleton.mpr hout.symm), fun r hr hnumber => ?_, ?_⟩
      · rcases hmem hr with hr | rfl
        · exact absurd hnumber (hnone r hr)
        · exact hout
      · by_cases hzero : tid = 0
        · exact .inl (hzero ▸ h.unparkedZero)
        · refine .inr ?_
          rw [htid, if_neg hzero]
          exact mem_append_right _ (mem_singleton_self _)
    · refine hok.frame rfl ((hcell _).trans (if_neg hslot)) le_rfl hok.recent
        (fun r hr => mem_append_left _ hr) (fun r hr hnumber => ?_)
        (fun hw => hw.imp_right (hwakes tid))
      rcases hmem hr with hr | rfl
      · exact hr
      · exact absurd (hother tid tk htk hnumber) hslot
  · rw [hcell j] at hp ⊢
    split at hp
    · cases hp
    · rename_i hne
      rw [if_neg hne]
      exact h.entries j hj hp
  · rcases hmem hr with hr | rfl
    · exact h.known r hr
    · exact hknown
  · have hok := h.outcomes r hr
    refine { hok with completed := mem_append_left _ hok.completed, once := fun q hq hnumber => ?_ }
    rcases hmem hq with hq | rfl
    · exact hok.once q hq hnumber
    · exact absurd hnumber (hretired r hr)

/-! ## Whole runs -/

theorem inv_step (s : IoSys) (a : IoStep) (t : IoSys) (h : s.Inv) (hrecent : a.Recent s)
    (hstep : ioStep s a = some t) : t.Inv := by
  cases a with
  | check tid req => exact inv_check h hstep
  | enqueue tid => exact inv_enqueue h hrecent hstep
  | poll tid => exact inv_poll h hstep
  | report tid => exact inv_report h hstep
  | ret tid => exact inv_ret h hstep
  | getRequest => exact inv_getRequest h hstep
  | copyRequest slot ok => exact inv_copyRequest h hstep
  | complete requestId result => exact inv_complete h hstep
  | wake tid => exact inv_wake h hstep

/-- **I/O channel.**  In every run of requesters and the driver in which a request is
queued only while all requests in progress are less than 16 requests old, every
requester returns the result its own request id was completed with, and no request
loses its ring slot before it is completed. -/
theorem recent_requests_faithful (steps : List IoStep) (s : IoSys)
    (recent : AllSteps ioStep (fun s a => a.Recent s) ioStart steps)
    (run : exec ioStep ioStart steps = some s) : s.Faithful :=
  (exec_invariant inv_step ioStart_inv recent run).faithful

/-- A request with this operation code and no buffer. -/
def plainRequest (opcode : UInt32) : IoRequest := ⟨0, opcode, 0, Vector.replicate _ 0, 0, 0⟩

/-- Two requests, completed in the other order; the second thread sees its completion
before it is woken. -/
def twoRequests : List IoStep :=
  [.check 1 (plainRequest 8), .check 2 (plainRequest 9), .enqueue 1, .enqueue 2, .getRequest,
    .copyRequest 0 true, .getRequest, .complete 2 7, .complete 1 (-5), .wake 1, .poll 1, .poll 2,
    .report 2, .report 1, .ret 1, .ret 2]

theorem recent_requests_faithful_two :
    ∃ s, exec ioStep ioStart twoRequests = some s ∧
      s.returned = [⟨1, 1, -5⟩, ⟨2, 2, 7⟩] ∧ s.Faithful := by
  refine ⟨_, rfl, rfl, recent_requests_faithful twoRequests _ ?_ rfl⟩
  iterate 2
    refine .cons trivial rfl ?_
  refine ⟨fun other tk htk => ?_, fun t ht => ?_⟩
  · -- nothing is queued yet
    change (update (update ioStart.pc 1 _) 2 _ other).ticket? = some tk at htk
    simp only [update_apply] at htk
    split_ifs at htk <;> cases htk
  cases ht
  refine ⟨fun other tk htk => ?_, fun t ht => ?_⟩
  · change (update (update (update ioStart.pc 1 _) 2 _) 1
      (IoPc.waiting ⟨1, 0, plainRequest 8⟩) other).ticket? = some tk at htk
    simp only [update_apply] at htk
    split_ifs at htk
    · cases htk
      decide
    all_goals cases htk
  cases ht
  iterate 12
    refine .cons trivial rfl ?_
  trivial

/-- The driver has fetched the requests of threads 1 to 16, so the ring has room and
thread 17 is given the slot of thread 1. -/
def wrapAround : List IoStep :=
  ((range 16).flatMap fun i =>
    [.check (UInt32.ofNat (i + 1)) (plainRequest 8), .enqueue (UInt32.ofNat (i + 1)),
      .getRequest]) ++
  [.check 17 (plainRequest 9), .enqueue 17, .complete 17 7, .poll 1, .report 1, .ret 1]

/-- Thread 1 returns the result of the request of thread 17, and its own request can
no longer be completed. -/
theorem reused_slot_answers_wrong_request :
    ∃ s, exec ioStep ioStart wrapAround = some s ∧ s.returned = [⟨1, 17, 7⟩] ∧
      s.completions = [⟨17, 17, 7⟩] ∧ ¬ s.Faithful := by
  refine ⟨_, rfl, rfl, rfl, fun h => ?_⟩
  exact absurd (h.own ⟨1, 17, 7⟩ (mem_singleton.mpr rfl)).1 (by decide)

end ArcKernel.Io
