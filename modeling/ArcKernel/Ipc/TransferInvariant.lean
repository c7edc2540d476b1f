import ArcKernel.Ipc.CspaceInvariant
import ArcKernel.Ipc.Transfer

/-!
# What a delivery installs

An offer in flight is safe as long as nobody puts a capability of the offered
type into the slot it names.  Then the slot is empty, or has changed type, or
still holds the very capability that was validated; the check of
`deliver_dispose` sorts the first two out, and the move finds the third.

Nothing in the code keeps the sender from refilling the slot.  The last theorem
is a run in which it does, and the receiver gets a capability that was never
offered.
-/

namespace ArcKernel.Ipc

open ArcKernel.Foundation Function List Option TransferState

variable {cs cs' : CSpace} {i tid port : Nat} {s t : TransferState} {o : Offer} {pc : TransferPc}
    {snap : CSlot}

/-! ## Slot tables under allocation

These facts hold whatever the blocks of a growth contain. -/

/-- `cs'` keeps the slots of `cs`, but for the slot that was filled. -/
structure CSpace.Extends (cs cs' : CSpace) (filled : Option Nat) : Prop where
  sized : cs'.slots.length = cs'.maxSlots
  max_le : cs.maxSlots ≤ cs'.maxSlots
  same : ∀ j < cs.maxSlots, filled ≠ some j → cs'.slot j = cs.slot j

theorem CSpace.Extends.refl (hcs : cs.slots.length = cs.maxSlots) : cs.Extends cs none :=
  ⟨hcs, le_refl _, fun _ _ _ => rfl⟩

/-- Filling a slot after an extension. -/
theorem CSpace.Extends.fill (h : cs.Extends cs' none) (i : Nat) (cap : CSlot) :
    cs.Extends { cs' with slots := cs'.slots.set i cap } (some i) ∧
      (i < cs.maxSlots → ({ cs' with slots := cs'.slots.set i cap } : CSpace).slot i = cap) := by
  have hlen : cs.maxSlots ≤ cs'.slots.length := by rw [h.sized]; exact h.max_le
  refine ⟨⟨by simpa using h.sized, h.max_le, ?_⟩, ?_⟩
  · intro j hj hne
    have hij : ¬ i = j := fun heq => hne (by rw [heq])
    rw [← h.same j hj (by simp)]
    simp [CSpace.slot, getD_eq_getElem?_getD, hij]
  · intro hi
    have hi' : i < cs'.slots.length := by omega
    simp [CSpace.slot, getD_eq_getElem?_getD, hi']

theorem cspaceGrow_extends {grown : CSpace} {mem : GrowMem} (hcs : cs.slots.length = cs.maxSlots)
    (h : cspaceGrow cs mem = some grown) : cs.Extends grown none := by
  unfold cspaceGrow at h
  simp only at h
  split at h
  · simp at h
  split at h
  · simp at h
  split at h
  · simp at h
  rw [some.injEq] at h
  subst h
  refine ⟨length_copyInto hcs.ge (by omega), by simp only; omega, ?_⟩
  intro j hj _
  simp only [CSpace.slot, getD_eq_getElem?_getD]
  rw [getElem?_copyInto_lt hcs.ge hj]

theorem bitmapAlloc_extends {mid : CSpace} (h : cs.Extends mid none)
    (halloc : bitmapAlloc mid = some (i, cs')) : cs.Extends cs' none := by
  unfold bitmapAlloc at halloc
  split at halloc
  · simp at halloc
  · obtain ⟨_, rfl⟩ := halloc
    exact { h with }

theorem allocOrGrow_extends (mem : GrowMem)
    (hcs : cs.slots.length = cs.maxSlots) : cs.Extends (allocOrGrow cs mem).2 none := by
  unfold allocOrGrow
  split
  · exact bitmapAlloc_extends (CSpace.Extends.refl hcs) ‹_›
  split
  · exact CSpace.Extends.refl hcs
  · rename_i grown hgrow
    have hgrown := cspaceGrow_extends hcs hgrow
    split
    · exact bitmapAlloc_extends hgrown ‹_›
    · exact hgrown

theorem cspaceAllocSlot_extends (type rights objectId : Nat) (mem : GrowMem)
    (hcs : cs.slots.length = cs.maxSlots) :
    cs.Extends (cspaceAllocSlot cs type rights objectId mem).2
        (cspaceAllocSlot cs type rights objectId mem).1 ∧
      ∀ i, (cspaceAllocSlot cs type rights objectId mem).1 = some i → i < cs.maxSlots →
        (cspaceAllocSlot cs type rights objectId mem).2.slot i =
          ⟨objectId, type, rights, true⟩ := by
  have hext := allocOrGrow_extends mem hcs
  unfold cspaceAllocSlot
  split
  · rename_i heq
    rw [heq] at hext
    exact ⟨hext, by simp⟩
  rename_i i cs' heq
  rw [heq] at hext
  obtain ⟨hfill, hslot⟩ := hext.fill i ⟨objectId, type, rights, true⟩
  refine ⟨hfill, ?_⟩
  rintro j hj hlt
  cases hj
  exact hslot hlt

/-- `cs'` is `cs` with slot `i` emptied. -/
structure CSpace.Empties (cs cs' : CSpace) (i : Nat) : Prop where
  sized : cs'.slots.length = cs'.maxSlots
  max_eq : cs'.maxSlots = cs.maxSlots
  empty : (cs'.slot i).inUse = false
  same : ∀ j, j ≠ i → cs'.slot j = cs.slot j

theorem empties_clear (hcs : cs.slots.length = cs.maxSlots) (hused : (cs.slot i).inUse = true) :
    cs.Empties { cs with
      slots := cs.slots.set i CSlot.zero
      freeBitmap := Bitmap.clear cs.freeBitmap i } i := by
  have hlen := CSpace.lt_of_inUse hused
  refine ⟨by simpa using hcs, rfl, ?_, ?_⟩
  · simp only [CSpace.slot, getD_set_eq _ _ _ _ hlen, if_true]
    rfl
  · intro j hj
    simp only [CSpace.slot, getD_set_eq _ _ _ _ hlen, if_neg hj]

theorem cspaceFreeSlot_empties (slot : Int) (hcs : cs.slots.length = cs.maxSlots) :
    (cspaceFreeSlot cs slot).2 = cs ∨ cs.Empties (cspaceFreeSlot cs slot).2 slot.toNat := by
  unfold cspaceFreeSlot clearSlot
  split
  · by_cases hused : (cs.slot slot.toNat).inUse = true
    · right
      simp only [hused, if_true]
      exact empties_clear hcs hused
    · left
      simp [hused]
  · exact .inl rfl

/-- A move extends the destination; it empties the source slot or fails. -/
theorem cspaceMove_extends {src dst : CSpace} (slot : Int) (mem : GrowMem)
    (hsrc : src.slots.length = src.maxSlots) (hdst : dst.slots.length = dst.maxSlots) :
    ((cspaceMove src dst slot mem).1 = none ∧ (cspaceMove src dst slot mem).2.1 = src ∨
      (src.slot slot.toNat).inUse = true ∧
        src.Empties (cspaceMove src dst slot mem).2.1 slot.toNat) ∧
    dst.Extends (cspaceMove src dst slot mem).2.2 (cspaceMove src dst slot mem).1 ∧
    ∀ i, (cspaceMove src dst slot mem).1 = some i → i < dst.maxSlots →
      (cspaceMove src dst slot mem).2.2.slot i = src.slot slot.toNat := by
  unfold cspaceMove
  split
  · by_cases hused : (src.slot slot.toNat).inUse = true
    · have hext := allocOrGrow_extends mem hdst
      simp only [hused, if_true]
      split
      · rename_i heq
        rw [heq] at hext
        exact ⟨.inl ⟨rfl, rfl⟩, hext, by simp⟩
      rename_i i dst' heq
      rw [heq] at hext
      obtain ⟨hfill, hslot⟩ := hext.fill i (src.slot slot.toNat)
      refine ⟨.inr ⟨trivial, empties_clear hsrc hused⟩, hfill, ?_⟩
      rintro j hj hlt
      cases hj
      exact hslot hlt
    · simp only [hused, Bool.false_eq_true, if_false]
      exact ⟨.inl ⟨trivial, trivial⟩, CSpace.Extends.refl hdst, by simp⟩
  · exact ⟨.inl ⟨rfl, rfl⟩, CSpace.Extends.refl hdst, by simp⟩

/-! ## Offers in flight -/

/-- The offers a thread carries and has not checked yet. -/
def TransferPc.offers : TransferPc → List Offer
  | .idle => []
  | .sending _ _ done _ => done
  | .received _ rest => rest
  | .delivering _ rest => rest
  | .checked _ rest => rest

/-- An offer that was validated and not checked yet. -/
def TransferState.Pending (s : TransferState) (o : Offer) : Prop :=
  (∃ tid, o ∈ (s.threads tid).offers) ∨ ∃ port, ∃ offers ∈ s.queued port, o ∈ offers

/-- An offer between its check and its move. -/
def TransferState.Checked (s : TransferState) (o : Offer) : Prop :=
  ∃ tid rest, s.threads tid = .checked o rest

/-- Filling slot `i` of a task with a capability of the given type disturbs no
offer: no pending offer of that type names the slot, and no checked offer does. -/
def TransferState.FillSafe (s : TransferState) (task i type : Nat) : Prop :=
  (∀ o, s.Pending o → o.sender = task → o.slot.toNat = i → o.desc.type ≠ type) ∧
  (∀ o, s.Checked o → o.sender = task → o.slot.toNat ≠ i)

/-- The slot an offer names is empty, or holds the very capability offered. -/
def TransferState.Intact (s : TransferState) (o : Offer) : Prop :=
  ((s.spaces o.sender).slot o.slot.toNat).inUse = false ∨
    (s.spaces o.sender).slot o.slot.toNat = o.cap ∧ s.fills o.sender o.slot.toNat = o.gen

/-- The slot an offer names is intact, or its type gives the change away. -/
def TransferState.Kept (s : TransferState) (o : Offer) : Prop :=
  s.Intact o ∨ ((s.spaces o.sender).slot o.slot.toNat).type ≠ o.desc.type

/-- The named slot is in the table; tables never shrink. -/
def TransferState.InTable (s : TransferState) (o : Offer) : Prop :=
  o.slot.toNat < (s.spaces o.sender).maxSlots

/-- A queued payload and the records of its offers. -/
def Carries (x : Payload) (offers : List Offer) : Prop :=
  offers.map (·.desc) = x.dispose ∧ ∀ o ∈ offers, o.sender = x.sender

/-- What a thread's records say about the call it is in. -/
def TransferPc.Sound (mine : Option Nat) : TransferPc → Prop
  | .idle => True
  | .sending _ msg done rest =>
      msg.ndispose ≤ ipcDisposeMax ∧ done.map (·.desc) ++ rest = msg.descriptors ∧
        ∀ o ∈ done, mine = some o.sender
  | .received sender rest => ∀ o ∈ rest, o.sender = sender
  | .delivering sender rest => ∀ o ∈ rest, o.sender = sender
  | .checked offer rest => ∀ o ∈ rest, o.sender = offer.sender

section Invariant

variable (owner : Nat → Option Nat)

structure TransferState.Inv (s : TransferState) : Prop where
  sized : ∀ t, (s.spaces t).slots.length = (s.spaces t).maxSlots
  ports : ∀ p, (s.ports p).WellFormed
  queue : ∀ p, List.Forall₂ Carries (s.ports p).contents (s.queued p)
  threads : ∀ tid, (s.threads tid).Sound (owner tid)
  pending : ∀ o, s.Pending o → s.InTable o ∧ s.Kept o
  checked : ∀ o, s.Checked o → s.InTable o ∧ s.Intact o
  installed : ∀ e ∈ s.installed, e.cap = e.offer.cap ∧ e.gen = e.offer.gen

variable {owner}

/-! ### Steps that leave the C-spaces alone -/

theorem pending_goto
    (h : (s.goto tid pc).Pending o) : o ∈ pc.offers ∨ s.Pending o := by
  rcases h with ⟨tid', hmem⟩ | hqueued
  · by_cases htid : tid' = tid
    · subst htid
      left
      simpa [goto] using hmem
    · right
      exact .inl ⟨tid', by simpa [goto, htid] using hmem⟩
  · exact .inr (.inr hqueued)

/-- A thread moves on; its records stay sound and its offers are kept. -/
theorem inv_goto (hs : s.Inv owner)
    (hsound : pc.Sound (owner tid)) (hoffers : ∀ o ∈ pc.offers, s.InTable o ∧ s.Kept o)
    (hchecked : ∀ o rest, pc = .checked o rest → s.InTable o ∧ s.Intact o) :
    (s.goto tid pc).Inv owner where
  sized := hs.sized
  ports := hs.ports
  queue := hs.queue
  threads := by
    intro tid'
    by_cases htid : tid' = tid
    · subst htid
      simpa [goto] using hsound
    · simpa [goto, htid] using hs.threads tid'
  pending := by
    intro o ho
    rcases pending_goto ho with hmem | hold
    · exact hoffers o hmem
    · exact hs.pending o hold
  checked := by
    rintro o ⟨tid', rest, hpc⟩
    by_cases htid : tid' = tid
    · subst htid
      exact hchecked o rest (by simpa [goto] using hpc)
    · exact hs.checked o ⟨tid', rest, by simpa [goto, htid] using hpc⟩
  installed := hs.installed

theorem inv_idle (tid : Nat) (hs : s.Inv owner) : (s.goto tid .idle).Inv owner :=
  inv_goto hs trivial (by simp [TransferPc.offers]) (by simp)

/-- A port and the records of its queue change together. -/
theorem inv_port (port : Nat) {p : IpcPort} {offers : List (List Offer)}
    (hs : s.Inv owner) (hp : p.WellFormed) (hqueue : List.Forall₂ Carries p.contents offers)
    (hoffers : ∀ os ∈ offers, ∀ o ∈ os, s.Pending o) :
    ({ s with
        ports := update s.ports port p
        queued := update s.queued port offers } : TransferState).Inv owner where
  sized := hs.sized
  ports := by
    intro q
    by_cases hq : q = port
    · subst hq; simpa using hp
    · simpa [hq] using hs.ports q
  queue := by
    intro q
    by_cases hq : q = port
    · subst hq; simpa using hqueue
    · simpa [hq] using hs.queue q
  threads := hs.threads
  pending := by
    rintro o (hthread | ⟨q, os, hos, ho⟩)
    · exact hs.pending o (.inl hthread)
    · by_cases hq : q = port
      · subst hq
        exact hs.pending o (hoffers os (by simpa using hos) o ho)
      · exact hs.pending o (.inr ⟨q, os, by simpa [hq] using hos, ho⟩)
  checked := hs.checked
  installed := hs.installed

/-! ### Steps that change a C-space -/

/-- A slot of one task is filled, and no offer is disturbed by it. -/
theorem inv_fill (task : Nat) {type : Nat} {res : Option Nat}
    (hs : s.Inv owner) (hext : (s.spaces task).Extends cs res)
    (hslot : ∀ i, res = some i → i < (s.spaces task).maxSlots → (cs.slot i).type = type)
    (hsafe : ∀ i, res = some i → s.FillSafe task i type) :
    ({ s with
        spaces := update s.spaces task cs
        fills := recordFill s.fills task res } : TransferState).Inv owner := by
  -- a slot that is not the filled one reads as before, and was filled as often
  have hother : ∀ o : Offer, s.InTable o → (o.sender = task → res ≠ some o.slot.toNat) →
      (update s.spaces task cs o.sender).slot o.slot.toNat =
          (s.spaces o.sender).slot o.slot.toNat ∧
        recordFill s.fills task res o.sender o.slot.toNat = s.fills o.sender o.slot.toNat := by
    intro o hin hne
    by_cases hsender : o.sender = task
    · have hres := hne hsender
      rw [TransferState.InTable, hsender] at hin
      rw [hsender, update_self]
      refine ⟨hext.same _ hin hres, ?_⟩
      cases res with
      | none => rfl
      | some i =>
        have : o.slot.toNat ≠ i := fun h => hres (by rw [h])
        simp [recordFill, this]
    · rw [update_of_ne hsender]
      refine ⟨rfl, ?_⟩
      cases res with
      | none => rfl
      | some i => simp [recordFill, hsender]
  have hin : ∀ o : Offer, s.InTable o →
      o.slot.toNat < (update s.spaces task cs o.sender).maxSlots := by
    intro o ho
    by_cases hsender : o.sender = task
    · rw [TransferState.InTable, hsender] at ho
      rw [hsender, update_self]
      exact lt_of_lt_of_le ho hext.max_le
    · rwa [update_of_ne hsender]
  refine { hs with sized := fun t => ?_, pending := fun o ho => ?_, checked := fun o ho => ?_ }
  · by_cases ht : t = task
    · subst ht; simpa using hext.sized
    · simpa [ht] using hs.sized t
  · obtain ⟨htable, hkept⟩ := hs.pending o ho
    refine ⟨hin o htable, ?_⟩
    by_cases hfilled : o.sender = task ∧ res = some o.slot.toNat
    · obtain ⟨hsender, hres⟩ := hfilled
      right
      have hne := (hsafe _ hres).1 o ho hsender rfl
      rw [TransferState.InTable, hsender] at htable
      simp only [hsender, update_self]
      rw [hslot _ hres htable]
      exact Ne.symm hne
    · obtain ⟨hsame, hfills⟩ := hother o htable (fun h hr => hfilled ⟨h, hr⟩)
      simpa only [TransferState.Kept, TransferState.Intact, hsame, hfills] using hkept
  · obtain ⟨htable, hintact⟩ := hs.checked o ho
    refine ⟨hin o htable, ?_⟩
    obtain ⟨hsame, hfills⟩ := hother o htable
      (fun h hr => (hsafe _ hr).2 o ho h rfl)
    simpa only [TransferState.Intact, hsame, hfills] using hintact

/-- Emptying a slot disturbs no offer. -/
theorem inv_empty {task : Nat} (hs : s.Inv owner) (hcs : (s.spaces task).Empties cs i) :
    ({ s with spaces := update s.spaces task cs } : TransferState).Inv owner := by
  have hslot : ∀ o : Offer,
      ((update s.spaces task cs o.sender).slot o.slot.toNat).inUse = false ∨
        (update s.spaces task cs o.sender).slot o.slot.toNat =
          (s.spaces o.sender).slot o.slot.toNat := by
    intro o
    by_cases hsender : o.sender = task
    · rw [hsender, update_self]
      by_cases hi : o.slot.toNat = i
      · left
        rw [hi]
        exact hcs.empty
      · exact .inr (hcs.same _ hi)
    · exact .inr (by rw [update_of_ne hsender])
  have hin : ∀ o : Offer, s.InTable o →
      o.slot.toNat < (update s.spaces task cs o.sender).maxSlots := by
    intro o ho
    by_cases hsender : o.sender = task
    · rw [TransferState.InTable, hsender] at ho
      rwa [hsender, update_self, hcs.max_eq]
    · rwa [update_of_ne hsender]
  refine { hs with sized := fun t => ?_, pending := fun o ho => ?_, checked := fun o ho => ?_ }
  · by_cases ht : t = task
    · subst ht; simpa using hcs.sized
    · simpa [ht] using hs.sized t
  · obtain ⟨htable, hkept⟩ := hs.pending o ho
    refine ⟨hin o htable, ?_⟩
    rcases hslot o with hfree | hsame
    · exact .inl (.inl hfree)
    · simpa only [TransferState.Kept, TransferState.Intact, hsame] using hkept
  · obtain ⟨htable, hintact⟩ := hs.checked o ho
    refine ⟨hin o htable, ?_⟩
    rcases hslot o with hfree | hsame
    · exact .inl hfree
    · simpa only [TransferState.Intact, hsame] using hintact

/-! ### The lock sections -/

theorem sendStep_inv {msg : IpcMsg} (hs : s.Inv owner)
    (h : sendStep owner s tid port msg = some t) : t.Inv owner := by
  unfold sendStep at h
  split at h
  · split at h
    · rename_i hzero
      cases h
      refine inv_goto hs ⟨by omega, ?_, by simp⟩ (by simp [TransferPc.offers]) (by simp)
      simp [IpcMsg.descriptors, hzero]
    · split at h
      · cases h; exact hs
      · split at h
        · cases h; exact hs
        · cases h
          exact inv_goto hs ⟨by omega, by simp, by simp⟩ (by simp [TransferPc.offers]) (by simp)
  · simp at h

/-- A descriptor that validates names a slot of the sender's own table. -/
theorem validateDescriptor_eq_some {sender : Task} {d : IpcDispose}
    (h : validateDescriptor sender d = some snap) :
    (handleSlot d.handle).toNat < sender.cspace.maxSlots ∧
      sender.cspace.slot (handleSlot d.handle).toNat = snap := by
  unfold validateDescriptor at h
  split at h
  · simp at h
  split at h
  · simp at h
  rename_i snap' hsnap
  split at h
  · cases h
    unfold cspaceLookupSnapshot at hsnap
    split at hsnap
    · rename_i hrange
      simp only [CSpace.inRange, Bool.and_eq_true, decide_eq_true_eq] at hrange
      split at hsnap
      · cases hsnap
        exact ⟨by omega, rfl⟩
      · simp at hsnap
    · simp at hsnap
  · simp at h

theorem validateStep_inv (hs : s.Inv owner)
    (h : validateStep owner s tid = some t) : t.Inv owner := by
  unfold validateStep at h
  split at h
  · rename_i port msg done d rest task hpc howner
    split at h
    · cases h; exact inv_idle tid hs
    rename_i snap hsnap
    cases h
    obtain ⟨hrange, hslot⟩ := validateDescriptor_eq_some hsnap
    have hsound := hs.threads tid
    rw [hpc] at hsound
    obtain ⟨hmax, hdescs, hsenders⟩ := hsound
    refine inv_goto hs ⟨hmax, by simpa using hdescs, ?_⟩ ?_ (by simp)
    · intro o ho
      rcases mem_append.mp ho with hold | hnew
      · exact hsenders o hold
      · rw [mem_singleton.mp hnew]
        exact howner
    · intro o ho
      rcases mem_append.mp ho with hold | hnew
      · exact hs.pending o (.inl ⟨tid, by rw [hpc]; exact hold⟩)
      · rw [mem_singleton.mp hnew]
        exact ⟨hrange, .inl (.inr ⟨hslot, rfl⟩)⟩
  · simp at h

theorem enqueueStep_inv {mem : QueueMem} (hs : s.Inv owner)
    (h : enqueueStep owner s tid mem = some t) : t.Inv owner := by
  unfold enqueueStep at h
  split at h
  · rename_i port msg done hpc
    simp only [some.injEq] at h
    subst h
    have hsound := hs.threads tid
    rw [hpc] at hsound
    obtain ⟨hmax, hdescs, hsenders⟩ := hsound
    have hqueued : ∀ os ∈ s.queued port, ∀ o ∈ os, s.Pending o :=
      fun os hos o ho => .inr ⟨port, os, hos, ho⟩
    rcases portSendLocked_spec msg (s.sender owner tid) mem (hs.ports port) with
      ⟨hcode, hsame⟩ | ⟨hcode, hwf, hcontents, _⟩
    · rw [if_neg hcode, hsame]
      exact inv_idle tid (inv_port port hs (hs.ports port) (hs.queue port) hqueued)
    rw [if_pos hcode]
    refine inv_idle tid (inv_port port hs hwf ?_ ?_)
    · rw [hcontents]
      refine rel_append (hs.queue port) (List.Forall₂.cons ⟨?_, ?_⟩ List.Forall₂.nil)
      · simpa [clampedPayload, Nat.min_eq_left hmax, IpcMsg.descriptors] using hdescs
      · intro o ho
        simp [clampedPayload, sender, hsenders o ho, senderId]
    · intro os hos o ho
      rcases mem_append.mp hos with hold | hnew
      · exact hqueued os hold o ho
      · rw [mem_singleton.mp hnew] at ho
        exact .inl ⟨tid, by rw [hpc]; exact ho⟩
  · simp at h

theorem withOffers_map (offers : List Offer) :
    withOffers (offers.map (·.desc)) offers = offers := by
  induction offers with
  | nil => rfl
  | cons o rest ih => simp [withOffers, ih]

theorem recvStep_inv {buf : IpcMsg} (hs : s.Inv owner)
    (h : recvStep owner s tid port buf = some t) : t.Inv owner := by
  obtain ⟨hwf, hrecv⟩ := portRecv_spec buf (some tid) (hs.ports port)
  have hqueue := hs.queue port
  unfold recvStep at h
  split at h
  · cases hcontents : (s.ports port).contents with
    | nil =>
      -- no message: the records of the queue stay as they are
      rw [hcontents] at hrecv hqueue
      obtain ⟨hafter, _, hresult⟩ := hrecv
      have hkeep : ({ s with
          ports := update s.ports port (portRecv (s.ports port) buf (some tid)).2 } :
            TransferState).Inv owner := by
        have := inv_port port hs hwf (by rw [hafter]; exact hqueue)
          (fun os hos o ho => .inr ⟨port, os, hos, ho⟩)
        simpa using this
      by_cases hnotify : (s.ports port).pendingNotify = true
      · simp only [hnotify, if_true] at hresult
        obtain ⟨buf', hresult⟩ := hresult
        simp only [hresult, some.injEq] at h
        exact h ▸ hkeep
      · simp only [hnotify, Bool.false_eq_true, if_false] at hresult
        simp only [hresult, some.injEq] at h
        exact h ▸ hkeep
    | cons x xs =>
      rw [hcontents] at hrecv hqueue
      obtain ⟨hafter, _, msg, sender, hresult, hpayload⟩ := hrecv
      cases hqueued : s.queued port with
      | nil => rw [hqueued] at hqueue; cases hqueue
      | cons offers later =>
        rw [hqueued] at hqueue
        obtain ⟨⟨hdescs, hsenders⟩, hlater⟩ := forall₂_cons.mp hqueue
        have hoffers : withOffers msg.descriptors offers = offers := by
          have : msg.descriptors = x.dispose := by rw [← hpayload]; rfl
          rw [this, ← hdescs, withOffers_map]
        have hsender : x.sender = sender := by rw [← hpayload]; rfl
        have hold : ∀ os ∈ offers :: later, ∀ o ∈ os, s.Pending o :=
          fun os hos o ho => .inr ⟨port, os, by rw [hqueued]; exact hos, ho⟩
        have hkeep := inv_port port hs hwf (by rw [hafter]; exact hlater)
          (fun os hos => hold os (mem_cons_of_mem _ hos))
        simp only [hresult, hqueued, headD_cons, tail_cons, hoffers] at h
        split at h
        · cases h
          refine inv_goto hkeep (fun o ho => by rw [hsenders o ho, hsender]) ?_ (by simp)
          exact fun o ho => hs.pending o (hold offers mem_cons_self o ho)
        · cases h
          exact hkeep
  · simp at h

theorem holdStep_inv (hs : s.Inv owner) (h : holdStep s tid = some t) : t.Inv owner := by
  unfold holdStep at h
  split at h
  · rename_i sender rest hpc _
    have hsound := hs.threads tid
    rw [hpc] at hsound
    split at h
    · cases h
      have hgoto : (s.goto tid (.delivering sender rest)).Inv owner :=
        inv_goto hs hsound (fun o ho => hs.pending o (.inl ⟨tid, by rw [hpc]; exact ho⟩))
          (by simp)
      exact { hgoto with }
    · cases h
      exact inv_idle tid hs
  · simp at h

/-- A slot that a lookup finds in use with the offered type is intact. -/
theorem intact_of_kept (hkept : s.Kept o)
    (hlookup : cspaceLookupSnapshot (s.spaces o.sender) o.slot = some snap)
    (htype : snap.type = o.desc.type) : s.Intact o := by
  have hsnap : (s.spaces o.sender).slot o.slot.toNat = snap := by
    unfold cspaceLookupSnapshot at hlookup
    split at hlookup
    · split at hlookup
      · simpa using hlookup
      · simp at hlookup
    · simp at hlookup
  rcases hkept with hintact | hchanged
  · exact hintact
  · rw [hsnap] at hchanged
    exact absurd htype hchanged

theorem checkStep_inv (hs : s.Inv owner) (h : checkStep s tid = some t) : t.Inv owner := by
  unfold checkStep at h
  split at h
  · rename_i sender o rest hpc
    have hsound := hs.threads tid
    rw [hpc] at hsound
    have hpending : ∀ o' ∈ o :: rest, s.InTable o' ∧ s.Kept o' :=
      fun o' ho' => hs.pending o' (.inl ⟨tid, by rw [hpc]; exact ho'⟩)
    have hskip : (s.goto tid (.delivering sender rest)).Inv owner :=
      inv_goto hs (fun o' ho' => hsound o' (mem_cons_of_mem _ ho'))
        (fun o' ho' => hpending o' (mem_cons_of_mem _ ho')) (by simp)
    have hmine : o.sender = sender := hsound o mem_cons_self
    subst hmine
    split at h
    · cases h; exact hskip
    split at h
    · cases h; exact hskip
    rename_i snap hsnap
    split at h
    · cases h; exact hskip
    rename_i htype
    cases h
    obtain ⟨htable, hkept⟩ := hpending o mem_cons_self
    refine inv_goto hs (fun o' ho' => hsound o' (mem_cons_of_mem _ ho'))
      (fun o' ho' => hpending o' (mem_cons_of_mem _ ho')) ?_
    intro o' rest' heq
    cases heq
    exact ⟨htable, intact_of_kept hkept hsnap (by simpa using htype)⟩
  · simp at h

theorem moveStep_inv {mem : GrowMem} (hs : s.Inv owner)
    (hsafe : ∀ o rest receiver i, s.threads tid = .checked o rest → owner tid = some receiver →
      (cspaceMove (s.spaces o.sender) (s.spaces receiver) o.slot mem).1 = some i →
      s.FillSafe receiver i ((s.spaces o.sender).slot o.slot.toNat).type)
    (h : moveStep owner s tid mem = some t) : t.Inv owner := by
  unfold moveStep at h
  split at h
  · rename_i o rest receiver hpc howner
    split at h
    · simp at h
    rename_i hne
    cases h
    obtain ⟨hsrc, hext, hslot⟩ := cspaceMove_extends o.slot mem (hs.sized o.sender)
      (hs.sized receiver)
    have hfill := fun i => hsafe o rest receiver i hpc howner
    have hsound := hs.threads tid
    rw [hpc] at hsound
    -- what is installed is the slot's contents, and a slot in use is the offered one
    have hinstalled : ∀ i, (cspaceMove (s.spaces o.sender) (s.spaces receiver) o.slot mem).1 =
        some i → (s.spaces o.sender).slot o.slot.toNat = o.cap ∧
          s.fills o.sender o.slot.toNat = o.gen := by
      intro i hi
      rcases hsrc with ⟨hnone, _⟩ | ⟨hused, _⟩
      · rw [hnone] at hi
        simp at hi
      · rcases (hs.checked o ⟨tid, rest, hpc⟩).2 with hfree | hsame
        · rw [hused] at hfree
          simp at hfree
        · exact hsame
    -- first the source slot is emptied, then the destination slot is filled
    let src' := (cspaceMove (s.spaces o.sender) (s.spaces receiver) o.slot mem).2.1
    have hemptied : ({ s with spaces := update s.spaces o.sender src' } :
        TransferState).Inv owner := by
      rcases hsrc with ⟨_, hsame⟩ | ⟨_, hempties⟩
      · have hid : update s.spaces o.sender src' = s.spaces := by
          rw [show src' = s.spaces o.sender from hsame, update_eq_self]
        rw [hid]
        exact hs
      · exact inv_empty hs hempties
    have hdst : ∀ cs, update s.spaces o.sender cs receiver = s.spaces receiver :=
      fun cs => update_of_ne (Ne.symm hne) _ _
    have hfilled := inv_fill receiver hemptied (by simp only [hdst]; exact hext)
      (by
        intro i hi hlt
        simp only [hdst] at hlt
        rw [hslot i hi hlt])
      hfill
    have hgoto : (goto _ tid (.delivering o.sender rest)).Inv owner :=
      inv_goto hfilled hsound
        (fun o' ho' => hfilled.pending o' (.inl ⟨tid, by rw [hpc]; exact ho'⟩))
        (by simp)
    refine ⟨hgoto.1, hgoto.2, hgoto.3, hgoto.4, hgoto.5, hgoto.6, ?_⟩
    intro e he
    rcases mem_append.mp he with hold | hnew
    · exact hs.installed e hold
    · split at hnew
      · simp at hnew
      · rename_i i hi
        rw [mem_singleton.mp hnew]
        exact hinstalled i hi
  · simp at h

theorem finishStep_inv (hs : s.Inv owner) (h : finishStep s tid = some t) : t.Inv owner := by
  unfold finishStep at h
  split at h
  · cases h
    have hidle := inv_idle tid hs
    exact { hidle with }
  · simp at h

/-! ## Runs -/

variable (owner)

/-- The condition on a step: a slot that an offer in flight names is not filled
with a capability of the offered type, nor with any between the offer's check and
its move. -/
def NoReuse (s : TransferState) : TransferLabel → Prop
  | .alloc task type rights objectId mem =>
      ∀ i, (cspaceAllocSlot (s.spaces task) type rights objectId mem).1 = some i →
        s.FillSafe task i type
  | .move tid mem =>
      ∀ o rest receiver i, s.threads tid = .checked o rest → owner tid = some receiver →
        (cspaceMove (s.spaces o.sender) (s.spaces receiver) o.slot mem).1 = some i →
        s.FillSafe receiver i ((s.spaces o.sender).slot o.slot.toNat).type
  | _ => True

theorem transferStep_inv (s : TransferState) (label : TransferLabel) (t : TransferState)
    (hs : s.Inv owner) (hok : NoReuse owner s label)
    (hstep : transferStep owner s label = some t) : t.Inv owner := by
  cases label with
  | send tid port msg => exact sendStep_inv hs hstep
  | validate tid => exact validateStep_inv hs hstep
  | enqueue tid mem => exact enqueueStep_inv hs hstep
  | recv tid port buf => exact recvStep_inv hs hstep
  | hold tid => exact holdStep_inv hs hstep
  | check tid => exact checkStep_inv hs hstep
  | move tid mem => exact moveStep_inv hs hok hstep
  | finish tid => exact finishStep_inv hs hstep
  | alloc task type rights objectId mem =>
    simp only [transferStep, some.injEq] at hstep
    subst hstep
    obtain ⟨hext, hslot⟩ := cspaceAllocSlot_extends type rights objectId mem (hs.sized task)
    exact inv_fill task hs hext (fun i hi hlt => by rw [hslot i hi hlt]) hok
  | free task slot =>
    simp only [transferStep, some.injEq] at hstep
    subst hstep
    rcases cspaceFreeSlot_empties slot (hs.sized task) with hsame | hempties
    · rw [hsame, update_eq_self]
      exact hs
    · exact inv_empty hs hempties
  | exit task =>
    simp only [transferStep] at hstep
    split at hstep
    · cases hstep
      exact { hs with }
    · simp at hstep

end Invariant

/-- Every task has an empty C-space, every port is new and every thread idle. -/
def transferInit (queue : Nat → IpcMsg) (senders : Nat → Nat) : TransferState where
  spaces := cspacesInit
  linked := fun _ => true
  taskLock := none
  ports := fun _ => portFresh queue senders
  threads := fun _ => .idle
  fills := fun _ _ => 0
  queued := fun _ => []
  installed := []

theorem transferInit_inv (owner : Nat → Option Nat) (queue : Nat → IpcMsg)
    (senders : Nat → Nat) : (transferInit queue senders).Inv owner where
  sized := fun _ => cspaceInit_coherent.slots_length
  ports := fun _ => portFresh_wellFormed queue senders
  queue := fun _ => List.Forall₂.nil
  threads := fun _ => trivial
  pending := by
    rintro o (⟨tid, ho⟩ | ⟨port, offers, hoffers, _⟩)
    · simp [transferInit, TransferPc.offers] at ho
    · simp [transferInit] at hoffers
  checked := by
    rintro o ⟨tid, rest, hpc⟩
    simp [transferInit] at hpc
  installed := by simp [transferInit]

/-- In every interleaving in which no slot named by an offer in flight is reused
for a capability of the offered type, every capability a delivery installed is
the very capability the sender's slot held when the send was validated. -/
theorem transfer_installs_validated (owner : Nat → Option Nat) (queue : Nat → IpcMsg)
    (senders : Nat → Nat) (labels : List TransferLabel) (s : TransferState)
    (meets : AllSteps (transferStep owner) (NoReuse owner) (transferInit queue senders) labels)
    (run : exec (transferStep owner) (transferInit queue senders) labels = some s) :
    ∀ e ∈ s.installed, e.cap = e.offer.cap ∧ e.gen = e.offer.gen :=
  (exec_invariant (transferStep_inv owner) (transferInit_inv owner queue senders) meets
    run).installed

/-! ## Two runs

Thread `n` belongs to task `n`.  Task 1 holds a port capability in slot 1 and
offers it to task 2. -/

/-- A message that offers slot 1 of task 1. -/
def offerMsg : IpcMsg :=
  { (default : IpcMsg) with
    ndispose := 1
    dispose := Vector.replicate ipcDisposeMax ⟨capPort, capSend, taskMakeHandle 1 1⟩ }

/-- Task 1 gets its capability and sends the message. -/
def offerRun : List TransferLabel :=
  [.alloc 1 capPort capSend 0x1000 zeroMem, .send 1 0 offerMsg, .validate 1,
    .enqueue 1 ⟨none, none⟩]

/-- Task 2 receives the message and takes the capability. -/
def deliverRun : List TransferLabel :=
  [.recv 2 0 default, .hold 2, .check 2, .move 2 zeroMem, .finish 2]

/-- The initial state of the two runs. -/
def transferStart : TransferState := transferInit (fun _ => default) (fun _ => 0)

theorem transfer_installs_validated_delivery :
    ∃ s, exec (transferStep some) transferStart (offerRun ++ deliverRun) = some s ∧
      s.installed.length = 1 ∧ ∀ e ∈ s.installed, e.cap = e.offer.cap ∧ e.gen = e.offer.gen := by
  refine ⟨_, rfl, rfl, transfer_installs_validated some (fun _ => default) (fun _ => 0)
    (offerRun ++ deliverRun) _ ?_ rfl⟩
  refine ⟨?_, fun t ht => ?_⟩
  · -- nothing is offered yet
    intro i _
    refine ⟨?_, ?_⟩
    · rintro o (⟨tid, ho⟩ | ⟨port, offers, hoffers, _⟩)
      · simp [transferInit, TransferPc.offers] at ho
      · simp [transferInit] at hoffers
    · rintro o ⟨tid, rest, hpc⟩
      simp [transferInit] at hpc
  cases ht
  iterate 6
    refine .cons trivial rfl ?_
  refine ⟨?_, fun t ht => ⟨trivial, fun _ _ => trivial⟩⟩
  -- the one offer in flight is the one being moved, and it is not task 2's
  intro o rest receiver i _ howner _
  cases howner
  refine ⟨?_, ?_⟩
  · rintro o (⟨tid, ho⟩ | ⟨port, offers, hoffers, _⟩)
    · match tid, ho with
      | 0, ho => exact absurd ho not_mem_nil
      | 1, ho => exact absurd ho not_mem_nil
      | 2, ho => exact absurd ho not_mem_nil
      | n + 3, ho => exact absurd ho not_mem_nil
    · match port, hoffers with
      | 0, hoffers => exact absurd hoffers not_mem_nil
      | n + 1, hoffers => exact absurd hoffers not_mem_nil
  · rintro o ⟨tid, rest, hpc⟩ hsender
    match tid, hpc with
    | 0, hpc => cases hpc
    | 1, hpc => cases hpc
    | 2, hpc =>
      cases hpc
      exact absurd hsender (by decide)
    | n + 3, hpc => cases hpc

/-- The sender frees the offered slot and fills it with a more powerful
capability before the receiver looks: the receiver gets that one. -/
theorem reused_slot_is_delivered :
    ∃ s, exec (transferStep some) transferStart
        (offerRun ++
          [.free 1 1, .alloc 1 capPort (capSend + capRecv) 0x2000 zeroMem] ++ deliverRun) =
          some s ∧
      s.installed.map (fun e => (e.offer.cap, e.cap)) =
        [(⟨0x1000, capPort, capSend, true⟩, ⟨0x2000, capPort, capSend + capRecv, true⟩)] :=
  ⟨_, rfl, rfl⟩

end ArcKernel.Ipc
