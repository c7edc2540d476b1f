import ArcKernel.Foundation.Run

/-!
# The user-pager protocol (`mk/vm/vm_pager.c`)

A thread that faults on a user-paged object takes a slot of the fault table, sends a
request to the pager, writes its thread id into the slot, blocks, and reads the page
from the slot when it is woken.  The pager answers a request by thread id: the reply
goes to the first valid slot that carries the id, and wakes the thread.

Each lock section of `vm_pager_send_fault` is one step of its thread, and
`vm_pager_handle_reply` is one step of the pager.  The model numbers the faults; no
step reads the numbers or the records of the replies given and the pages threads
resumed with.

The port of the pager, the reply port and its slot belong to the port model.  Of the
failures between the allocation of the slot and the end of the send only the effect
on the fault table is kept: the slot is given back.
-/

namespace ArcKernel.Vm

open ArcKernel.Foundation Function List Option

variable {f i : Nat}

/-! ## Data model -/

def pagerFaultsMax : Nat := 16

/-- `pager_fault_t`. -/
structure PagerFault where
  blockedTid : UInt32
  replyPhys : UInt64
  valid : Bool
  deriving Inhabited

/-- `ipc_pager_fault_req_t`. -/
structure PagerReq where
  objectId : UInt64
  faultOffset : UInt64
  prot : UInt32
  faultTid : UInt32
  replyHandle : UInt64
  deriving DecidableEq

/-- Where a thread is in `vm_pager_send_fault`, with the number of its fault and its
slot. -/
inductive PagerPc where
  | idle
  | slotted (fault slot : Nat)
  | sent (fault slot : Nat)
  | recorded (fault slot : Nat)
  | waiting (fault slot : Nat)

def PagerPc.slot? : PagerPc → Option Nat
  | .idle => none
  | .slotted _ i => some i
  | .sent _ i => some i
  | .recorded _ i => some i
  | .waiting _ i => some i

def PagerPc.fault? : PagerPc → Option Nat
  | .idle => none
  | .slotted f _ => some f
  | .sent f _ => some f
  | .recorded f _ => some f
  | .waiting f _ => some f

/-- `blocked` says which threads have the state `THREAD_BLOCKED`.  `delivered` are
the requests in the pager's port, with the number of the fault each one is about;
`replies` and `resumed` pair a fault with a page. -/
structure PagerSys where
  table : List PagerFault
  pc : UInt32 → PagerPc
  blocked : UInt32 → Bool
  delivered : List (Nat × PagerReq)
  nextFault : Nat
  replies : List (Nat × UInt64)
  resumed : List (Nat × UInt64)

def PagerSys.cell (s : PagerSys) (i : Nat) : PagerFault := s.table.getD i default

def PagerSys.setCell (s : PagerSys) (i : Nat) (x : PagerFault) : PagerSys :=
  { s with table := s.table.set i x }

def PagerSys.goto (s : PagerSys) (tid : UInt32) (pc : PagerPc) : PagerSys :=
  { s with pc := update s.pc tid pc }

/-! ## The source's functions -/

/-- `pager_fault_alloc_slot`, the search. -/
def pagerFaultAllocSlot (table : List PagerFault) : Option Nat := table.findIdx? (!·.valid)

/-- `pager_fault_find_by_tid`. -/
def pagerFaultFindByTid (table : List PagerFault) (tid : UInt32) : Option Nat :=
  table.findIdx? fun x => x.valid && x.blockedTid == tid

/-- `pager_phys_valid`: a page-aligned frame below the top of RAM. -/
def pagerPhysValid (totalPages : UInt32) (phys : UInt64) : Bool :=
  phys != 0 && phys &&& 4095 == 0 && decide (phys < totalPages.toUInt64 * 4096)

/-- `vm_pager_handle_reply`, for the id of a thread that exists. -/
def vmPagerHandleReply (totalPages : UInt32) (s : PagerSys) (faultTid physAddr : UInt64) :
    Int × PagerSys :=
  if faultTid = 0 ∨ pagerPhysValid totalPages physAddr = false then (-22, s)
  else
    match pagerFaultFindByTid s.table faultTid.toUInt32 with
    | none => (-3, s)
    | some i =>
        (0, { s.setCell i { s.cell i with replyPhys := physAddr } with
          blocked := update s.blocked faultTid.toUInt32 false })

/-! ## Steps -/

/-- `fault`, `send`, `record`, `block` and `resume` are the steps of a thread in
`vm_pager_send_fault`, and `giveUp` is a failure before the send is done.  `reply` is
the pager's answer to a request. -/
inductive PagerStep where
  | fault (tid : UInt32)
  | giveUp (tid : UInt32)
  | send (tid : UInt32) (objectId faultOffset : UInt64) (prot : UInt32) (replyHandle : UInt64)
  | record (tid : UInt32)
  | block (tid : UInt32)
  | resume (tid : UInt32)
  | reply (fault : Nat) (req : PagerReq) (phys : UInt64)

/-- One step.  A thread comes back from `thread_yield` when it is not blocked.
Thread 0 is the idle thread, which does not fault. -/
def pagerStep (totalPages : UInt32) (s : PagerSys) : PagerStep → Option PagerSys
  | .fault tid =>
      match s.pc tid with
      | .idle =>
          if tid = 0 then none
          else
            match pagerFaultAllocSlot s.table with
            | none => some s
            | some i =>
                some { (s.setCell i { s.cell i with valid := true }).goto tid
                    (.slotted s.nextFault i) with nextFault := s.nextFault + 1 }
      | _ => none
  | .giveUp tid =>
      match s.pc tid with
      | .slotted _ i => some ((s.setCell i { s.cell i with valid := false }).goto tid .idle)
      | _ => none
  | .send tid objectId faultOffset prot replyHandle =>
      match s.pc tid with
      | .slotted f i =>
          some { s.goto tid (.sent f i) with
            delivered := s.delivered ++ [(f, ⟨objectId, faultOffset, prot, tid, replyHandle⟩)] }
      | _ => none
  | .record tid =>
      match s.pc tid with
      | .sent f i =>
          some ((s.setCell i { s.cell i with blockedTid := tid, replyPhys := 0 }).goto tid
            (.recorded f i))
      | _ => none
  | .block tid =>
      match s.pc tid with
      | .recorded f i =>
          some { s.goto tid (.waiting f i) with blocked := update s.blocked tid true }
      | _ => none
  | .resume tid =>
      match s.pc tid with
      | .waiting f i =>
          if s.blocked tid then none
          else
            let phys := (s.cell i).replyPhys
            let done := (s.setCell i { s.cell i with valid := false }).goto tid .idle
            if pagerPhysValid totalPages phys then
              some { done with resumed := s.resumed ++ [(f, phys)] }
            else some done
      | _ => none
  | .reply f req phys =>
      if (f, req) ∈ s.delivered then
        some { (vmPagerHandleReply totalPages s req.faultTid.toUInt64 phys).2 with
          replies := s.replies ++ [(f, phys)] }
      else none

def pagerStart : PagerSys where
  table := replicate pagerFaultsMax ⟨0, 0, false⟩
  pc := fun _ => .idle
  blocked := fun _ => false
  delivered := []
  nextFault := 0
  replies := []
  resumed := []

/-! ## The property -/

/-- Every page a thread resumed with is one the pager gave for that very fault, and
every reply has been consumed by its fault or is consumed by the next step of the
thread that waits in the fault. -/
structure PagerSys.Faithful (totalPages : UInt32) (s : PagerSys) : Prop where
  own : ∀ f phys, (f, phys) ∈ s.resumed → (f, phys) ∈ s.replies
  consumed : ∀ f phys, (f, phys) ∈ s.replies → (f, phys) ∈ s.resumed ∨
    ∃ tid i t, s.pc tid = .waiting f i ∧ pagerStep totalPages s (.resume tid) = some t ∧
      (f, phys) ∈ t.resumed

/-- A reply comes when its fault can take it: the page is a frame, the thread is
blocked in the fault the reply is for, and no slot before its own carries its id. -/
def PagerStep.Timely (totalPages : UInt32) (s : PagerSys) : PagerStep → Prop
  | .reply f req phys => pagerPhysValid totalPages phys = true ∧
      ∃ i, s.pc req.faultTid = .waiting f i ∧ s.blocked req.faultTid = true ∧
        ∀ j < i, (s.cell j).valid = true → (s.cell j).blockedTid ≠ req.faultTid
  | _ => True

/-! ## The invariant -/

/-- What holds of one thread: its slot is valid and carries its id once it is
recorded, its fault has a reply exactly when the thread has been woken, and that
reply is the page in the slot. -/
structure PagerSys.ThreadOk (totalPages : UInt32) (s : PagerSys) (tid : UInt32) : Prop where
  held : ∀ i, (s.pc tid).slot? = some i → i < pagerFaultsMax ∧ (s.cell i).valid = true
  known : ∀ f, (s.pc tid).fault? = some f → f < s.nextFault
  named : ∀ f i, s.pc tid = .recorded f i ∨ s.pc tid = .waiting f i → (s.cell i).blockedTid = tid
  answered : ∀ f phys, (s.pc tid).fault? = some f → (f, phys) ∈ s.replies →
    ∃ i, s.pc tid = .waiting f i ∧ s.blocked tid = false ∧ (s.cell i).replyPhys = phys
  woken : ∀ f i, s.pc tid = .waiting f i → s.blocked tid = false →
    pagerPhysValid totalPages (s.cell i).replyPhys = true ∧ (f, (s.cell i).replyPhys) ∈ s.replies

/-- No two threads share a slot or a fault, and a reply that was not consumed is for
a fault some thread is still in. -/
structure PagerSys.Inv (totalPages : UInt32) (s : PagerSys) : Prop where
  length : s.table.length = pagerFaultsMax
  idleZero : s.pc 0 = .idle
  threads : ∀ tid, s.ThreadOk totalPages tid
  slotOwner : ∀ tid other i, (s.pc tid).slot? = some i → (s.pc other).slot? = some i → tid = other
  faultOwner : ∀ tid other f, (s.pc tid).fault? = some f → (s.pc other).fault? = some f →
    tid = other
  repliedKnown : ∀ f phys, (f, phys) ∈ s.replies → f < s.nextFault
  settled : ∀ f phys, (f, phys) ∈ s.replies →
    (f, phys) ∈ s.resumed ∨ ∃ tid, (s.pc tid).fault? = some f
  own : ∀ f phys, (f, phys) ∈ s.resumed → (f, phys) ∈ s.replies

variable {totalPages : UInt32} {s t : PagerSys} {tid : UInt32}

theorem PagerSys.cell_setCell (x : PagerFault) (hi : i < s.table.length) (j : Nat) :
    (s.setCell i x).cell j = if j = i then x else s.cell j := by
  simp only [PagerSys.setCell, PagerSys.cell, getD_eq_getElem?_getD, getElem?_set]
  by_cases hij : i = j
  · subst hij
    simp [hi]
  · rw [if_neg hij, if_neg fun h => hij h.symm]

/-- A thread that has been woken with a frame resumes with it. -/
theorem pagerStep_resume (hpc : s.pc tid = .waiting f i) (hawake : s.blocked tid = false)
    (hvalid : pagerPhysValid totalPages (s.cell i).replyPhys = true) :
    pagerStep totalPages s (.resume tid) =
      some { (s.setCell i { s.cell i with valid := false }).goto tid .idle with
        resumed := s.resumed ++ [(f, (s.cell i).replyPhys)] } := by
  simp [pagerStep, hpc, hawake, hvalid]

/-- The invariant gives the property: the reply that is not consumed waits in the
slot of a thread that is awake. -/
theorem PagerSys.Inv.faithful (h : s.Inv totalPages) : s.Faithful totalPages := by
  refine ⟨h.own, fun f phys hreply => ?_⟩
  rcases h.settled f phys hreply with hdone | ⟨tid, hfault⟩
  · exact .inl hdone
  · obtain ⟨i, hpc, hawake, hphys⟩ := (h.threads tid).answered f phys hfault hreply
    have hvalid := ((h.threads tid).woken f i hpc hawake).1
    refine .inr ⟨tid, i, _, hpc, pagerStep_resume hpc hawake hvalid, ?_⟩
    rw [hphys]
    exact mem_append_right _ (mem_singleton_self _)

theorem PagerSys.ThreadOk.of_idle (hpc : s.pc tid = .idle) : s.ThreadOk totalPages tid := by
  constructor <;> simp [hpc, PagerPc.slot?, PagerPc.fault?]

/-- A thread that still has its reply to come. -/
theorem PagerSys.ThreadOk.of_open (hslot : (s.pc tid).slot? = some i)
    (hfault : (s.pc tid).fault? = some f) (hi : i < pagerFaultsMax)
    (hvalid : (s.cell i).valid = true) (hf : f < s.nextFault)
    (hnone : ∀ phys, (f, phys) ∉ s.replies)
    (hnamed : s.pc tid = .recorded f i ∨ s.pc tid = .waiting f i → (s.cell i).blockedTid = tid)
    (hwaits : s.pc tid = .waiting f i → s.blocked tid = true) : s.ThreadOk totalPages tid := by
  have hsame : ∀ g j, (s.pc tid).slot? = some j → (s.pc tid).fault? = some g →
      g = f ∧ j = i := fun g j hj hg =>
    ⟨some.inj (hg.symm.trans hfault), some.inj (hj.symm.trans hslot)⟩
  constructor
  · intro j hj
    exact (hsame f j hj hfault).2 ▸ ⟨hi, hvalid⟩
  · intro g hg
    exact (hsame g i hslot hg).1 ▸ hf
  · intro g j hpc
    obtain ⟨rfl, rfl⟩ : g = f ∧ j = i := by
      rcases hpc with hpc | hpc <;> exact hsame g j (by rw [hpc]; rfl) (by rw [hpc]; rfl)
    exact hnamed hpc
  · intro g phys hg hreply
    exact absurd ((hsame g i hslot hg).1 ▸ hreply) (hnone phys)
  · intro g j hpc hawake
    obtain ⟨rfl, rfl⟩ := hsame g j (by rw [hpc]; rfl) (by rw [hpc]; rfl)
    rw [hwaits hpc] at hawake
    cases hawake

theorem pagerStart_inv : pagerStart.Inv totalPages where
  length := length_replicate
  idleZero := rfl
  threads := fun _ => .of_idle rfl
  slotOwner := nofun
  faultOwner := nofun
  repliedKnown := nofun
  settled := nofun
  own := nofun

/-- What a step leaves alone in a thread keeps the thread's part of the invariant. -/
theorem PagerSys.ThreadOk.frame (h : s.ThreadOk totalPages tid) (hpc : t.pc tid = s.pc tid)
    (hblocked : t.blocked tid = s.blocked tid)
    (hcell : ∀ i, (s.pc tid).slot? = some i → t.cell i = s.cell i)
    (hnext : s.nextFault ≤ t.nextFault) (hkept : ∀ x ∈ s.replies, x ∈ t.replies)
    (hnew : ∀ f phys, (s.pc tid).fault? = some f → (f, phys) ∈ t.replies → (f, phys) ∈ s.replies) :
    t.ThreadOk totalPages tid where
  held := fun i hi => by
    rw [hpc] at hi
    rw [hcell i hi]
    exact h.held i hi
  known := fun f hf => by
    rw [hpc] at hf
    exact (h.known f hf).trans_le hnext
  named := fun f i hi => by
    rw [hpc] at hi
    have hslot : (s.pc tid).slot? = some i := by rcases hi with hi | hi <;> rw [hi] <;> rfl
    rw [hcell i hslot]
    exact h.named f i hi
  answered := fun f phys hf hreply => by
    rw [hpc] at hf
    obtain ⟨i, hi, hawake, hphys⟩ := h.answered f phys hf (hnew f phys hf hreply)
    refine ⟨i, hpc.trans hi, hblocked.trans hawake, ?_⟩
    rw [hcell i (by rw [hi]; rfl)]
    exact hphys
  woken := fun f i hi hawake => by
    rw [hpc] at hi
    rw [hblocked] at hawake
    rw [hcell i (by rw [hi]; rfl)]
    obtain ⟨hvalid, hreply⟩ := h.woken f i hi hawake
    exact ⟨hvalid, hkept _ hreply⟩

/-! ## Steps of a thread -/

/-- A step of thread `tid` to `pc` touches no other thread, no slot another thread
holds and no reply. -/
structure PagerSys.Moves (s t : PagerSys) (tid : UInt32) (pc : PagerPc) : Prop where
  pc : t.pc = update s.pc tid pc
  blocked : ∀ other, other ≠ tid → t.blocked other = s.blocked other
  length : t.table.length = s.table.length
  cells : ∀ other, other ≠ tid → ∀ j, (s.pc other).slot? = some j → t.cell j = s.cell j
  replies : t.replies = s.replies
  next : s.nextFault ≤ t.nextFault

section

variable (h : s.Inv totalPages)
include h

/-- The thread keeps its slot and its fault, or takes new ones nobody has, and no
reply of its fault is dropped. -/
theorem PagerSys.Inv.move {pc : PagerPc} (hmove : s.Moves t tid pc) (hzero : tid ≠ 0)
    (hslot : ∀ other, other ≠ tid → ∀ i, pc.slot? = some i → (s.pc other).slot? ≠ some i)
    (hfault : ∀ other, other ≠ tid → ∀ f, pc.fault? = some f → (s.pc other).fault? ≠ some f)
    (hok : t.ThreadOk totalPages tid)
    (hsettled : ∀ f phys, (f, phys) ∈ s.replies → (s.pc tid).fault? = some f →
      (f, phys) ∈ t.resumed ∨ pc.fault? = some f) (hresumed : ∀ x ∈ s.resumed, x ∈ t.resumed)
    (hown : ∀ f phys, (f, phys) ∈ t.resumed → (f, phys) ∈ s.replies) : t.Inv totalPages := by
  have hself : t.pc tid = pc := by rw [hmove.pc, update_self]
  have hothers : ∀ other, other ≠ tid → t.pc other = s.pc other := fun other hne => by
    rw [hmove.pc, update_of_ne hne]
  constructor
  · rw [hmove.length, h.length]
  · rw [hothers 0 hzero.symm, h.idleZero]
  · intro other
    by_cases hne : other = tid
    · exact hne ▸ hok
    · refine (h.threads other).frame (hothers other hne) (hmove.blocked other hne)
        (hmove.cells other hne) hmove.next ?_ ?_
      · exact fun x hx => hmove.replies ▸ hx
      · exact fun f phys _ hx => hmove.replies ▸ hx
  · intro a b i ha hb
    by_cases hat : a = tid <;> by_cases hbt : b = tid
    · rw [hat, hbt]
    · subst hat
      rw [hself] at ha
      rw [hothers b hbt] at hb
      exact absurd hb (hslot b hbt i ha)
    · subst hbt
      rw [hself] at hb
      rw [hothers a hat] at ha
      exact absurd ha (hslot a hat i hb)
    · rw [hothers a hat] at ha
      rw [hothers b hbt] at hb
      exact h.slotOwner a b i ha hb
  · intro a b f ha hb
    by_cases hat : a = tid <;> by_cases hbt : b = tid
    · rw [hat, hbt]
    · subst hat
      rw [hself] at ha
      rw [hothers b hbt] at hb
      exact absurd hb (hfault b hbt f ha)
    · subst hbt
      rw [hself] at hb
      rw [hothers a hat] at ha
      exact absurd ha (hfault a hat f hb)
    · rw [hothers a hat] at ha
      rw [hothers b hbt] at hb
      exact h.faultOwner a b f ha hb
  · intro f phys hx
    rw [hmove.replies] at hx
    exact (h.repliedKnown f phys hx).trans_le hmove.next
  · intro f phys hx
    rw [hmove.replies] at hx
    rcases h.settled f phys hx with hdone | ⟨other, hother⟩
    · exact .inl (hresumed _ hdone)
    by_cases hne : other = tid
    · subst hne
      rcases hsettled f phys hx hother with hdone | hkept
      · exact .inl hdone
      · exact .inr ⟨other, hself ▸ hkept⟩
    · exact .inr ⟨other, (hothers other hne).symm ▸ hother⟩
  · intro f phys hx
    rw [hmove.replies]
    exact hown f phys hx

/-- Writing the slot of a thread leaves the slots of the others alone. -/
theorem PagerSys.Inv.cell_other (hslot : (s.pc tid).slot? = some i) (x : PagerFault)
    (other : UInt32) (hne : other ≠ tid) (j : Nat) (hj : (s.pc other).slot? = some j) :
    (s.setCell i x).cell j = s.cell j := by
  have hi : i < s.table.length := h.length ▸ ((h.threads tid).held i hslot).1
  rw [PagerSys.cell_setCell x hi, if_neg]
  rintro rfl
  exact hne (h.slotOwner other tid j hj hslot)

theorem PagerSys.Inv.nonzero (hfault : (s.pc tid).fault? = some f) : tid ≠ 0 := by
  rintro rfl
  rw [h.idleZero] at hfault
  cases hfault

/-- A thread outside `waiting` has no reply yet. -/
theorem PagerSys.Inv.unanswered (hfault : (s.pc tid).fault? = some f)
    (hpc : ∀ i, s.pc tid ≠ .waiting f i) (phys : UInt64) : (f, phys) ∉ s.replies := fun hreply =>
  have ⟨i, hi, _, _⟩ := (h.threads tid).answered f phys hfault hreply
  hpc i hi

/-- A step of a thread that keeps its slot and its fault and has no reply yet. -/
theorem PagerSys.Inv.advance {pc : PagerPc} (hslot : (s.pc tid).slot? = some i)
    (hfault : (s.pc tid).fault? = some f) (hopen : ∀ i, s.pc tid ≠ .waiting f i)
    (hmove : s.Moves t tid pc) (hslot' : pc.slot? = some i) (hfault' : pc.fault? = some f)
    (hvalid : (t.cell i).valid = true) (hresumed : t.resumed = s.resumed)
    (hnamed : pc = .recorded f i ∨ pc = .waiting f i → (t.cell i).blockedTid = tid)
    (hwaits : pc = .waiting f i → t.blocked tid = true) : t.Inv totalPages := by
  have hself : t.pc tid = pc := by rw [hmove.pc, update_self]
  refine h.move hmove (h.nonzero hfault) (fun other hne j hj hother => hne ?_)
    (fun other hne g hg hother => hne ?_) ?_ (fun g phys _ hg => .inr ?_)
    (fun x hx => hresumed ▸ hx) (fun g phys hx => h.own g phys (hresumed ▸ hx))
  · exact h.slotOwner other tid i (some.inj (hj.symm.trans hslot') ▸ hother) hslot
  · exact h.faultOwner other tid f (some.inj (hg.symm.trans hfault') ▸ hother) hfault
  · subst hself
    refine .of_open hslot' hfault' ((h.threads tid).held i hslot).1 hvalid
      (((h.threads tid).known f hfault).trans_le hmove.next) (fun phys => ?_) hnamed hwaits
    exact hmove.replies ▸ h.unanswered hfault hopen phys
  · rw [hfault', ← hfault, hg]

/-- Leaving the protocol: the replies of the fault have been consumed. -/
theorem PagerSys.Inv.leave (hfault : (s.pc tid).fault? = some f) (hmove : s.Moves t tid .idle)
    (hconsumed : ∀ phys, (f, phys) ∈ s.replies → (f, phys) ∈ t.resumed)
    (hresumed : ∀ x ∈ s.resumed, x ∈ t.resumed)
    (hown : ∀ f phys, (f, phys) ∈ t.resumed → (f, phys) ∈ s.replies) : t.Inv totalPages := by
  refine h.move hmove (h.nonzero hfault) nofun
    nofun ?_ ?_ hresumed hown
  · exact .of_idle (by rw [hmove.pc, update_self])
  · intro g phys hreply hg
    rw [hfault, some.injEq] at hg
    exact .inl (hg ▸ hconsumed phys (hg ▸ hreply))

end

theorem pagerFaultAllocSlot_some {table : List PagerFault} (h : pagerFaultAllocSlot table = some i)
    : i < table.length ∧ (table.getD i default).valid = false := by
  obtain ⟨hi, hfree, _⟩ := findIdx?_eq_some_iff_getElem.mp h
  refine ⟨hi, ?_⟩
  rw [getD_eq_getElem?_getD, getElem?_eq_getElem hi]
  simpa using hfree

theorem held_of_pc {pc : PagerPc} (hpc : s.pc tid = pc) (hslot : pc.slot? = some i)
    (hfault : pc.fault? = some f) : (s.pc tid).slot? = some i ∧ (s.pc tid).fault? = some f := by
  rw [hpc]
  exact ⟨hslot, hfault⟩

section

variable (h : s.Inv totalPages)
include h

theorem inv_fault (hstep : pagerStep totalPages s (.fault tid) = some t) : t.Inv totalPages := by
  simp only [pagerStep] at hstep
  split at hstep
  on_goal 2 => cases hstep
  rename_i hpc
  split at hstep
  · cases hstep
  rename_i hzero
  split at hstep
  · exact some.inj hstep ▸ h
  rename_i i hslot
  obtain ⟨hi, hfree⟩ := pagerFaultAllocSlot_some hslot
  -- a slot that somebody holds is valid, so the new one is nobody's
  have hnobody : ∀ other j, (s.pc other).slot? = some j → j ≠ i := by
    rintro other j hj rfl
    have hvalid := ((h.threads other).held j hj).2
    rw [PagerSys.cell, hfree] at hvalid
    cases hvalid
  have hcell := PagerSys.cell_setCell { s.cell i with valid := true } hi
  have hmove : s.Moves t tid (.slotted s.nextFault i) := by
    cases hstep
    exact ⟨rfl, fun _ _ => rfl, length_set,
      fun other _ j hj => (hcell j).trans (if_neg (hnobody other j hj)), rfl, Nat.le_succ _⟩
  simp only [some.injEq] at hstep
  have hself : t.pc tid = .slotted s.nextFault i := by rw [hmove.pc, update_self]
  have hresumed : t.resumed = s.resumed := by rw [← hstep]; rfl
  refine h.move hmove hzero (fun other _ j hj hother => hnobody other j hother ?_) ?_ ?_ ?_
    (fun x hx => hresumed ▸ hx) (fun f phys hx => h.own f phys (hresumed ▸ hx))
  · exact (some.inj hj).symm
  · intro other _ f hf hother
    cases hf
    exact absurd ((h.threads other).known _ hother) (lt_irrefl _)
  · refine .of_open (by rw [hself]; rfl) (by rw [hself]; rfl) (h.length ▸ hi) ?_ ?_ ?_
      (by simp [hself]) (by simp [hself])
    · rw [← hstep]
      exact congrArg PagerFault.valid ((hcell i).trans (if_pos rfl))
    · rw [← hstep]
      exact Nat.lt_succ_self _
    · intro phys hx
      exact absurd (h.repliedKnown _ _ (hmove.replies ▸ hx)) (lt_irrefl _)
  · intro f phys _ hf
    rw [hpc] at hf
    cases hf

theorem inv_giveUp (hstep : pagerStep totalPages s (.giveUp tid) = some t) : t.Inv totalPages := by
  simp only [pagerStep] at hstep
  split at hstep
  on_goal 2 => cases hstep
  rename_i f i hpc
  cases hstep
  obtain ⟨hslot, hfault⟩ := held_of_pc hpc rfl rfl
  refine h.leave hfault ⟨rfl, fun _ _ => rfl, length_set, h.cell_other hslot _, rfl, le_rfl⟩
    (fun phys hreply => ?_) (fun _ hx => hx) h.own
  exact absurd hreply (h.unanswered hfault (by simp [hpc]) phys)

theorem inv_send {objectId faultOffset replyHandle : UInt64} {prot : UInt32}
    (hstep : pagerStep totalPages s (.send tid objectId faultOffset prot replyHandle) = some t) :
    t.Inv totalPages := by
  simp only [pagerStep] at hstep
  split at hstep
  on_goal 2 => cases hstep
  rename_i f i hpc
  cases hstep
  obtain ⟨hslot, hfault⟩ := held_of_pc hpc rfl rfl
  exact h.advance hslot hfault (by simp [hpc])
    ⟨rfl, fun _ _ => rfl, rfl, fun _ _ _ _ => rfl, rfl, le_rfl⟩ rfl rfl
    ((h.threads tid).held i hslot).2 rfl (by simp) (by simp)

theorem inv_record (hstep : pagerStep totalPages s (.record tid) = some t) : t.Inv totalPages := by
  simp only [pagerStep] at hstep
  split at hstep
  on_goal 2 => cases hstep
  rename_i f i hpc
  cases hstep
  obtain ⟨hslot, hfault⟩ := held_of_pc hpc rfl rfl
  obtain ⟨hi, hvalid⟩ := (h.threads tid).held i hslot
  have hcell := PagerSys.cell_setCell { s.cell i with blockedTid := tid, replyPhys := 0 }
    (h.length ▸ hi) i
  rw [if_pos rfl] at hcell
  exact h.advance hslot hfault (by simp [hpc])
    ⟨rfl, fun _ _ => rfl, length_set, h.cell_other hslot _, rfl, le_rfl⟩ rfl rfl
    ((congrArg PagerFault.valid hcell).trans hvalid) rfl
    (fun _ => congrArg PagerFault.blockedTid hcell) (by simp)

theorem inv_block (hstep : pagerStep totalPages s (.block tid) = some t) : t.Inv totalPages := by
  simp only [pagerStep] at hstep
  split at hstep
  on_goal 2 => cases hstep
  rename_i f i hpc
  cases hstep
  obtain ⟨hslot, hfault⟩ := held_of_pc hpc rfl rfl
  exact h.advance hslot hfault (by simp [hpc])
    ⟨rfl, fun other hne => update_of_ne hne .., rfl, fun _ _ _ _ => rfl, rfl, le_rfl⟩
    rfl rfl ((h.threads tid).held i hslot).2 rfl
    (fun _ => (h.threads tid).named f i (.inl hpc)) (fun _ => update_self ..)

theorem inv_resume (hstep : pagerStep totalPages s (.resume tid) = some t) : t.Inv totalPages := by
  simp only [pagerStep] at hstep
  split at hstep
  on_goal 2 => cases hstep
  rename_i f i hpc
  split at hstep
  · cases hstep
  rename_i hawake
  rw [Bool.not_eq_true] at hawake
  obtain ⟨hvalid, hreply⟩ := (h.threads tid).woken f i hpc hawake
  rw [if_pos hvalid] at hstep
  cases hstep
  obtain ⟨hslot, hfault⟩ := held_of_pc hpc rfl rfl
  refine h.leave hfault ⟨rfl, fun _ _ => rfl, length_set, h.cell_other hslot _, rfl, le_rfl⟩
    (fun phys hx => ?_) (fun x hx => mem_append_left _ hx) (fun g phys hx => ?_)
  · -- the only reply of the fault is the page in the slot
    obtain ⟨j, hj, _, hphys⟩ := (h.threads tid).answered f phys hfault hx
    obtain rfl : i = j := (PagerPc.waiting.inj (hpc.symm.trans hj)).2
    exact mem_append_right _ (mem_singleton.mpr (by rw [hphys]))
  · rcases mem_append.mp hx with hx | hx
    · exact h.own g phys hx
    · cases mem_singleton.mp hx
      exact hreply

end

/-! ## The reply -/

theorem pagerFaultFindByTid_eq (hi : i < s.table.length)
    (hvalid : (s.cell i).valid = true) (htid : (s.cell i).blockedTid = tid)
    (hlower : ∀ j < i, (s.cell j).valid = true → (s.cell j).blockedTid ≠ tid) :
    pagerFaultFindByTid s.table tid = some i := by
  have hcell : ∀ j (hj : j < s.table.length), s.cell j = s.table[j] := fun j hj => by
    rw [PagerSys.cell, getD_eq_getElem?_getD, getElem?_eq_getElem hj, getD_some]
  refine findIdx?_eq_some_iff_getElem.mpr ⟨hi, ?_, fun j hji => ?_⟩
  · rw [← hcell i hi]
    simp [hvalid, htid]
  · rw [← hcell j (hji.trans hi)]
    simpa using hlower j hji

/-- A timely reply writes its page into the slot of its own fault and wakes the
thread. -/
theorem vmPagerHandleReply_timely {phys : UInt64} (hzero : tid ≠ 0)
    (hphys : pagerPhysValid totalPages phys = true)
    (hfind : pagerFaultFindByTid s.table tid = some i) :
    vmPagerHandleReply totalPages s tid.toUInt64 phys =
      (0, { s.setCell i { s.cell i with replyPhys := phys } with
        blocked := update s.blocked tid false }) := by
  have hzero' : tid.toUInt64 ≠ 0 := fun h => hzero (by
    rw [← UInt32.toUInt32_toUInt64 tid, h]
    rfl)
  unfold vmPagerHandleReply
  rw [if_neg (by simp [hzero', hphys]), UInt32.toUInt32_toUInt64, hfind]

theorem inv_reply {req : PagerReq} {phys : UInt64} (h : s.Inv totalPages)
    (htimely : PagerStep.Timely totalPages s (.reply f req phys))
    (hstep : pagerStep totalPages s (.reply f req phys) = some t) : t.Inv totalPages := by
  obtain ⟨hphys, i, hpc, hblocked, hlower⟩ := htimely
  have hslot : (s.pc req.faultTid).slot? = some i := by rw [hpc]; rfl
  have hfault : (s.pc req.faultTid).fault? = some f := by rw [hpc]; rfl
  obtain ⟨hi, hvalid⟩ := (h.threads req.faultTid).held i hslot
  have htid := (h.threads req.faultTid).named f i (.inr hpc)
  have hfind := pagerFaultFindByTid_eq (h.length ▸ hi) hvalid htid hlower
  rw [pagerStep, vmPagerHandleReply_timely (h.nonzero hfault) hphys hfind] at hstep
  split at hstep
  on_goal 2 => cases hstep
  have hcell := PagerSys.cell_setCell { s.cell i with replyPhys := phys } (h.length ▸ hi) i
  rw [if_pos rfl] at hcell
  -- the thread was blocked, so its fault had no reply before this one
  have hfirst : ∀ p, (f, p) ∉ s.replies := fun p hp => by
    obtain ⟨_, _, hawake, _⟩ := (h.threads req.faultTid).answered f p hfault hp
    rw [hblocked] at hawake
    cases hawake
  cases hstep
  refine { h with
      length := length_set.trans h.length
      threads := fun other => ?_
      repliedKnown := fun g p hp => ?_
      settled := fun g p hp => ?_
      own := fun g p hp => mem_append_left _ (h.own g p hp) }
  · by_cases hne : other = req.faultTid
    · subst hne
      refine ⟨fun j hj => ?_, (h.threads _).known, fun g j hj => ?_, fun g p hg hp => ?_,
        fun g j hj _ => ?_⟩
      · cases hslot.symm.trans hj
        exact ⟨hi, (congrArg PagerFault.valid hcell).trans hvalid⟩
      · obtain rfl : i = j := by
          rcases hj with hj | hj
          · cases hpc.symm.trans hj
          · exact (PagerPc.waiting.inj (hpc.symm.trans hj)).2
        exact (congrArg PagerFault.blockedTid hcell).trans htid
      · cases hfault.symm.trans hg
        refine ⟨i, hpc, update_self .., (congrArg PagerFault.replyPhys hcell).trans ?_⟩
        rcases mem_append.mp hp with hp | hp
        · exact absurd hp (hfirst p)
        · exact (Prod.mk.inj (mem_singleton.mp hp)).2.symm
      · obtain ⟨rfl, rfl⟩ := PagerPc.waiting.inj (hpc.symm.trans hj)
        have hnew := congrArg PagerFault.replyPhys hcell
        refine ⟨(congrArg (pagerPhysValid totalPages) hnew).trans hphys, ?_⟩
        exact mem_append_right _ (mem_singleton.mpr (congrArg (Prod.mk f) hnew))
    · refine (h.threads other).frame rfl (update_of_ne hne ..)
        (h.cell_other hslot _ other hne) le_rfl (fun x hx => mem_append_left _ hx)
        (fun g p hg hp => ?_)
      rcases mem_append.mp hp with hp | hp
      · exact hp
      · obtain ⟨rfl, _⟩ := Prod.mk.inj (mem_singleton.mp hp)
        exact absurd (h.faultOwner other _ g hg hfault) hne
  · rcases mem_append.mp hp with hp | hp
    · exact h.repliedKnown g p hp
    · obtain ⟨rfl, _⟩ := Prod.mk.inj (mem_singleton.mp hp)
      exact (h.threads _).known g hfault
  · rcases mem_append.mp hp with hp | hp
    · exact h.settled g p hp
    · obtain ⟨rfl, _⟩ := Prod.mk.inj (mem_singleton.mp hp)
      exact .inr ⟨_, hfault⟩

/-! ## Whole runs -/

theorem inv_step (s : PagerSys) (a : PagerStep) (t : PagerSys) (h : s.Inv totalPages)
    (htimely : a.Timely totalPages s) (hstep : pagerStep totalPages s a = some t) :
    t.Inv totalPages := by
  cases a with
  | fault tid => exact inv_fault h hstep
  | giveUp tid => exact inv_giveUp h hstep
  | send tid objectId faultOffset prot replyHandle => exact inv_send h hstep
  | record tid => exact inv_record h hstep
  | block tid => exact inv_block h hstep
  | resume tid => exact inv_resume h hstep
  | reply f req phys => exact inv_reply h htimely hstep

/-- **Pager faults.**  In every interleaving of faulting threads and the pager in which
each reply is timely, a thread resumes with a page the pager gave for its own fault,
and every reply is consumed by the fault it was given for. -/
theorem timely_replies_reach_own_fault (totalPages : UInt32) (steps : List PagerStep) (s : PagerSys)
    (timely : AllSteps (pagerStep totalPages) (fun s a => a.Timely totalPages s) pagerStart steps)
    (run : exec (pagerStep totalPages) pagerStart steps = some s) : s.Faithful totalPages :=
  (exec_invariant inv_step pagerStart_inv timely run).faithful

/-- Two threads that wait for the same pager, answered in the other order. -/
def twoFaults : List PagerStep :=
  [.fault 1, .fault 2, .send 1 7 0 1 100, .send 2 7 4096 1 101, .record 1, .block 1,
    .record 2, .block 2, .reply 1 ⟨7, 4096, 1, 2, 101⟩ 0x2000,
    .reply 0 ⟨7, 0, 1, 1, 100⟩ 0x1000, .resume 1, .resume 2]

theorem timely_replies_reach_own_fault_two :
    ∃ s, exec (pagerStep 16) pagerStart twoFaults = some s ∧
      s.resumed = [(0, 0x1000), (1, 0x2000)] ∧ s.Faithful 16 := by
  refine ⟨_, rfl, rfl, timely_replies_reach_own_fault 16 twoFaults _ ?_ rfl⟩
  iterate 8
    refine .cons trivial rfl ?_
  refine .cons ⟨by decide, 1, rfl, rfl, by decide⟩ rfl ?_
  refine .cons ⟨by decide, 0, rfl, rfl, by decide⟩ rfl ?_
  exact .cons trivial rfl (.cons trivial rfl trivial)

/-- The pager answers between the send and the record: no slot carries the thread's id
yet, the reply is dropped with `-ESRCH`, and the thread blocks with nobody to wake it. -/
theorem early_reply_is_lost : ∃ s, exec (pagerStep 16) pagerStart
        [.fault 1, .send 1 7 0 1 100, .reply 0 ⟨7, 0, 1, 1, 100⟩ 0x1000, .record 1, .block 1] =
        some s ∧ s.replies = [(0, 0x1000)] ∧ s.resumed = [] ∧ s.pc 1 = .waiting 0 0 ∧
      s.blocked 1 = true ∧ ¬ s.Faithful 16 := by
  refine ⟨_, rfl, rfl, rfl, rfl, rfl, fun h => ?_⟩
  rcases h.consumed 0 0x1000 (mem_singleton.mpr rfl) with hdone | ⟨tid, i, t, hpc, hstep, _⟩
  · cases hdone
  by_cases hone : tid = 1
  · subst hone
    cases hstep
  · change update (update (update (update pagerStart.pc 1 _) 1 _) 1 _) 1 _ tid = _ at hpc
    simp only [update_of_ne hone] at hpc
    cases hpc

end ArcKernel.Vm
