import ArcKernel.Foundation.Ledger
import ArcKernel.Ipc.CspaceInvariant
import ArcKernel.Ipc.PortFifo
import ArcKernel.Ipc.PortSystem

/-!
# Who holds the references of a port

The count of a port is owned by capability slots and by calls in progress.  Each
entry of a thread's list says which references it stands for (`PortAct.holds`),
and the books of a port are the slots that name it and the entries that hold it.

The books do not balance in every run.  Four kinds of step break them, all in
code that tears a port down or gives up half-way; `Orderly` names them, and under
it the books balance in every reachable state.  The theorem after that is an
ordinary page fault that ends in a dereference of a freed port.
-/

namespace ArcKernel.Ipc

open ArcKernel.Foundation Finset Function Option CSpace PortAct PortSys

variable {cs : CSpace} {port port' : IpcPort} {acts rest : List PortAct}
    {p task tid raw sender : Nat} {spaces : Nat → CSpace} {act : PortAct} {s : PortSys}
    {o : PortOracle}

/-! ## The books -/

/-- The capability names the port at address `p`; the null pointer names none. -/
def namesPort (p : Nat) (cap : CSlot) : Bool :=
  decide (p ≠ 0) && cap.type == capPort && cap.objectId == p

theorem namesPort_iff {cap : CSlot} :
    namesPort p cap = true ↔ p ≠ 0 ∧ cap.type = capPort ∧ cap.objectId = p := by
  simp [namesPort, and_assoc]

/-- The slots of a space that name a port. -/
def CSpace.naming (cs : CSpace) (p : Nat) : Nat := cs.held.countP (namesPort p)

def CreatedFor.holds (p : Nat) : CreatedFor → Nat
  | .pager q _ => if q = p then 1 else 0
  | _ => 0

/-- The references to `p` an entry stands for. -/
def PortAct.holds (p : Nat) : PortAct → Nat
  | .use q _ _ => if q = p then 1 else 0
  | .release q => if q = p then 1 else 0
  | .wake q owns => if owns ∧ q = p then 1 else 0
  | .drop q owns => if owns ∧ q = p then 1 else 0
  | .newPort k => k.holds p
  | .install q k => (if q = p then 1 else 0) + k.holds p
  | .pagerAlloc q => if q = p then 1 else 0
  | _ => 0

/-- Whether one of them is the reference `port_create` returned. -/
def PortAct.creates (p : Nat) : PortAct → Nat
  | .wake q owns => if owns ∧ q = p then 1 else 0
  | .drop q owns => if owns ∧ q = p then 1 else 0
  | .install q _ => if q = p then 1 else 0
  | _ => 0

/-- The reply port and reply slot of a `sys_port_call` in progress: the call uses
the port on the strength of the slot's reference. -/
def PortAct.relies : PortAct → List (Nat × Nat)
  | .lookup _ _ (.callSend reply slot _) => [(reply, slot)]
  | .ref _ (.callSend reply slot _) => [(reply, slot)]
  | .use _ _ (.call reply slot) => [(reply, slot)]
  | .callWait reply slot => [(reply, slot)]
  | _ => []

/-- The references to `p` a list of entries stands for. -/
def heldIn (p : Nat) (acts : List PortAct) : Nat := (acts.map (·.holds p)).sum

def createdIn (p : Nat) (acts : List PortAct) : Nat := (acts.map (·.creates p)).sum

section Books

variable (cfg : PortConfig)

/-- The capability slots that name a port. -/
def PortSys.slotsNaming (s : PortSys) (p : Nat) : Nat := ∑ t ∈ cfg.tasks, (s.spaces t).naming p

/-- The references held by calls in progress. -/
def PortSys.heldBy (s : PortSys) (p : Nat) : Nat := ∑ tid ∈ cfg.threads, heldIn p (s.todo tid)

def PortSys.createdBy (s : PortSys) (p : Nat) : Nat := ∑ tid ∈ cfg.threads, createdIn p (s.todo tid)

/-- A registered port's count is what the books say, and not zero; a port that is
not registered has no references at all. -/
def Balanced : Option IpcPort → Nat → Prop
  | none, n => n = 0
  | some port, n => port.refCount = n ∧ 0 < n

/-- Some call in progress relies on a slot of a task. -/
def PortSys.ReliedOn (s : PortSys) (t slot : Nat) : Prop :=
  ∃ tid ∈ cfg.threads, cfg.owner tid = some t ∧
    ∃ act ∈ s.todo tid, ∃ r ∈ act.relies, r.2 = slot

/-- A thread's entry relies on slots of its own task that name the port. -/
def Backed (spaces : Nat → CSpace) (tid : Nat) (act : PortAct) : Prop :=
  ∀ r ∈ act.relies, ∃ t, cfg.owner tid = some t ∧
    ((spaces t).slot r.2).inUse = true ∧ namesPort r.1 ((spaces t).slot r.2) = true

structure PortSys.Inv (s : PortSys) : Prop where
  coherent : ∀ t, (s.spaces t).Coherent
  balanced : ∀ p, Balanced (s.ports p) (s.slotsNaming cfg p + s.heldBy cfg p)
  created : ∀ p, s.createdBy cfg p ≤ 1
  alive : ∀ p port, s.ports p = some port → port.valid = false → s.createdBy cfg p = 0
  backed : ∀ tid ∈ cfg.threads, ∀ act ∈ s.todo tid, Backed cfg s.spaces tid act
  null : s.ports 0 = none
  derefs : ∀ d ∈ s.derefs, d.2 = true

variable {cfg}

section

variable (p : Nat)

@[simp] theorem heldIn_nil : heldIn p [] = 0 := rfl

@[simp] theorem heldIn_cons (act : PortAct) (acts : List PortAct) :
    heldIn p (act :: acts) = act.holds p + heldIn p acts := by simp [heldIn]

@[simp] theorem heldIn_append (as bs : List PortAct) :
    heldIn p (as ++ bs) = heldIn p as + heldIn p bs := by simp [heldIn]

@[simp] theorem createdIn_nil : createdIn p [] = 0 := rfl

@[simp] theorem createdIn_cons (act : PortAct) (acts : List PortAct) :
    createdIn p (act :: acts) = act.creates p + createdIn p acts := by simp [createdIn]

@[simp] theorem createdIn_append (as bs : List PortAct) :
    createdIn p (as ++ bs) = createdIn p as + createdIn p bs := by simp [createdIn]

end

/-! ### How the books change -/

/-- One space changes. -/
theorem slotsNaming_setSpace (s : PortSys) {t : Nat} (cs : CSpace) (ht : t ∈ cfg.tasks) (p : Nat) :
    (s.setSpace t cs).slotsNaming cfg p + (s.spaces t).naming p =
      s.slotsNaming cfg p + cs.naming p :=
  ledger_update cfg.tasks s.spaces (naming · p) ht cs

/-- A port with something in its books is registered. -/
theorem registered_of_pos (hs : s.Inv cfg)
    (hpos : 0 < s.slotsNaming cfg p + s.heldBy cfg p) : ∃ port, s.ports p = some port := by
  have hbal := hs.balanced p
  cases hport : s.ports p with
  | some port => exact ⟨port, rfl⟩
  | none =>
    rw [hport] at hbal
    simp only [Balanced] at hbal
    omega

theorem PortAct.creates_le_holds (act : PortAct) (p : Nat) : act.creates p ≤ act.holds p := by
  cases act <;> simp [creates, holds]

theorem createdBy_le_heldBy (s : PortSys) (p : Nat) : s.createdBy cfg p ≤ s.heldBy cfg p := by
  apply sum_le_sum
  intro tid _
  induction s.todo tid with
  | nil => exact le_refl _
  | cons act rest ih => exact Nat.add_le_add (act.creates_le_holds p) ih

theorem createdBy_of_unregistered (hs : s.Inv cfg)
    (hnone : s.ports p = none) : s.createdBy cfg p = 0 := by
  have hbal := hs.balanced p
  rw [hnone] at hbal
  simp only [Balanced] at hbal
  have := @createdBy_le_heldBy cfg s p
  omega

theorem PortSys.Inv.ne_null (hs : s.Inv cfg) (hport : s.ports p = some port) : p ≠ 0 := by
  rintro rfl
  cases hs.null.symm.trans hport

/-! ### Changes that leave the books alone -/

/-- A dereference of a registered port. -/
theorem inv_deref (hs : s.Inv cfg) (hport : (s.ports p).isSome = true) : (s.deref p).Inv cfg := by
  refine { hs with derefs := fun d hd => ?_ }
  rcases List.mem_append.mp hd with hold | hnew
  · exact hs.derefs d hold
  · rw [List.mem_singleton.mp hnew]
    exact hport

/-- A port changes in what is not counted. -/
theorem inv_setPort (hs : s.Inv cfg)
    (hport : s.ports p = some port) (hcount : port'.refCount = port.refCount)
    (hmagic : port'.magic = port.magic) : (s.setPort p (some port')).Inv cfg := by
  refine { hs with balanced := fun q => ?_, alive := fun q port'' hport'' hdead => ?_, null := ?_ }
  · have hbal := hs.balanced q
    show Balanced (update s.ports p (some port') q) _
    by_cases hq : q = p
    · subst hq
      rw [hport] at hbal
      rw [update_self]
      exact ⟨hcount.trans hbal.1, hbal.2⟩
    · rwa [update_of_ne hq]
  · rcases update_cases hport'' with ⟨rfl, ⟨⟩⟩ | ⟨-, hport''⟩
    · exact hs.alive q port hport (by simpa [IpcPort.valid, hmagic] using hdead)
    · exact hs.alive q port'' hport'' hdead
  · simpa [setPort, (hs.ne_null hport).symm] using hs.null

theorem inv_faults (faults : List Bool) (hs : s.Inv cfg) :
    ({ s with faults := faults } : PortSys).Inv cfg :=
  { hs with }

section

variable (port : IpcPort)

/-- The port functions do not touch the count or the canary. -/
theorem portSend_counts (msg : IpcMsg) (sender : Option Task) (mem : QueueMem) :
    (portSend port msg sender mem).2.refCount = port.refCount ∧
      (portSend port msg sender mem).2.magic = port.magic := by
  have hgrow : ∀ grown, portGrowQueue port mem = some grown →
      grown.refCount = port.refCount ∧ grown.magic = port.magic := by
    intro grown h
    unfold portGrowQueue at h
    generalize (if port.queueSize < portMinQueueSize then portMinQueueSize
      else port.queueSize * 2) = newSize at h
    simp only at h
    split at h
    · simp at h
    split at h
    · simp at h
    split at h
    · simp at h
    cases h
    exact ⟨rfl, rfl⟩
  unfold portSend portSendLocked
  split
  · exact ⟨rfl, rfl⟩
  split
  · exact ⟨rfl, rfl⟩
  split
  · split
    · exact ⟨rfl, rfl⟩
    · rename_i grown hgrown
      exact hgrow grown hgrown
  · exact ⟨rfl, rfl⟩

theorem portWaitRegisterLocked_counts (tid : Nat) :
    (portWaitRegisterLocked port tid).refCount = port.refCount ∧
      (portWaitRegisterLocked port tid).magic = port.magic := by
  unfold portWaitRegisterLocked
  split
  · exact ⟨rfl, rfl⟩
  · split <;> exact ⟨rfl, rfl⟩

theorem portRecv_counts (buf : IpcMsg) (cur : Option Nat) :
    (portRecv port buf cur).2.refCount = port.refCount ∧
      (portRecv port buf cur).2.magic = port.magic := by
  unfold portRecv
  split
  · exact ⟨rfl, rfl⟩
  split
  · split
    · exact ⟨rfl, rfl⟩
    · split
      · exact ⟨rfl, rfl⟩
      · exact portWaitRegisterLocked_counts port _
  · exact ⟨rfl, rfl⟩

theorem portUse_counts (sender : Option Task) (o : PortOracle) (op : PortUse) :
    (portUse port sender o op).2.1.refCount = port.refCount ∧
      (portUse port sender o op).2.1.magic = port.magic := by
  cases op with
  | send msg => exact portSend_counts port msg sender o.queue
  | recv buf => exact portRecv_counts port buf o.cur
  | notify =>
    simp only [portUse, portNotify]
    split <;> exact ⟨rfl, rfl⟩
  | poll => exact ⟨rfl, rfl⟩
  | pollWait =>
    simp only [portUse]
    split
    · exact portWaitRegisterLocked_counts port _
    · exact ⟨rfl, rfl⟩

end

/-- Entries that hold nothing and rely on nothing. -/
def Plain (acts : List PortAct) : Prop :=
  ∀ act ∈ acts, (∀ p, act.holds p = 0) ∧ (∀ p, act.creates p = 0) ∧ act.relies = []

theorem Plain.heldIn (h : Plain acts) (p : Nat) : heldIn p acts = 0 := by
  rw [ArcKernel.Ipc.heldIn, List.sum_eq_zero]
  intro n hn
  obtain ⟨act, hact, rfl⟩ := List.mem_map.mp hn
  exact (h act hact).1 p

theorem Plain.createdIn (h : Plain acts) (p : Nat) : createdIn p acts = 0 := by
  rw [ArcKernel.Ipc.createdIn, List.sum_eq_zero]
  intro n hn
  obtain ⟨act, hact, rfl⟩ := List.mem_map.mp hn
  exact (h act hact).2.1 p

/-- What a use leaves to deliver holds no reference. -/
theorem portUse_plain (port : IpcPort) (sender : Option Task) (o : PortOracle) (op : PortUse) :
    Plain (portUse port sender o op).2.2 := by
  cases op with
  | recv buf =>
    simp only [portUse]
    split <;> simp [Plain, holds, creates, relies]
  | pollWait =>
    simp only [portUse]
    split <;> simp [Plain]
  | send msg => simp [portUse, Plain]
  | notify => simp [portUse, Plain]
  | poll => simp [portUse, Plain]

/-! ### Changes of the books -/

/-- The invariant holds, and a thread is about to run `act`. -/
structure AtAct (cfg : PortConfig) (s : PortSys) (tid : Nat) (act : PortAct)
    (rest : List PortAct) : Prop where
  inv : s.Inv cfg
  mem : tid ∈ cfg.threads
  todo : s.todo tid = act :: rest

theorem AtAct.backed (h : AtAct cfg s tid act rest) : Backed cfg s.spaces tid act :=
  h.inv.backed tid h.mem act (by rw [h.todo]; exact List.mem_cons_self)

/-- The entries `acts` hold what `act` holds, and rely on nothing else. -/
structure Yields (act : PortAct) (acts : List PortAct) : Prop where
  held : ∀ p, heldIn p acts = act.holds p
  created : ∀ p, createdIn p acts = act.creates p
  relies : ∀ a ∈ acts, a.relies ⊆ act.relies

theorem Yields.deliver {plain : List PortAct} (hplain : Plain plain) (h : Yields act acts) :
    Yields act (plain ++ acts) := by
  refine ⟨fun p => ?_, fun p => ?_, fun a ha => ?_⟩
  · rw [heldIn_append, hplain.heldIn, Nat.zero_add, h.held]
  · rw [createdIn_append, hplain.createdIn, Nat.zero_add, h.created]
  · rcases List.mem_append.mp ha with ha | ha
    · rw [(hplain a ha).2.2]
      exact List.nil_subset _
    · exact h.relies a ha

theorem AtAct.backs (h : AtAct cfg s tid act rest) (hsub : ∀ a ∈ acts, a.relies ⊆ act.relies) :
    ∀ a ∈ acts, Backed cfg s.spaces tid a :=
  fun a ha r hr => h.backed r (hsub a ha hr)

section

variable (hat : AtAct cfg s tid act rest) (p : Nat)
include hat

/-- What is held elsewhere when a thread runs `act` and then has `acts` in its place. -/
theorem heldBy_act : ∃ others, s.heldBy cfg p = others + act.holds p ∧
    ∀ acts, (s.goto tid (acts ++ rest)).heldBy cfg p = others + heldIn p acts := by
  obtain ⟨others, hold, hnew⟩ := ledger_others cfg.threads s.todo (heldIn p) hat.mem
  refine ⟨others + heldIn p rest, hold.trans ?_, fun acts => (hnew _).trans ?_⟩
  · rw [hat.todo, heldIn_cons, Nat.add_assoc, Nat.add_comm (act.holds p)]
  · rw [heldIn_append, Nat.add_assoc, Nat.add_comm (heldIn p acts)]

theorem createdBy_act : ∃ others, s.createdBy cfg p = others + act.creates p ∧
    ∀ acts, (s.goto tid (acts ++ rest)).createdBy cfg p = others + createdIn p acts := by
  obtain ⟨others, hold, hnew⟩ := ledger_others cfg.threads s.todo (createdIn p) hat.mem
  refine ⟨others + createdIn p rest, hold.trans ?_, fun acts => (hnew _).trans ?_⟩
  · rw [hat.todo, createdIn_cons, Nat.add_assoc, Nat.add_comm (act.creates p)]
  · rw [createdIn_append, Nat.add_assoc, Nat.add_comm (createdIn p acts)]

end

/-- The general step: the thread runs `act` and has `acts` to do in its place, the
table and the spaces change, and the books of every port still balance. -/
theorem inv_act {s : PortSys} {tid : Nat} {act : PortAct} {rest acts : List PortAct}
    {spaces : Nat → CSpace} {ports : Nat → Option IpcPort} {used : Nat}
    (hat : AtAct cfg s tid act rest) (hcoherent : ∀ t, (spaces t).Coherent)
    (hkept : ∀ i ∈ cfg.threads, ∀ a ∈ s.todo i, Backed cfg s.spaces i a → Backed cfg spaces i a)
    (hacts : ∀ a ∈ acts, Backed cfg spaces tid a)
    (hbal : ∀ p others, Balanced (s.ports p) (s.slotsNaming cfg p + (others + act.holds p)) →
      Balanced (ports p) (∑ t ∈ cfg.tasks, (spaces t).naming p + (others + heldIn p acts)))
    (hcreated : ∀ p others, others + act.creates p ≤ 1 →
      (s.ports p = none → others + act.creates p = 0) →
      (∀ port, s.ports p = some port → port.valid = false → others + act.creates p = 0) →
      others + createdIn p acts ≤ 1 ∧
      ∀ port, ports p = some port → port.valid = false → others + createdIn p acts = 0)
    (hnull : ports 0 = none) :
    ({ s.goto tid (acts ++ rest) with
        spaces := spaces
        ports := ports
        tableUsed := used } : PortSys).Inv cfg := by
  have hcre : ∀ p, (s.goto tid (acts ++ rest)).createdBy cfg p ≤ 1 ∧
      ∀ port, ports p = some port → port.valid = false →
        (s.goto tid (acts ++ rest)).createdBy cfg p = 0 := by
    intro p
    obtain ⟨others, hold, hnew⟩ := createdBy_act hat p
    rw [hnew]
    exact hcreated p others (hold ▸ hat.inv.created p)
      (fun hnone => hold ▸ createdBy_of_unregistered hat.inv hnone)
      (fun port hport hdead => hold ▸ hat.inv.alive p port hport hdead)
  constructor
  case coherent => exact hcoherent
  case balanced =>
    intro p
    obtain ⟨others, hold, hnew⟩ := heldBy_act hat p
    have hafter := hbal p others (hold ▸ hat.inv.balanced p)
    rw [← hnew] at hafter
    exact hafter
  case created => exact fun p => (hcre p).1
  case alive => exact fun p => (hcre p).2
  case backed =>
    intro i hi a ha
    by_cases hit : i = tid
    · subst hit
      simp only [goto, update_self, List.mem_append] at ha
      rcases ha with hnew | hold
      · exact hacts a hnew
      · have hmem : a ∈ s.todo i := by rw [hat.todo]; exact List.mem_cons_of_mem _ hold
        exact hkept i hi a hmem (hat.inv.backed i hi a hmem)
    · have hmem : a ∈ s.todo i := by simpa [goto, hit] using ha
      exact hkept i hi a hmem (hat.inv.backed i hi a hmem)
  case null => exact hnull
  case derefs => exact hat.inv.derefs

/-- A step that changes neither the table nor the spaces, nor what is held. -/
theorem inv_keep (acts : List PortAct) (hat : AtAct cfg s tid act rest) (h : Yields act acts) :
    (s.goto tid (acts ++ rest)).Inv cfg :=
  @inv_act cfg s tid act rest acts s.spaces s.ports s.tableUsed hat hat.inv.coherent
    (fun _ _ _ _ h => h) (hat.backs h.relies) (fun p others hbal => by rw [h.held p]; exact hbal)
    (fun p others hle _ hdead => by rw [h.created p]; exact ⟨hle, hdead⟩) hat.inv.null

/-- A step that changes one port only. -/
theorem inv_onePort (acts : List PortAct) {new : Option IpcPort} {used : Nat}
    (hat : AtAct cfg s tid act rest) (hp : p ≠ 0) (hrelies : ∀ a ∈ acts, a.relies ⊆ act.relies)
    (hother : ∀ q, q ≠ p → heldIn q acts = act.holds q ∧ createdIn q acts = act.creates q)
    (hbal : ∀ others, Balanced (s.ports p) (others + act.holds p) →
      Balanced new (others + heldIn p acts))
    (hcreated : ∀ others, others + act.creates p ≤ 1 →
      (s.ports p = none → others + act.creates p = 0) →
      (∀ port, s.ports p = some port → port.valid = false → others + act.creates p = 0) →
      others + createdIn p acts ≤ 1 ∧
      ∀ port, new = some port → port.valid = false → others + createdIn p acts = 0) :
    ({ s.goto tid (acts ++ rest) with
        ports := update s.ports p new
        tableUsed := used } : PortSys).Inv cfg := by
  refine inv_act hat hat.inv.coherent (fun _ _ _ _ h => h) (hat.backs hrelies) ?_ ?_ ?_
  · intro q others h
    rw [← Nat.add_assoc] at h ⊢
    by_cases hq : q = p
    · subst hq
      rw [update_self]
      exact hbal _ h
    · rwa [update_of_ne hq, (hother q hq).1]
  · intro q others hle hfree hdead
    by_cases hq : q = p
    · subst hq
      rw [update_self]
      exact hcreated others hle hfree hdead
    · rw [update_of_ne hq, (hother q hq).2]
      exact ⟨hle, hdead⟩
  · rw [update_of_ne hp.symm]
    exact hat.inv.null

theorem backed_of_relies_nil (h : act.relies = []) : Backed cfg spaces tid act := by
  intro r hr
  rw [h] at hr
  simp at hr

/-! ### The lock sections -/

section Acts

variable {t : PortSys}

theorem Plain.backed (h : Plain acts) : ∀ act ∈ acts, Backed cfg spaces tid act :=
  fun act hact => backed_of_relies_nil (h act hact).2.2

/-- A plain entry gives way to plain entries. -/
theorem inv_plain (acts : List PortAct) (hat : AtAct cfg s tid act rest)
    (hold : (∀ p, act.holds p = 0) ∧ ∀ p, act.creates p = 0) (hnew : Plain acts) :
    (s.goto tid (acts ++ rest)).Inv cfg := by
  refine inv_keep acts hat ⟨fun p => ?_, fun p => ?_, fun a ha => ?_⟩
  · rw [hnew.heldIn p, hold.1 p]
  · rw [hnew.createdIn p, hold.2 p]
  · rw [(hnew a ha).2.2]
    exact List.nil_subset _

theorem inv_skip (hat : AtAct cfg s tid act rest)
    (hold : (∀ p, act.holds p = 0) ∧ ∀ p, act.creates p = 0) : (s.goto tid rest).Inv cfg :=
  inv_plain [] hat hold (by simp [Plain])

theorem RefFor.missing_plain (k : RefFor) : Plain k.missing := by
  cases k <;> simp [Plain, RefFor.missing, holds, creates, relies]

theorem RefFor.found_books (k : RefFor) (p q : Nat) :
    heldIn q (k.found p) = (if p = q then 1 else 0) ∧ createdIn q (k.found p) = 0 := by
  cases k <;> simp [RefFor.found, holds, creates]

theorem AfterUse.yields (after : AfterUse) (p : Nat) (op : PortUse) (code : Int) :
    Yields (.use p op after) (.release p :: after.acts code) := by
  cases after <;> simp only [AfterUse.acts] <;> (try split) <;> constructor <;>
    simp [holds, creates, relies]

theorem lookup_inv {slot : Int} {k : RefFor} (hat : AtAct cfg s tid (.lookup task slot k) rest)
    (h : runAct cfg s tid o rest (.lookup task slot k) = some t) : t.Inv cfg := by
  have hmissing := inv_plain k.missing hat ⟨fun _ => rfl, fun _ => rfl⟩ k.missing_plain
  simp only [runAct] at h
  split at h
  · cases h; exact hmissing
  rename_i cap _
  split at h
  · cases h
    refine inv_keep [.ref cap.objectId k] hat ⟨fun _ => rfl, fun _ => rfl, ?_⟩
    cases k <;> simp [relies]
  · cases h; exact hmissing

theorem portRefRaw_eq_some {s' : PortSys} (h : portRefRaw s raw = some s') :
    ∃ port, s.ports raw = some port ∧ port.valid = true ∧
      s' = s.setPort raw (some { port with refCount := port.refCount + 1 }) := by
  unfold portRefRaw at h
  split at h
  · simp at h
  split at h
  · simp at h
  rename_i port hport
  split at h
  · simp at h
  · rename_i hmagic
    cases h
    exact ⟨port, hport, by simpa [IpcPort.valid] using hmagic, rfl⟩

theorem ref_inv {k : RefFor} (hat : AtAct cfg s tid (.ref raw k) rest)
    (h : runAct cfg s tid o rest (.ref raw k) = some t) : t.Inv cfg := by
  simp only [runAct] at h
  split at h
  · cases h
    exact inv_plain k.missing hat ⟨fun _ => rfl, fun _ => rfl⟩ k.missing_plain
  rename_i s' hs'
  obtain ⟨port, hport, hvalid, rfl⟩ := portRefRaw_eq_some hs'
  cases h
  refine inv_onePort (k.found raw) hat (hat.inv.ne_null hport) ?_ ?_ ?_ ?_
  · cases k <;> simp [RefFor.found, relies]
  · intro q hq
    rw [(k.found_books raw q).1, (k.found_books raw q).2, if_neg (Ne.symm hq)]
    exact ⟨rfl, rfl⟩
  · intro others hbal
    rw [(k.found_books raw raw).1]
    rw [hport] at hbal
    simp only [holds, Balanced] at hbal ⊢
    push_cast
    omega
  · intro others hle _ _
    rw [(k.found_books raw raw).2]
    refine ⟨hle, ?_⟩
    rintro _ ⟨⟩ hdead
    cases hvalid.symm.trans hdead

/-- A port that the thread's next entry holds is registered. -/
theorem registered_of_holds (hat : AtAct cfg s tid act rest) (hholds : 0 < act.holds p) :
    ∃ port, s.ports p = some port := by
  apply registered_of_pos hat.inv
  obtain ⟨others, hheld, -⟩ := heldBy_act hat p
  omega

/-- The reply port of a call in progress is registered: its slot names it. -/
theorem registered_of_backed {slot : Nat} (hat : AtAct cfg s tid (.callWait p slot) rest) :
    ∃ port, s.ports p = some port := by
  obtain ⟨u, howner, hused, hnames⟩ := hat.backed (p, slot) (by simp [relies])
  apply registered_of_pos hat.inv
  have hpos : 0 < (s.spaces u).naming p := by
    rw [naming, List.countP_pos_iff]
    have hlen := lt_of_inUse hused
    refine ⟨(s.spaces u).slot slot, ?_, hnames⟩
    rw [slot_of_getElem hlen] at hused ⊢
    exact List.mem_filter.mpr ⟨List.getElem_mem hlen, hused⟩
  have : (s.spaces u).naming p ≤ s.slotsNaming cfg p :=
    le_ledger cfg.tasks s.spaces (naming · p) (cfg.owner_mem tid u howner)
  omega

theorem use_inv {op : PortUse} {after : AfterUse} (hat : AtAct cfg s tid (.use p op after) rest)
    (h : runAct cfg s tid o rest (.use p op after) = some t) : t.Inv cfg := by
  obtain ⟨port, hport⟩ := registered_of_holds (p := p) hat (by simp [holds])
  simp only [runAct, hport, some.injEq] at h
  subst h
  generalize hsender : (cfg.owner tid).map (fun t => (⟨t, s.spaces t⟩ : Task)) = sender
  obtain ⟨hcount, hmagic⟩ := portUse_counts port sender o op
  have hs' := inv_setPort (inv_deref hat.inv (by rw [hport]; rfl)) hport hcount hmagic
  have hgoal := inv_keep _ ⟨hs', hat.mem, hat.todo⟩ ((after.yields p op
    (portUse port sender o op).1).deliver (portUse_plain port sender o op))
  rw [List.append_assoc] at hgoal
  exact hgoal

theorem deliver_inv {descs : List IpcDispose}
    (hat : AtAct cfg s tid (.deliver sender descs) rest)
    (h : runAct cfg s tid o rest (.deliver sender descs) = some t) : t.Inv cfg := by
  have hgo : ∀ acts, Plain acts → (s.goto tid (acts ++ rest)).Inv cfg :=
    fun acts hacts => inv_plain acts hat ⟨fun _ => rfl, fun _ => rfl⟩ hacts
  simp only [runAct] at h
  split at h
  · cases h
    exact hgo [] (by simp [Plain])
  rename_i d more
  have hskip := hgo [.deliver sender more]
    (by simp [Plain, holds, creates, relies])
  split at h
  · split at h
    · cases h; exact hskip
    · split at h
      · cases h; exact hskip
      · cases h
        exact hgo [.move sender (handleSlot d.handle), .deliver sender more]
          (by simp [Plain, holds, creates, relies])
  · cases h; exact hskip

/-- Dropping one reference that the books show; a port that stays registered is as valid as it
was before. -/
theorem dropRef_eq (s : PortSys) (p : Nat) (port : IpcPort) :
    ∃ new used, dropRef s p port = { s with ports := update s.ports p new, tableUsed := used } ∧
      (∀ others, Balanced (some port) (others + 1) → Balanced new others) ∧
      ∀ port', new = some port' → port'.valid = port.valid := by
  by_cases hlast : port.refCount - 1 ≤ 0
  · refine ⟨none, s.tableUsed - 1, if_pos hlast, fun others ⟨hcount, _⟩ => ?_, nofun⟩
    simp only [Balanced]
    omega
  refine ⟨some { port with refCount := port.refCount - 1 }, s.tableUsed, if_neg hlast,
    fun others ⟨hcount, _⟩ => ?_, ?_⟩
  · push_cast at hcount
    simp only [Balanced]
    omega
  · rintro _ ⟨⟩
    rfl

/-- The thread's next entry drops one reference it holds and nothing else. -/
theorem inv_dropRef (hat : AtAct cfg s tid act rest) (hport : s.ports p = some port)
    (hcount : port'.refCount = port.refCount) (hholds : ∀ q, act.holds q = if p = q then 1 else 0)
    (hvalid : port'.valid = false → port.valid = true → act.creates p = 1) :
    ((dropRef s p port').goto tid rest).Inv cfg := by
  obtain ⟨new, used, heq, hbal, hshape⟩ := dropRef_eq s p port'
  rw [heq]
  refine inv_onePort [] hat (hat.inv.ne_null hport) (by simp) ?_ ?_ ?_
  · intro q hq
    have hle := act.creates_le_holds q
    rw [hholds q, if_neg (Ne.symm hq)] at hle ⊢
    exact ⟨rfl, (Nat.le_zero.mp hle).symm⟩
  · intro others h
    rw [hholds p, if_pos rfl, hport] at h
    exact hbal others ⟨hcount.trans h.1, h.2⟩
  intro others hle _ hdead
  refine ⟨Nat.le_trans (Nat.le_add_right _ _) hle, fun port'' hnew hdead'' => ?_⟩
  rw [hshape port'' hnew] at hdead''
  rw [createdIn_nil]
  by_cases hv : port.valid = true
  · have := hvalid hdead'' hv
    omega
  · have := hdead port hport (by simpa using hv)
    omega

theorem release_inv (hat : AtAct cfg s tid (.release p) rest)
    (h : runAct cfg s tid o rest (.release p) = some t) : t.Inv cfg := by
  obtain ⟨port, hport⟩ := registered_of_holds (p := p) hat (by simp [holds])
  simp only [runAct, portRelease, if_neg (hat.inv.ne_null hport), hport, some.injEq] at h
  subst h
  refine inv_dropRef hat hport rfl (fun q => rfl) ?_
  intro hdead hvalid
  rw [hvalid] at hdead
  simp at hdead

theorem wake_inv (hat : AtAct cfg s tid (.wake p true) rest)
    (h : runAct cfg s tid o rest (.wake p true) = some t) : t.Inv cfg := by
  obtain ⟨port, hport⟩ := registered_of_holds (p := p) hat (by simp [holds])
  -- the port is alive: only its creator can destroy it, and that is this thread
  have hvalid : port.valid = true := by
    by_contra hdead
    have hzero := hat.inv.alive p port hport (by simpa using hdead)
    obtain ⟨others, hcreated, -⟩ := createdBy_act hat p
    simp [creates] at hcreated
    omega
  simp only [runAct, hport, hvalid, if_true, some.injEq] at h
  subst h
  have hs' : (((s.deref p).setPort p (some (portWakeAllLocked port)))).Inv cfg :=
    inv_setPort (inv_deref hat.inv (by rw [hport]; rfl)) hport rfl rfl
  refine inv_keep [.drop p true] ⟨hs', hat.mem, hat.todo⟩ ?_
  constructor <;> simp [holds, creates, relies]

theorem drop_inv (hat : AtAct cfg s tid (.drop p true) rest)
    (h : runAct cfg s tid o rest (.drop p true) = some t) : t.Inv cfg := by
  obtain ⟨port, hport⟩ := registered_of_holds (p := p) hat (by simp [holds])
  simp only [runAct, hport, some.injEq] at h
  subst h
  refine inv_dropRef ⟨inv_deref hat.inv (by rw [hport]; rfl), hat.mem, hat.todo⟩ hport rfl ?_ ?_
  · intro q; simp [holds]
  · intro _ _; simp [creates]

theorem newPort_inv {k : CreatedFor} (hat : AtAct cfg s tid (.newPort k) rest)
    (hok : ∀ q fault, k = .pager q fault → (portCreate s o).isSome = true)
    (h : runAct cfg s tid o rest (.newPort k) = some t) : t.Inv cfg := by
  simp only [runAct] at h
  split at h
  · rename_i hnone
    cases h
    cases k with
    | create => exact inv_skip hat ⟨fun _ => rfl, fun _ => rfl⟩
    | call target msg => exact inv_skip hat ⟨fun _ => rfl, fun _ => rfl⟩
    | pager q fault =>
      have := hok q fault rfl
      rw [hnone] at this
      simp at this
  rename_i p s' hcreate
  cases h
  unfold portCreate at hcreate
  split at hcreate
  · simp at hcreate
  rename_i addr queue senders _
  split at hcreate
  · simp at hcreate
  rename_i hfresh
  push Not at hfresh
  split at hcreate
  · simp at hcreate
  simp only [some.injEq, Prod.mk.injEq] at hcreate
  obtain ⟨rfl, rfl⟩ := hcreate
  have hnone : s.ports addr = none := by simpa using hfresh.2
  refine inv_onePort [.install addr k] hat hfresh.1 (by simp [relies]) ?_ ?_ ?_
  · intro q hq
    simp [holds, creates, Ne.symm hq]
  · intro others hbal
    rw [hnone] at hbal
    simp only [holds, heldIn_cons, heldIn_nil, Balanced, portFresh, if_true] at hbal ⊢
    omega
  · -- an address that is not registered has empty books
    intro others _ hfree _
    have := hfree hnone
    simp only [creates, createdIn_cons, createdIn_nil, if_true] at this ⊢
    refine ⟨by omega, ?_⟩
    rintro _ ⟨⟩ hdead
    simp [IpcPort.valid, portFresh] at hdead

/-! ### Lock sections that change a space -/

/-- A space that gains one capability names what that capability names. -/
theorem naming_of_perm {cs' : CSpace} {cap : CSlot} (h : cs'.held.Perm (cap :: cs.held))
    (p : Nat) : cs'.naming p = cs.naming p + if namesPort p cap then 1 else 0 := by
  rw [naming, naming, h.countP_eq, List.countP_cons]

section

variable {cap : CSlot} (ht : task ∈ cfg.tasks)
include ht

/-- A task's space gains a capability, or loses one. -/
theorem slotsNaming_gain (h : cs.held.Perm (cap :: (s.spaces task).held)) (p : Nat) :
    (s.setSpace task cs).slotsNaming cfg p =
      s.slotsNaming cfg p + if namesPort p cap then 1 else 0 := by
  have hsum := slotsNaming_setSpace s cs ht p
  have hnew := naming_of_perm h p
  omega

theorem slotsNaming_loss (h : (s.spaces task).held.Perm (cap :: cs.held)) (p : Nat) :
    (s.setSpace task cs).slotsNaming cfg p + (if namesPort p cap then 1 else 0) =
      s.slotsNaming cfg p := by
  have hsum := slotsNaming_setSpace s cs ht p
  have hnew := naming_of_perm h p
  omega

end

/-- A call that relies on a slot still may, when the slots relied on are unchanged. -/
theorem backed_setSpace (cfg : PortConfig) (s : PortSys) (task : Nat) (cs : CSpace)
    (hsame : ∀ j, s.ReliedOn cfg task j → ((s.spaces task).slot j).inUse = true →
      cs.slot j = (s.spaces task).slot j) :
    ∀ i ∈ cfg.threads, ∀ a ∈ s.todo i, Backed cfg s.spaces i a →
      Backed cfg (update s.spaces task cs) i a := by
  intro i hi a ha hback r hr
  obtain ⟨u, howner, hused, hnames⟩ := hback r hr
  refine ⟨u, howner, ?_⟩
  by_cases hu : u = task
  · subst hu
    rw [update_self, hsame r.2 ⟨i, hi, howner, a, ha, r, hr, rfl⟩ hused]
    exact ⟨hused, hnames⟩
  · rw [update_of_ne hu]
    exact ⟨hused, hnames⟩

theorem coherent_update (h : ∀ t, (spaces t).Coherent) (hcs : cs.Coherent) :
    ∀ t, (update spaces task cs t).Coherent :=
  (forall_update_iff spaces fun _ cs => cs.Coherent).mpr ⟨hcs, fun t _ => h t⟩

/-- A growth gets a block that reads as unused. -/
def GrowClear (cs : CSpace) (mem : GrowMem) : Prop :=
  bitmapAlloc cs = none → mem.ClearFrom cs.maxSlots

theorem free_inv {slot : Int} (hat : AtAct cfg s tid (.free slot) rest)
    (hok : ∀ u, cfg.owner tid = some u → ¬ s.ReliedOn cfg u slot.toNat)
    (h : runAct cfg s tid o rest (.free slot) = some t) : t.Inv cfg := by
  have hnop : (s.goto tid rest).Inv cfg := inv_skip hat ⟨fun _ => rfl, fun _ => rfl⟩
  simp only [runAct] at h
  split at h
  · cases h; exact hnop
  rename_i u howner
  rcases cspaceFreeSlot_spec slot (hat.inv.coherent u) with
    heq | ⟨cs, heq, hnonneg, hused, hco, hheld, hsame⟩
  · rw [heq] at h
    cases h; exact hnop
  rw [heq] at h
  cases h
  generalize hcap : (s.spaces u).slot slot.toNat = cap at *
  -- the reference passes from the slot to the release that follows
  have hacts : ∃ acts, (if cap.type = capPort ∧ cap.objectId ≠ 0 then
        release cap.objectId :: rest else rest) = acts ++ rest ∧
      (∀ p, heldIn p acts = if namesPort p cap then 1 else 0) ∧
      (∀ p, createdIn p acts = 0) ∧ ∀ a ∈ acts, a.relies = [] := by
    by_cases hport : cap.type = capPort ∧ cap.objectId ≠ 0
    · refine ⟨[.release cap.objectId], if_pos hport, fun p => if_congr ?_ rfl rfl, fun _ => rfl, ?_⟩
      · rw [namesPort_iff]
        exact ⟨fun hp => ⟨hp ▸ hport.2, hport.1, hp⟩, fun hnames => hnames.2.2⟩
      · intro a ha
        rw [List.mem_singleton.mp ha]
        rfl
    · refine ⟨[], if_neg hport, fun p => (if_neg fun hnames => ?_).symm, fun _ => rfl, by simp⟩
      obtain ⟨hp, htype, hid⟩ := namesPort_iff.mp hnames
      exact hport ⟨htype, hid ▸ hp⟩
  obtain ⟨acts, hrest, hheldIn, hcreatedIn, hrelies⟩ := hacts
  rw [hrest]
  refine @inv_act cfg s tid _ rest acts (update s.spaces u cs) s.ports s.tableUsed hat
    (coherent_update hat.inv.coherent hco) (backed_setSpace cfg s u cs ?_) ?_ ?_ ?_ hat.inv.null
  · intro j hj _
    apply hsame
    intro hjs
    have : j = slot.toNat := by omega
    exact hok u howner (this ▸ hj)
  · exact fun a ha => backed_of_relies_nil (hrelies a ha)
  · intro p others hbal
    rw [← slotsNaming_loss (cfg.owner_mem tid u howner) hheld p] at hbal
    rwa [hheldIn p, Nat.add_comm others, ← Nat.add_assoc]
  · intro p others hle _ hdead
    rw [hcreatedIn p]
    exact ⟨hle, hdead⟩

theorem move_inv {slot : Int} (hat : AtAct cfg s tid (.move sender slot) rest)
    (hok : ¬ s.ReliedOn cfg sender slot.toNat ∧
      ∀ receiver, cfg.owner tid = some receiver → GrowClear (s.spaces receiver) o.grow)
    (h : runAct cfg s tid o rest (.move sender slot) = some t) : t.Inv cfg := by
  have hnop : (s.goto tid rest).Inv cfg := inv_skip hat ⟨fun _ => rfl, fun _ => rfl⟩
  simp only [runAct] at h
  split at h
  · cases h; exact hnop
  rename_i receiver howner
  split at h
  · simp at h
  rename_i hne
  push Not at hne
  rcases cspaceMove_spec slot (hat.inv.coherent sender) (hat.inv.coherent receiver)
      (hok.2 receiver howner) with
    heq | ⟨i, src, dst, heq, _, hnonneg, _, _, hcosrc, hcodst, hout, hin, _, hkeepS, hkeepD⟩
  · rw [heq] at h
    cases h
    have hsame :
      (s.setSpace sender (s.spaces sender)).setSpace receiver (s.spaces receiver) = s := by
      simp [setSpace]
    rw [hsame]
    exact hnop
  rw [heq] at h
  cases h
  have hdst : update s.spaces sender src receiver = s.spaces receiver :=
    update_of_ne (Ne.symm hne.1) _ _
  have hback := backed_setSpace cfg s sender src (by
    intro j hj _
    apply hkeepS
    intro hjs
    have : j = slot.toNat := by omega
    exact hok.1 (this ▸ hj))
  have hback' := backed_setSpace cfg (s.setSpace sender src) receiver dst (by
      intro j _ hj
      simp only [setSpace, hdst] at hj ⊢
      exact hkeepD j hj)
  refine @inv_act cfg s tid _ rest [] (update (update s.spaces sender src)
    receiver dst) s.ports s.tableUsed hat
    (coherent_update (coherent_update hat.inv.coherent hcosrc) hcodst)
    (fun i hi a ha hb => hback' i hi a ha (hback i hi a ha hb)) (by simp) ?_ ?_ hat.inv.null
  · intro p others hbal
    have hgain := slotsNaming_gain (s := s.setSpace sender src) (cfg.owner_mem tid _ howner)
      (hdst.symm ▸ hin) p
    rw [slotsNaming_loss (by simpa using hne.2) hout] at hgain
    rwa [← hgain] at hbal
  · intro p others hle _ hdead
    exact ⟨hle, hdead⟩

/-- A space gains a capability that no relied-on slot held before. -/
theorem backed_alloc
    (hsame : ∀ j, ((s.spaces task).slot j).inUse = true → cs.slot j = (s.spaces task).slot j) :
    ∀ i ∈ cfg.threads, ∀ a ∈ s.todo i, Backed cfg s.spaces i a →
      Backed cfg (update s.spaces task cs) i a :=
  backed_setSpace cfg s task cs fun j _ hj => hsame j hj

theorem install_inv {k : CreatedFor} (hat : AtAct cfg s tid (.install p k) rest)
    (hclear : ∀ u, cfg.owner tid = some u → GrowClear (s.spaces u) o.grow)
    (hok : ∀ q fault, k = .pager q fault → ∃ u, cfg.owner tid = some u ∧
      (cspaceAllocSlot (s.spaces u) capPort k.rights p o.grow).1.isSome = true)
    (h : runAct cfg s tid o rest (.install p k) = some t) : t.Inv cfg := by
  obtain ⟨port, hport⟩ := registered_of_holds (p := p) hat
    (by simp [holds])
  have hpne := hat.inv.ne_null hport
  -- giving up: the creation reference goes to the destroying entry
  have hgiveup :
    (∀ q fault, k ≠ .pager q fault) → (s.goto tid (k.notInstalled p ++ rest)).Inv cfg := by
    intro hk
    obtain ⟨hacts, hholds⟩ : k.notInstalled p = [.wake p true] ∧ ∀ q, k.holds q = 0 := by
      cases k with
      | create | call target msg => exact ⟨rfl, fun _ => rfl⟩
      | pager q fault => exact absurd rfl (hk q fault)
    rw [hacts]
    refine inv_keep [.wake p true] hat ?_
    constructor <;> simp [holds, creates, relies, hholds]
  simp only [runAct] at h
  split at h
  · rename_i hnone
    cases h
    refine hgiveup ?_
    rintro q fault rfl
    obtain ⟨u, howner, _⟩ := hok q fault rfl
    rw [hnone] at howner
    simp at howner
  rename_i u howner
  rcases cspaceAllocSlot_spec capPort k.rights p (hat.inv.coherent u) (hclear u howner) with
    ⟨heq, _⟩ | ⟨slot, cs, heq, _, _, hco, hheld, hslot, hsame⟩
  · rw [heq] at h
    cases h
    have hset : s.setSpace u (s.spaces u) = s := by simp [setSpace]
    rw [hset]
    refine hgiveup ?_
    rintro q fault rfl
    obtain ⟨u', howner', hsome⟩ := hok q fault rfl
    rw [howner] at howner'
    cases howner'
    rw [heq] at hsome
    simp at hsome
  rw [heq] at h
  cases h
  have hbooks : ∀ q, heldIn q (k.installed u p slot) = k.holds q ∧
      createdIn q (k.installed u p slot) = 0 := by
    cases k <;> simp [CreatedFor.installed, CreatedFor.holds, holds, creates]
  refine @inv_act cfg s tid _ rest (k.installed u p slot) (update s.spaces u cs) s.ports
    s.tableUsed hat (coherent_update hat.inv.coherent hco) (backed_alloc hsame) ?_ ?_ ?_
    hat.inv.null
  · intro a ha
    cases k with
    | create => simp [CreatedFor.installed] at ha
    | call target msg =>
      rw [List.mem_singleton.mp ha]
      intro r hr
      rw [List.mem_singleton.mp hr]
      refine ⟨u, howner, ?_⟩
      rw [update_self, hslot]
      exact ⟨rfl, by simp [namesPort, hpne]⟩
    | pager q fault =>
      rw [List.mem_singleton.mp ha]
      exact backed_of_relies_nil rfl
  · -- the creation reference becomes the slot's
    intro q others hbal
    have hgain := slotsNaming_gain (cfg.owner_mem tid u howner) hheld q
    have hname : namesPort q ⟨p, capPort, k.rights, true⟩ = true ↔ p = q := by
      rw [namesPort_iff]
      exact ⟨fun hnames => hnames.2.2, fun hq => ⟨hq ▸ hpne, rfl, hq⟩⟩
    rw [if_congr hname rfl rfl] at hgain
    rw [holds, Nat.add_left_comm others, ← Nat.add_assoc, ← hgain] at hbal
    rwa [(hbooks q).1]
  · intro q others hle _ hdead
    rw [(hbooks q).2]
    refine ⟨by omega, fun port' hport' hdead' => ?_⟩
    have := hdead port' hport' hdead'
    omega

theorem callWait_inv {slot : Nat} (hat : AtAct cfg s tid (.callWait p slot) rest)
    (h : runAct cfg s tid o rest (.callWait p slot) = some t) : t.Inv cfg := by
  obtain ⟨port, hport⟩ := registered_of_backed hat
  simp only [runAct, hport, some.injEq] at h
  subst h
  obtain ⟨hcount, hmagic⟩ := portUse_counts port none o (.recv default)
  have hs' := inv_setPort (inv_deref hat.inv (by rw [hport]; rfl)) hport hcount hmagic
  generalize hnext : (if (portUse port none o (.recv default)).1 = ipcErrEmpty then
    [callWait p slot] else [.wake p false, .free slot]) = next
  have hyields : Yields (.callWait p slot) next := by
    subst hnext
    split <;> constructor <;> simp [holds, creates, relies]
  have hgoal := inv_keep _ ⟨hs', hat.mem, hat.todo⟩
    (hyields.deliver (portUse_plain port none o (.recv default)))
  rw [List.append_assoc] at hgoal
  exact hgoal

theorem pagerAlloc_inv (hat : AtAct cfg s tid (.pagerAlloc p) rest)
    (hok : (pagerFaultAllocSlot s.faults).isSome = true)
    (h : runAct cfg s tid o rest (.pagerAlloc p) = some t) : t.Inv cfg := by
  simp only [runAct] at h
  split at h
  · rename_i hnone
    rw [hnone] at hok
    simp at hok
  · rename_i fault _
    cases h
    exact inv_keep [.newPort (.pager p fault)] ⟨inv_faults _ hat.inv, hat.mem, hat.todo⟩
      ⟨fun _ => rfl, fun _ => rfl, by simp [relies]⟩

end Acts

/-! ## Runs -/

variable (cfg)

/-- The condition on a lock section.

* `port_destroy` is only run by a caller that still has the reference
  `port_create` gave it (in `sys_port_destroy`, after a `sys_port_call` and after
  a page fault it has long been given to a slot).
* `vm_pager_send_fault` finds a fault entry, a reply port and a reply slot (its
  error exits before that forget the pager port they hold).
* The reply slot of a `sys_port_call` in progress is neither freed nor moved.
* A growing slot table gets a block that reads as unused. -/
def OrderlyAct (s : PortSys) (tid : Nat) (o : PortOracle) : PortAct → Prop
  | .wake _ owns => owns = true
  | .drop _ owns => owns = true
  | .pagerAlloc _ => (pagerFaultAllocSlot s.faults).isSome = true
  | .newPort k => ∀ q fault, k = .pager q fault → (portCreate s o).isSome = true
  | .install p k =>
      (∀ u, cfg.owner tid = some u → GrowClear (s.spaces u) o.grow) ∧
      ∀ q fault, k = .pager q fault → ∃ u, cfg.owner tid = some u ∧
        (cspaceAllocSlot (s.spaces u) capPort k.rights p o.grow).1.isSome = true
  | .free slot => ∀ u, cfg.owner tid = some u → ¬ s.ReliedOn cfg u slot.toNat
  | .move sender slot =>
      ¬ s.ReliedOn cfg sender slot.toNat ∧
      ∀ receiver, cfg.owner tid = some receiver → GrowClear (s.spaces receiver) o.grow
  | _ => True

/-- The condition on a step. -/
def Orderly (s : PortSys) : PortLabel → Prop
  | .run tid o => ∀ act rest, s.todo tid = act :: rest → OrderlyAct cfg s tid o act
  | .touch tid => ∀ p owns rest,
      s.todo tid = .wake p owns :: rest ∨ s.todo tid = .drop p owns :: rest → owns = true
  | .slotAlloc task _ _ _ mem => GrowClear (s.spaces task) mem
  | _ => True

theorem runAct_inv {t : PortSys} (hat : AtAct cfg s tid act rest)
    (hok : OrderlyAct cfg s tid o act) (h : runAct cfg s tid o rest act = some t) : t.Inv cfg := by
  cases act with
  | lookup task slot k => exact lookup_inv hat h
  | ref raw k => exact ref_inv hat h
  | use p op after => exact use_inv hat h
  | deliver sender descs => exact deliver_inv hat h
  | move sender slot => exact move_inv hat hok h
  | release p => exact release_inv hat h
  | wake p owns =>
    cases hok
    exact wake_inv hat h
  | drop p owns =>
    cases hok
    exact drop_inv hat h
  | free slot => exact free_inv hat hok h
  | newPort k => exact newPort_inv hat hok h
  | install p k => exact install_inv hat hok.1 hok.2 h
  | callWait p slot => exact callWait_inv hat h
  | pagerAlloc p => exact pagerAlloc_inv hat hok h
  | pagerWait reply slot fault =>
    cases h
    exact inv_plain [.free slot, .wake reply false] ⟨inv_faults _ hat.inv, hat.mem, hat.todo⟩
      ⟨fun _ => rfl, fun _ => rfl⟩
      (by simp [Plain, holds, creates, relies])
  | pagerClear fault =>
    cases h
    exact inv_skip ⟨inv_faults _ hat.inv, hat.mem, hat.todo⟩ ⟨fun _ => rfl, fun _ => rfl⟩

/-- Starting a call takes no reference. -/
theorem start_inv (call : PortSyscall) (hs : s.Inv cfg) (htid : tid ∈ cfg.threads)
    (hidle : s.todo tid = []) : (s.goto tid (call.acts (cfg.owner tid))).Inv cfg := by
  have hplain : Plain (call.acts (cfg.owner tid)) := by
    unfold PortSyscall.acts
    split <;> (try split) <;>
      simp [Plain, holds, creates, relies, CreatedFor.holds]
  have hheld : ∀ p, (s.goto tid (call.acts (cfg.owner tid))).heldBy cfg p = s.heldBy cfg p := by
    intro p
    have := ledger_update cfg.threads s.todo (heldIn p) htid (call.acts (cfg.owner tid))
    rwa [hidle, hplain.heldIn p] at this
  have hcreated : ∀ p,
      (s.goto tid (call.acts (cfg.owner tid))).createdBy cfg p = s.createdBy cfg p := by
    intro p
    have := ledger_update cfg.threads s.todo (createdIn p) htid (call.acts (cfg.owner tid))
    rwa [hidle, hplain.createdIn p] at this
  refine { hs with
    balanced := fun p => (hheld p).symm ▸ hs.balanced p
    created := fun p => (hcreated p).symm ▸ hs.created p
    alive := fun p => (hcreated p).symm ▸ hs.alive p
    backed := fun i hi a ha => ?_ }
  by_cases hit : i = tid
  · subst hit
    exact hplain.backed a (by simpa [goto] using ha)
  · exact hs.backed i hi a (by simpa [goto, hit] using ha)

/-- A slot that names no port changes no books. -/
theorem slotAlloc_inv {type rights objectId : Nat} {mem : GrowMem}
    (hs : s.Inv cfg) (htask : task ∈ cfg.tasks) (hnone : objectId = 0 ∨ type ≠ capPort)
    (hclear : GrowClear (s.spaces task) mem) :
    (s.setSpace task (cspaceAllocSlot (s.spaces task) type rights objectId mem).2).Inv cfg := by
  rcases cspaceAllocSlot_spec type rights objectId (hs.coherent task) hclear with
    ⟨heq, _⟩ | ⟨slot, cs, heq, _, _, hco, hheld, _, hsame⟩
  · have hset : s.setSpace task (s.spaces task) = s := by simp [setSpace]
    rw [heq, hset]
    exact hs
  rw [heq]
  have hnaming : ∀ p, (s.setSpace task cs).slotsNaming cfg p = s.slotsNaming cfg p := by
    intro p
    have hgain := slotsNaming_gain htask hheld p
    rwa [if_neg fun hnames => ?_] at hgain
    obtain ⟨hp, htype, hid⟩ := namesPort_iff.mp hnames
    exact hnone.elim (fun hzero => hp (hid ▸ hzero)) fun hne => hne htype
  exact { hs with
    coherent := coherent_update hs.coherent hco
    balanced := fun p => (hnaming p).symm ▸ hs.balanced p
    backed := fun i hi a ha => backed_alloc hsame i hi a ha (hs.backed i hi a ha) }

/-- What a thread is about to dereference is registered. -/
theorem dereferences_registered (hat : AtAct cfg s tid act rest) (hact : act.dereferences = some p)
    (hok : ∀ q owns, act = .wake q owns ∨ act = .drop q owns → owns = true) :
    ∃ port, s.ports p = some port := by
  cases act with
  | use q op after =>
    cases hact
    exact registered_of_holds hat (by simp [holds])
  | wake q owns =>
    cases hact
    cases hok p owns (.inl rfl)
    exact registered_of_holds hat (by simp [holds])
  | drop q owns =>
    cases hact
    cases hok p owns (.inr rfl)
    exact registered_of_holds hat (by simp [holds])
  | callWait q slot =>
    cases hact
    exact registered_of_backed hat
  | _ => simp [dereferences] at hact

theorem portSysStep_inv (s : PortSys) (label : PortLabel) (t : PortSys) (hs : s.Inv cfg)
    (hok : Orderly cfg s label) (h : portSysStep cfg s label = some t) : t.Inv cfg := by
  cases label with
  | start tid call =>
    simp only [portSysStep] at h
    split at h
    · rename_i hidle
      split at h
      · cases h
        exact start_inv cfg call hs ‹_› hidle
      · simp at h
    · simp at h
  | run tid o =>
    simp only [portSysStep] at h
    split at h
    · simp at h
    · rename_i act rest htodo
      split at h
      · exact runAct_inv cfg ⟨hs, ‹_›, htodo⟩ (hok act rest htodo) h
      · simp at h
  | touch tid =>
    simp only [portSysStep] at h
    split at h
    · simp at h
    rename_i p hp
    split at h
    · rename_i htid
      cases h
      cases htodo : s.todo tid with
      | nil => simp [htodo] at hp
      | cons act rest =>
        simp only [htodo, List.head?_cons, bind_some] at hp
        obtain ⟨port, hport⟩ := dereferences_registered cfg ⟨hs, htid, htodo⟩ hp (by
          rintro q owns (rfl | rfl)
          · exact hok q owns rest (.inl htodo)
          · exact hok q owns rest (.inr htodo))
        exact inv_deref hs (by rw [hport]; rfl)
    · simp at h
  | slotAlloc task type rights objectId mem =>
    simp only [portSysStep] at h
    split at h
    · rename_i hcond
      cases h
      exact slotAlloc_inv cfg hs hcond.1 hcond.2 hok
    · simp at h

end Books

/-- Empty spaces, an empty table, no fault pending and every thread idle. -/
def portSysInit : PortSys where
  spaces := cspacesInit
  ports := fun _ => none
  tableUsed := 0
  faults := List.replicate pagerFaultsMax false
  todo := fun _ => []
  derefs := []

theorem portSysInit_inv (cfg : PortConfig) : portSysInit.Inv cfg where
  coherent := fun _ => cspaceInit_coherent
  balanced := by
    have hheld : cspaceInit.held = [] := by
      rw [held, List.filter_eq_nil_iff]
      intro cap hcap
      rw [List.eq_of_mem_replicate hcap]
      simp [CSlot.zero]
    simp [portSysInit, Balanced, slotsNaming, heldBy, cspacesInit, naming,
      hheld]
  created := by simp [portSysInit, createdBy]
  alive := by
    intro p port hport
    simp [portSysInit] at hport
  backed := by
    intro tid _ act hact
    simp [portSysInit] at hact
  null := rfl
  derefs := by simp [portSysInit]

/-- In every run whose steps are all orderly, in every state reached: every port
that was dereferenced was registered at that moment; the count of a registered
port is the number of capability slots naming it plus the references held by calls
in progress, and is not zero; and a port that is not registered has neither. -/
theorem port_refs_balance (cfg : PortConfig) (labels : List PortLabel) (s : PortSys)
    (meets : AllSteps (portSysStep cfg) (Orderly cfg) portSysInit labels)
    (run : exec (portSysStep cfg) portSysInit labels = some s) :
    (∀ d ∈ s.derefs, d.2 = true) ∧
    (∀ p port, s.ports p = some port →
      port.refCount = s.slotsNaming cfg p + s.heldBy cfg p ∧
        0 < s.slotsNaming cfg p + s.heldBy cfg p) ∧
    (∀ p, s.ports p = none → s.slotsNaming cfg p + s.heldBy cfg p = 0) := by
  have hs := exec_invariant (portSysStep_inv cfg) (portSysInit_inv cfg) meets run
  refine ⟨hs.derefs, ?_, ?_⟩
  · intro p port hport
    have hbal := hs.balanced p
    rw [hport] at hbal
    exact_mod_cast hbal
  · intro p hnone
    have hbal := hs.balanced p
    rwa [hnone] at hbal

/-! ## A page fault

Task 1 owns the pager port; a thread of task 2 faults and the pager answers. -/

def faultConfig : PortConfig where
  tasks := {1, 2}
  threads := {1, 2}
  owner := fun tid => if tid = 1 ∨ tid = 2 then some tid else none
  owner_mem := by
    intro tid t h
    split at h
    · cases h
      simpa using ‹tid = 1 ∨ tid = 2›
    · simp at h
  no_task_zero := by decide

/-- The allocations of one step, with the address of a new port. -/
def portAt (addr : Nat) : PortOracle where
  block := some (addr, fun _ => default, fun _ => 0)
  grow := zeroMem
  queue := ⟨none, none⟩
  cur := none

/-- The pager port is created, and the fault is sent to it. -/
def faultSent : List PortLabel :=
  [.start 1 .create, .run 1 (portAt 0x1000), .run 1 (portAt 0),
    .start 2 (.fault (taskMakeHandle 1 1)), .run 2 (portAt 0), .run 2 (portAt 0),
    .run 2 (portAt 0), .run 2 (portAt 0x2000), .run 2 (portAt 0), .run 2 (portAt 0)]

theorem orderly_run {cfg : PortConfig} (htodo : s.todo tid = act :: rest)
    (hact : OrderlyAct cfg s tid o act) : Orderly cfg s (.run tid o) := by
  intro act' rest' htodo'
  cases htodo.symm.trans htodo'
  exact hact

theorem faultSent_orderly :
    AllSteps (portSysStep faultConfig) (Orderly faultConfig) portSysInit faultSent := by
  have hclear : ∀ cs, GrowClear cs zeroMem := fun cs _ => zeroMem_clearFrom _
  refine .cons trivial rfl (.cons (orderly_run rfl nofun) rfl ?_)
  refine .cons (orderly_run rfl ⟨fun _ _ => hclear _, nofun⟩) rfl (.cons trivial rfl ?_)
  iterate 2
    refine .cons (orderly_run rfl trivial) rfl ?_
  refine .cons (orderly_run rfl rfl) rfl (.cons (orderly_run rfl fun _ _ _ => rfl) rfl ?_)
  refine .cons (orderly_run rfl ⟨fun _ _ => hclear _, fun _ _ _ => ⟨2, rfl, rfl⟩⟩) rfl ?_
  exact .cons (orderly_run rfl trivial) rfl trivial

/-- The pager port after the fault was sent: one slot names it and the sender has
not released it yet. -/
theorem port_refs_balance_fault_sent :
    ∃ s port, exec (portSysStep faultConfig) portSysInit faultSent = some s ∧
      s.ports 0x1000 = some port ∧ port.refCount = 2 ∧
      port.refCount = s.slotsNaming faultConfig 0x1000 + s.heldBy faultConfig 0x1000 :=
  ⟨_, _, rfl, rfl, rfl,
    ((port_refs_balance faultConfig faultSent _ faultSent_orderly rfl).2.1 0x1000 _ rfl).1⟩

/-- The reply arrives, and the faulting thread frees its reply slot and then
destroys its reply port. -/
def faultAnswered : List PortLabel :=
  [.run 2 (portAt 0), .run 2 (portAt 0), .run 2 (portAt 0), .run 2 (portAt 0), .run 2 (portAt 0)]

/-- The slot's reference was the last one: the reply port is gone when
`port_destroy` reads it. -/
theorem fault_destroys_freed_port :
    ∃ s, exec (portSysStep faultConfig) portSysInit (faultSent ++ faultAnswered) = some s ∧
      s.derefs = [(0x1000, true), (0x2000, false)] :=
  ⟨_, rfl, rfl⟩

end ArcKernel.Ipc
