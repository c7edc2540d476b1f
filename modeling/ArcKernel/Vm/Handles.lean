import ArcKernel.Ipc.CspaceInvariant
import ArcKernel.Ipc.Port
import ArcKernel.Vm.Memory

/-!
# Handles through the system call interface

`task_make_handle` packs a task id and a slot into 64 bits (`mk/include/task.h`).
`sys_port_create`, `sys_vm_create_shared` and `sys_slot_alloc` return the handle
of the slot they fill as an `int`, so the caller gets back only its low 32 bits;
`sys_slot_free`, `handle_to_vm_object` and `validate_dispose` compare the high 32
bits with the caller's task id.
-/

namespace ArcKernel.Vm

open ArcKernel.Foundation ArcKernel.Ipc Function

variable {cs cs' grown : CSpace} {mem : GrowMem} {t i : Nat}

/-! ## The calls that return a handle -/

/-- `sys_port_create`; `port` is what `port_create` returned. -/
def sysPortCreate (s : VmSys) (t : Nat) (port : Option Nat) (grow : GrowMem) : VmResult :=
  match s.tasks t, port with
  | some task, some p =>
      match cspaceAllocSlot task.cspace capPort (capSend + capRecv + capReply) p grow with
      | (none, cs) => (ipcErrNoslot, s.setTask t (some { task with cspace := cs }))
      | (some slot, cs) => (handleResult t slot, s.setTask t (some { task with cspace := cs }))
  | _, _ => (ipcErrNoslot, s)

inductive HandleCall where
  | portCreate (port : Option Nat) (grow : GrowMem)
  | createShared (size : UInt64) (block : Option Nat) (grow : GrowMem)
  | slotAlloc (type rights : Nat) (grow : GrowMem)

def HandleCall.run (s : VmSys) (t : Nat) : HandleCall → VmResult
  | .portCreate port grow => sysPortCreate s t port grow
  | .createShared size block grow => sysVmCreateShared s t size block grow
  | .slotAlloc type rights grow => Vm.slotAlloc s t type rights 0 grow

/-- What a call that gets as far as `cspace_alloc_slot` passes to it. -/
def HandleCall.request (s : VmSys) : HandleCall → Option (CSlot × GrowMem)
  | .portCreate port grow => port.map (⟨·, capPort, capSend + capRecv + capReply, true⟩, grow)
  | .createShared size block grow => (roundToPages size).bind fun size =>
      (vmObjectCreateShared s.mem size block).1.map (⟨·, capMemory, capRead + capWrite, true⟩, grow)
  | .slotAlloc type rights grow => some (⟨0, type, rights, true⟩, grow)

/-- The slot a successful call has filled, with its capability and the space. -/
def HandleCall.fills (s : VmSys) (task : VmTask) (call : HandleCall) :
    Option (Nat × CSlot × CSpace) :=
  (call.request s).bind fun (cap, grow) =>
    match cspaceAllocSlot task.cspace cap.type cap.rights cap.objectId grow with
    | (none, _) => none
    | (some slot, cs) => some (slot, cap, cs)

/-- The 64-bit word of an `int` result that is passed back as a handle. -/
def handleWord (r : Int) : Nat := (r % 2 ^ 64).toNat

/-- Slot `i` is there and in use. -/
def holds (cs : CSpace) (i : Nat) : Prop := i < cs.maxSlots ∧ (cs.slot i).inUse = true

/-- As long as task `t` holds slot `i`, the calls that take a handle of the caller
take `handle` for that slot. -/
structure Named (t i handle : Nat) : Prop where
  slotFree : ∀ s task, s.tasks t = some task → holds task.cspace i → ∃ cs,
    clearSlot task.cspace i = some (task.cspace.slot i, cs) ∧
    sysSlotFree s t handle = (0, s.setTask t (some { task with cspace := cs }))
  map : ∀ task : VmTask, holds task.cspace i → (task.cspace.slot i).type = capMemory →
    handleToVmObject t task handle = some (task.cspace.slot i).objectId
  transfer : ∀ cs, holds cs i → ∀ d : IpcDispose, d.handle = handle →
    d.type = (cs.slot i).type → validateDescriptor ⟨t, cs⟩ d = some (cs.slot i)

/-! ## The slot that is filled -/

/-- The sizes of a space; unlike the agreement of the bitmap with the table they
do not depend on what a grown table contains. -/
structure Sized (cs : CSpace) : Prop where
  slots_length : cs.slots.length = cs.maxSlots
  words : cs.maxSlots = 32 * cs.bitmapWords
  bound : cs.maxSlots ≤ cspaceMaxSlots

theorem Sized.grow (hcs : Sized cs) (h : cspaceGrow cs mem = some grown) : Sized grown := by
  unfold cspaceGrow at h
  simp only at h
  split at h
  · simp at h
  rename_i hcap
  split at h
  · simp at h
  split at h
  · simp at h
  rw [← Option.some.inj h]
  refine ⟨length_copyInto hcs.slots_length.ge (by omega), ?_, by simpa using hcap⟩
  have := hcs.words
  simp only [cspaceWordBits]
  omega

theorem Sized.bitmapAlloc (hcs : Sized cs) (h : bitmapAlloc cs = some (i, cs')) :
    Sized cs' ∧ i < cs'.maxSlots := by
  unfold Ipc.bitmapAlloc at h
  split at h
  · simp at h
  rename_i n hfirst
  cases h
  have hlt := (Bitmap.firstClear_eq_some (by omega) hfirst).1
  exact ⟨{ hcs with }, hcs.words ▸ hlt⟩

theorem Sized.allocOrGrow (hcs : Sized cs) (h : allocOrGrow cs mem = (some i, cs')) :
    Sized cs' ∧ i < cs'.maxSlots := by
  unfold Ipc.allocOrGrow at h
  split at h
  · rename_i halloc
    cases h
    exact hcs.bitmapAlloc halloc
  split at h
  · simp at h
  rename_i hgrow
  split at h
  · rename_i halloc
    cases h
    exact (hcs.grow hgrow).bitmapAlloc halloc
  · simp at h

theorem Sized.cspaceAllocSlot {type rights objectId : Nat} (hcs : Sized cs)
    (h : cspaceAllocSlot cs type rights objectId mem = (some i, cs')) :
    i < cspaceMaxSlots ∧ holds cs' i ∧ cs'.slot i = ⟨objectId, type, rights, true⟩ := by
  unfold Ipc.cspaceAllocSlot at h
  split at h
  · simp at h
  rename_i n grown halloc
  cases h
  obtain ⟨hsized, hlt⟩ := hcs.allocOrGrow halloc
  have hslot : CSpace.slot { grown with
      slots := grown.slots.set i ⟨objectId, type, rights, true⟩ } i
      = ⟨objectId, type, rights, true⟩ := by
    rw [CSpace.slot, getD_set_eq _ _ _ _ (by rw [hsized.slots_length]; exact hlt), if_pos rfl]
  refine ⟨by have := hsized.bound; omega, ⟨hlt, ?_⟩, hslot⟩
  rw [hslot]

/-- A call whose `cspace_alloc_slot` succeeds returns the handle of the slot, cut
to an `int`, and leaves the filled space. -/
theorem HandleCall.run_of_fills {s : VmSys} {task : VmTask} {cap : CSlot} {call : HandleCall}
    (htask : s.tasks t = some task) (h : call.fills s task = some (i, cap, cs)) :
    (call.run s t).1 = handleResult t i ∧
      (call.run s t).2.tasks t = some { task with cspace := cs } ∧
      ∃ grow, cspaceAllocSlot task.cspace cap.type cap.rights cap.objectId grow = (some i, cs) := by
  obtain ⟨⟨cap', grow⟩, hreq, h⟩ := Option.bind_eq_some_iff.mp h
  simp only at h
  split at h
  · cases h
  rename_i slot cs' halloc
  cases h
  refine and_assoc.mp ⟨?_, grow, halloc⟩
  cases call with
  | portCreate port grow' =>
    obtain ⟨p, rfl, hp⟩ := Option.map_eq_some_iff.mp hreq
    cases hp
    simp only [run, sysPortCreate, htask, halloc, VmSys.setTask, update_self, and_self]
  | createShared size block grow' =>
    obtain ⟨rounded, hround, hreq⟩ := Option.bind_eq_some_iff.mp hreq
    obtain ⟨o, ho, hp⟩ := Option.map_eq_some_iff.mp hreq
    cases hp
    have hpair : vmObjectCreateShared s.mem rounded block
        = (some o, (vmObjectCreateShared s.mem rounded block).2) := Prod.ext ho rfl
    simp only [run, sysVmCreateShared, htask, hround]
    rw [hpair]
    simp only [installObject, halloc, VmSys.setTask, update_self, and_self]
  | slotAlloc type rights grow' =>
    cases hreq
    simp only [run, Vm.slotAlloc, htask, halloc, VmSys.setTask, update_self, and_self]

/-! ## The word that comes back -/

/-- Only the slot survives the return type. -/
theorem handleResult_eq (hi : i < 2 ^ 31) : handleResult t i = i := by
  have hword : (BitVec.ofNat 32 (taskMakeHandle t i)).toNat = i := by
    rw [BitVec.toNat_ofNat, taskMakeHandle]
    omega
  rw [handleResult, BitVec.toInt_eq_toNat_of_lt (by omega), hword]

theorem handleWord_natCast (hi : i < 2 ^ 31) :
    handleWord i = i ∧ handleSlot i = i ∧ handleTaskId i = 0 := by
  refine ⟨?_, ?_, ?_⟩
  · rw [handleWord]
    omega
  · rw [handleSlot, Nat.mod_eq_of_lt hi]
  · rw [handleTaskId]
    omega

theorem holds.inRange (h : holds cs i) : cs.inRange i = true := by simp [CSpace.inRange, h.1]

/-- A word below `2 ^ 31` is taken for a handle by the task with id zero only. -/
theorem named_iff (hi : i < 2 ^ 31) (hcs : holds cs i) : Named t i i ↔ t = 0 := by
  obtain ⟨-, hslot, hid⟩ := handleWord_natCast hi
  constructor
  · intro h
    by_contra ht
    have hsend := h.transfer cs hcs ⟨(cs.slot i).type, 0, i⟩ rfl rfl
    rw [validateDescriptor, hid, if_pos (Ne.symm ht)] at hsend
    cases hsend
  rintro rfl
  refine ⟨?_, ?_, ?_⟩
  · intro s task htask hheld
    refine ⟨_, by rw [clearSlot, if_pos hheld.2], ?_⟩
    simp [sysSlotFree, htask, hid, hslot, cspaceFreeSlot, hheld.inRange, clearSlot, hheld.2]
  · intro task hheld htype
    simp [handleToVmObject, hid, hslot, cspaceLookupSnapshot, hheld.inRange, hheld.2, htype]
  · rintro cs' hheld d hd htype
    simp [validateDescriptor, hd, hid, hslot, cspaceLookupSnapshot, hheld.inRange, hheld.2, htype]

/-- A successful call fills a slot and returns a number that is no error code, and
the number names the slot for the calls that take a handle exactly for the task
with id zero. -/
theorem handle_names_slot_iff (s : VmSys) (t : Nat) (task : VmTask) (call : HandleCall)
    (i : Nat) (cap : CSlot) (cs : CSpace) (htask : s.tasks t = some task)
    (hsized : Sized task.cspace) (hfills : call.fills s task = some (i, cap, cs)) :
    (call.run s t).2.tasks t = some { task with cspace := cs } ∧ holds cs i ∧
      cs.slot i = ⟨cap.objectId, cap.type, cap.rights, true⟩ ∧ 0 ≤ (call.run s t).1 ∧
      (Named t i (handleWord (call.run s t).1) ↔ t = 0) := by
  obtain ⟨hret, hafter, grow, halloc⟩ := HandleCall.run_of_fills htask hfills
  obtain ⟨hi, hheld, hslot⟩ := hsized.cspaceAllocSlot halloc
  have hlt : i < 2 ^ 31 := hi.trans (by decide)
  rw [hret, handleResult_eq hlt, (handleWord_natCast hlt).1]
  exact ⟨hafter, hheld, hslot, Int.natCast_nonneg i, named_iff hlt hheld⟩

/-- A system with one task, whose space is as `cspace_init` leaves it. -/
def oneTask (t : Nat) : VmSys :=
  { vmStart with tasks := fun n => if n = t then some ⟨cspaceInit, none⟩ else none }

theorem handle_names_slot_iff_first_slot :
    Named 0 1
      (handleWord (HandleCall.run (oneTask 0) 0 (.slotAlloc capThread 0 ⟨none, none⟩)).1) := by
  have hsized : Sized cspaceInit := { cspaceInit_coherent with bound := by decide }
  exact (handle_names_slot_iff (oneTask 0) 0 ⟨cspaceInit, none⟩
    (.slotAlloc capThread 0 ⟨none, none⟩)
    1 ⟨0, capThread, 0, true⟩ _ rfl hsized rfl).2.2.2.2.mpr rfl

/-- The first task there is creates a shared object, and the kernel refuses the
handle it returned. -/
theorem shared_handle_refused :
    let made := HandleCall.run (oneTask 1) 1 (.createShared 4096 (some 8) ⟨none, none⟩)
    made.1 = 1 ∧ (sysSlotFree made.2 1 (handleWord made.1)).1 = -1 ∧
      (∀ cfg addr prot mem, (sysVmMap cfg made.2 1 (handleWord made.1) addr prot mem).1 = -1) := by
  intro made
  have hmade : made.1 = 1 := by decide +kernel
  refine ⟨hmade, by decide +kernel, ?_⟩
  intro cfg addr prot mem
  obtain ⟨task, htask⟩ : ∃ task, made.2.tasks 1 = some task := ⟨_, rfl⟩
  have hid : handleTaskId (handleWord made.1) = 0 := by rw [hmade]; decide
  simp [sysVmMap, htask, handleToVmObject, hid]

end ArcKernel.Vm
