import ArcKernel.Ipc.Cspace
import ArcKernel.Vm.Map
import ArcKernel.Vm.Object

/-!
# Memory objects, address maps and capability slots as one system

The calls that take and drop references to memory objects: the VM system calls
(`mk/vm/vm_syscall.c`), the slot system calls and `task_destroy` (`mk/vm/task.c`),
transfers between capability spaces, and the object and map functions the kernel
calls itself.

A kernel function that creates an object gets its first reference.  `held` lists
these references until they are given to a capability slot or dropped, which is
what `sys_vm_create_shared` does within one call.

Freeing a slot also releases the port of a `CAP_PORT`; ports are not part of this
state.
-/

namespace ArcKernel.Vm

open ArcKernel.Ipc

def vmProtAll : Nat := 7
def vmInheritShare : Nat := 0

/-! ## State -/

/-- `task_t`, as far as memory is concerned. -/
structure VmTask where
  cspace : CSpace
  map : Option VmMap

/-- The user range and word size of the architecture, the task ids there can be,
and the addresses the heap can give to an object. -/
structure VmConfig where
  user : UserRange
  bits : Nat
  tasks : Finset Nat
  addrs : Finset Nat
  null : 0 ∉ addrs

/-- `created` is the number of objects created so far; no chain of shadows is
longer, so it is enough fuel for a release. -/
structure VmSys where
  tasks : Nat → Option VmTask
  mem : ObjMem
  held : List Nat
  created : Nat

def VmSys.setTask (s : VmSys) (t : Nat) (task : Option VmTask) : VmSys :=
  { s with tasks := Function.update s.tasks t task }

def VmSys.release (s : VmSys) (o : Nat) : VmSys :=
  { s with mem := vmObjectRelease s.created s.mem o }

def VmSys.applyRef (s : VmSys) : RefEvent → VmSys
  | .retain o => { s with mem := vmObjectRetain s.mem o }
  | .release o => s.release o

def VmSys.applyRefs (s : VmSys) (refs : List RefEvent) : VmSys := refs.foldl VmSys.applyRef s

/-- The result of a call and the state it leaves. -/
abbrev VmResult := Int × VmSys

/-! ## System calls -/

/-- Round a size up to whole pages, rejecting zero and overflow. -/
def roundToPages (size : UInt64) : Option UInt64 :=
  if size = 0 then none
  else if size > 0xFFFFFFFFFFFFFFFF - 4095 then none
  else
    let rounded := (size + 4095) &&& 0xFFFFFFFFFFFFF000
    if rounded = 0 then none else some rounded

/-- The `int` a call returns for a handle. -/
def handleResult (t slot : Nat) : Int := (BitVec.ofNat 32 (taskMakeHandle t slot)).toInt

/-- Give the first reference of an object to a new slot of a task, or drop it. -/
def installObject (s : VmSys) (t : Nat) (task : VmTask) (o : Nat) (grow : GrowMem) : VmResult :=
  match cspaceAllocSlot task.cspace capMemory (capRead + capWrite) o grow with
  | (none, cs) => (-1, (s.setTask t (some { task with cspace := cs })).release o)
  | (some slot, cs) => (handleResult t slot, s.setTask t (some { task with cspace := cs }))

/-- `sys_vm_create_shared`, called by task `t`. -/
def sysVmCreateShared (s : VmSys) (t : Nat) (size : UInt64) (block : Option Nat)
    (grow : GrowMem) : VmResult :=
  match s.tasks t, roundToPages size with
  | some task, some size =>
      match vmObjectCreateShared s.mem size block with
      | (none, mem) => (-1, { s with mem := mem })
      | (some o, mem) => installObject { s with mem := mem, created := s.created + 1 } t task o grow
  | _, _ => (-1, s)

/-- `sys_vm_create_phys`, for the kernel's own task only. -/
def sysVmCreatePhys (s : VmSys) (t physBase : Nat) (size : UInt64) (block : Option Nat)
    (grow : GrowMem) : VmResult :=
  if t ≠ 1 then (-1, s)
  else
    match s.tasks t, roundToPages size with
    | some task, some size =>
        match vmObjectCreatePhys s.mem physBase size block with
        | (none, mem) => (-1, { s with mem := mem })
        | (some o, mem) =>
            installObject { s with mem := mem, created := s.created + 1 } t task o grow
    | _, _ => (-1, s)

/-- `handle_to_vm_object`. -/
def handleToVmObject (t : Nat) (task : VmTask) (handle : Nat) : Option Nat :=
  if handleTaskId handle ≠ t then none
  else
    match cspaceLookupSnapshot task.cspace (handleSlot handle) with
    | none => none
    | some cap => if cap.type = capMemory then some cap.objectId else none

/-- What a map call leaves: the new map and the references it moved. -/
def VmSys.afterMapCall (s : VmSys) (t : Nat) (task : VmTask) (r : MapResult) : VmSys :=
  (s.setTask t (some { task with map := some r.map })).applyRefs r.refs

/-- `vm_map_map` on a task's map. -/
def mapObject (cfg : VmConfig) (s : VmSys) (t : Nat) (addr : UInt64) (o : Nat)
    (objOffset size : UInt64) (prot inherit : Nat) (mem : MapMem) : VmResult :=
  match s.tasks t with
  | none => (-1, s)
  | some task =>
      match task.map with
      | none => (-1, s)
      | some m =>
          let r := vmMapMap cfg.user m addr o objOffset size prot inherit mem
          (r.ret, s.afterMapCall t task r)

/-- `vm_map_unmap` on a task's map. -/
def unmapRange (s : VmSys) (t : Nat) (addr size : UInt64) (mem : MapMem) : VmResult :=
  match s.tasks t with
  | none => (-1, s)
  | some task =>
      match task.map with
      | none => (-1, s)
      | some m =>
          let r := vmMapUnmap m addr size mem
          (r.ret, s.afterMapCall t task r)

/-- `vm_map_protect` on a task's map. -/
def protectRange (s : VmSys) (t : Nat) (addr size : UInt64) (prot : Nat) (mem : MapMem) :
    VmResult :=
  match s.tasks t with
  | none => (-1, s)
  | some task =>
      match task.map with
      | none => (-1, s)
      | some m =>
          let r := vmMapProtect m addr size prot mem
          (r.ret, s.afterMapCall t task r)

/-- The user-range check of the system calls: `USER_STACK_TOP - addr` is a
`uint64_t`. -/
def UserRange.contains (user : UserRange) (addr size : UInt64) : Bool :=
  decide (user.base ≤ addr.toNat) && decide (size.toNat ≤ (UInt64.ofNat user.top - addr).toNat)

/-- `sys_vm_map`. -/
def sysVmMap (cfg : VmConfig) (s : VmSys) (t handle : Nat) (addr : UInt64) (prot : Nat)
    (mem : MapMem) : VmResult :=
  match s.tasks t with
  | none => (-1, s)
  | some task =>
      if addr.toNat % pageSize ≠ 0 then (-1, s)
      else
        match handleToVmObject t task handle with
        | none => (-1, s)
        | some o =>
            match s.mem.objects o with
            | none => (-1, s)
            | some obj =>
                if obj.size = 0 then (-1, s)
                else if !cfg.user.contains addr obj.size then (-1, s)
                else
                  mapObject cfg s t addr o 0 obj.size (prot &&& vmProtAll) vmInheritShare mem

/-- The argument checks `sys_vm_unmap` and `sys_vm_protect` share: the rounded
size of an acceptable range. -/
def sysRange (user : UserRange) (addr size : UInt64) : Option UInt64 :=
  if addr.toNat % pageSize ≠ 0 then none
  else
    match roundToPages size with
    | none => none
    | some rounded => if user.contains addr rounded then some rounded else none

/-- `sys_vm_unmap`. -/
def sysVmUnmap (cfg : VmConfig) (s : VmSys) (t : Nat) (addr size : UInt64) (mem : MapMem) :
    VmResult :=
  match sysRange cfg.user addr size with
  | none => (-1, s)
  | some rounded => unmapRange s t addr rounded mem

/-- `sys_vm_protect`. -/
def sysVmProtect (cfg : VmConfig) (s : VmSys) (t : Nat) (addr size : UInt64) (prot : Nat)
    (mem : MapMem) : VmResult :=
  match sysRange cfg.user addr size with
  | none => (-1, s)
  | some rounded => protectRange s t addr rounded (prot &&& vmProtAll) mem

/-- `cspace_alloc_slot` in a task's space. -/
def slotAlloc (s : VmSys) (t type rights objectId : Nat) (grow : GrowMem) : VmResult :=
  match s.tasks t with
  | none => (-1, s)
  | some task =>
      match cspaceAllocSlot task.cspace type rights objectId grow with
      | (none, cs) => (-1, s.setTask t (some { task with cspace := cs }))
      | (some slot, cs) => (handleResult t slot, s.setTask t (some { task with cspace := cs }))

/-- `sys_slot_free`. -/
def sysSlotFree (s : VmSys) (t handle : Nat) : VmResult :=
  match s.tasks t with
  | none => (-1, s)
  | some task =>
      if handleTaskId handle ≠ t then (-1, s)
      else
        match cspaceFreeSlot task.cspace (handleSlot handle) with
        | (none, cs) => (-1, s.setTask t (some { task with cspace := cs }))
        | (some _, cs) => (0, s.setTask t (some { task with cspace := cs }))

/-- `cspace_move` between the spaces of two tasks. -/
def slotMove (s : VmSys) (src dst : Nat) (slot : Int) (grow : GrowMem) : Option VmSys :=
  match s.tasks src, s.tasks dst with
  | some from', some to' =>
      if src = dst then none
      else
        let moved := cspaceMove from'.cspace to'.cspace slot grow
        some ((s.setTask src (some { from' with cspace := moved.2.1 })).setTask dst
          (some { to' with cspace := moved.2.2 }))
  | _, _ => none

/-- `vm_map_destroy`: the references it drops. -/
def vmMapDestroy (m : VmMap) : List RefEvent := m.live.flatMap releaseOf

/-- `task_destroy`: the slots are freed and the map is destroyed. -/
def taskDestroy (s : VmSys) (t : Nat) (task : VmTask) : VmSys :=
  let gone := s.setTask t none
  match task.map with
  | none => gone
  | some m => gone.applyRefs (vmMapDestroy m)

/-! ## Steps -/

/-- One call, with the outcomes of its allocations. -/
inductive VmCall where
  | taskCreate (t : Nat) (withMap : Bool)
  | taskDestroy (t : Nat)
  | createShared (t : Nat) (size : UInt64) (block : Option Nat) (grow : GrowMem)
  | createPhys (t physBase : Nat) (size : UInt64) (block : Option Nat) (grow : GrowMem)
  | create (kind : VmObjKind) (size : UInt64) (block : Option Nat)
  | createShadow (parent : Nat) (block : Option Nat) (bitmap : Bool)
  | give (t o : Nat) (grow : GrowMem)
  | drop (o : Nat)
  | map (t : Nat) (addr : UInt64) (o : Nat) (objOffset size : UInt64) (prot inherit : Nat)
      (mem : MapMem)
  | unmap (t : Nat) (addr size : UInt64) (mem : MapMem)
  | protect (t : Nat) (addr size : UInt64) (prot : Nat) (mem : MapMem)
  | sysMap (t handle : Nat) (addr : UInt64) (prot : Nat) (mem : MapMem)
  | sysUnmap (t : Nat) (addr size : UInt64) (mem : MapMem)
  | sysProtect (t : Nat) (addr size : UInt64) (prot : Nat) (mem : MapMem)
  | slotAlloc (t type rights objectId : Nat) (grow : GrowMem)
  | slotFree (t handle : Nat)
  | slotMove (src dst : Nat) (slot : Int) (grow : GrowMem)

/-- The heap hands out addresses that are not in use. -/
def freshBlock (cfg : VmConfig) (s : VmSys) : Option Nat → Bool
  | none => true
  | some o => decide (o ∈ cfg.addrs) && (s.mem.objects o).isNone

/-- One call.  Kernel code passes the object functions pointers to objects there
are, and gives away or drops only references it has.  Apart from the calls above,
slots are allocated for other types of capability or for the null object. -/
def vmStep (cfg : VmConfig) (s : VmSys) : VmCall → Option VmSys
  | .taskCreate t withMap =>
      if t ∈ cfg.tasks ∧ (s.tasks t).isNone then
        some (s.setTask t (some ⟨cspaceInit, if withMap then some vmMapInit else none⟩))
      else none
  | .taskDestroy t => (s.tasks t).map (taskDestroy s t)
  | .createShared t size block grow =>
      if freshBlock cfg s block then some (sysVmCreateShared s t size block grow).2 else none
  | .createPhys t physBase size block grow =>
      if freshBlock cfg s block then some (sysVmCreatePhys s t physBase size block grow).2 else none
  | .create kind size block =>
      match kind with
      | .shadow _ _ => none
      | _ =>
          if freshBlock cfg s block then
            match vmObjectAlloc s.mem kind size block with
            | (none, mem) => some { s with mem := mem }
            | (some o, mem) =>
                some { s with mem := mem, held := o :: s.held, created := s.created + 1 }
          else none
  | .createShadow parent block bitmap =>
      if freshBlock cfg s block && (s.mem.objects parent).isSome then
        match vmObjectCreateShadow cfg.bits s.mem parent block bitmap with
        | (none, mem) => some { s with mem := mem }
        | (some o, mem) => some { s with mem := mem, held := o :: s.held, created := s.created + 1 }
      else none
  | .give t o grow =>
      match s.tasks t with
      | none => none
      | some task =>
          if o ∈ s.held then
            some (installObject { s with held := s.held.erase o } t task o grow).2
          else none
  | .drop o => if o ∈ s.held then some ({ s with held := s.held.erase o }.release o) else none
  | .map t addr o objOffset size prot inherit mem =>
      if (s.mem.objects o).isSome then
        some (mapObject cfg s t addr o objOffset size prot inherit mem).2
      else none
  | .unmap t addr size mem => some (unmapRange s t addr size mem).2
  | .protect t addr size prot mem => some (protectRange s t addr size prot mem).2
  | .sysMap t handle addr prot mem => some (sysVmMap cfg s t handle addr prot mem).2
  | .sysUnmap t addr size mem => some (sysVmUnmap cfg s t addr size mem).2
  | .sysProtect t addr size prot mem => some (sysVmProtect cfg s t addr size prot mem).2
  | .slotAlloc t type rights objectId grow =>
      if type = capMemory ∧ objectId ≠ 0 then none
      else some (slotAlloc s t type rights objectId grow).2
  | .slotFree t handle => some (sysSlotFree s t handle).2
  | .slotMove src dst slot grow => slotMove s src dst slot grow

/-- No task and no object. -/
def vmStart : VmSys := ⟨fun _ => none, ⟨fun _ => none, []⟩, [], 0⟩

end ArcKernel.Vm
