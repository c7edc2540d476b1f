import ArcKernel.Ipc.Port

/-!
# Ports, capability slots and page-fault forwarding as one system

The system calls of `mk/vm/port.c` and `mk/vm/task.c` that touch ports, and
`vm_pager_send_fault` of `mk/vm/vm_pager.c`, run by any number of threads of any
number of tasks.

A thread in a call is the list of what it still has to do.  Each entry is one
lock section of the source (`PortAct`), so two threads interleave wherever the
source lets them; executing an entry may put further entries in its place.  The
entries are where a call keeps the references it holds: a thread that has looked
a port up has the `release` of that port ahead of it.

Not modelled: waking of the waiting threads (a waiting thread may run at any
time), user-memory copies, and the timeouts of `sys_port_poll`.  A poll of
several handles is a sequence of polls of one handle.
-/

namespace ArcKernel.Ipc

open ArcKernel.Foundation Function

def portTableMax : Nat := 512
def pagerFaultsMax : Nat := 16
def ipcFaultReq : Nat := 0x8001

/-! ## Threads -/

/-- The port function a call applies to a port it has looked up. -/
inductive PortUse where
  | send (msg : IpcMsg)
  | recv (buf : IpcMsg)
  | notify
  | poll
  | pollWait

/-- What follows the release of a port after its use: the call returns, or
`sys_port_call` goes on with its reply port and slot, or `vm_pager_send_fault`
with its reply port, slot and fault entry. -/
inductive AfterUse where
  | ret
  | call (reply slot : Nat)
  | pager (reply slot fault : Nat)

/-- What a capability is looked up for. -/
inductive RefFor where
  | use (op : PortUse)
  | destroy (slot : Int)
  | callSend (reply slot : Nat) (msg : IpcMsg)
  | pager

/-- What a port is created for; the pager holds the port it has resolved. -/
inductive CreatedFor where
  | create
  | call (target : Int) (msg : IpcMsg)
  | pager (pagerPort fault : Nat)

/-- One lock section.

* `lookup`, `ref`: `cspace_lookup_snapshot`, and `port_ref_raw` of what it found.
* `use`: `port_send`, `port_recv`, `port_notify` or a poll under the port's lock.
* `deliver`, `move`: the loop of `deliver_dispose`, its check and its move.
* `wake`, `drop`: the two halves of `port_destroy`.  `owns` records whether the
  caller still has the reference `port_create` gave it.
* `free`: `cspace_free_slot` in the caller's space.
* `newPort`, `install`: `port_create`, and `cspace_alloc_slot` for the new port.
* `callWait`: one turn of the reply loop of `sys_port_call`.
* `pagerAlloc`, `pagerWait`, `pagerClear`: the fault table of `vm_pager.c`. -/
inductive PortAct where
  | lookup (task : Nat) (slot : Int) (k : RefFor)
  | ref (raw : Nat) (k : RefFor)
  | use (p : Nat) (op : PortUse) (after : AfterUse)
  | deliver (sender : Nat) (descs : List IpcDispose)
  | move (sender : Nat) (slot : Int)
  | release (p : Nat)
  | wake (p : Nat) (owns : Bool)
  | drop (p : Nat) (owns : Bool)
  | free (slot : Int)
  | newPort (k : CreatedFor)
  | install (p : Nat) (k : CreatedFor)
  | callWait (p slot : Nat)
  | pagerAlloc (p : Nat)
  | pagerWait (reply slot fault : Nat)
  | pagerClear (fault : Nat)

/-- A system call, or a page fault on a user-paged object. -/
inductive PortSyscall where
  | create
  | destroy (handle : Nat)
  | use (handle : Nat) (op : PortUse)
  | call (handle : Nat) (msg : IpcMsg)
  | slotFree (handle : Nat)
  | fault (pagingPort : Nat)

/-! ## State -/

/-- The tasks and threads there are, and the task of each thread. -/
structure PortConfig where
  tasks : Finset Nat
  threads : Finset Nat
  owner : Nat → Option Nat
  owner_mem : ∀ tid t, owner tid = some t → t ∈ tasks
  no_task_zero : 0 ∉ tasks

/-- `ports` is the port table: the port registered at an address, if any.
`derefs` records each dereference of a port pointer and whether the port was
registered then; no step reads it. -/
structure PortSys where
  spaces : Nat → CSpace
  ports : Nat → Option IpcPort
  tableUsed : Nat
  faults : List Bool
  todo : Nat → List PortAct
  derefs : List (Nat × Bool)

/-- Every outcome a step does not decide: the block and contents `port_create`
gets, and the blocks of a growing slot table or queue. -/
structure PortOracle where
  block : Option (Nat × (Nat → IpcMsg) × (Nat → Nat))
  grow : GrowMem
  queue : QueueMem
  cur : Option Nat

inductive PortLabel where
  | start (tid : Nat) (call : PortSyscall)
  | run (tid : Nat) (o : PortOracle)
  | touch (tid : Nat)
  | slotAlloc (task type rights objectId : Nat) (mem : GrowMem)

def PortSys.goto (s : PortSys) (tid : Nat) (acts : List PortAct) : PortSys :=
  { s with todo := update s.todo tid acts }

/-- Record a dereference. -/
def PortSys.deref (s : PortSys) (p : Nat) : PortSys :=
  { s with derefs := s.derefs ++ [(p, (s.ports p).isSome)] }

def PortSys.setPort (s : PortSys) (p : Nat) (port : Option IpcPort) : PortSys :=
  { s with ports := update s.ports p port }

def PortSys.setSpace (s : PortSys) (t : Nat) (cs : CSpace) : PortSys :=
  { s with spaces := update s.spaces t cs }

/-! ## The reference count -/

/-- `port_ref_raw`: the port must be registered and alive. -/
def portRefRaw (s : PortSys) (raw : Nat) : Option PortSys :=
  if raw = 0 then none
  else
    match s.ports raw with
    | none => none
    | some port =>
        if port.magic ≠ portMagic then none
        else some (s.setPort raw (some { port with refCount := port.refCount + 1 }))

/-- The drop of one reference shared by `port_release` and `port_destroy`: the
entry leaves the table when the count reaches zero, and the port is freed. -/
def dropRef (s : PortSys) (p : Nat) (port : IpcPort) : PortSys :=
  if port.refCount - 1 ≤ 0 then { s.setPort p none with tableUsed := s.tableUsed - 1 }
  else s.setPort p (some { port with refCount := port.refCount - 1 })

/-- `port_release`; the table is searched first, so a stale pointer is ignored. -/
def portRelease (s : PortSys) (p : Nat) : PortSys :=
  if p = 0 then s
  else
    match s.ports p with
    | none => s
    | some port => dropRef s p port

/-- `port_create`. -/
def portCreate (s : PortSys) (o : PortOracle) : Option (Nat × PortSys) :=
  match o.block with
  | none => none
  | some (addr, queue, senders) =>
      if addr = 0 ∨ (s.ports addr).isSome then none
      else if s.tableUsed ≥ portTableMax then none
      else
        some (addr,
          { s.setPort addr (some (portFresh queue senders)) with tableUsed := s.tableUsed + 1 })

/-! ## Steps -/

section Step

variable (cfg : PortConfig)

/-- The rights a lookup needs; `sys_port_destroy` checks neither type nor rights. -/
def RefFor.need : RefFor → Option Nat
  | .use (.send _) => some capSend
  | .use .notify => some capSend
  | .use _ => some capRecv
  | .destroy _ => none
  | .callSend _ _ _ => some capSend
  | .pager => some capSend

/-- The test of `port_from_cslot` before `port_ref_raw`. -/
def RefFor.admits (k : RefFor) (cap : CSlot) : Bool :=
  match k.need with
  | none => true
  | some need => cap.type == capPort && (cap.rights &&& need) != 0

/-- What is left to do when no port was found: `sys_port_call` tears its reply
port down, the other calls return. -/
def RefFor.missing : RefFor → List PortAct
  | .callSend reply slot _ => [.wake reply false, .free slot]
  | _ => []

/-- What is left to do once the port was referenced. -/
def RefFor.found (p : Nat) : RefFor → List PortAct
  | .use op => [.use p op .ret]
  | .destroy slot => [.wake p false, .release p, .free slot]
  | .callSend reply slot msg => [.use p (.send msg) (.call reply slot)]
  | .pager => [.pagerAlloc p]

/-- What follows a use that returned `code`. -/
def AfterUse.acts (code : Int) : AfterUse → List PortAct
  | .ret => []
  | .call reply slot =>
      if code = ipcOk then [.callWait reply slot] else [.wake reply false, .free slot]
  | .pager reply slot fault =>
      if code = ipcOk then [.pagerWait reply slot fault]
      else [.free slot, .wake reply false, .pagerClear fault]

/-- A use of a registered port: its return code, the port afterwards and the
capabilities to deliver. -/
def portUse (port : IpcPort) (sender : Option Task) (o : PortOracle) :
    PortUse → Int × IpcPort × List PortAct
  | .send msg =>
      let (code, port') := portSend port msg sender o.queue
      (code, port', [])
  | .recv buf =>
      let (result, port') := portRecv port buf o.cur
      let deliver :=
        match result with
        | .message msg sender => [.deliver sender msg.descriptors]
        | _ => []
      (result.code, port', deliver)
  | .notify =>
      let (code, port') := portNotify port
      (code, port', [])
  | .poll => (ipcOk, port, [])
  | .pollWait =>
      match port.valid, o.cur with
      | true, some tid => (ipcOk, portWaitRegisterLocked port tid, [])
      | _, _ => (ipcOk, port, [])

/-- The message of a page fault; its payload is not read here. -/
def faultMsg : IpcMsg := { (default : IpcMsg) with msgId := ipcFaultReq }

/-- After a port was created and installed. -/
def CreatedFor.installed (cur p slot : Nat) : CreatedFor → List PortAct
  | .create => []
  | .call target msg => [.lookup cur target (.callSend p slot msg)]
  | .pager pagerPort fault => [.use pagerPort (.send faultMsg) (.pager p slot fault)]

/-- After the slot for a new port could not be allocated. -/
def CreatedFor.notInstalled (p : Nat) : CreatedFor → List PortAct
  | .create => [.wake p true]
  | .call _ _ => [.wake p true]
  | .pager _ fault => [.wake p true, .pagerClear fault]

/-- After `port_create` failed. -/
def CreatedFor.notCreated : CreatedFor → List PortAct
  | .create => []
  | .call _ _ => []
  | .pager _ fault => [.pagerClear fault]

def CreatedFor.rights : CreatedFor → Nat
  | .create => capSend + capRecv + capReply
  | .call _ _ => capRecv + capReply
  | .pager _ _ => capRecv + capReply

/-- `pager_fault_alloc_slot`. -/
def pagerFaultAllocSlot (faults : List Bool) : Option Nat := faults.findIdx? (! ·)

/-- Execute one lock section of a thread; `rest` is what the thread has to do
after it.  A pointer to a port that is not registered any more leads nowhere: the
dereference is recorded and the call ends there. -/
def runAct (s : PortSys) (tid : Nat) (o : PortOracle) (rest : List PortAct) :
    PortAct → Option PortSys
  | .lookup task slot k =>
      match (if task ∈ cfg.tasks then cspaceLookupSnapshot (s.spaces task) slot else none) with
      | none => some (s.goto tid (k.missing ++ rest))
      | some cap =>
          if k.admits cap then some (s.goto tid (.ref cap.objectId k :: rest))
          else some (s.goto tid (k.missing ++ rest))
  | .ref raw k =>
      match portRefRaw s raw with
      | none => some (s.goto tid (k.missing ++ rest))
      | some s' => some (s'.goto tid (k.found raw ++ rest))
  | .use p op after =>
      match s.ports p with
      | none => some ((s.deref p).goto tid [])
      | some port =>
          let sender := (cfg.owner tid).map fun t => (⟨t, s.spaces t⟩ : Task)
          let (code, port', deliver) := portUse port sender o op
          some (((s.deref p).setPort p (some port')).goto tid
            (deliver ++ .release p :: (after.acts code ++ rest)))
  | .deliver sender descs =>
      match descs with
      | [] => some (s.goto tid rest)
      | d :: more =>
          if sender ∈ cfg.tasks ∧ handleTaskId d.handle = sender then
            match cspaceLookupSnapshot (s.spaces sender) (handleSlot d.handle) with
            | none => some (s.goto tid (.deliver sender more :: rest))
            | some snap =>
                if snap.type ≠ d.type then some (s.goto tid (.deliver sender more :: rest))
                else some (s.goto tid
                  (.move sender (handleSlot d.handle) :: .deliver sender more :: rest))
          else some (s.goto tid (.deliver sender more :: rest))
  | .move sender slot =>
      match cfg.owner tid with
      | none => some (s.goto tid rest)
      | some receiver =>
          if sender = receiver ∨ sender ∉ cfg.tasks then none
          else
            let (_, src, dst) := cspaceMove (s.spaces sender) (s.spaces receiver) slot o.grow
            some (((s.setSpace sender src).setSpace receiver dst).goto tid rest)
  | .release p => some ((portRelease s p).goto tid rest)
  | .wake p owns =>
      match s.ports p with
      | none => some ((s.deref p).goto tid [])
      | some port =>
          if port.valid then
            some (((s.deref p).setPort p (some (portWakeAllLocked port))).goto tid
              (.drop p owns :: rest))
          else some ((s.deref p).goto tid rest)
  | .drop p _ =>
      match s.ports p with
      | none => some ((s.deref p).goto tid [])
      | some port => some ((dropRef (s.deref p) p { port with magic := 0 }).goto tid rest)
  | .free slot =>
      match cfg.owner tid with
      | none => some (s.goto tid rest)
      | some t =>
          match cspaceFreeSlot (s.spaces t) slot with
          | (none, _) => some (s.goto tid rest)
          | (some cap, cs) =>
              some ((s.setSpace t cs).goto tid
                (if cap.type = capPort ∧ cap.objectId ≠ 0 then .release cap.objectId :: rest
                  else rest))
  | .newPort k =>
      match portCreate s o with
      | none => some (s.goto tid (k.notCreated ++ rest))
      | some (p, s') => some (s'.goto tid (.install p k :: rest))
  | .install p k =>
      match cfg.owner tid with
      | none => some (s.goto tid (k.notInstalled p ++ rest))
      | some t =>
          match cspaceAllocSlot (s.spaces t) capPort k.rights p o.grow with
          | (none, cs) => some ((s.setSpace t cs).goto tid (k.notInstalled p ++ rest))
          | (some slot, cs) => some ((s.setSpace t cs).goto tid (k.installed t p slot ++ rest))
  | .callWait p slot =>
      match s.ports p with
      | none => some ((s.deref p).goto tid [])
      | some port =>
          let (code, port', deliver) := portUse port none o (.recv default)
          let next :=
            if code = ipcErrEmpty then [.callWait p slot]
            else [.wake p false, .free slot]
          some (((s.deref p).setPort p (some port')).goto tid (deliver ++ (next ++ rest)))
  | .pagerAlloc p =>
      match pagerFaultAllocSlot s.faults with
      | none => some (s.goto tid rest)
      | some fault =>
          some ({ s with faults := s.faults.set fault true }.goto tid
            (.newPort (.pager p fault) :: rest))
  | .pagerWait reply slot fault =>
      some ({ s with faults := s.faults.set fault false }.goto tid
        (.free slot :: .wake reply false :: rest))
  | .pagerClear fault => some ({ s with faults := s.faults.set fault false }.goto tid rest)

/-- What a call does first.  A system call needs a task; a fault does not. -/
def PortSyscall.acts (cur : Option Nat) (call : PortSyscall) : List PortAct :=
  match call, cur with
  | .create, some _ => [.newPort .create]
  | .destroy handle, some t => [.lookup t (handleSlot handle) (.destroy (handleSlot handle))]
  | .use handle op, some t => [.lookup t (handleSlot handle) (.use op)]
  | .call handle msg, some _ => [.newPort (.call (handleSlot handle) msg)]
  | .slotFree handle, some t => if handleTaskId handle = t then [.free (handleSlot handle)] else []
  | .fault pagingPort, _ =>
      if pagingPort = 0 then []
      else [.lookup (handleTaskId pagingPort) (handleSlot pagingPort) .pager]
  | _, none => []

/-- The port the next lock section of a thread dereferences. -/
def PortAct.dereferences : PortAct → Option Nat
  | .use p _ _ => some p
  | .wake p _ => some p
  | .drop p _ => some p
  | .callWait p _ => some p
  | _ => none

/-- One step.  `touch` is a further dereference in the course of the next lock
section, at any moment before it.  A slot allocated outside the port calls names
no port: `sys_slot_alloc` passes object 0, the memory calls pass memory objects. -/
def portSysStep (s : PortSys) : PortLabel → Option PortSys
  | .start tid call =>
      match s.todo tid with
      | [] => if tid ∈ cfg.threads then some (s.goto tid (call.acts (cfg.owner tid))) else none
      | _ :: _ => none
  | .run tid o =>
      match s.todo tid with
      | [] => none
      | act :: rest => if tid ∈ cfg.threads then runAct cfg s tid o rest act else none
  | .touch tid =>
      match (s.todo tid).head?.bind PortAct.dereferences with
      | none => none
      | some p => if tid ∈ cfg.threads then some (s.deref p) else none
  | .slotAlloc task type rights objectId mem =>
      if task ∈ cfg.tasks ∧ (objectId = 0 ∨ type ≠ capPort) then
        some (s.setSpace task (cspaceAllocSlot (s.spaces task) type rights objectId mem).2)
      else none

end Step

end ArcKernel.Ipc
