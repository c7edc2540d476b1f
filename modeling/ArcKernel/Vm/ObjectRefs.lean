import ArcKernel.Ipc.CspaceInvariant
import ArcKernel.Vm.MapRefs

/-!
# Who holds the references of a memory object

The count of a memory object is owned by capability slots, map entries, shadows
and, until they pass it on, the kernel functions that created it.  The calls of
`VmCall` keep the count equal to the number of these owners, with three
exceptions, which `VmCall.Keeps` names: freeing a memory capability does not
release the object, a three-way split of an entry with others behind it loses an
entry, and a grown slot table may contain capabilities nobody made.
-/

namespace ArcKernel.Vm

open ArcKernel.Foundation ArcKernel.Ipc Finset Function List Option VmSys VmTask

variable {cap : CSlot} {grow : GrowMem} {o t prot : Nat} {extra extra' : Nat → Nat}
    {block : Option Nat} {addr size : UInt64} {m : VmMap} {s : VmSys} {task task' : VmTask}

/-! ## Owners -/

/-- The capability names the object at `o`. -/
def namesMemory (o : Nat) (cap : CSlot) : Bool :=
  decide (o ≠ 0) && cap.type == capMemory && cap.objectId == o

/-- The capability names an object. -/
def NamesObject (cap : CSlot) : Prop := cap.type = capMemory ∧ cap.objectId ≠ 0

def VmTask.slotsNaming (task : VmTask) (o : Nat) : Nat := task.cspace.held.countP (namesMemory o)

def VmTask.entriesNaming (task : VmTask) (o : Nat) : Nat :=
  match task.map with
  | none => 0
  | some m => ArcKernel.Vm.entriesNaming m.live o

section Owners

variable (cfg : VmConfig)

/-- The memory capability slots that name an object. -/
def VmSys.slotsNaming (s : VmSys) (o : Nat) : Nat :=
  ∑ t ∈ cfg.tasks, ((s.tasks t).map (·.slotsNaming o)).getD 0

/-- The map entries that refer to an object. -/
def VmSys.entriesNaming (s : VmSys) (o : Nat) : Nat :=
  ∑ t ∈ cfg.tasks, ((s.tasks t).map (·.entriesNaming o)).getD 0

/-- The shadows whose parent an object is. -/
def VmSys.shadowsOf (s : VmSys) (o : Nat) : Nat :=
  ∑ a ∈ cfg.addrs, if (s.mem.objects a).bind VmObject.parent = some o then 1 else 0

/-- All owners of references to an object. -/
def VmSys.owners (s : VmSys) (o : Nat) : Nat :=
  s.slotsNaming cfg o + s.entriesNaming cfg o + s.shadowsOf cfg o + s.held.count o

/-- Every count is the number of owners, and an object is there exactly as long as
it has owners. -/
structure VmSys.Balanced (s : VmSys) : Prop where
  counted : ∀ o obj, s.mem.objects o = some obj → obj.refCount = s.owners cfg o
  released : ∀ o, (∃ obj, s.mem.objects o = some obj) ↔ 0 < s.owners cfg o

/-- What one task refers to. -/
def taskRefs (o : Nat) : Option VmTask → Nat
  | none => 0
  | some task => task.slotsNaming o + task.entriesNaming o

/-- The references from outside the object table. -/
def VmSys.external (s : VmSys) (o : Nat) : Nat :=
  ∑ t ∈ cfg.tasks, taskRefs o (s.tasks t) + s.held.count o

/-- The parts of the tasks are well formed. -/
structure Formed (tasks : Nat → Option VmTask) : Prop where
  spaces : ∀ t task, tasks t = some task → task.cspace.Coherent
  maps : ∀ t task m, tasks t = some task → task.map = some m → m.Shaped
  known : ∀ t task, tasks t = some task → t ∈ cfg.tasks

/-- The invariant, with `extra` references held by the call in progress. -/
structure VmSys.InvWith (s : VmSys) (extra : Nat → Nat) : Prop extends Formed cfg s.tasks where
  table : Table cfg.addrs s.created s.mem.objects (fun x => s.external cfg x + extra x)

def VmSys.Inv (s : VmSys) : Prop := s.InvWith cfg fun _ => 0

variable {cfg}

theorem VmSys.InvWith.congr (h : s.InvWith cfg extra)
    (heq : ∀ x, extra' x = extra x) : s.InvWith cfg extra' := by
  rwa [funext heq]

theorem external_eq (s : VmSys) (o : Nat) :
    s.external cfg o = s.slotsNaming cfg o + s.entriesNaming cfg o + s.held.count o := by
  rw [VmSys.external, VmSys.slotsNaming, VmSys.entriesNaming, ← sum_add_distrib]
  congr 1
  refine sum_congr rfl fun t _ => ?_
  cases s.tasks t <;> rfl

/-- Between calls every shadow counts. -/
theorem children_eq_shadowsOf (halive : ∀ o obj, s.mem.objects o = some obj → obj.refCount ≠ 0)
    (o : Nat) : children cfg.addrs s.mem.objects o = s.shadowsOf cfg o := by
  refine sum_congr rfl fun a _ => ?_
  cases ha : s.mem.objects a with
  | none => simp [childOf]
  | some obj => simp [childOf, halive a obj ha]

theorem VmSys.Inv.balanced (h : s.Inv cfg) : s.Balanced cfg := by
  obtain ⟨rank, hbooks, -⟩ := h.table.books
  have hsum : ∀ o, s.external cfg o + 0 + children cfg.addrs s.mem.objects o = s.owners cfg o := by
    intro o
    rw [children_eq_shadowsOf h.table.alive, external_eq, owners]
    omega
  constructor
  · intro o obj hobj
    rw [← hsum o]
    exact hbooks.counted o obj hobj
  · intro o
    rw [← hsum o]
    exact h.table.exists_iff

/-! ## Changing one task -/

theorem external_setTask (s : VmSys) (ht : t ∈ cfg.tasks) (task : Option VmTask) (o : Nat) :
    (s.setTask t task).external cfg o + taskRefs o (s.tasks t) =
      s.external cfg o + taskRefs o task := by
  have := ledger_update cfg.tasks s.tasks (taskRefs o) ht task
  simp only [external, setTask]
  omega

theorem Formed.update {tasks : Nat → Option VmTask}
    (h : Formed cfg tasks) (ht : t ∈ cfg.tasks) (hspace : task'.cspace.Coherent)
    (hmap : ∀ m, task'.map = some m → m.Shaped) :
    Formed cfg (Function.update tasks t (some task')) := by
  have hcases : ∀ u task, Function.update tasks t (some task') u = some task →
      (u = t ∧ task = task') ∨ tasks u = some task := by
    intro u task hu
    rcases update_cases hu with ⟨rfl, ⟨⟩⟩ | ⟨-, hu⟩
    · exact .inl ⟨rfl, rfl⟩
    · exact .inr hu
  constructor
  · intro u task hu
    rcases hcases u task hu with ⟨-, rfl⟩ | hold
    · exact hspace
    · exact h.spaces u task hold
  · intro u task m hu hm
    rcases hcases u task hu with ⟨-, rfl⟩ | hold
    · exact hmap m hm
    · exact h.maps u task m hold hm
  · intro u task hu
    rcases hcases u task hu with ⟨rfl, -⟩ | hold
    · exact ht
    · exact h.known u task hold

/-- A task is replaced by one whose parts are well formed; the references it gives
up or gains are made up for by `extra'`. -/
theorem VmSys.InvWith.setTask
    (h : s.InvWith cfg extra) (ht : t ∈ cfg.tasks) (hspace : task'.cspace.Coherent)
    (hmap : ∀ m, task'.map = some m → m.Shaped)
    (hsum : ∀ x, taskRefs x (some task') + extra' x = taskRefs x (s.tasks t) + extra x) :
    (s.setTask t (some task')).InvWith cfg extra' := by
  refine ⟨h.toFormed.update ht hspace hmap, h.table.congr fun x => ?_⟩
  have := external_setTask s ht (some task') x
  have := hsum x
  omega

/-- A task is gone. -/
theorem VmSys.InvWith.removeTask (h : s.InvWith cfg extra) (ht : t ∈ cfg.tasks) :
    (s.setTask t none).InvWith cfg (fun x => extra x + taskRefs x (s.tasks t)) := by
  have hold : ∀ {u task}, (s.setTask t none).tasks u = some task → s.tasks u = some task := by
    intro u task hu
    by_cases hut : u = t
    · subst hut
      simp [VmSys.setTask] at hu
    · simpa only [VmSys.setTask, update_of_ne hut] using hu
  refine ⟨⟨fun u task hu => h.spaces u task (hold hu),
    fun u task m hu => h.maps u task m (hold hu), fun u task hu => h.known u task (hold hu)⟩,
    h.table.congr fun x => ?_⟩
  have := external_setTask s ht none x
  have hnone : taskRefs x none = 0 := rfl
  omega

theorem external_applyRefs (s : VmSys) (refs : List RefEvent) (x : Nat) :
    (s.applyRefs refs).external cfg x = s.external cfg x := by
  rw [external, external, applyRefs_tasks, applyRefs_held]

/-- The references of the call in progress are taken and dropped. -/
theorem VmSys.InvWith.applyRefs {refs : List RefEvent} {f g : Nat → Nat}
    (h : s.InvWith cfg f) (hposts : Posts refs f g) : (s.applyRefs refs).InvWith cfg g := by
  refine ⟨by rw [applyRefs_tasks]; exact h.toFormed, ?_⟩
  rw [applyRefs_created]
  refine (applyRefs_table hposts _ h.table).congr fun x => ?_
  rw [external_applyRefs]

theorem VmSys.InvWith.release {f g : Nat → Nat} (h : s.InvWith cfg f)
    (hone : ∀ x, f x = g x + oneTo o x) : (s.release o).InvWith cfg g :=
  h.applyRefs (.release hone (.nil fun _ => rfl))

/-! ## Slots -/

theorem namesMemory_iff :
    namesMemory o cap = true ↔ o ≠ 0 ∧ cap.type = capMemory ∧ cap.objectId = o := by
  simp [namesMemory, and_assoc]

theorem namesMemory_of_not_namesObject (h : ¬ NamesObject cap) (o : Nat) :
    namesMemory o cap = false := by
  rw [← Bool.not_eq_true, namesMemory_iff]
  rintro ⟨h0, htype, rfl⟩
  exact h ⟨htype, h0⟩

/-- A space gains a capability. -/
theorem slotsNaming_of_perm {cs : CSpace} (h : cs.held.Perm (cap :: task.cspace.held)) (o : Nat) :
    ({ task with cspace := cs } : VmTask).slotsNaming o =
      task.slotsNaming o + if namesMemory o cap then 1 else 0 := by
  rw [VmTask.slotsNaming, h.countP_eq, countP_cons]
  rfl

/-- The capability made for an object names it and nothing else. -/
theorem namesMemory_new (ho : o ≠ 0) (rights x : Nat) :
    (if namesMemory x ⟨o, capMemory, rights, true⟩ then 1 else 0) = oneTo o x := by
  by_cases hx : x = o
  · subst hx
    rw [oneTo_self, if_pos (namesMemory_iff.mpr ⟨ho, rfl, rfl⟩)]
  · rw [oneTo_of_ne hx, if_neg]
    rw [namesMemory_iff]
    exact fun h => hx h.2.2.symm

/-- A new block of a growing slot table reads as unused. -/
def GrowsInto (s : VmSys) (t : Nat) (grow : GrowMem) : Prop :=
  ∀ task, s.tasks t = some task → bitmapAlloc task.cspace = none →
    grow.ClearFrom task.cspace.maxSlots

/-- The reference of the call goes to the new slot, or is dropped. -/
theorem installObject_inv (h : s.InvWith cfg (oneTo o)) (htask : s.tasks t = some task) (ho : o ≠ 0)
    (hgrow : GrowsInto s t grow) : (installObject s t task o grow).2.Inv cfg := by
  have ht := h.known t task htask
  rw [installObject]
  rcases cspaceAllocSlot_spec capMemory (capRead + capWrite) o (h.spaces t task htask)
      (hgrow task htask) with ⟨heq, -⟩ | ⟨i, cs, heq, -, -, hco, hheld, -⟩
  · rw [heq]
    have hsame : (s.setTask t (some { task with cspace := task.cspace })).InvWith cfg (oneTo o) :=
      h.setTask ht (h.spaces t task htask) (fun m hm => h.maps t task m htask hm)
        (fun x => by rw [htask])
    exact hsame.release fun x => (Nat.zero_add _).symm
  rw [heq]
  refine h.setTask ht hco (fun m hm => h.maps t task m htask hm) fun x => ?_
  rw [htask]
  simp only [taskRefs, slotsNaming_of_perm hheld, namesMemory_new ho]
  simp only [VmTask.entriesNaming]
  omega

theorem slotAlloc_inv {type rights objectId : Nat} (h : s.Inv cfg)
    (hgrow : GrowsInto s t grow) (hnull : ¬ (type = capMemory ∧ objectId ≠ 0)) :
    (slotAlloc s t type rights objectId grow).2.Inv cfg := by
  rw [slotAlloc]
  split
  · exact h
  rename_i task htask
  have ht := h.known t task htask
  rcases cspaceAllocSlot_spec type rights objectId (h.spaces t task htask) (hgrow task htask) with
    ⟨heq, -⟩ | ⟨i, cs, heq, -, -, hco, hheld, -⟩
  · rw [heq]
    exact h.setTask ht (h.spaces t task htask) (fun m hm => h.maps t task m htask hm)
      (fun x => by rw [htask])
  rw [heq]
  refine h.setTask ht hco (fun m hm => h.maps t task m htask hm) fun x => ?_
  rw [htask]
  have hnone := @namesMemory_of_not_namesObject ⟨objectId, type, rights, true⟩ hnull x
  simp only [taskRefs, slotsNaming_of_perm hheld, hnone]
  rfl

theorem sysSlotFree_inv {handle : Nat} (h : s.Inv cfg)
    (hkeeps : ∀ task, s.tasks t = some task → handleTaskId handle = t → ∀ cap cs,
      cspaceFreeSlot task.cspace (handleSlot handle) = (some cap, cs) → ¬ NamesObject cap) :
    (sysSlotFree s t handle).2.Inv cfg := by
  rw [sysSlotFree]
  split
  · exact h
  rename_i task htask
  have ht := h.known t task htask
  split
  · exact h
  rename_i hid
  rcases cspaceFreeSlot_spec (handleSlot handle) (h.spaces t task htask) with
    heq | ⟨cs, heq, -, -, hco, hheld, -⟩
  · rw [heq]
    exact h.setTask ht (h.spaces t task htask) (fun m hm => h.maps t task m htask hm)
      (fun x => by rw [htask])
  have hcap := hkeeps task htask (not_not.mp hid) _ cs heq
  rw [heq]
  refine h.setTask ht hco (fun m hm => h.maps t task m htask hm) fun x => ?_
  have hcount : task.slotsNaming x = ({ task with cspace := cs } : VmTask).slotsNaming x := by
    rw [VmTask.slotsNaming, hheld.countP_eq, countP_cons, namesMemory_of_not_namesObject hcap x]
    rfl
  rw [htask]
  simp only [taskRefs, hcount]
  rfl

theorem slotMove_inv {src dst : Nat} {slot : Int} {s' : VmSys} (h : s.Inv cfg)
    (hgrow : GrowsInto s dst grow) (hstep : slotMove s src dst slot grow = some s') :
    s'.Inv cfg := by
  rw [slotMove] at hstep
  split at hstep
  rotate_left
  · simp at hstep
  rename_i from' to' hfrom hto
  split at hstep
  · simp at hstep
  rename_i hne
  cases hstep
  have hsrc := h.known src from' hfrom
  have hdst := h.known dst to' hto
  have hto' : ∀ x, (s.setTask src x).tasks dst = some to' := by
    intro x
    simp only [setTask, update_of_ne (Ne.symm hne), hto]
  rcases cspaceMove_spec slot (h.spaces src from' hfrom) (h.spaces dst to' hto) (hgrow to' hto) with
    heq | ⟨i, cs, cs', heq, -, -, -, -, hco, hco', hout, hin, -⟩
  · rw [heq]
    have hfirst : (s.setTask src (some { from' with cspace := from'.cspace })).Inv cfg :=
      h.setTask hsrc (h.spaces src from' hfrom) (fun m hm => h.maps src from' m hfrom hm)
        (fun x => by rw [hfrom])
    exact hfirst.setTask hdst (h.spaces dst to' hto) (fun m hm => h.maps dst to' m hto hm)
      (fun x => by rw [hto'])
  rw [heq]
  -- the capability is in flight between the two updates
  have hfirst : (s.setTask src (some { from' with cspace := cs })).InvWith cfg
      (fun x => if namesMemory x (from'.cspace.slot slot.toNat) then 1 else 0) := by
    refine h.setTask hsrc hco (fun m hm => h.maps src from' m hfrom hm) fun x => ?_
    have hcount : from'.slotsNaming x = ({ from' with cspace := cs } : VmTask).slotsNaming x +
        if namesMemory x (from'.cspace.slot slot.toNat) then 1 else 0 := by
      rw [VmTask.slotsNaming, hout.countP_eq, countP_cons]
      rfl
    rw [hfrom]
    simp only [taskRefs, hcount]
    simp only [VmTask.entriesNaming]
    omega
  refine hfirst.setTask hdst hco' (fun m hm => h.maps dst to' m hto hm) fun x => ?_
  rw [hto']
  simp only [taskRefs, slotsNaming_of_perm hin]
  simp only [VmTask.entriesNaming]
  omega

/-! ## Maps -/

theorem taskRefs_withMap (task : VmTask) (m : VmMap) (x : Nat) :
    taskRefs x (some { task with map := some m }) = task.slotsNaming x + entriesNaming m.live x :=
  rfl

theorem taskRefs_of_map (hmap : task.map = some m) (x : Nat) :
    taskRefs x (some task) = task.slotsNaming x + entriesNaming m.live x := by
  rw [taskRefs, VmTask.entriesNaming, hmap]

/-- A map call whose events account for the change of the entries. -/
theorem afterMapCall_inv {r : MapResult} (h : s.Inv cfg) (htask : s.tasks t = some task)
    (hmap : task.map = some m) (hspec : RefSpec m [] r) : (s.afterMapCall t task r).Inv cfg := by
  have ht := h.known t task htask
  obtain ⟨new, hrefs, hposts⟩ := hspec.posted
  -- what everybody but this map refers to
  let others : Nat → Nat := (s.setTask t (some { task with map := none })).external cfg
  have hothers : ∀ m' x, (s.setTask t (some { task with map := some m' })).external cfg x =
      others x + entriesNaming m'.live x := by
    intro m' x
    have h1 := external_setTask s ht (some { task with map := none }) x
    have h2 := external_setTask s ht (some { task with map := some m' }) x
    have h3 : taskRefs x (some { task with map := none }) = task.slotsNaming x := rfl
    rw [taskRefs_withMap] at h2
    simp only [others]
    omega
  have hnow : ∀ x, s.external cfg x = others x + entriesNaming m.live x := by
    intro x
    have h1 := external_setTask s ht (some { task with map := some m }) x
    rw [hothers, htask, taskRefs_of_map hmap, taskRefs_withMap] at h1
    omega
  rw [afterMapCall, hrefs]
  refine ⟨?_, ?_⟩
  · rw [applyRefs_tasks]
    refine h.toFormed.update ht (h.spaces t task htask) ?_
    rintro m' ⟨⟩
    exact hspec.shaped
  · rw [applyRefs_created]
    have htable : Table cfg.addrs s.created s.mem.objects
        (fun x => others x + entriesNaming m.live x) :=
      h.table.congr fun x => by rw [hnow x, Nat.add_zero]
    refine (@applyRefs_table _ _ _ _ hposts others
      (s.setTask t (some { task with map := some r.map })) htable).congr fun x => ?_
    rw [external_applyRefs, hothers, Nat.add_zero]

theorem unmapRange_inv {mem : MapMem} (h : s.Inv cfg) :
    (unmapRange s t addr size mem).2.Inv cfg := by
  rw [unmapRange]
  split
  · exact h
  rename_i task htask
  split
  · exact h
  rename_i m hmap
  have hm := h.maps t task m htask hmap
  refine afterMapCall_inv h htask hmap ?_
  rw [vmMapUnmap]
  split
  · exact .finish hm rfl rfl
  split
  · exact .finish hm rfl rfl
  exact unmapLoop_refs mem hm

theorem protectRange_inv {mem : MapMem} (h : s.Inv cfg)
    (honly : ∀ task m, s.tasks t = some task → task.map = some m →
      OnlyLastContains m.live addr.toNat (add64 addr.toNat size.toNat)) :
    (protectRange s t addr size prot mem).2.Inv cfg := by
  rw [protectRange]
  split
  · exact h
  rename_i task htask
  split
  · exact h
  rename_i m hmap
  have hm := h.maps t task m htask hmap
  refine afterMapCall_inv h htask hmap ?_
  rw [vmMapProtect]
  split
  · exact .finish hm rfl rfl
  split
  · exact .finish hm rfl rfl
  exact protectLoop_refs prot mem hm (honly task m htask hmap)

/-- `vm_map_map` fails and leaves the entries alone, or adds one for the object and
retains it. -/
structure InstallRefs (m : VmMap) (o : Nat) (r : MapResult) : Prop where
  shaped : r.map.Shaped
  result : r.refs = [] ∧ r.map.live = m.live ∨ r.refs = [.retain o] ∧ o ≠ 0 ∧
      ∀ x, entriesNaming r.map.live x = entriesNaming m.live x + oneTo o x

theorem vmMapMap_refs (user : UserRange) (h : m.Shaped) (addr : UInt64) (o : Nat)
    (objOffset size : UInt64) (prot inherit : Nat) (mem : MapMem) :
    InstallRefs m o (vmMapMap user m addr o objOffset size prot inherit mem) := by
  have hfail : InstallRefs m o ⟨-1, m, []⟩ := ⟨h, .inl ⟨rfl, rfl⟩⟩
  rw [vmMapMap]
  dsimp only
  split
  · exact hfail
  rename_i hargs
  iterate 7
    split
    · exact hfail
  have spec := ensureCapacity_spec h 1 mem
  split
  · rename_i hok
    have hroom := spec.room hok
    rw [← spec.same.count] at hroom
    have hne : o ≠ 0 := fun h0 => hargs (.inl h0)
    generalize hidx : (vmMapEnsureCapacity m 1 mem).map.live.findIdx
      (fun e => decide (e.start > addr.toNat)) = index
    have hle : index ≤ (vmMapEnsureCapacity m 1 mem).map.live.length := hidx ▸ findIdx_le_length
    have hinsert := live_insertAt spec.same.shaped hroom
      (take_append_drop index (vmMapEnsureCapacity m 1 mem).map.live).symm
      ⟨addr.toNat, add64 addr.toNat size.toNat, o, objOffset.toNat, prot, inherit⟩
    rw [length_take, Nat.min_eq_left hle] at hinsert
    refine ⟨spec.same.shaped.insertAt hroom _ _, .inr ⟨rfl, hne, fun x => ?_⟩⟩
    have hall : entriesNaming m.live x =
        entriesNaming ((vmMapEnsureCapacity m 1 mem).map.live.take index) x +
          entriesNaming ((vmMapEnsureCapacity m 1 mem).map.live.drop index) x := by
      rw [← entriesNaming_append, take_append_drop, spec.same.live]
    rw [hinsert, entriesNaming_append, entriesNaming_cons, entriesNaming_single, if_neg hne]
    dsimp only
    omega
  · exact ⟨spec.same.shaped, .inl ⟨rfl, spec.same.live⟩⟩

theorem mapObject_inv {objOffset : UInt64} {inherit : Nat}
    {mem : MapMem} {obj : VmObject} (h : s.Inv cfg) (hobj : s.mem.objects o = some obj) :
    (mapObject cfg s t addr o objOffset size prot inherit mem).2.Inv cfg := by
  rw [mapObject]
  split
  · exact h
  rename_i task htask
  split
  · exact h
  rename_i m hmap
  have ht := h.known t task htask
  have spec := vmMapMap_refs cfg.user (h.maps t task m htask hmap) addr o objOffset size prot
    inherit mem
  generalize vmMapMap cfg.user m addr o objOffset size prot inherit mem = r at spec ⊢
  obtain ⟨hshape, ⟨hrefs, hlive⟩ | ⟨hrefs, hne, hcount⟩⟩ := spec
  · exact afterMapCall_inv h htask hmap (.finish hshape hrefs hlive)
  -- the object is retained on the strength of the pointer the caller passed
  have hret : (s.applyRef (.retain o)).InvWith cfg (oneTo o) := by
    refine ⟨h.toFormed, ?_⟩
    exact (h.table.retain hobj).congr fun x => by simp [applyRef, external]
  have hput : ((s.applyRef (.retain o)).setTask t (some { task with map := some r.map })).InvWith
      cfg (fun _ => 0) := by
    refine hret.setTask ht (h.spaces t task htask) ?_ fun x => ?_
    · rintro m' ⟨⟩
      exact hshape
    · have hsame : (s.applyRef (.retain o)).tasks t = some task := htask
      rw [hsame, taskRefs_withMap, taskRefs_of_map hmap, hcount]
      omega
  show (s.afterMapCall t task r).Inv cfg
  rw [afterMapCall, hrefs]
  exact hput

/-! ## Creation and destruction -/

theorem freshBlock_spec (h : freshBlock cfg s block = true) :
    ∀ a, block = some a → a ∈ cfg.addrs ∧ s.mem.objects a = none := by
  rintro a rfl
  simpa [freshBlock] using h

theorem ne_zero_of_mem {a : Nat} (h : a ∈ cfg.addrs) : a ≠ 0 := by
  rintro rfl
  exact cfg.null h

/-- A new object, in the hands of the call that made it. -/
theorem inv_created {mem : ObjMem} (h : s.Inv cfg)
    (htable : Table cfg.addrs (s.created + 1) mem.objects
      (fun x => s.external cfg x + 0 + oneTo o x)) :
    ({ s with mem := mem, created := s.created + 1 } : VmSys).InvWith cfg (oneTo o) :=
  ⟨h.toFormed, htable⟩

theorem Table.ne_zero {created : Nat} {objs : Nat → Option VmObject} {ext : Nat → Nat}
    (h : Table cfg.addrs created objs ext) (hpos : 0 < ext o) : o ≠ 0 := by
  obtain ⟨rank, hbooks, -⟩ := h.books
  obtain ⟨obj, hobj⟩ := hbooks.named o (by omega)
  exact ne_zero_of_mem (hbooks.known o obj hobj)

/-- What the two creating system calls share: a new object goes to a new slot. -/
theorem allocInstall_inv {kind : VmObjKind} (h : s.Inv cfg) (htask : s.tasks t = some task)
    (hkind : ∀ n, (⟨n, size, kind⟩ : VmObject).parent = none)
    (hfresh : freshBlock cfg s block = true) (hgrow : GrowsInto s t grow) :
    (match vmObjectAlloc s.mem kind size block with
      | (none, mem) => ((-1, { s with mem := mem }) : VmResult)
      | (some o, mem) =>
          installObject { s with mem := mem, created := s.created + 1 } t task
            o grow).2.Inv cfg := by
  rcases h.table.alloc hkind (freshBlock_spec hfresh) with heq | ⟨o, mem, heq, htable⟩
  · rw [heq]
    exact h
  · rw [heq]
    have hnew := inv_created h htable
    exact installObject_inv hnew htask (hnew.table.ne_zero (by rw [oneTo_self]; omega)) hgrow

section

variable (h : s.Inv cfg) (hfresh : freshBlock cfg s block = true) (hgrow : GrowsInto s t grow)
include h hfresh hgrow

theorem createShared_inv : (sysVmCreateShared s t size block grow).2.Inv cfg := by
  rw [sysVmCreateShared]
  split
  · rename_i task rounded htask _
    exact allocInstall_inv h htask (fun _ => rfl) hfresh hgrow
  · exact h

theorem createPhys_inv {physBase : Nat} :
    (sysVmCreatePhys s t physBase size block grow).2.Inv cfg := by
  rw [sysVmCreatePhys]
  split
  · exact h
  split
  · rename_i task rounded htask _
    exact allocInstall_inv h htask (fun _ => rfl) hfresh hgrow
  · exact h

end

theorem count_cons_eq (o x : Nat) (l : List Nat) : (o :: l).count x = l.count x + oneTo o x := by
  rw [oneTo]
  by_cases hx : x = o
  · simp [hx]
  · simp [hx, Ne.symm hx]

/-- The creator keeps its reference. -/
theorem inv_hold (h : s.InvWith cfg (oneTo o)) :
    ({ s with held := o :: s.held } : VmSys).Inv cfg := by
  refine ⟨h.toFormed, h.table.congr fun x => ?_⟩
  simp only [external, count_cons_eq]
  omega

/-- The creator takes its reference out of what it holds. -/
theorem inv_unhold (h : s.Inv cfg) (hheld : o ∈ s.held) :
    ({ s with held := s.held.erase o } : VmSys).InvWith cfg (oneTo o) := by
  refine ⟨h.toFormed, h.table.congr fun x => ?_⟩
  have hcount := (perm_cons_erase hheld).count_eq x
  rw [count_cons_eq] at hcount
  simp only [external, hcount]
  omega

theorem taskCreate_inv (withMap : Bool) (h : s.Inv cfg) (ht : t ∈ cfg.tasks)
    (hnone : s.tasks t = none) :
    (s.setTask t (some ⟨cspaceInit, if withMap then some vmMapInit else none⟩)).Inv cfg := by
  refine h.setTask ht cspaceInit_coherent ?_ fun x => ?_
  · intro m hm
    split at hm
    · rw [some.injEq] at hm
      rw [← hm]
      exact ⟨rfl, Nat.zero_le _⟩
    · simp at hm
  have hslots : cspaceInit.held = [] := by
    rw [CSpace.held, cspaceInit, filter_replicate]
    rfl
  have hentries : VmTask.entriesNaming
      ⟨cspaceInit, if withMap then some vmMapInit else none⟩ x = 0 := by
    cases withMap <;> rfl
  rw [hnone]
  simp only [taskRefs, VmTask.slotsNaming, hslots, hentries]
  rfl

theorem taskDestroy_inv (h : s.Inv cfg) (htask : s.tasks t = some task)
    (hkeeps : ∀ cap ∈ task.cspace.held, ¬ NamesObject cap) : (taskDestroy s t task).Inv cfg := by
  have hslots : ∀ x, task.slotsNaming x = 0 := by
    intro x
    refine countP_eq_zero.mpr fun cap hcap => ?_
    rw [Bool.not_eq_true]
    exact namesMemory_of_not_namesObject (hkeeps cap hcap) x
  have hgone := h.removeTask (h.known t task htask)
  rw [htask] at hgone
  rw [taskDestroy]
  split
  · rename_i hmap
    refine hgone.congr fun x => ?_
    simp only [taskRefs, VmTask.entriesNaming, hmap, hslots]
  · rename_i m hmap
    refine VmSys.InvWith.applyRefs (hgone.congr fun x => ?_) (posts_destroy m)
    rw [taskRefs_of_map hmap, hslots]
    omega

end Owners

/-! ## Runs -/

/-- The calls that keep the owners counted.

* The slot that is freed, or any slot of a task that is destroyed, does not name a
  memory object.
* A range that is protected does not lie strictly inside an entry that has others
  behind it.
* A slot table grows into a block that reads as unused. -/
def VmCall.Keeps (cfg : VmConfig) (s : VmSys) : VmCall → Prop
  | .slotFree t handle => ∀ task, s.tasks t = some task → handleTaskId handle = t → ∀ cap cs,
      cspaceFreeSlot task.cspace (handleSlot handle) = (some cap, cs) → ¬ NamesObject cap
  | .taskDestroy t => ∀ task, s.tasks t = some task → ∀ cap ∈ task.cspace.held, ¬ NamesObject cap
  | .protect t addr size _ _ => ∀ task m, s.tasks t = some task → task.map = some m →
      OnlyLastContains m.live addr.toNat (add64 addr.toNat size.toNat)
  | .sysProtect t addr size _ _ => ∀ rounded, sysRange cfg.user addr size = some rounded →
      ∀ task m, s.tasks t = some task → task.map = some m →
        OnlyLastContains m.live addr.toNat (add64 addr.toNat rounded.toNat)
  | .createShared t _ _ grow => GrowsInto s t grow
  | .createPhys t _ _ _ grow => GrowsInto s t grow
  | .give t _ grow => GrowsInto s t grow
  | .slotAlloc t _ _ _ grow => GrowsInto s t grow
  | .slotMove _ dst _ grow => GrowsInto s dst grow
  | _ => True

theorem vmStart_inv (cfg : VmConfig) : vmStart.Inv cfg := by
  refine ⟨⟨by simp [vmStart], by simp [vmStart], by simp [vmStart]⟩, ⟨fun _ => 0, ?_, ?_⟩, ?_⟩
  · have hnone : ∀ o, vmStart.external cfg o + 0 +
        children cfg.addrs vmStart.mem.objects o = 0 := by
      intro o
      simp [external, vmStart, taskRefs, children, childOf]
    refine ⟨by simp [vmStart], fun o ho => ?_, by simp [vmStart], by simp [vmStart]⟩
    rw [hnone o] at ho
    omega
  · simp [vmStart]
  · simp [vmStart]

theorem vmStep_inv (cfg : VmConfig) (s : VmSys) (call : VmCall) (s' : VmSys) (h : s.Inv cfg)
    (hkeeps : call.Keeps cfg s) (hstep : vmStep cfg s call = some s') : s'.Inv cfg := by
  cases call with
  | taskCreate t withMap =>
    obtain ⟨⟨ht, hnone⟩, rfl⟩ := of_guard hstep
    exact taskCreate_inv withMap h ht (isNone_iff_eq_none.mp hnone)
  | taskDestroy t =>
    obtain ⟨task, htask, rfl⟩ := map_eq_some_iff.mp hstep
    exact taskDestroy_inv h htask (hkeeps task htask)
  | createShared t size block grow =>
    obtain ⟨hfresh, rfl⟩ := of_guard hstep
    exact createShared_inv h hfresh hkeeps
  | createPhys t physBase size block grow =>
    obtain ⟨hfresh, rfl⟩ := of_guard hstep
    exact createPhys_inv h hfresh hkeeps
  | create kind size block =>
    have hcreate : (∀ n, (⟨n, size, kind⟩ : VmObject).parent = none) →
        (if freshBlock cfg s block then
          match vmObjectAlloc s.mem kind size block with
          | (none, mem) => some { s with mem := mem }
          | (some o, mem) =>
              some { s with mem := mem, held := o :: s.held, created := s.created + 1 }
        else none) = some s' → s'.Inv cfg := by
      intro hkind hstep
      rw [ite_none_right_eq_some] at hstep
      obtain ⟨hfresh, hstep⟩ := hstep
      rcases h.table.alloc hkind (freshBlock_spec hfresh) with heq | ⟨o, mem, heq, htable⟩
      · rw [heq, some.injEq] at hstep
        exact hstep ▸ h
      · rw [heq, some.injEq] at hstep
        exact hstep ▸ inv_hold (inv_created h htable)
    cases kind with
    | shadow parent map => simp [vmStep] at hstep
    | anon | phys base | shared pages | userPaged port => exact hcreate (fun _ => rfl) hstep
  | createShadow parent block bitmap =>
    rw [vmStep, ite_none_right_eq_some, Bool.and_eq_true] at hstep
    obtain ⟨⟨hfresh, -⟩, hstep⟩ := hstep
    rcases h.table.shadow (freshBlock_spec hfresh) with heq | ⟨o, mem, heq, htable⟩
    · rw [heq, some.injEq] at hstep
      exact hstep ▸ h
    · rw [heq, some.injEq] at hstep
      exact hstep ▸ inv_hold (inv_created h htable)
  | give t o grow =>
    rw [vmStep] at hstep
    split at hstep
    · simp at hstep
    rename_i task htask
    obtain ⟨hheld, rfl⟩ := of_guard hstep
    have hown := inv_unhold h hheld
    exact installObject_inv hown htask (hown.table.ne_zero (by rw [oneTo_self]; omega)) hkeeps
  | drop o =>
    obtain ⟨hheld, rfl⟩ := of_guard hstep
    exact (inv_unhold h hheld).release fun x => (Nat.zero_add _).symm
  | map t addr o objOffset size prot inherit mem =>
    simp only [vmStep, ite_none_right_eq_some, some.injEq, isSome_iff_exists] at hstep
    obtain ⟨⟨obj, hobj⟩, rfl⟩ := hstep
    exact mapObject_inv h hobj
  | unmap t addr size mem =>
    simp only [vmStep, some.injEq] at hstep
    exact hstep ▸ unmapRange_inv h
  | protect t addr size prot mem =>
    simp only [vmStep, some.injEq] at hstep
    exact hstep ▸ protectRange_inv h hkeeps
  | sysMap t handle addr prot mem =>
    simp only [vmStep, some.injEq] at hstep
    subst hstep
    rw [sysVmMap]
    split
    · exact h
    split
    · exact h
    split
    · exact h
    split
    · exact h
    rename_i obj hobj
    split
    · exact h
    split
    · exact h
    exact mapObject_inv h hobj
  | sysUnmap t addr size mem =>
    simp only [vmStep, some.injEq] at hstep
    subst hstep
    rw [sysVmUnmap]
    split
    · exact h
    · exact unmapRange_inv h
  | sysProtect t addr size prot mem =>
    simp only [vmStep, some.injEq] at hstep
    subst hstep
    rw [sysVmProtect]
    split
    · exact h
    · rename_i rounded hrounded
      exact protectRange_inv h (hkeeps rounded hrounded)
  | slotAlloc t type rights objectId grow =>
    simp only [vmStep, ite_none_left_eq_some, some.injEq] at hstep
    obtain ⟨hnull, rfl⟩ := hstep
    exact slotAlloc_inv h hkeeps hnull
  | slotFree t handle =>
    simp only [vmStep, some.injEq] at hstep
    exact hstep ▸ sysSlotFree_inv h hkeeps
  | slotMove src dst slot grow => exact slotMove_inv h hkeeps hstep

/-- **The references of memory objects are counted.**  In every run whose calls all
meet `VmCall.Keeps`, the count of every object is the number of its owners in every
state, and an object is there exactly as long as it has owners. -/
theorem object_refs_balance (cfg : VmConfig) (calls : List VmCall) (s : VmSys)
    (hkeeps : AllSteps (vmStep cfg) (fun s call => call.Keeps cfg s) vmStart calls)
    (hrun : exec (vmStep cfg) vmStart calls = some s) : s.Balanced cfg :=
  (exec_invariant (fun s call s' => vmStep_inv cfg s call s') (vmStart_inv cfg)
    hkeeps hrun).balanced

/-- One task and room for two objects. -/
def smallConfig : VmConfig := ⟨amd64User, 64, {2}, {0x1000, 0x2000}, by decide⟩

/-- A task creates a shared object and maps it, and the kernel makes a shadow of it. -/
def shareMapShadow : List VmCall :=
  [.taskCreate 2 true, .createShared 2 0x1000 (some 0x1000) zeroMem,
    .sysMap 2 (taskMakeHandle 2 1) 0x8000000 3 [], .createShadow 0x1000 (some 0x2000) true]

theorem object_refs_balance_shadow :
    ∃ s, exec (vmStep smallConfig) vmStart shareMapShadow = some s ∧
      (∃ obj, s.mem.objects 0x1000 = some obj ∧ obj.refCount = 3) ∧ s.Balanced smallConfig := by
  refine ⟨_, rfl, ⟨_, rfl, by decide⟩, object_refs_balance smallConfig shareMapShadow _ ?_ rfl⟩
  exact .cons trivial rfl (.cons (fun _ _ _ => zeroMem_clearFrom _) rfl
    (.cons trivial rfl (.cons trivial rfl trivial)))

/-- A task creates a shared object and frees the slot: the object stays, with a
count of one and no owner. -/
theorem freed_slot_leaks_object : ∃ s, exec (vmStep smallConfig) vmStart
        [.taskCreate 2 true, .createShared 2 0x1000 (some 0x1000) zeroMem,
          .slotFree 2 (taskMakeHandle 2 1)] = some s ∧
      (∃ obj, s.mem.objects 0x1000 = some obj ∧ obj.refCount = 1) ∧
      s.owners smallConfig 0x1000 = 0 ∧ ¬ s.Balanced smallConfig := by
  refine ⟨_, rfl, ⟨_, rfl, by decide⟩, by decide, fun h => ?_⟩
  exact absurd ((h.released 0x1000).mp ⟨_, rfl⟩) (by decide)

end ArcKernel.Vm
