import ArcKernel.Vm.Object

/-!
# Page faults on memory objects (`mk/vm/vm_object.c`)

The fault function of each type of object, over the object table and the pages the
page allocator has handed out.  Every page a fault function returns is recorded,
also the page a parent returns to a shadow that is about to copy it.

What a fault does not decide itself is given to it level by level along the chain
of shadows: whether the page allocator, the temporary mapping and the allocation of
a page cache succeed, and what a user pager answers.  The page allocator hands out
pages that are not in use; an outcome that breaks this has no step.

A bit beyond the end of `copied_map` is outside the model: it reads as clear and is
not set.
-/

namespace ArcKernel.Vm

/-! ## State -/

/-- A page returned by the fault function of an object, and whether the object is a
shadow that has just made the page its private copy. -/
structure PageReturn where
  obj : Nat
  index : Nat
  page : Nat
  copied : Bool
  deriving DecidableEq

/-- `taken` are the pages handed out and not given back, `log` the pages returned
so far, oldest first.  `created` bounds the length of a chain of shadows. -/
structure FaultSys where
  mem : ObjMem
  created : Nat
  taken : List Nat
  log : List PageReturn

/-- The outcomes at one level of a fault. -/
structure FaultMem where
  page : Option Nat
  tempMap : Bool
  cache : Bool
  pager : Int × Nat

inductive FaultResult where
  | fail (code : Int)
  | page (phys : Nat)

/-- The index of the page at a byte offset. -/
def pageIndex (offset : UInt64) : Nat := offset.toNat / 4096

def FaultSys.setKind (s : FaultSys) (o : Nat) (obj : VmObject) (kind : VmObjKind) : FaultSys :=
  { s with mem := s.mem.setObject o (some { obj with kind := kind }) }

def FaultSys.record (s : FaultSys) (r : PageReturn) : FaultSys := { s with log := s.log ++ [r] }

/-- `pmm_alloc_page` and the temporary mapping that follows it; the page is given
back when the mapping fails. -/
def newPage (s : FaultSys) (m : FaultMem) : Option (Option Nat × FaultSys) :=
  match m.page with
  | none => some (none, s)
  | some p =>
      if p = 0 ∨ p ∈ s.taken then none
      else if m.tempMap then some (some p, { s with taken := p :: s.taken })
      else some (none, { s with mem := { s.mem with freed := s.mem.freed ++ [p] } })

/-! ## Fault functions -/

/-- `vm_object_anon_fault`, for an offset inside the object. -/
def anonFault (s : FaultSys) (o index : Nat) (m : FaultMem) : Option (FaultResult × FaultSys) :=
  match newPage s m with
  | none => none
  | some (none, s') => some (.fail (-1), s')
  | some (some p, s') => some (.page p, s'.record ⟨o, index, p, false⟩)

/-- The page of a physical range at an offset. -/
def physPage (physBase : Nat) (offset : UInt64) : Nat :=
  (physBase + offset.toNat / 4096 * 4096) % 2 ^ 64

/-- `vm_object_phys_fault`. -/
def physFault (s : FaultSys) (o physBase : Nat) (offset : UInt64) :
    Option (FaultResult × FaultSys) :=
  let p := physPage physBase offset
  some (.page p, s.record ⟨o, pageIndex offset, p, false⟩)

/-- The `while` loop that doubles the capacity, a `uint32_t`, until it covers the
index.  After 32 doublings the capacity is 0 and stays there: `none` is a loop that
does not end. -/
def growCapacity (index : Nat) : Nat → Nat → Option Nat
  | 0, _ => none
  | fuel + 1, newCap =>
      if newCap ≤ index then growCapacity index fuel (newCap * 2 % 2 ^ 32) else some newCap

/-- The page cache with room for the index: `none` when the loop does not end, and
`some none` when `kcalloc` fails. -/
def sharedCache (pages : List Nat) (index : Nat) (cache : Bool) : Option (Option (List Nat)) :=
  if index ≥ pages.length then
    let start := if pages.length = 0 then 64 else pages.length * 2 % 2 ^ 32
    match growCapacity index 33 start with
    | none => none
    | some newCap =>
        if cache ∧ newCap * 8 < 2 ^ 32 then
          some (some (pages ++ List.replicate (newCap - pages.length) 0))
        else some none
  else some (some pages)

/-- `vm_object_shared_fault`. -/
def sharedFault (s : FaultSys) (o : Nat) (obj : VmObject) (pages : List Nat) (index : Nat)
    (m : FaultMem) : Option (FaultResult × FaultSys) :=
  match sharedCache pages index m.cache with
  | none => none
  | some none => some (.fail (-1), s)
  | some (some pages') =>
      let grown := s.setKind o obj (.shared pages')
      if pages'.getD index 0 ≠ 0 then
        let p := pages'.getD index 0
        some (.page p, grown.record ⟨o, index, p, false⟩)
      else
        match newPage grown m with
        | none => none
        | some (none, s') => some (.fail (-1), s')
        | some (some p, s') =>
            some (.page p,
              (s'.setKind o obj (.shared (pages'.set index p))).record ⟨o, index, p, false⟩)

/-- `vm_object_user_paged_fault`; the pager's answer is an error code or a page. -/
def userPagedFault (s : FaultSys) (o index : Nat) (m : FaultMem) :
    Option (FaultResult × FaultSys) :=
  if m.pager.1 < 0 then some (.fail m.pager.1, s)
  else some (.page m.pager.2, s.record ⟨o, index, m.pager.2, false⟩)

/-- The fault function of the object at `o`.  A shadow asks its parent in either
case: for the page it returns, when its own page was copied before, and for the page
to copy, when it was not. -/
def vmObjectFault : Nat → FaultSys → Nat → UInt64 → (Nat → FaultMem) →
    Option (FaultResult × FaultSys)
  | 0, _, _, _, _ => none
  | fuel + 1, s, o, offset, mems =>
      match s.mem.objects o with
      | none => none
      | some obj =>
          if offset ≥ obj.size then some (.fail (-1), s)
          else
            let index := pageIndex offset
            match obj.kind with
            | .anon => anonFault s o index (mems 0)
            | .phys physBase => physFault s o physBase offset
            | .shared pages => sharedFault s o obj pages index (mems 0)
            | .userPaged _ => userPagedFault s o index (mems 0)
            | .shadow parent copiedMap =>
                match vmObjectFault fuel s parent offset fun n => mems (n + 1) with
                | none => none
                | some (.fail code, s') => some (.fail code, s')
                | some (.page pp, s') =>
                    if copiedMap.getD index false then
                      some (.page pp, s'.record ⟨o, index, pp, false⟩)
                    else
                      match newPage s' (mems 0) with
                      | none => none
                      | some (none, s'') => some (.fail (-1), s'')
                      | some (some p, s'') =>
                          some (.page p,
                            (s''.setKind o obj (.shadow parent (copiedMap.set index true))).record
                              ⟨o, index, p, true⟩)

/-! ## Steps -/

/-- The creation of an object, or a fault. -/
inductive FaultCall where
  | createAnon (size : UInt64) (block : Option Nat)
  | createPhys (physBase : Nat) (size : UInt64) (block : Option Nat)
  | createShared (size : UInt64) (block : Option Nat)
  | createUserPaged (size : UInt64) (port : Nat) (block : Option Nat)
  | createShadow (parent : Nat) (block : Option Nat) (bitmap : Bool)
  | fault (o : Nat) (offset : UInt64) (mems : Nat → FaultMem)

/-- The heap hands out addresses that are not in use. -/
def FaultSys.fresh (s : FaultSys) : Option Nat → Bool
  | none => true
  | some o => decide (o ≠ 0) && (s.mem.objects o).isNone

/-- The size of `unsigned long`. -/
def wordBits (wide : Bool) : Nat := if wide then 64 else 32

/-- The state after a constructor ran, in a block the heap may hand out. -/
def FaultSys.afterCreate (s : FaultSys) (block : Option Nat) (r : Option Nat × ObjMem) :
    Option FaultSys :=
  if s.fresh block then some { s with mem := r.2, created := s.created + 1 } else none

def faultStep (wide : Bool) (s : FaultSys) : FaultCall → Option FaultSys
  | .createAnon size block => s.afterCreate block (vmObjectCreateAnon s.mem size block)
  | .createPhys physBase size block =>
      s.afterCreate block (vmObjectCreatePhys s.mem physBase size block)
  | .createShared size block => s.afterCreate block (vmObjectCreateShared s.mem size block)
  | .createUserPaged size port block =>
      s.afterCreate block (vmObjectCreateUserPaged s.mem size port block)
  | .createShadow parent block bitmap =>
      s.afterCreate block (vmObjectCreateShadow (wordBits wide) s.mem parent block bitmap)
  | .fault o offset mems => (vmObjectFault (s.created + 1) s o offset mems).map (·.2)

/-- No object yet. -/
def faultStart : FaultSys := ⟨⟨fun _ => none, []⟩, 0, [], []⟩

end ArcKernel.Vm
