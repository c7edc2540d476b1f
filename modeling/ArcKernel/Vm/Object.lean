import Mathlib.Tactic

/-!
# Memory objects (`mk/vm/vm_object.c`): creation, references, release

An object is named by the address of its `vm_object_t`.  The table gives the
object at an address, if one is allocated there; the address 0 is the null
pointer and never has one.

A pointer to an object that has been freed finds nothing in the table.  The source
would go on with whatever the heap has put there; the model does nothing, and the
proofs show that it does not come to that.

The reference counts are `int`s that do not overflow: every reference is a slot, an
entry or an object in the kernel heap, which holds far fewer than `2 ^ 31` of them.
-/

namespace ArcKernel.Vm

/-! ## Data model -/

/-- The part of a `vm_object_t` that depends on its type.

* `shared`: the page cache; a page that was never touched is 0.
* `shadow`: the parent and the bits of `copied_map`, in order. -/
inductive VmObjKind where
  | anon
  | phys (physBase : Nat)
  | shared (pages : List Nat)
  | shadow (parent : Nat) (copiedMap : List Bool)
  | userPaged (pagingPort : Nat)

/-- `vm_object_t`. -/
structure VmObject where
  refCount : Nat
  size : UInt64
  kind : VmObjKind

/-- The parent of a shadow. -/
def VmObject.parent (obj : VmObject) : Option Nat :=
  match obj.kind with
  | .shadow parent _ => some parent
  | _ => none

/-- The objects there are, and the pages given back to the page allocator. -/
structure ObjMem where
  objects : Nat → Option VmObject
  freed : List Nat

def ObjMem.setObject (mem : ObjMem) (o : Nat) (obj : Option VmObject) : ObjMem :=
  { mem with objects := Function.update mem.objects o obj }

/-! ## Creation -/

/-- `vm_object_alloc`; `block` is the outcome of its `kmalloc`. -/
def vmObjectAlloc (mem : ObjMem) (kind : VmObjKind) (size : UInt64) (block : Option Nat) :
    Option Nat × ObjMem :=
  if size = 0 then (none, mem)
  else
    match block with
    | none => (none, mem)
    | some o => (some o, mem.setObject o (some ⟨1, size, kind⟩))

def vmObjectCreateAnon (mem : ObjMem) (size : UInt64) (block : Option Nat) : Option Nat × ObjMem :=
  vmObjectAlloc mem .anon size block

def vmObjectCreatePhys (mem : ObjMem) (physBase : Nat) (size : UInt64) (block : Option Nat) :
    Option Nat × ObjMem :=
  vmObjectAlloc mem (.phys physBase) size block

def vmObjectCreateShared (mem : ObjMem) (size : UInt64) (block : Option Nat) :
    Option Nat × ObjMem :=
  vmObjectAlloc mem (.shared []) size block

def vmObjectCreateUserPaged (mem : ObjMem) (size : UInt64) (pagerPortHandle : Nat)
    (block : Option Nat) : Option Nat × ObjMem :=
  vmObjectAlloc mem (.userPaged pagerPortHandle) size block

/-- `map_nwords` for a parent of the given size, where `unsigned long` and `size_t`
have `bits` bits.  The number of pages and then the number of words are stored in an
`int`; the addition in between is done in `size_t`. -/
def mapNwords (bits : Nat) (size : UInt64) : Nat :=
  let pages := (size + 4095).toNat / 4096 % 2 ^ 32
  let wide := if pages < 2 ^ 31 then pages else pages + 2 ^ bits - 2 ^ 32
  (wide + bits - 1) % 2 ^ bits / bits % 2 ^ 32

/-- `vm_object_retain`. -/
def vmObjectRetain (mem : ObjMem) (o : Nat) : ObjMem :=
  match mem.objects o with
  | none => mem
  | some obj => mem.setObject o (some { obj with refCount := obj.refCount + 1 })

/-- `vm_object_create_shadow`; `bitmap` says whether the `kcalloc` of the bitmap
succeeds. -/
def vmObjectCreateShadow (bits : Nat) (mem : ObjMem) (parent : Nat) (block : Option Nat)
    (bitmap : Bool) : Option Nat × ObjMem :=
  match mem.objects parent with
  | none => (none, mem)
  | some obj =>
      let map := List.replicate (mapNwords bits obj.size * bits) false
      match vmObjectAlloc mem (.shadow parent map) obj.size block with
      | (none, mem') => (none, mem')
      | (some o, mem') =>
          if bitmap then (some o, vmObjectRetain mem' parent)
          else (none, mem'.setObject o none)

/-- A shadow is made or the table stays as it was, with blocks that are not in use.  A new
shadow keeps its parent, which stays in place. -/
theorem vmObjectCreateShadow_cases (bits : Nat) (mem : ObjMem) (parent : Nat)
    (block : Option Nat) (bitmap : Bool) (hblock : ∀ o, block = some o → mem.objects o = none) :
    vmObjectCreateShadow bits mem parent block bitmap = (none, mem) ∨
      ∃ obj o, mem.objects parent = some obj ∧ block = some o ∧ parent ≠ o ∧
        vmObjectCreateShadow bits mem parent block bitmap = (some o,
          (mem.setObject parent (some { obj with refCount := obj.refCount + 1 })).setObject o
            (some ⟨1, obj.size, .shadow parent
              (List.replicate (mapNwords bits obj.size * bits) false)⟩)) := by
  unfold vmObjectCreateShadow vmObjectAlloc
  cases hparent : mem.objects parent with
  | none => exact .inl rfl
  | some obj =>
    dsimp only
    by_cases hsize : obj.size = 0
    · rw [if_pos hsize]
      exact .inl rfl
    rw [if_neg hsize]
    cases block with
    | none => exact .inl rfl
    | some o =>
      have hfree := hblock o rfl
      have hne : parent ≠ o := by
        rintro rfl
        cases hparent.symm.trans hfree
      cases bitmap with
      | false =>
        left
        simp [ObjMem.setObject, ← hfree]
      | true =>
        refine .inr ⟨obj, o, rfl, rfl, hne, ?_⟩
        simp [vmObjectRetain, ObjMem.setObject, Function.update_of_ne hne, hparent,
          Function.update_comm hne]

/-! ## Release -/

/-- The pages of a shared object's cache. -/
def VmObject.cachedPages (obj : VmObject) : List Nat :=
  match obj.kind with
  | .shared pages => pages.filter (· ≠ 0)
  | _ => []

/-- `vm_object_release`.  A shadow whose count drops to zero releases its parent, so
the recursion goes up a chain of shadows; the fuel bounds its length. -/
def vmObjectRelease : Nat → ObjMem → Nat → ObjMem
  | 0, mem, _ => mem
  | fuel + 1, mem, o =>
      match mem.objects o with
      | none => mem
      | some obj =>
          if obj.refCount = 0 then mem
          else
            let mem' := mem.setObject o (some { obj with refCount := obj.refCount - 1 })
            if obj.refCount - 1 ≠ 0 then mem'
            else
              let up :=
                match obj.parent with
                | some parent => vmObjectRelease fuel mem' parent
                | none => mem'
              { up.setObject o none with freed := up.freed ++ obj.cachedPages }

end ArcKernel.Vm
