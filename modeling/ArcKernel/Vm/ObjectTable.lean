import ArcKernel.Foundation.Ledger
import ArcKernel.Foundation.Run
import ArcKernel.Vm.Object

/-!
# The count of a memory object

The references to an object come from outside the object table, or from the
shadows it is the parent of.  `Table` says that the counts of all objects are
right with respect to a given number of outside references to each address: it is
the specification of `vm_object_retain`, `vm_object_release` and the constructors.

A release that drops the last reference goes on to the parent before it frees the
object.  In between the table has an object whose count is zero, which is no
longer a reference to its parent; `childOf` counts accordingly, and a table
between calls has no such object.
-/

namespace ArcKernel.Vm

open ArcKernel.Foundation Finset Function

variable {objs : Nat → Option VmObject} {obj : VmObject} {block : Option Nat} {n : Nat}

/-! ## Counting shadows -/

/-- Whether the object at an address is a reference to the parent `p`. -/
def childOf (p : Nat) : Option VmObject → Nat
  | some obj => if obj.refCount ≠ 0 ∧ obj.parent = some p then 1 else 0
  | none => 0

def children (addrs : Finset Nat) (objs : Nat → Option VmObject) (p : Nat) : Nat :=
  ∑ a ∈ addrs, childOf p (objs a)

section Children

variable {addrs : Finset Nat} {objs : Nat → Option VmObject} {o : Nat}

theorem children_update (p : Nat) (ho : o ∈ addrs) (x : Option VmObject) :
    children addrs (update objs o x) p + childOf p (objs o) = children addrs objs p + childOf p x :=
  ledger_update addrs objs (childOf p) ho x

/-- Changing an object in a way that keeps what it refers to. -/
theorem children_update_same (p : Nat) (ho : o ∈ addrs) {x : Option VmObject}
    (h : childOf p x = childOf p (objs o)) :
    children addrs (update objs o x) p = children addrs objs p := by
  have := @children_update addrs objs o p ho x
  omega

theorem childOf_le_children (p : Nat) (ho : o ∈ addrs) :
    childOf p (objs o) ≤ children addrs objs p :=
  le_ledger addrs objs (childOf p) ho

end Children

/-- One reference to `o`. -/
def oneTo (o x : Nat) : Nat := if x = o then 1 else 0

@[simp] theorem oneTo_self (o : Nat) : oneTo o o = 1 := if_pos rfl

theorem oneTo_of_ne {o x : Nat} (h : x ≠ o) : oneTo o x = 0 := if_neg h

theorem childOf_some {p : Nat} (hcount : obj.refCount ≠ 0)
    (hparent : obj.parent = some p) (x : Nat) : childOf x (some obj) = oneTo p x := by
  simp only [childOf, hparent, Option.some.injEq, oneTo]
  by_cases hx : x = p
  · rw [if_pos ⟨hcount, hx.symm⟩, if_pos hx]
  · rw [if_neg (fun h => hx h.2.symm), if_neg hx]

theorem childOf_none (hparent : obj.parent = none) (x : Nat) : childOf x (some obj) = 0 := by
  simp [childOf, hparent]

theorem childOf_zero (hcount : obj.refCount = 0) (x : Nat) : childOf x (some obj) = 0 := by
  simp [childOf, hcount]

/-! ## Right counts -/

/-- The counts are right for `ext o` references to each `o` from outside.  The rank
of a shadow is above that of its parent, so chains of shadows end. -/
structure Books (addrs : Finset Nat) (rank : Nat → Nat) (objs : Nat → Option VmObject)
    (ext : Nat → Nat) : Prop where
  counted : ∀ o obj, objs o = some obj → obj.refCount = ext o + children addrs objs o
  named : ∀ o, 0 < ext o + children addrs objs o → ∃ obj, objs o = some obj
  known : ∀ o obj, objs o = some obj → o ∈ addrs
  ranked : ∀ o obj p, objs o = some obj → obj.parent = some p → rank p < rank o

section Change

variable {addrs : Finset Nat} {rank : Nat → Nat} {objs : Nat → Option VmObject}
  {ext ext' : Nat → Nat} {o : Nat} {obj : VmObject}

section

variable (h : Books addrs rank objs ext) (hobj : objs o = some obj)
include h hobj

/-- The count of one object changes, and what the others are owed stays the same. -/
theorem Books.setCount
    (hself : n = ext' o + children addrs (update objs o (some { obj with refCount := n })) o)
    (hother : ∀ x, x ≠ o → ext' x +
      children addrs (update objs o (some { obj with refCount := n })) x =
        ext x + children addrs objs x) :
    Books addrs rank (update objs o (some { obj with refCount := n })) ext' := by
  constructor
  · intro x y hx
    rcases update_cases hx with ⟨rfl, ⟨⟩⟩ | ⟨hxo, hx⟩
    · exact hself
    · rw [hother x hxo]
      exact h.counted x y hx
  · intro x hx
    by_cases hxo : x = o
    · subst hxo
      exact ⟨_, update_self ..⟩
    · rw [hother x hxo] at hx
      rw [update_of_ne hxo]
      exact h.named x hx
  · intro x y hx
    rcases update_cases hx with ⟨rfl, -⟩ | ⟨-, hx⟩
    · exact h.known x obj hobj
    · exact h.known x y hx
  · intro x y p hx hp
    rcases update_cases hx with ⟨rfl, ⟨⟩⟩ | ⟨-, hx⟩
    · exact h.ranked x obj p hobj hp
    · exact h.ranked x y p hx hp

/-- An object's count and the outside references to it change together, and what
it refers to itself stays the same. -/
theorem Books.recount (hcount : n + ext o = obj.refCount + ext' o)
    (hother : ∀ x, x ≠ o → ext' x = ext x)
    (hsame : ∀ p, childOf p (some { obj with refCount := n }) = childOf p (some obj)) :
    Books addrs rank (update objs o (some { obj with refCount := n })) ext' := by
  have hchildren : ∀ p, children addrs
      (update objs o (some { obj with refCount := n })) p = children addrs objs p :=
    fun p => children_update_same p (h.known o obj hobj) (by rw [hsame p, hobj])
  refine h.setCount hobj ?_ fun x hx => by rw [hchildren, hother x hx]
  have := h.counted o obj hobj
  rw [hchildren]
  omega

/-- The last outside reference to an object is dropped: what it refers to is now
referred to from outside, by the release in progress. -/
theorem Books.die (hlast : obj.refCount = 1) (hext : ∀ x, ext x = ext' x + oneTo o x) :
    Books addrs rank (update objs o (some { obj with refCount := 0 }))
      (fun x => ext' x + childOf x (some obj)) := by
  have hchildren : ∀ p, children addrs
      (update objs o (some { obj with refCount := 0 })) p + childOf p (some obj) =
        children addrs objs p := by
    intro p
    have := @children_update addrs objs o p (h.known o obj hobj) (some { obj with refCount := 0 })
    rw [childOf_zero rfl, hobj] at this
    omega
  refine h.setCount hobj ?_ fun x hx => ?_
  · have hcount := h.counted o obj hobj
    have hone := hext o
    have hsum := hchildren o
    rw [oneTo_self] at hone
    omega
  · have hsame := hext x
    have hsum := hchildren x
    rw [oneTo_of_ne hx] at hsame
    omega

/-- An object with a count of zero is freed. -/
theorem Books.bury (hzero : obj.refCount = 0) : Books addrs rank (update objs o none) ext := by
  have ho := h.known o obj hobj
  have hchildren : ∀ p, children addrs (update objs o none) p = children addrs objs p := by
    intro p
    refine children_update_same p ho ?_
    rw [hobj, childOf_zero hzero, childOf]
  have hnone : ∀ x y, update objs o none x = some y → x ≠ o ∧ objs x = some y := by
    intro x y hx
    rcases update_cases hx with ⟨-, ⟨⟩⟩ | hx
    exact hx
  constructor
  · intro x y hx
    rw [hchildren]
    exact h.counted x y (hnone x y hx).2
  · intro x hx
    rw [hchildren] at hx
    have hxo : x ≠ o := by
      rintro rfl
      have := h.counted x obj hobj
      omega
    rw [update_of_ne hxo]
    exact h.named x hx
  · intro x y hx
    exact h.known x y (hnone x y hx).2
  · intro x y p hx
    exact h.ranked x y p (hnone x y hx).2

end

end Change

/-! ## Release -/

/-- What a release of `o` leaves, for `ext'` remaining outside references. -/
structure Released (addrs : Finset Nat) (rank : Nat → Nat) (mem : ObjMem) (o : Nat)
    (ext' : Nat → Nat) (mem' : ObjMem) : Prop where
  books : Books addrs rank mem'.objects ext'
  above : ∀ x, rank o < rank x → mem'.objects x = mem.objects x
  zero : ∀ x y, mem'.objects x = some y → y.refCount = 0 → mem.objects x = some y
  fewer : ∀ x y, mem'.objects x = some y → ∃ y', mem.objects x = some y'

theorem vmObjectRelease_spec {addrs : Finset Nat} {rank : Nat → Nat} {fuel : Nat} {mem : ObjMem}
    {o : Nat} {ext ext' : Nat → Nat} (h : Books addrs rank mem.objects ext)
    (hext : ∀ x, ext x = ext' x + oneTo o x) (hfuel : rank o < fuel) :
    Released addrs rank mem o ext' (vmObjectRelease fuel mem o) := by
  induction fuel generalizing mem o ext ext' with
  | zero => omega
  | succ fuel ih =>
    have hone : ext o = ext' o + 1 := by rw [hext o, oneTo_self]
    obtain ⟨obj, hobj⟩ := h.named o (by omega)
    have hcount := h.counted o obj hobj
    have hother : ∀ x, x ≠ o → ext' x = ext x := by
      intro x hx
      rw [hext x, oneTo_of_ne hx, Nat.add_zero]
    rw [vmObjectRelease]
    simp only [hobj]
    rw [if_neg (by omega)]
    by_cases hlast : obj.refCount - 1 = 0
    · have hrc : obj.refCount = 1 := by omega
      have hdead := h.die hobj hrc hext
      rw [hlast]
      -- the object itself, and then its parent
      have hbury : ∀ up : ObjMem, Books addrs rank up.objects ext' →
          (∀ x, rank o ≤ rank x → up.objects x =
            update mem.objects o (some { obj with refCount := 0 }) x) →
          (∀ x y, up.objects x = some y → y.refCount = 0 →
            update mem.objects o (some { obj with refCount := 0 }) x = some y) →
          (∀ x y, up.objects x = some y → ∃ y', mem.objects x = some y') →
          Released addrs rank mem o ext'
            { up.setObject o none with freed := up.freed ++ obj.cachedPages } := by
        intro up hbooks habove hzero hfewer
        have hself := habove o (le_refl _)
        rw [update_self] at hself
        refine ⟨hbooks.bury hself rfl, ?_, ?_, ?_⟩
        · intro x hx
          have hxo : x ≠ o := by
            rintro rfl
            omega
          simp only [ObjMem.setObject, update_of_ne hxo]
          rw [habove x (by omega), update_of_ne hxo]
        · intro x y hx hy
          rcases update_cases hx with ⟨-, ⟨⟩⟩ | ⟨hxo, hx⟩
          rw [← hzero x y hx hy, update_of_ne hxo]
        · intro x y hx
          rcases update_cases hx with ⟨-, ⟨⟩⟩ | ⟨-, hx⟩
          exact hfewer x y hx
      have hdomain : ∀ x y, update mem.objects o (some { obj with refCount := 0 }) x =
          some y → ∃ y', mem.objects x = some y' := by
        intro x y hx
        rcases update_cases hx with ⟨rfl, -⟩ | ⟨-, hx⟩
        · exact ⟨obj, hobj⟩
        · exact ⟨y, hx⟩
      cases hp : obj.parent with
      | none =>
        simp only [childOf_none hp, Nat.add_zero] at hdead
        exact hbury _ hdead (fun _ _ => rfl) (fun _ _ hx _ => hx) hdomain
      | some p =>
        have hrank := h.ranked o obj p hobj hp
        have hup := @ih (mem.setObject o (some { obj with refCount := 0 })) p _ ext' hdead
          (fun x => by rw [childOf_some (by omega) hp]) (by omega)
        refine hbury _ hup.books (fun x hx => hup.above x (by omega)) hup.zero ?_
        intro x y hx
        obtain ⟨y', hy'⟩ := hup.fewer x y hx
        exact hdomain x y' hy'
    · rw [if_pos hlast]
      have hsame : ∀ p, childOf p (some { obj with refCount := obj.refCount - 1 }) =
          childOf p (some obj) := by
        intro p
        have : obj.refCount ≠ 0 := by omega
        simp [childOf, VmObject.parent, hlast, this]
      refine ⟨h.recount hobj (by omega) hother hsame, ?_, ?_, ?_⟩
      · intro x hx
        have hxo : x ≠ o := by
          rintro rfl
          omega
        exact update_of_ne hxo _ _
      · intro x y hx hy
        rcases update_cases hx with ⟨rfl, ⟨⟩⟩ | ⟨-, hx⟩
        · exact absurd hy hlast
        · exact hx
      · intro x y hx
        rcases update_cases hx with ⟨rfl, -⟩ | ⟨-, hx⟩
        · exact ⟨obj, hobj⟩
        · exact ⟨y, hx⟩

/-! ## The table between calls -/

/-- The counts are right for `ext`, no object has a count of zero, and `created`
bounds the length of every chain of shadows. -/
structure Table (addrs : Finset Nat) (created : Nat) (objs : Nat → Option VmObject)
    (ext : Nat → Nat) : Prop where
  books : ∃ rank, Books addrs rank objs ext ∧ ∀ o obj, objs o = some obj → rank o < created
  alive : ∀ o obj, objs o = some obj → obj.refCount ≠ 0

section Table

variable {addrs : Finset Nat} {created : Nat} {mem : ObjMem} {ext ext' : Nat → Nat} {o : Nat}

theorem Table.congr (h : Table addrs created objs ext)
    (hext : ∀ x, ext' x = ext x) : Table addrs created objs ext' := by
  rwa [funext hext]

/-- An address has an object exactly when something refers to it. -/
theorem Table.exists_iff (h : Table addrs created objs ext) :
    (∃ obj, objs o = some obj) ↔ 0 < ext o + children addrs objs o := by
  obtain ⟨rank, hbooks, -⟩ := h.books
  constructor
  · rintro ⟨obj, hobj⟩
    have := hbooks.counted o obj hobj
    have := h.alive o obj hobj
    omega
  · exact hbooks.named o

theorem Table.release (h : Table addrs created mem.objects ext)
    (hext : ∀ x, ext x = ext' x + oneTo o x) :
    Table addrs created (vmObjectRelease created mem o).objects ext' := by
  obtain ⟨rank, hbooks, hbound⟩ := h.books
  have hone : ext o = ext' o + 1 := by rw [hext o, oneTo_self]
  obtain ⟨obj, hobj⟩ := hbooks.named o (by omega)
  have hspec := vmObjectRelease_spec hbooks hext (hbound o obj hobj)
  refine ⟨⟨rank, hspec.books, ?_⟩, ?_⟩
  · intro x y hx
    obtain ⟨y', hy'⟩ := hspec.fewer x y hx
    exact hbound x y' hy'
  · intro x y hx hzero
    exact h.alive x y (hspec.zero x y hx hzero) hzero

theorem Table.retain (h : Table addrs created mem.objects ext) (hobj : mem.objects o = some obj) :
    Table addrs created (vmObjectRetain mem o).objects (fun x => ext x + oneTo o x) := by
  obtain ⟨rank, hbooks, hbound⟩ := h.books
  have hne := h.alive o obj hobj
  simp only [vmObjectRetain, hobj, ObjMem.setObject]
  refine ⟨⟨rank, hbooks.recount hobj ?_ ?_ ?_, ?_⟩, ?_⟩
  · rw [oneTo_self]
    omega
  · intro x hx
    rw [oneTo_of_ne hx, Nat.add_zero]
  · intro p
    simp [childOf, VmObject.parent, hne]
  · intro x y hx
    rcases update_cases hx with ⟨rfl, -⟩ | ⟨-, hx⟩
    · exact hbound x obj hobj
    · exact hbound x y hx
  · intro x y hx
    rcases update_cases hx with ⟨rfl, ⟨⟩⟩ | ⟨-, hx⟩
    · exact Nat.succ_ne_zero _
    · exact h.alive x y hx

/-- A new object takes over an outside reference to its parent, if it has one. -/
theorem Table.add (h : Table addrs created objs ext) (hfree : objs o = none) (ho : o ∈ addrs)
    (hone : obj.refCount = 1) (hext : ∀ x, ext x = ext' x + childOf x (some obj)) :
    Table addrs (created + 1) (update objs o (some obj)) (fun x => ext' x + oneTo o x) := by
  obtain ⟨rank, hbooks, hbound⟩ := h.books
  -- nothing refers to the new address yet
  have hnone : ext o + children addrs objs o = 0 := by
    by_contra hne
    obtain ⟨y, hy⟩ := hbooks.named o (by omega)
    rw [hfree] at hy
    simp at hy
  have hchildren : ∀ p, children addrs (update objs o (some obj)) p =
      children addrs objs p + childOf p (some obj) := by
    intro p
    have := @children_update addrs objs o p ho (some obj)
    rw [hfree] at this
    exact this
  refine ⟨⟨update rank o created, ⟨?_, ?_, ?_, ?_⟩, ?_⟩, ?_⟩
  · intro x y hx
    rw [hchildren]
    have hx' := hext x
    rcases update_cases hx with ⟨rfl, ⟨⟩⟩ | ⟨hxo, hx⟩
    · rw [oneTo_self]
      omega
    · have := hbooks.counted x y hx
      rw [oneTo_of_ne hxo]
      omega
  · intro x hx
    rw [hchildren] at hx
    have hx' := hext x
    by_cases hxo : x = o
    · subst hxo
      exact ⟨obj, update_self ..⟩
    · rw [update_of_ne hxo]
      rw [oneTo_of_ne hxo] at hx
      exact hbooks.named x (by omega)
  · intro x y hx
    rcases update_cases hx with ⟨rfl, -⟩ | ⟨-, hx⟩
    · exact ho
    · exact hbooks.known x y hx
  · intro x y p hx hp
    rcases update_cases hx with ⟨rfl, ⟨⟩⟩ | ⟨hxo, hold⟩
    · have hchild := childOf_some (by omega) hp
      have hpx : p ≠ x := by
        rintro rfl
        have := hext p
        rw [hchild, oneTo_self] at this
        omega
      have hparent : ext p = ext' p + 1 := by rw [hext p, hchild, oneTo_self]
      obtain ⟨pobj, hpobj⟩ := hbooks.named p (by omega)
      rw [update_of_ne hpx, update_self]
      exact hbound p pobj hpobj
    · have hpo : p ≠ o := by
        rintro rfl
        have hle := @childOf_le_children addrs objs x p (hbooks.known x y hold)
        rw [hold, childOf_some (h.alive x y hold) hp, oneTo_self] at hle
        omega
      rw [update_of_ne hpo, update_of_ne hxo]
      exact hbooks.ranked x y p hold hp
  · intro x y hx
    rcases update_cases hx with ⟨rfl, -⟩ | ⟨hxo, hx⟩
    · rw [update_self]
      omega
    · rw [update_of_ne hxo]
      have := hbound x y hx
      omega
  · intro x y hx
    rcases update_cases hx with ⟨rfl, ⟨⟩⟩ | ⟨-, hx⟩
    · omega
    · exact h.alive x y hx

/-- A constructor either fails and changes nothing, or makes an object with one
outside reference. -/
theorem Table.alloc {kind : VmObjKind} {size : UInt64} (h : Table addrs created mem.objects ext)
    (hkind : ∀ n, (⟨n, size, kind⟩ : VmObject).parent = none)
    (hblock : ∀ a, block = some a → a ∈ addrs ∧ mem.objects a = none) :
    vmObjectAlloc mem kind size block = (none, mem) ∨
      ∃ a mem', vmObjectAlloc mem kind size block = (some a, mem') ∧
        Table addrs (created + 1) mem'.objects (fun x => ext x + oneTo a x) := by
  unfold vmObjectAlloc
  split
  · exact .inl rfl
  cases block with
  | none => exact .inl rfl
  | some a =>
    obtain ⟨ha, hfree⟩ := hblock a rfl
    refine .inr ⟨a, _, rfl, h.add hfree ha rfl ?_⟩
    intro x
    rw [childOf_none (hkind 1), Nat.add_zero]

/-- `vm_object_create_shadow` either fails and changes nothing, or makes a shadow
with one outside reference; its own reference to the parent is counted. -/
theorem Table.shadow {bits p : Nat} {bitmap : Bool} (h : Table addrs created mem.objects ext)
    (hblock : ∀ a, block = some a → a ∈ addrs ∧ mem.objects a = none) :
    vmObjectCreateShadow bits mem p block bitmap = (none, mem) ∨
      ∃ a mem', vmObjectCreateShadow bits mem p block bitmap = (some a, mem') ∧
        Table addrs (created + 1) mem'.objects (fun x => ext x + oneTo a x) := by
  rcases vmObjectCreateShadow_cases bits mem p block bitmap fun a ha => (hblock a ha).2 with
    heq | ⟨pobj, a, hp, rfl, hpa, heq⟩
  · exact .inl heq
  · obtain ⟨ha, hfree⟩ := hblock a rfl
    have hretain := h.retain hp
    simp only [vmObjectRetain, hp, ObjMem.setObject] at hretain
    refine .inr ⟨a, _, heq, hretain.add ((update_of_ne hpa.symm ..).trans hfree) ha rfl fun x => ?_⟩
    rw [childOf_some (by simp) rfl]

end Table

end ArcKernel.Vm
