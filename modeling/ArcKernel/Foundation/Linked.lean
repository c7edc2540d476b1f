import Mathlib.Tactic

/-!
# Singly linked lists

`Segment next p l q`: following `next` from the pointer `p` visits the cells `l`, none
of them null, and leaves the pointer `q`.  A null-terminated list is a segment that
leaves 0.  `Segment.relink` is the one edit: the pointer out of the last cell changes.
-/

namespace ArcKernel.Foundation

variable {l m : List Nat} {p q r : Nat}

variable {next next' : Nat → Nat}

def Segment (next : Nat → Nat) : Nat → List Nat → Nat → Prop
  | p, [], q => p = q
  | p, a :: as, q => p = a ∧ a ≠ 0 ∧ Segment next (next a) as q

/-- The first cell of a list, null for the empty list. -/
def headCell (l : List Nat) : Nat := l.headD 0

/-- The last cell of a list, null for the empty list. -/
def lastCell (l : List Nat) : Nat := l.getLastD 0

theorem lastCell_mem (h : lastCell l ≠ 0) : lastCell l ∈ l := by
  rcases List.eq_nil_or_concat' l with rfl | ⟨m, a, rfl⟩
  · exact absurd rfl h
  · rw [lastCell, List.getLastD_concat]
    exact List.mem_append_right _ (List.mem_singleton_self a)

theorem segment_append :
    Segment next p (l ++ m) r ↔ ∃ q, Segment next p l q ∧ Segment next q m r := by
  induction l generalizing p with
  | nil => exact ⟨fun h => ⟨p, rfl, h⟩, fun ⟨_, hp, h⟩ => hp ▸ h⟩
  | cons a as ih =>
    rw [List.cons_append, Segment, ih]
    constructor
    · rintro ⟨hp, ha, q, hleft, hright⟩
      exact ⟨q, ⟨hp, ha, hleft⟩, hright⟩
    · rintro ⟨q, ⟨hp, ha, hleft⟩, hright⟩
      exact ⟨hp, ha, q, hleft, hright⟩

/-- A list around one of its cells. -/
theorem segment_around {a : Nat} : Segment next p (l ++ a :: m) r ↔
      Segment next p l a ∧ a ≠ 0 ∧ Segment next (next a) m r := by
  rw [segment_append]
  constructor
  · rintro ⟨q, hl, rfl, ha, hm⟩
    exact ⟨hl, ha, hm⟩
  · rintro ⟨hl, ha, hm⟩
    exact ⟨a, hl, rfl, ha, hm⟩

/-- The pointer into a null-terminated list is its first cell. -/
theorem Segment.head_eq (h : Segment next p l 0) : p = headCell l := by
  cases l with
  | nil => exact h
  | cons a as => exact h.1

theorem Segment.ne_zero (h : Segment next p l q) : ∀ a ∈ l, a ≠ 0 := by
  induction l generalizing p with
  | nil => nofun
  | cons b bs ih =>
    intro a ha
    rcases List.mem_cons.mp ha with rfl | ha
    · exact h.2.1
    · exact ih h.2.2 a ha

/-- A segment depends only on the pointers out of its cells. -/
theorem Segment.congr (h : Segment next p l q)
    (hsame : ∀ a ∈ l, next' a = next a) : Segment next' p l q := by
  induction l generalizing p with
  | nil => exact h
  | cons a as ih =>
    refine ⟨h.1, h.2.1, ?_⟩
    rw [hsame a List.mem_cons_self]
    exact ih h.2.2 fun b hb => hsame b (List.mem_cons_of_mem _ hb)

/-- Changing the pointer out of the last cell. -/
theorem Segment.relink {q' a : Nat} (h : Segment next p (l ++ [a]) q)
    (hfresh : a ∉ l) (hsame : ∀ b, b ≠ a → b ∈ l → next' b = next b) (hnew : next' a = q') :
    Segment next' p (l ++ [a]) q' := by
  obtain ⟨hl, ha, _⟩ := segment_around.mp h
  refine segment_around.mpr ⟨hl.congr fun b hb => hsame b ?_ hb, ha, hnew⟩
  rintro rfl
  exact hfresh hb

end ArcKernel.Foundation
