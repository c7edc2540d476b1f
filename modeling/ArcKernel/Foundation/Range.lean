import Mathlib.Tactic

/-!
# Lists of separated ranges

Elements with a lower and an upper bound, in ascending order and without overlap.
An element may be replaced by pieces of itself, in order, and a new element fits
in at the place its lower bound asks for.
-/

namespace ArcKernel.Foundation

open List

variable {α : Type} (lo hi : α → Nat)

/-- Nonempty ranges in ascending order, each ending before the next begins. -/
structure Separated (l : List α) : Prop where
  ordered : l.Pairwise fun a b => hi a ≤ lo b
  nonempty : ∀ a ∈ l, lo a < hi a

/-- The pieces are separated and lie inside the element. -/
structure Subdivides (a : α) (pieces : List α) : Prop where
  separated : Separated lo hi pieces
  inside : ∀ b ∈ pieces, lo a ≤ lo b ∧ hi b ≤ hi a

variable {lo hi}

theorem Separated.nil : Separated lo hi ([] : List α) := ⟨List.Pairwise.nil, by simp⟩

theorem Separated.sublist {l m : List α} (h : Separated lo hi l) (hm : m.Sublist l) :
    Separated lo hi m :=
  ⟨h.ordered.sublist hm, fun a ha => h.nonempty a (hm.subset ha)⟩

theorem Separated.tail {a : α} {l : List α} (h : Separated lo hi (a :: l)) : Separated lo hi l :=
  h.sublist (sublist_cons_self a l)

/-- Replacing elements by pieces of themselves keeps the list separated. -/
theorem Separated.flatMap {l : List α} (h : Separated lo hi l) {f : α → List α}
    (hf : ∀ a ∈ l, Subdivides lo hi a (f a)) : Separated lo hi (l.flatMap f) := by
  constructor
  · rw [pairwise_flatMap]
    refine ⟨fun a ha => (hf a ha).separated.ordered, ?_⟩
    refine h.ordered.imp_of_mem ?_
    intro a b ha hb hab x hx y hy
    have hxa := ((hf a ha).inside x hx).2
    have hyb := ((hf b hb).inside y hy).1
    omega
  · intro x hx
    obtain ⟨a, ha, hxa⟩ := mem_flatMap.mp hx
    exact (hf a ha).separated.nonempty x hxa

/-- A new element between those that end before it and those that begin after it. -/
theorem Separated.insert {pre post : List α} {x : α} (h : Separated lo hi (pre ++ post))
    (hx : lo x < hi x) (hpre : ∀ a ∈ pre, hi a ≤ lo x) (hpost : ∀ b ∈ post, hi x ≤ lo b) :
    Separated lo hi (pre ++ x :: post) := by
  obtain ⟨hp, hq, hpq⟩ := pairwise_append.mp h.ordered
  constructor
  · rw [pairwise_append, pairwise_cons]
    refine ⟨hp, ⟨hpost, hq⟩, ?_⟩
    intro a ha b hb
    rcases mem_cons.mp hb with rfl | hb
    · exact hpre a ha
    · exact hpq a ha b hb
  · intro a ha
    rcases mem_cons.mp (perm_middle.mem_iff.mp ha) with rfl | ha
    · exact hx
    · exact h.nonempty a ha

end ArcKernel.Foundation
