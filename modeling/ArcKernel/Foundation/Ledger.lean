import Mathlib.Tactic

/-!
# Ledgers

A quantity is held by finitely many holders, and the total is the sum of what
each one holds.  When one holder changes, the total changes by the difference;
stated with addition on both sides, so that it is usable over `Nat`.
-/

namespace ArcKernel.Foundation

open Finset

variable {ι β : Type} [DecidableEq ι]

section

variable {i : ι} (s : Finset ι) (f : ι → β) (g : β → Nat) (hi : i ∈ s)
include hi

/-- The total is what one holder has and what the others have. -/
theorem ledger_others : ∃ others, ∑ j ∈ s, g (f j) = others + g (f i) ∧
    ∀ b, ∑ j ∈ s, g (Function.update f i b j) = others + g b := by
  refine ⟨∑ j ∈ s \ {i}, g (f j), ?_, fun b => ?_⟩
  · rw [sum_eq_add_sum_sdiff_singleton_of_mem hi, Nat.add_comm]
  · simp only [Function.apply_update (fun _ => g)]
    rw [sum_update_of_mem hi, Nat.add_comm]

/-- One holder changes from `f i` to `b`. -/
theorem ledger_update (b : β) :
    ∑ j ∈ s, g (Function.update f i b j) + g (f i) = ∑ j ∈ s, g (f j) + g b := by
  obtain ⟨others, hold, hnew⟩ := ledger_others s f g hi
  rw [hold, hnew, Nat.add_right_comm]

omit [DecidableEq ι] in
/-- What one holder has is part of the total. -/
theorem le_ledger : g (f i) ≤ ∑ j ∈ s, g (f j) :=
  single_le_sum (f := fun j => g (f j)) (fun _ _ => Nat.zero_le _) hi

end

end ArcKernel.Foundation
