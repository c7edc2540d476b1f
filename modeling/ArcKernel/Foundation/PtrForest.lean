import Mathlib.Tactic

/-!
# Forests of pointer tables

A table is a block of words, each word zero or the number of another block.  Roots are words
kept elsewhere.  A place in the forest is a root and a list of indices; what stands there is
found by walking the tables.  Blocks have no other names than their numbers, so the question is
always which places a write to one block can change: as long as no block stands at two places,
just the one.
-/

namespace ArcKernel.Foundation

open List

variable {ι : Type} {is' : List Nat} {k' : ι}

/-- The words of the tables and the roots. -/
structure PtrForest (ι : Type) where
  root : ι → Nat
  ptr : Nat → Nat → Nat

namespace PtrForest

/-- Follow a list of indices from a block; a zero word ends the walk. -/
def walk (ptr : Nat → Nat → Nat) : Nat → List Nat → Nat
  | p, [] => p
  | p, i :: is => if p = 0 then 0 else walk ptr (ptr p i) is

/-- The block at a place. -/
def node (F : PtrForest ι) (k : ι) (is : List Nat) : Nat := walk F.ptr (F.root k) is

section

variable (ptr : Nat → Nat → Nat)

@[simp] theorem walk_zero (is : List Nat) : walk ptr 0 is = 0 := by
  cases is with
  | nil => rfl
  | cons i is => exact if_pos rfl

theorem walk_append (p : Nat) (is js : List Nat) :
    walk ptr p (is ++ js) = walk ptr (walk ptr p is) js := by
  induction is generalizing p with
  | nil => rfl
  | cons i is ih =>
    rw [cons_append, walk, walk]
    split
    · exact (walk_zero ptr js).symm
    · exact ih _

theorem walk_concat (p : Nat) (is : List Nat) (i : Nat) :
    walk ptr p (is ++ [i]) = if walk ptr p is = 0 then 0 else ptr (walk ptr p is) i :=
  walk_append ptr p is [i]

end

variable {F G : PtrForest ι} {valid : ι → List Nat → Prop} {k : ι} {is : List Nat} {i q : Nat}

theorem node_concat (F : PtrForest ι) (k : ι) (is : List Nat) (i : Nat) :
    F.node k (is ++ [i]) = if F.node k is = 0 then 0 else F.ptr (F.node k is) i :=
  walk_concat ..

theorem node_concat_of_ne (h : F.node k is ≠ 0) : F.node k (is ++ [i]) = F.ptr (F.node k is) i := by
  rw [node_concat, if_neg h]

theorem node_append (F : PtrForest ι) (k : ι) (is js : List Nat) :
    F.node k (is ++ js) = walk F.ptr (F.node k is) js :=
  walk_append ..

/-- What is below an empty place is empty. -/
theorem node_append_eq_zero (h : F.node k is = 0) (js : List Nat) : F.node k (is ++ js) = 0 := by
  rw [node_append, h, walk_zero]

/-- The places of a forest: with a place, those above it. -/
def Closed (valid : ι → List Nat → Prop) : Prop := ∀ k is i, valid k (is ++ [i]) → valid k is

theorem Closed.append (hclosed : Closed valid) {js : List Nat} (h : valid k (is ++ js)) :
    valid k is := by
  induction js using reverseRecOn with
  | nil => rwa [append_nil] at h
  | append_singleton js j ih =>
    rw [← append_assoc] at h
    exact ih (hclosed k _ j h)

/-- No block stands at two places. -/
def Distinct (valid : ι → List Nat → Prop) (F : PtrForest ι) : Prop :=
  ∀ k is k' is', valid k is → valid k' is' → F.node k is ≠ 0 → F.node k is = F.node k' is' →
    k = k' ∧ is = is'

/-- Two forests agree where they have the same roots and the same words in the tables on the
way. -/
theorem node_congr (hclosed : Closed valid) (hroot : ∀ k, valid k [] → G.root k = F.root k)
    (hptr : ∀ k is i, valid k (is ++ [i]) → F.node k is ≠ 0 →
      G.ptr (F.node k is) i = F.ptr (F.node k is) i) (h : valid k is) :
    G.node k is = F.node k is := by
  induction is using reverseRecOn with
  | nil => exact hroot k h
  | append_singleton is i ih =>
    rw [node_concat, node_concat, ih (hclosed k is i h)]
    split
    · rfl
    · exact hptr k is i h ‹_›

/-- A block without words written into an empty word of a table: one place is filled. -/
theorem node_grow (hclosed : Closed valid) (hdistinct : F.Distinct valid) (hplace : valid k is)
    (hb : F.node k is ≠ 0) (hempty : F.node k (is ++ [i]) = 0) (hq : q ≠ 0)
    (hfresh : ∀ k' is', valid k' is' → F.node k' is' ≠ q) (hroot : G.root = F.root)
    (hword : G.ptr (F.node k is) i = q) (hblank : ∀ j, G.ptr q j = 0)
    (hother : ∀ p j, p ≠ q → ¬ (p = F.node k is ∧ j = i) → G.ptr p j = F.ptr p j)
    (h : valid k' is') :
    (k' = k ∧ is' = is ++ [i] → G.node k' is' = q) ∧
      (¬ (k' = k ∧ is' = is ++ [i]) → G.node k' is' = F.node k' is') := by
  induction is' using reverseRecOn with
  | nil =>
    refine ⟨fun heq => absurd heq.2.symm (append_ne_nil_of_right_ne_nil _ (by simp)), ?_⟩
    intro _
    exact congrFun hroot k'
  | append_singleton js j ih =>
    have hjs := hclosed k' js j h
    obtain ⟨ihpos, ihneg⟩ := ih hjs
    constructor
    · -- the table itself stands where it stood
      rintro ⟨rfl, heq⟩
      obtain ⟨rfl, hji⟩ := append_inj' heq rfl
      cases hji
      have hself : G.node k' js = F.node k' js := by
        refine ihneg fun hbad => ?_
        have := congrArg length hbad.2
        simp at this
      rw [node_concat, hself, if_neg hb, hword]
    · intro hne
      by_cases hnew : k' = k ∧ js = is ++ [i]
      · -- below the new block
        rw [node_concat, ihpos hnew, if_neg hq, hblank]
        obtain ⟨rfl, rfl⟩ := hnew
        exact (node_append_eq_zero hempty [j]).symm
      rw [node_concat, node_concat, ihneg hnew]
      split
      · rfl
      rename_i hp
      refine hother _ j (hfresh k' js hjs) ?_
      rintro ⟨hpb, rfl⟩
      obtain ⟨rfl, rfl⟩ := hdistinct k' js k is hjs hplace hp hpb
      exact hne ⟨rfl, rfl⟩

/-- A block without words as a root that was empty. -/
theorem node_plant (hclosed : Closed valid) (hempty : F.root k = 0) (hq : q ≠ 0)
    (hfresh : ∀ k' is', valid k' is' → F.node k' is' ≠ q) (hroot : G.root k = q)
    (hroots : ∀ k', k' ≠ k → G.root k' = F.root k') (hblank : ∀ j, G.ptr q j = 0)
    (hother : ∀ p j, p ≠ q → G.ptr p j = F.ptr p j) (h : valid k' is') :
    (k' = k ∧ is' = [] → G.node k' is' = q) ∧
      (¬ (k' = k ∧ is' = []) → G.node k' is' = F.node k' is') := by
  induction is' using reverseRecOn with
  | nil =>
    refine ⟨?_, fun hne => hroots k' fun heq => hne ⟨heq, rfl⟩⟩
    rintro ⟨rfl, -⟩
    exact hroot
  | append_singleton js j ih =>
    have hjs := hclosed k' js j h
    obtain ⟨ihpos, ihneg⟩ := ih hjs
    refine ⟨fun heq => absurd heq.2 (by simp), fun _ => ?_⟩
    by_cases hnew : k' = k ∧ js = []
    · rw [node_concat, ihpos hnew, if_neg hq, hblank]
      obtain ⟨rfl, rfl⟩ := hnew
      have hnil : F.node k' [] = 0 := hempty
      exact (node_append_eq_zero hnil [j]).symm
    · rw [node_concat, node_concat, ihneg hnew]
      split
      · rfl
      · exact hother _ j (hfresh k' js hjs)

/-- One place more, with a block that stood nowhere. -/
theorem Distinct.insert (h : F.Distinct valid) (hfresh : ∀ k' is', valid k' is' → F.node k' is' ≠ q)
    (hnew : ∀ k' is', valid k' is' → k' = k ∧ is' = is → G.node k' is' = q)
    (hold : ∀ k' is', valid k' is' → ¬ (k' = k ∧ is' = is) → G.node k' is' = F.node k' is') :
    G.Distinct valid := by
  intro k₁ is₁ k₂ is₂ hv₁ hv₂ hne heq
  by_cases h₁ : k₁ = k ∧ is₁ = is <;> by_cases h₂ : k₂ = k ∧ is₂ = is
  · exact ⟨h₁.1.trans h₂.1.symm, h₁.2.trans h₂.2.symm⟩
  · rw [hnew k₁ is₁ hv₁ h₁, hold k₂ is₂ hv₂ h₂] at heq
    exact absurd heq.symm (hfresh k₂ is₂ hv₂)
  · rw [hold k₁ is₁ hv₁ h₁, hnew k₂ is₂ hv₂ h₂] at heq
    exact absurd heq (hfresh k₁ is₁ hv₁)
  · rw [hold k₁ is₁ hv₁ h₁, hold k₂ is₂ hv₂ h₂] at heq
    rw [hold k₁ is₁ hv₁ h₁] at hne
    exact h k₁ is₁ k₂ is₂ hv₁ hv₂ hne heq

/-- Places emptied. -/
theorem Distinct.mono (h : F.Distinct valid)
    (hsub : ∀ k is, valid k is → G.node k is = 0 ∨ G.node k is = F.node k is) :
    G.Distinct valid := by
  intro k₁ is₁ k₂ is₂ hv₁ hv₂ hne heq
  have h₁ := (hsub k₁ is₁ hv₁).resolve_left hne
  have h₂ := (hsub k₂ is₂ hv₂).resolve_left (heq ▸ hne)
  exact h k₁ is₁ k₂ is₂ hv₁ hv₂ (h₁ ▸ hne) (h₁ ▸ h₂ ▸ heq)

end PtrForest

end ArcKernel.Foundation
