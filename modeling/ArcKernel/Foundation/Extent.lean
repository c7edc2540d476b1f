import Mathlib.Tactic

/-!
# Maps held as extents

A partial map from addresses to values, held as a collection of ranges with one value
each.  Nothing depends on the order of the ranges, so every notion here is invariant under
permutation.  `carve` takes a range of addresses out of an extent; carving a whole
collection removes just those addresses from the map it holds.
-/

namespace ArcKernel.Foundation

open List

variable {a hi lo : Nat}

variable {β : Type}

structure Extent (β : Type) where
  lo : Nat
  hi : Nat
  val : β

/-- The address lies in the extent. -/
def Extent.Has (e : Extent β) (a : Nat) : Prop := e.lo ≤ a ∧ a < e.hi

/-- The collection maps the address to the value. -/
def Maps (l : List (Extent β)) (a : Nat) (b : β) : Prop := ∃ e ∈ l, e.Has a ∧ e.val = b

/-- The two extents share no address. -/
def Extent.Apart (e f : Extent β) : Prop := e.hi ≤ f.lo ∨ f.hi ≤ e.lo

variable {e : Extent β}

theorem Extent.Apart.symm {f : Extent β} (h : e.Apart f) : f.Apart e := h.elim .inr .inl

/-- What is left of an extent without the addresses from `lo` on and below `hi`. -/
def carve (lo hi : Nat) (e : Extent β) : List (Extent β) :=
  if e.hi ≤ lo ∨ hi ≤ e.lo then [e]
  else (if e.lo < lo then [{ e with hi := lo }] else []) ++
    (if hi < e.hi then [{ e with lo := hi }] else [])

variable {l : List (Extent β)} {b : β}

theorem Maps.perm {l' : List (Extent β)} (h : l.Perm l') : Maps l a b ↔ Maps l' a b := by
  constructor
  · rintro ⟨e, he, hab⟩
    exact ⟨e, h.mem_iff.mp he, hab⟩
  · rintro ⟨e, he, hab⟩
    exact ⟨e, h.mem_iff.mpr he, hab⟩

theorem maps_cons : Maps (e :: l) a b ↔ e.Has a ∧ e.val = b ∨ Maps l a b := by
  constructor
  · rintro ⟨f, hf, hab⟩
    rcases mem_cons.mp hf with rfl | hf
    · exact .inl hab
    · exact .inr ⟨f, hf, hab⟩
  · rintro (hab | ⟨f, hf, hab⟩)
    · exact ⟨e, mem_cons_self, hab⟩
    · exact ⟨f, mem_cons_of_mem _ hf, hab⟩

/-- A piece of a carved extent: inside it, beside the range, with its value. -/
theorem carve_inside {f : Extent β} (h : f ∈ carve lo hi e) :
    e.lo ≤ f.lo ∧ f.hi ≤ e.hi ∧ f.val = e.val ∧ (f.hi ≤ lo ∨ hi ≤ f.lo) := by
  rw [carve] at h
  split at h
  · rename_i hbeside
    rw [mem_singleton.mp h]
    exact ⟨le_refl _, le_refl _, rfl, hbeside⟩
  rcases mem_append.mp h with h | h
  · split at h
    · rw [mem_singleton.mp h]
      exact ⟨le_refl _, by dsimp only; omega, rfl, .inl (le_refl _)⟩
    · cases h
  · split at h
    · rw [mem_singleton.mp h]
      exact ⟨by dsimp only; omega, le_refl _, rfl, .inr (le_refl _)⟩
    · cases h

/-- Carving removes the range and nothing else. -/
theorem maps_carve : Maps (carve lo hi e) a b ↔ (e.Has a ∧ e.val = b) ∧ ¬ (lo ≤ a ∧ a < hi) := by
  constructor
  · rintro ⟨f, hf, ⟨hlo, hhi⟩, rfl⟩
    obtain ⟨h₁, h₂, h₃, h₄⟩ := carve_inside hf
    exact ⟨⟨⟨by omega, by omega⟩, h₃.symm⟩, by omega⟩
  rintro ⟨⟨⟨hlo, hhi⟩, rfl⟩, hout⟩
  rw [carve]
  split
  · exact ⟨e, mem_singleton_self e, ⟨hlo, hhi⟩, rfl⟩
  rcases Nat.lt_or_ge a lo with hbelow | habove
  · refine ⟨{ e with hi := lo }, mem_append_left _ ?_, ⟨hlo, hbelow⟩, rfl⟩
    rw [if_pos (by omega)]
    exact mem_singleton_self _
  · refine ⟨{ e with lo := hi }, mem_append_right _ ?_, ⟨by dsimp only; omega, hhi⟩, rfl⟩
    rw [if_pos (by omega)]
    exact mem_singleton_self _

theorem maps_flatMap_carve :
    Maps (l.flatMap (carve lo hi)) a b ↔ Maps l a b ∧ ¬ (lo ≤ a ∧ a < hi) := by
  induction l with
  | nil => exact ⟨fun ⟨_, h, _⟩ => (not_mem_nil h).elim, fun ⟨⟨_, h, _⟩, _⟩ => (not_mem_nil h).elim⟩
  | cons e l ih =>
    have happend : Maps ((e :: l).flatMap (carve lo hi)) a b ↔
        Maps (carve lo hi e) a b ∨ Maps (l.flatMap (carve lo hi)) a b := by
      constructor
      · rintro ⟨f, hf, hab⟩
        exact (mem_append.mp hf).imp (fun h => ⟨f, h, hab⟩) fun h => ⟨f, h, hab⟩
      · rintro (⟨f, hf, hab⟩ | ⟨f, hf, hab⟩)
        · exact ⟨f, mem_append_left _ hf, hab⟩
        · exact ⟨f, mem_append_right _ hf, hab⟩
    rw [happend, maps_carve, maps_cons]
    tauto

/-- An extent beside the range is not cut. -/
theorem carve_beside (h : e.hi ≤ lo ∨ hi ≤ e.lo) : carve lo hi e = [e] := if_pos h

/-- Carving a second time changes nothing. -/
theorem flatMap_carve_carve (e : Extent β) :
    (carve lo hi e).flatMap (carve lo hi) = carve lo hi e := by
  have h : ∀ f ∈ carve lo hi e, carve lo hi f = [f] := fun f hf =>
    carve_beside (carve_inside hf).2.2.2
  rw [flatMap_congr h]
  exact flatMap_singleton' _

theorem flatMap_carve_beside (h : ∀ e ∈ l, e.hi ≤ lo ∨ hi ≤ e.lo) :
    l.flatMap (carve lo hi) = l := by
  rw [flatMap_congr fun e he => carve_beside (h e he)]
  exact flatMap_singleton' _

/-- Pieces of extents that are apart are apart. -/
theorem pairwise_flatMap_carve (hne : lo < hi) (h : l.Pairwise Extent.Apart) :
    (l.flatMap (carve lo hi)).Pairwise Extent.Apart := by
  rw [pairwise_flatMap]
  constructor
  · intro e _
    rw [carve]
    split
    · exact pairwise_singleton _ _
    · split <;> split <;> simp [Extent.Apart]
      omega
  · refine h.imp fun {e f} hef x hx y hy => ?_
    obtain ⟨hx₁, hx₂, -, -⟩ := carve_inside hx
    obtain ⟨hy₁, hy₂, -, -⟩ := carve_inside hy
    rcases hef with hef | hef
    · exact .inl (by omega)
    · exact .inr (by omega)

end ArcKernel.Foundation
