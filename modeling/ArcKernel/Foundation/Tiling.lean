import Mathlib.Tactic

/-!
# Tilings of an interval

A list of pieces, each with a start and a length, tiles `[lo, hi)` when the first
piece starts at `lo`, each piece starts where the one before it ends, and the last
one ends at `hi`.
-/

namespace ArcKernel.Foundation

open List

variable {hi lo : Nat}

variable {α : Type} {start len : α → Nat}

def Tiles (start len : α → Nat) : Nat → Nat → List α → Prop
  | lo, hi, [] => lo = hi
  | lo, hi, x :: xs => start x = lo ∧ Tiles start len (lo + len x) hi xs

theorem tiles_append {xs ys : List α} : Tiles start len lo hi (xs ++ ys) ↔
      ∃ mid, Tiles start len lo mid xs ∧ Tiles start len mid hi ys := by
  induction xs generalizing lo with
  | nil => exact ⟨fun h => ⟨lo, rfl, h⟩, fun ⟨_, hlo, h⟩ => hlo ▸ h⟩
  | cons x xs ih =>
    rw [cons_append, Tiles, ih]
    constructor
    · rintro ⟨hx, mid, hleft, hright⟩
      exact ⟨mid, ⟨hx, hleft⟩, hright⟩
    · rintro ⟨mid, ⟨hx, hleft⟩, hright⟩
      exact ⟨hx, mid, hleft, hright⟩

/-- A tiling around one of its pieces. -/
theorem tiles_around {pre post : List α} {x : α} : Tiles start len lo hi (pre ++ x :: post) ↔
      Tiles start len lo (start x) pre ∧ Tiles start len (start x + len x) hi post := by
  rw [tiles_append]
  constructor
  · rintro ⟨mid, hpre, hx, hpost⟩
    exact ⟨hx ▸ hpre, hx ▸ hpost⟩
  · rintro ⟨hpre, hpost⟩
    exact ⟨start x, hpre, rfl, hpost⟩

section

variable {xs : List α} (h : Tiles start len lo hi xs)
include h

theorem Tiles.le : lo ≤ hi := by
  induction xs generalizing lo with
  | nil => exact Nat.le_of_eq h
  | cons x xs ih => exact (Nat.le_add_right _ _).trans (ih h.2)

theorem Tiles.bounds {x : α} (hx : x ∈ xs) : lo ≤ start x ∧ start x + len x ≤ hi := by
  obtain ⟨pre, post, rfl⟩ := append_of_mem hx
  obtain ⟨hpre, hpost⟩ := tiles_around.mp h
  exact ⟨hpre.le, hpost.le⟩

/-- Each piece ends before every later one starts. -/
theorem Tiles.pairwise : xs.Pairwise fun x y => start x + len x ≤ start y := by
  induction xs generalizing lo with
  | nil => exact List.Pairwise.nil
  | cons x xs ih =>
    refine pairwise_cons.mpr ⟨fun y hy => ?_, ih h.2⟩
    rw [h.1]
    exact (h.2.bounds hy).1

/-- Pieces of length at least `k` are at most `(hi - lo) / k` many. -/
theorem Tiles.length_mul_le {k : Nat} (hk : ∀ x ∈ xs, k ≤ len x) : lo + xs.length * k ≤ hi := by
  induction xs generalizing lo with
  | nil => simpa using h.le
  | cons x xs ih =>
    have hrest := ih h.2 fun y hy => hk y (mem_cons_of_mem _ hy)
    have hx := hk x mem_cons_self
    rw [length_cons, Nat.succ_mul]
    omega

/-- When the lower end and all lengths are multiples of `d`, so are the starts. -/
theorem Tiles.dvd_start {d : Nat} (hlo : d ∣ lo) (hlen : ∀ x ∈ xs, d ∣ len x) :
    ∀ x ∈ xs, d ∣ start x := by
  induction xs generalizing lo with
  | nil => nofun
  | cons y ys ih =>
    intro x hx
    rcases mem_cons.mp hx with rfl | hx
    · exact h.1 ▸ hlo
    · exact ih h.2 ((Nat.dvd_add_iff_left (hlen y mem_cons_self)).mp hlo)
        (fun z hz => hlen z (mem_cons_of_mem _ hz)) x hx

/-- Pieces of positive length with the same start are the same piece. -/
theorem Tiles.eq_of_start (hpos : ∀ x ∈ xs, 0 < len x) {x y : α} (hx : x ∈ xs) (hy : y ∈ xs)
    (heq : start x = start y) : x = y := by
  induction xs generalizing lo with
  | nil => cases hx
  | cons z zs ih =>
    have hz := hpos z mem_cons_self
    have hlater : ∀ w ∈ zs, start z < start w := fun w hw => by
      have := (pairwise_cons.mp h.pairwise).1 w hw
      omega
    rcases mem_cons.mp hx with hxz | hx <;> rcases mem_cons.mp hy with hyz | hy
    · rw [hxz, hyz]
    · exact absurd heq (hxz ▸ (hlater y hy).ne)
    · exact absurd heq (hyz ▸ (hlater x hx).ne')
    · exact ih h.2 (fun w hw => hpos w (mem_cons_of_mem _ hw)) hx hy

end

end ArcKernel.Foundation
