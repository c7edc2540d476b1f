import Mathlib.Tactic

/-!
# Ring buffers

A ring of `size` cells is read through a function from cell index to contents.
Its `count` elements start at cell `head` and wrap at `size`; the next free cell
is `(head + count) % size`.  `ringView` is the queue a ring stands for, oldest
element first, and the lemmas say what appending one element or several, removing
the oldest, cutting the queue in two and re-laying the ring out into a larger block
do to that queue.
-/

namespace ArcKernel.Foundation

open List Function

variable {count head size : Nat}

variable {α : Type}

/-- The elements of a ring, oldest first. -/
def ringView (cell : Nat → α) (size head count : Nat) : List α :=
  (List.range count).map fun i => cell ((head + i) % size)

@[simp] theorem length_ringView (cell : Nat → α) (size head count : Nat) :
    (ringView cell size head count).length = count := by
  simp [ringView]

/-- Two rings that agree on the live cells stand for the same queue. -/
theorem ringView_congr {cell cell' : Nat → α} {size' head' : Nat}
    (h : ∀ i < count, cell ((head + i) % size) = cell' ((head' + i) % size')) :
    ringView cell size head count = ringView cell' size' head' count := by
  apply map_congr_left
  intro i hi
  exact h i (mem_range.mp hi)

/-- A live cell is never the next free cell. -/
theorem ring_index_ne {i : Nat} (hcount : count < size) (hi : i < count) :
    (head + i) % size ≠ (head + count) % size := by
  intro h
  have hmod : head + i ≡ head + count [MOD size] := h
  have hdvd := (Nat.modEq_iff_dvd' (by omega)).mp hmod
  have : head + count - (head + i) = count - i := by omega
  have := Nat.le_of_dvd (by omega) hdvd
  omega

/-- Writing the next free cell appends to the queue. -/
theorem ringView_push {cell cell' : Nat → α} {x : α}
    (hcount : count < size) (hnew : cell' ((head + count) % size) = x)
    (hold : ∀ i, i ≠ (head + count) % size → cell' i = cell i) :
    ringView cell' size head (count + 1) = ringView cell size head count ++ [x] := by
  have hpre : ringView cell' size head count = ringView cell size head count :=
    ringView_congr fun i hi => hold _ (ring_index_ne hcount hi)
  rw [← hpre, ringView, range_succ, map_append, map_singleton, hnew]
  rfl

/-- Writing the next free cells one after the other appends a list. -/
theorem ringView_fill {idx : Nat → Nat}
    (hidx : ∀ i, idx i = (head + (count + i)) % size) (src : List α) :
    ∀ (cell : Nat → α) (k : Nat), count + k + src.length ≤ size →
      ringView ((src.zipIdx k).foldl (fun c x => update c (idx x.2) x.1) cell) size head
        (count + k + src.length) = ringView cell size head (count + k) ++ src := by
  induction src with
  | nil =>
    intro cell k _
    exact (append_nil _).symm
  | cons x src ih =>
    intro cell k hroom
    rw [length_cons] at hroom
    have hpush : ringView (update cell (idx k) x) size head (count + k + 1) =
        ringView cell size head (count + k) ++ [x] := by
      refine ringView_push (by omega) ?_ fun i hi => ?_
      · rw [hidx, update_self]
      · rw [hidx, update_of_ne hi]
    have hrest := ih (update cell (idx k) x) (k + 1) (by omega)
    rw [show count + (k + 1) = count + k + 1 by omega] at hrest
    rw [zipIdx_cons, foldl_cons, length_cons,
      show count + k + (src.length + 1) = count + k + 1 + src.length by omega, hrest, hpush,
      append_assoc, singleton_append]

/-- The queue in two parts. -/
theorem ringView_append (cell : Nat → α) (size head m n : Nat) : ringView cell size head (m + n) =
      ringView cell size head m ++ ringView cell size (head + m) n := by
  rw [ringView, range_add, map_append, map_map]
  congr 1
  apply map_congr_left
  intro i _
  rw [Function.comp_apply, Nat.add_assoc]

/-- The queue starts at a cell, however often the counter has gone round. -/
theorem ringView_mod (cell : Nat → α) {a b : Nat} (h : a % size = b % size) (n : Nat) :
    ringView cell size a n = ringView cell size b n := by
  refine ringView_congr fun i _ => ?_
  rw [Nat.add_mod, h, ← Nat.add_mod]

/-- Advancing the head removes the oldest element. -/
theorem ringView_pop (cell : Nat → α) (size head count : Nat) :
    ringView cell size head (count + 1) =
      cell (head % size) :: ringView cell size ((head + 1) % size) count := by
  rw [ringView, range_succ_eq_map, map_cons, map_map]
  congr 1
  apply map_congr_left
  intro i _
  simp only [Function.comp_apply, Nat.mod_add_mod]
  congr 2
  omega

/-- Copying the live cells in order to the start of a block of at least as many
cells keeps the queue. -/
theorem ringView_linearise {cell cell' : Nat → α} {size' : Nat} (hsize : count ≤ size')
    (hcopy : ∀ i < count, cell' i = cell ((head + i) % size)) :
    ringView cell' size' 0 count = ringView cell size head count := by
  apply ringView_congr
  intro i hi
  rw [Nat.zero_add, Nat.mod_eq_of_lt (by omega), hcopy i hi]

end ArcKernel.Foundation
