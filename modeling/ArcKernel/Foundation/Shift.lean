import Mathlib.Tactic

/-!
# Insertion and removal in an array with spare cells

An array of `a.length` cells holds its `count` elements in front; the cells after
them hold anything.  The two loops move the elements from a position on by one
cell, to the right from the last one down or to the left from the first one up.
On the elements in front they are insertion and removal.
-/

namespace ArcKernel.Foundation

open List

variable {α : Type} [Inhabited α]

/-- `for (j = i; j > index; j--) a[j] = a[j - 1];` -/
def shiftRight (a : List α) : Nat → Nat → List α
  | 0, _ => a
  | i + 1, index =>
      if i + 1 > index then shiftRight (a.set (i + 1) (a.getD i default)) i index else a

/-- `for (j = i; steps turns; j++) a[j] = a[j + 1];` -/
def shiftLeft (a : List α) : Nat → Nat → List α
  | 0, _ => a
  | steps + 1, i => shiftLeft (a.set i (a.getD (i + 1) default)) steps (i + 1)

section

variable (a : List α)

@[simp] theorem length_shiftRight (i index : Nat) : (shiftRight a i index).length = a.length := by
  induction i generalizing a with
  | zero => rfl
  | succ i ih =>
    rw [shiftRight]
    split
    · rw [ih, length_set]
    · rfl

@[simp] theorem length_shiftLeft (steps i : Nat) : (shiftLeft a steps i).length = a.length := by
  induction steps generalizing a i with
  | zero => rfl
  | succ steps ih => rw [shiftLeft, ih, length_set]

/-- Cells above `index`, up to `i`, take the contents of the cell before them. -/
theorem getElem?_shiftRight (i index j : Nat) (hi : i < a.length) :
    (shiftRight a i index)[j]? = if index < j ∧ j ≤ i then a[j - 1]? else a[j]? := by
  induction i generalizing a with
  | zero =>
    have : ¬ (index < j ∧ j ≤ 0) := by omega
    rw [shiftRight, if_neg this]
  | succ i ih =>
    rw [shiftRight]
    split
    · rename_i hgt
      have hi' : i < (a.set (i + 1) (a.getD i default)).length := by rw [length_set]; omega
      rw [ih _ hi']
      have hget : a[i]? = some (a.getD i default) := by
        rw [getD_eq_getElem?_getD, getElem?_eq_getElem (by omega)]
        rfl
      by_cases hj : index < j ∧ j ≤ i
      · rw [if_pos hj, if_pos ⟨hj.1, by omega⟩, getElem?_set_ne (by omega)]
      · rw [if_neg hj]
        by_cases hji : j = i + 1
        · subst hji
          rw [if_pos ⟨hgt, le_refl _⟩, getElem?_set_self hi, Nat.add_sub_cancel, hget]
        · rw [if_neg (by omega), getElem?_set_ne (by omega)]
    · rw [if_neg (by omega)]

/-- Cells from `i` on take the contents of the cell after them. -/
theorem getElem?_shiftLeft (steps i j : Nat) (hi : i + steps < a.length) :
    (shiftLeft a steps i)[j]? = if i ≤ j ∧ j < i + steps then a[j + 1]? else a[j]? := by
  induction steps generalizing a i with
  | zero => rw [shiftLeft, if_neg (by omega)]
  | succ steps ih =>
    have hlen : i + 1 + steps < (a.set i (a.getD (i + 1) default)).length := by
      rw [length_set]; omega
    rw [shiftLeft, ih _ _ hlen]
    have hget : a[i + 1]? = some (a.getD (i + 1) default) := by
      rw [getD_eq_getElem?_getD, getElem?_eq_getElem (by omega)]
      rfl
    by_cases hj : i + 1 ≤ j ∧ j < i + 1 + steps
    · rw [if_pos hj, if_pos ⟨by omega, by omega⟩, getElem?_set_ne (by omega)]
    · rw [if_neg hj]
      by_cases hji : j = i
      · subst hji
        rw [if_pos ⟨le_refl _, by omega⟩, getElem?_set_self (by omega), hget]
      · rw [if_neg (by omega), getElem?_set_ne (by omega)]

end

/-- Moving the elements from `index` on to the right and writing the gap inserts. -/
theorem take_shiftRight_set {a pre post : List α} {count : Nat} (x : α)
    (hroom : count < a.length) (hview : a.take count = pre ++ post) :
    ((shiftRight a count pre.length).set pre.length x).take (count + 1) = pre ++ x :: post := by
  have hcount : pre.length + post.length = count := by
    have := congrArg length hview
    rw [length_take, length_append] at this
    omega
  have hcell : ∀ j, j < count → a[j]? = (pre ++ post)[j]? := by
    intro j hj
    rw [← hview, getElem?_take_of_lt hj]
  apply ext_getElem?
  intro j
  by_cases hj : j < count + 1
  · rw [getElem?_take_of_lt hj]
    rcases Nat.lt_trichotomy j pre.length with hlt | rfl | hgt
    · rw [getElem?_set_ne (by omega), getElem?_shiftRight _ _ _ _ hroom, if_neg (by omega),
        hcell j (by omega), getElem?_append_left hlt, getElem?_append_left hlt]
    · rw [getElem?_set_self (by rw [length_shiftRight]; omega)]
      simp
    rw [getElem?_set_ne (by omega), getElem?_shiftRight _ _ _ _ hroom,
      if_pos ⟨hgt, by omega⟩, hcell (j - 1) (by omega),
      getElem?_append_right (by omega), getElem?_append_right (by omega)]
    obtain ⟨k, rfl⟩ := Nat.exists_eq_add_of_lt hgt
    have h1 : pre.length + k + 1 - 1 - pre.length = k := by omega
    have h2 : pre.length + k + 1 - pre.length = k + 1 := by omega
    rw [h1, h2, getElem?_cons_succ]
  · rw [getElem?_eq_none (by rw [length_take]; omega),
      getElem?_eq_none (by rw [length_append, length_cons]; omega)]

/-- Moving the elements after `pre` to the left removes the one at that place. -/
theorem take_shiftLeft {a pre post : List α} {x : α} {count : Nat} (hcount : count ≤ a.length)
    (hview : a.take count = pre ++ x :: post) :
    (shiftLeft a (count - 1 - pre.length) pre.length).take (count - 1) = pre ++ post := by
  have hlen : pre.length + (post.length + 1) = count := by
    have := congrArg length hview
    rw [length_take, length_append, length_cons] at this
    omega
  have hcell : ∀ j, j < count → a[j]? = (pre ++ x :: post)[j]? := by
    intro j hj
    rw [← hview, getElem?_take_of_lt hj]
  apply ext_getElem?
  intro j
  by_cases hj : j < count - 1
  · rw [getElem?_take_of_lt hj, getElem?_shiftLeft _ _ _ _ (by omega)]
    by_cases hlt : j < pre.length
    · rw [if_neg (by omega), hcell j (by omega), getElem?_append_left hlt, getElem?_append_left hlt]
    · rw [if_pos ⟨by omega, by omega⟩, hcell (j + 1) (by omega),
        getElem?_append_right (by omega), getElem?_append_right (by omega)]
      have : j + 1 - pre.length = j - pre.length + 1 := by omega
      rw [this, getElem?_cons_succ]
  · rw [getElem?_eq_none (by rw [length_take]; omega),
      getElem?_eq_none (by rw [length_append]; omega)]

end ArcKernel.Foundation
