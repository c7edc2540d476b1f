import Mathlib.Tactic

/-!
# Bitmaps packed into machine words

A bitmap is a list of `w`-bit words; bit `i` of the map is bit `i % w` of word
`i / w`.  Setting and clearing go through the mask `1 << b`, as the C code
writes them, and the search for the first clear bit skips full words and then
tries the bits of one word in ascending order.
-/

namespace ArcKernel.Foundation.Bitmap

open List Option BitVec

variable {b i j : Nat}

variable {w : Nat}

/-- The mask `1 << b`. -/
def mask (w b : Nat) : BitVec w := 1#w <<< b

/-- Bit `i` of the map; bits past the last word read as clear. -/
def test (ws : List (BitVec w)) (i : Nat) : Bool := (ws.getD (i / w) 0#w).getLsbD (i % w)

/-- `bitmap[i / w] |= 1 << (i % w)`. -/
def set (ws : List (BitVec w)) (i : Nat) : List (BitVec w) :=
  ws.modify (i / w) (· ||| mask w (i % w))

/-- `bitmap[i / w] &= ~(1 << (i % w))`. -/
def clear (ws : List (BitVec w)) (i : Nat) : List (BitVec w) :=
  ws.modify (i / w) (· &&& ~~~ mask w (i % w))

/-- The first clear bit of one word, tried in ascending order. -/
def firstClearInWord (x : BitVec w) : Option Nat := (range w).find? fun b => (x &&& mask w b) == 0#w

/-- The first clear bit of the first `n` words: full words are skipped whole. -/
def firstClear : List (BitVec w) → Nat → Option Nat
  | x :: xs, n + 1 =>
      if x = allOnes w then (firstClear xs n).map (· + w)
      else
        match firstClearInWord x with
        | some b => some b
        | none => (firstClear xs n).map (· + w)
  | _, _ => none

/-! ## The mask -/

theorem mask_getLsbD (hi : i < w) : (mask w b).getLsbD i = decide (i = b) := by
  by_cases h : i = b
  · subst h
    simp [mask, hi]
  · simp [mask, hi, h]
    omega

theorem and_mask_eq_zero_iff {x : BitVec w} (hb : b < w) :
    x &&& mask w b = 0#w ↔ x.getLsbD b = false := by
  constructor
  · intro h
    have hbit : (x &&& mask w b).getLsbD b = false := by rw [h]; simp
    simpa [mask_getLsbD hb] using hbit
  · intro h
    apply eq_of_getLsbD_eq
    intro i hi
    by_cases hib : i = b
    · subst hib
      simp [h]
    · simp [mask_getLsbD hi, hib]

/-! ## Setting and clearing one bit -/

@[simp] theorem length_set (ws : List (BitVec w)) (i : Nat) :
    (set ws i).length = ws.length := by simp [set]

@[simp] theorem length_clear (ws : List (BitVec w)) (i : Nat) :
    (clear ws i).length = ws.length := by simp [clear]

theorem index_eq_iff (hword : i / w = j / w) : j % w = i % w ↔ j = i := by
  refine ⟨fun hmod => ?_, fun h => by rw [h]⟩
  rw [← Nat.div_add_mod i w, ← Nat.div_add_mod j w, hword, hmod]

theorem test_set {ws : List (BitVec w)} {i j : Nat} (hw : 0 < w) (hi : i / w < ws.length) :
    test (set ws i) j = (test ws j || decide (j = i)) := by
  have hj : j % w < w := Nat.mod_lt _ hw
  simp only [test, set, getD_eq_getElem?_getD, getElem?_modify, Option.map_eq_map]
  by_cases hword : i / w = j / w
  · have hlt : j / w < ws.length := hword ▸ hi
    rw [List.getElem?_eq_getElem hlt]
    simp only [hword, if_true, map_some, getD_some, getLsbD_or, mask_getLsbD hj, index_eq_iff hword]
  · have hij : j ≠ i := fun h => hword (by rw [h])
    simp [hword, hij]

variable {ws : List (BitVec w)}

theorem test_clear (hw : 0 < w) : test (clear ws i) j = (test ws j && decide (j ≠ i)) := by
  have hj : j % w < w := Nat.mod_lt _ hw
  simp only [test, clear, getD_eq_getElem?_getD, getElem?_modify, Option.map_eq_map]
  by_cases hword : i / w = j / w
  · cases hget : ws[j / w]? with
    | none => simp
    | some x =>
      simp only [hword, if_true, map_some, getD_some, getLsbD_and, getLsbD_not, mask_getLsbD hj, hj,
        decide_true, Bool.true_and, index_eq_iff hword, ne_eq, decide_not]
  · have hij : j ≠ i := fun h => hword (by rw [h])
    simp [hword, hij]

/-- A map extended by zero words reads the old bits, and clear bits after them. -/
theorem test_append_zero (ws : List (BitVec w)) (k j : Nat) :
    test (ws ++ List.replicate k 0#w) j = test ws j := by
  simp only [test, getD_eq_getElem?_getD]
  by_cases h : j / w < ws.length
  · rw [getElem?_append_left h]
  · rw [getElem?_append_right (by omega), getElem?_replicate, getElem?_eq_none (l := ws) (by omega)]
    split <;> simp

/-! ## The search -/

theorem firstClearInWord_eq_some {x : BitVec w} (h : firstClearInWord x = some b) :
    b < w ∧ x.getLsbD b = false := by
  have hmem := mem_of_find?_eq_some h
  have hb : b < w := mem_range.mp hmem
  have htest := find?_some h
  exact ⟨hb, (and_mask_eq_zero_iff hb).mp (by simpa using htest)⟩

theorem firstClearInWord_eq_none {x : BitVec w} (h : firstClearInWord x = none) :
    x = allOnes w := by
  apply eq_of_getLsbD_eq
  intro i hi
  have hne := find?_eq_none.mp h i (mem_range.mpr hi)
  have : ¬ x.getLsbD i = false := fun hf => hne (by simp [(and_mask_eq_zero_iff hi).mpr hf])
  simpa [hi] using this

theorem test_cons_add (x : BitVec w) (xs : List (BitVec w)) (i : Nat) (hw : 0 < w) :
    test (x :: xs) (i + w) = test xs i := by
  have hdiv : (i + w) / w = i / w + 1 := Nat.add_div_right i hw
  simp [test, hdiv, Nat.add_mod_right]

theorem test_cons_lt (x : BitVec w) (xs : List (BitVec w)) (hi : i < w) :
    test (x :: xs) i = x.getLsbD i := by
  simp [test, Nat.div_eq_of_lt hi, Nat.mod_eq_of_lt hi]

/-- What the search finds is a clear bit of the searched words. -/
theorem firstClear_eq_some {n : Nat} (hw : 0 < w) (h : firstClear ws n = some i) :
    i < w * n ∧ i / w < ws.length ∧ test ws i = false := by
  induction ws generalizing n i with
  | nil => cases n <;> simp [firstClear] at h
  | cons x xs ih =>
    cases n with
    | zero => simp [firstClear] at h
    | succ n =>
      have later : (firstClear xs n).map (· + w) = some i →
          i < w * (n + 1) ∧ i / w < (x :: xs).length ∧ test (x :: xs) i = false := by
        intro hmap
        obtain ⟨j, hj, rfl⟩ := map_eq_some_iff.mp hmap
        obtain ⟨hlt, hword, hclear⟩ := ih hj
        refine ⟨by rw [Nat.mul_succ]; omega, ?_, by rw [test_cons_add x xs j hw]; exact hclear⟩
        rw [Nat.add_div_right j hw, length_cons]
        omega
      rw [firstClear] at h
      split at h
      · exact later h
      split at h
      · rename_i b hb
        cases h
        obtain ⟨hlt, hclear⟩ := firstClearInWord_eq_some hb
        refine ⟨by rw [Nat.mul_succ]; omega, ?_, by rw [test_cons_lt x xs hlt]; exact hclear⟩
        simp [Nat.div_eq_of_lt hlt]
      · exact later h

/-- When the search fails every bit of the searched words is set. -/
theorem firstClear_eq_none {n : Nat} (hw : 0 < w) (hlen : n ≤ ws.length)
    (h : firstClear ws n = none) : ∀ i < w * n, test ws i = true := by
  induction ws generalizing n with
  | nil =>
    intro i hi
    have : n = 0 := by simpa using hlen
    simp [this] at hi
  | cons x xs ih =>
    cases n with
    | zero => intro i hi; simp at hi
    | succ n =>
      have full : x = allOnes w ∧ firstClear xs n = none := by
        rw [firstClear] at h
        split at h
        · rename_i hx
          exact ⟨hx, by simpa using h⟩
        · split at h
          · simp at h
          · rename_i hx
            exact ⟨firstClearInWord_eq_none hx, by simpa using h⟩
      intro i hi
      by_cases hlt : i < w
      · rw [test_cons_lt x xs hlt, full.1]
        simp [hlt]
      · obtain ⟨j, rfl⟩ := Nat.exists_eq_add_of_le' (Nat.le_of_not_lt hlt)
        rw [test_cons_add x xs j hw]
        exact ih (by simpa using hlen) full.2 j (by rw [Nat.mul_succ] at hi; omega)

/-! ## The first set bit -/

/-- The first set bit: words that are zero are skipped whole. -/
def firstSet : List (BitVec w) → Option Nat
  | [] => none
  | x :: xs =>
      if x = 0#w then (firstSet xs).map (· + w)
      else (range w).find? fun b => x.getLsbD b

theorem firstSet_eq_some (hw : 0 < w) (h : firstSet ws = some i) : test ws i = true := by
  induction ws generalizing i with
  | nil => cases h
  | cons x xs ih =>
    rw [firstSet] at h
    split at h
    · obtain ⟨j, hj, rfl⟩ := map_eq_some_iff.mp h
      rw [test_cons_add x xs j hw]
      exact ih hj
    · rw [test_cons_lt x xs (mem_range.mp (mem_of_find?_eq_some h))]
      exact find?_some h

/-- A set bit is found, or one before it. -/
theorem exists_firstSet (hw : 0 < w) (h : test ws i = true) : ∃ j ≤ i, firstSet ws = some j := by
  induction ws generalizing i with
  | nil => simp [test] at h
  | cons x xs ih =>
    rw [firstSet]
    split
    · rename_i hx
      obtain ⟨k, rfl⟩ : ∃ k, i = k + w := by
        refine Nat.exists_eq_add_of_le' (Nat.le_of_not_lt fun hlt => ?_)
        rw [test_cons_lt x xs hlt, hx] at h
        simp at h
      rw [test_cons_add x xs k hw] at h
      obtain ⟨j, hj, hfound⟩ := ih h
      exact ⟨j + w, Nat.add_le_add_right hj w, by rw [hfound]; rfl⟩
    · rename_i hx
      cases hfound : (range w).find? fun b => x.getLsbD b with
      | none =>
        refine absurd (eq_of_getLsbD_eq fun b hb => ?_) hx
        simpa using find?_eq_none.mp hfound b (mem_range.mpr hb)
      | some j =>
        obtain ⟨-, hj, hfirst⟩ := find?_range_eq_some.mp hfound
        refine ⟨j, Nat.le_of_not_lt fun hlt => ?_, rfl⟩
        have hclear := hfirst i hlt
        rw [← test_cons_lt x xs (hlt.trans (mem_range.mp hj)), h] at hclear
        cases hclear

end ArcKernel.Foundation.Bitmap
