import ArcKernel.Foundation.Bitmap
import ArcKernel.Foundation.Bytes

/-!
# Bit arrays in byte memory

An array of bits at an address of a byte memory: bit `i` is bit `i % 8` of the byte
`i / 8`.  There is no bound on the index, as in C; which bytes belong to the array is
for the caller to know.  `clears` is the set of clear bits below a bound.
-/

namespace ArcKernel.Foundation.BitArray

open Function

open ArcKernel.Foundation.Bitmap (mask mask_getLsbD and_mask_eq_zero_iff index_eq_iff)

variable {mem mem' : ByteMem} {base i j n : Nat}

/-- `array[i / 8] & (1 << (i % 8))`. -/
def test (mem : ByteMem) (base i : Nat) : Bool :=
  (mem (base + i / 8)).toBitVec &&& mask 8 (i % 8) != 0#8

/-- `array[i / 8] |= 1 << (i % 8)`. -/
def set (mem : ByteMem) (base i : Nat) : ByteMem :=
  update mem (base + i / 8) ⟨(mem (base + i / 8)).toBitVec ||| mask 8 (i % 8)⟩

/-- `array[i / 8] &= ~(1 << (i % 8))`. -/
def clear (mem : ByteMem) (base i : Nat) : ByteMem :=
  update mem (base + i / 8) ⟨(mem (base + i / 8)).toBitVec &&& ~~~ mask 8 (i % 8)⟩

theorem test_eq (mem : ByteMem) (base i : Nat) :
    test mem base i = (mem (base + i / 8)).toBitVec.getLsbD (i % 8) := by
  have hlt : i % 8 < 8 := Nat.mod_lt _ (by decide)
  cases hbit : (mem (base + i / 8)).toBitVec.getLsbD (i % 8) with
  | false => rw [test, (and_mask_eq_zero_iff hlt).mpr hbit]; rfl
  | true =>
    rw [test, bne_iff_ne, ne_eq, and_mask_eq_zero_iff hlt, hbit]
    exact Bool.noConfusion

/-- A test reads one byte. -/
theorem test_congr (h : mem' (base + i / 8) = mem (base + i / 8)) :
    test mem' base i = test mem base i := by
  rw [test, test, h]

theorem set_outside {a : Nat} (h : a ≠ base + i / 8) : set mem base i a = mem a := update_of_ne h ..

theorem clear_outside {a : Nat} (h : a ≠ base + i / 8) : clear mem base i a = mem a :=
  update_of_ne h ..

theorem test_set (mem : ByteMem) (base i j : Nat) :
    test (set mem base i) base j = (test mem base j || decide (j = i)) := by
  have hlt : j % 8 < 8 := Nat.mod_lt _ (by decide)
  rcases eq_or_ne (i / 8) (j / 8) with hbyte | hbyte
  · rw [test_eq, test_eq, set, ← hbyte, update_self, BitVec.getLsbD_or, mask_getLsbD hlt]
    simp only [index_eq_iff hbyte]
  · have hne : j ≠ i := fun h => hbyte (by rw [h])
    rw [test_congr (set_outside (by omega))]
    simp [hne]

theorem test_clear (mem : ByteMem) (base i j : Nat) :
    test (clear mem base i) base j = (test mem base j && decide (j ≠ i)) := by
  have hlt : j % 8 < 8 := Nat.mod_lt _ (by decide)
  rcases eq_or_ne (i / 8) (j / 8) with hbyte | hbyte
  · rw [test_eq, test_eq, clear, ← hbyte, update_self, BitVec.getLsbD_and,
      BitVec.getLsbD_not, mask_getLsbD hlt]
    simp [hlt, index_eq_iff hbyte]
  · have hne : j ≠ i := fun h => hbyte (by rw [h])
    rw [test_congr (clear_outside (by omega))]
    simp [hne]

/-! ## The clear bits -/

/-- The clear bits below `n`. -/
def clears (mem : ByteMem) (base n : Nat) : Finset Nat :=
  (Finset.range n).filter fun i => test mem base i = false

theorem mem_clears : i ∈ clears mem base n ↔ i < n ∧ test mem base i = false := by simp [clears]

theorem clears_congr (h : ∀ i < n, test mem' base i = test mem base i) :
    clears mem' base n = clears mem base n := by
  ext i
  rw [mem_clears, mem_clears]
  exact and_congr_right fun hi => by rw [h i hi]

theorem clears_set (mem : ByteMem) (base i n : Nat) :
    clears (set mem base i) base n = (clears mem base n).erase i := by
  ext j
  rw [Finset.mem_erase, mem_clears, mem_clears, test_set]
  simp only [Bool.or_eq_false_iff, decide_eq_false_iff_not]
  tauto

theorem clears_clear (mem : ByteMem) (base : Nat) (hi : i < n) :
    clears (clear mem base i) base n = insert i (clears mem base n) := by
  ext j
  rw [Finset.mem_insert, mem_clears, mem_clears, test_clear]
  rcases eq_or_ne j i with rfl | hne
  · simp [hi]
  · simp [hne]

end ArcKernel.Foundation.BitArray
