import Mathlib.Tactic

/-!
# Arrays in freshly allocated blocks

`kmalloc` does not clear what it returns, so a fresh block is a function from
cell index to contents that nobody chose.  An array that is grown is a fresh
block into which a prefix of the old array has been copied; the cells after the
prefix keep whatever the block held.

A fixed array inside a structure is a `Vector`; `copyPrefix` is `memcpy` of its
first cells onto another one.
-/

namespace ArcKernel.Foundation

variable {α : Type} {fresh : Nat → α} {size : Nat}

/-- A block of `size` cells with contents `fresh`, after `memcpy` of the first
`n` cells of `src` to its start. -/
def copyInto (fresh : Nat → α) (size : Nat) (src : List α) (n : Nat) : List α :=
  src.take n ++ (List.range' n (size - n)).map fresh

section

variable {n : Nat} {src : List α} (hn : n ≤ src.length)
include hn

theorem length_copyInto (hsize : n ≤ size) : (copyInto fresh size src n).length = size := by
  simp [copyInto, Nat.min_eq_left hn]
  omega

theorem getElem?_copyInto_lt {i : Nat} (hi : i < n) :
    (copyInto fresh size src n)[i]? = src[i]? := by
  rw [copyInto, List.getElem?_append_left (by simp; omega), List.getElem?_take_of_lt hi]

theorem getElem?_copyInto_ge {i : Nat} (hi : n ≤ i) (hsize : i < size) :
    (copyInto fresh size src n)[i]? = some (fresh i) := by
  have hlen : (src.take n).length = n := by simp [hn]
  rw [copyInto, List.getElem?_append_right (by omega), List.getElem?_map,
    List.getElem?_range' (by omega)]
  simp only [Option.map_some, Nat.one_mul]
  congr 2
  omega

end

/-- `memcpy(dst, src, n)` between two arrays of `k` cells. -/
def copyPrefix {k : Nat} (dst src : Vector α k) (n : Nat) : Vector α k :=
  Vector.ofFn fun i => if i.val < n then src[i] else dst[i]

/-- The copied prefix reads as the source did. -/
theorem take_copyPrefix {k : Nat} (dst src : Vector α k) (n : Nat) :
    (copyPrefix dst src n).toList.take n = src.toList.take n := by
  apply List.ext_getElem?
  intro i
  by_cases hi : i < n
  · by_cases hk : i < k
    · simp [copyPrefix, hi, hk]
    · simp [hk]
  · simp [hi]

end ArcKernel.Foundation
