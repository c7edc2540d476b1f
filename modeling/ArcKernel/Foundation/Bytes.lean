import Mathlib.Tactic

/-!
# Byte-addressed memory

Memory is a function from addresses to bytes.  Words are read and written in
little-endian order, at any width and alignment.  The lemmas are the usual three:
what was stored is read back, what lies outside a store is unchanged, and a load
depends only on the bytes it covers.
-/

namespace ArcKernel.Foundation

open Function List

abbrev ByteMem : Type := Nat → UInt8

namespace ByteMem

/-- The word of `w` bytes at `a`. -/
def load : Nat → ByteMem → Nat → Nat
  | 0, _, _ => 0
  | w + 1, mem, a => (mem a).toNat + 256 * load w mem (a + 1)

/-- Store the low `w` bytes of `v` at `a`. -/
def store : Nat → ByteMem → Nat → Nat → ByteMem
  | 0, mem, _, _ => mem
  | w + 1, mem, a, v => store w (update mem a (UInt8.ofNat v)) (a + 1) (v / 256)

/-- The `w` bytes of `v`, lowest first. -/
def wordBytes : Nat → Nat → List UInt8
  | 0, _ => []
  | w + 1, v => UInt8.ofNat v :: wordBytes w (v / 256)

/-- Write a string of bytes from `a` on. -/
def write : ByteMem → Nat → List UInt8 → ByteMem
  | mem, _, [] => mem
  | mem, a, b :: bs => write (update mem a b) (a + 1) bs

/-- Set the bytes of `[lo, hi)` to `v`. -/
def fill (mem : ByteMem) (lo hi : Nat) (v : UInt8) : ByteMem :=
  fun a => if lo ≤ a ∧ a < hi then v else mem a

theorem load_congr {w a : Nat} {mem mem' : ByteMem}
    (h : ∀ x, a ≤ x → x < a + w → mem x = mem' x) : load w mem a = load w mem' a := by
  induction w generalizing a with
  | zero => rfl
  | succ w ih =>
    rw [load, load, h a le_rfl (by omega), ih fun x hx hxw => h x (by omega) (by omega)]

theorem load_zero (w a : Nat) : load w (fun _ => 0) a = 0 := by
  induction w generalizing a with
  | zero => rfl
  | succ w ih => rw [load, ih]; rfl

theorem store_outside {w a x : Nat} (mem : ByteMem) (v : Nat) (h : x < a ∨ a + w ≤ x) :
    store w mem a v x = mem x := by
  induction w generalizing mem a v with
  | zero => rfl
  | succ w ih => rw [store, ih _ _ (by omega), update_of_ne (by omega)]

theorem load_store {w v : Nat} (mem : ByteMem) (a : Nat) (hv : v < 256 ^ w) :
    load w (store w mem a v) a = v := by
  induction w generalizing mem a v with
  | zero =>
    rw [pow_zero, Nat.lt_one_iff] at hv
    rw [hv, load]
  | succ w ih =>
    have hrest : v / 256 < 256 ^ w := Nat.div_lt_of_lt_mul (by rwa [← pow_succ'])
    have hlow : (store (w + 1) mem a v a).toNat = v % 256 := by
      rw [store, store_outside _ _ (Or.inl (Nat.lt_succ_self a)), update_self]
      exact UInt8.toNat_ofNat'
    rw [load, hlow, store, ih _ _ hrest]
    exact Nat.mod_add_div v 256

/-- A store leaves the words that do not overlap it alone. -/
theorem load_store_of_disjoint {w w' a b : Nat} (mem : ByteMem) (v : Nat)
    (h : b + w' ≤ a ∨ a + w ≤ b) : load w' (store w mem a v) b = load w' mem b :=
  load_congr fun _ hx hxw => store_outside mem v (by omega)

@[simp] theorem length_wordBytes (w v : Nat) : (wordBytes w v).length = w := by
  induction w generalizing v with
  | zero => rfl
  | succ w ih => rw [wordBytes, length_cons, ih]

section

variable (mem : ByteMem)

/-- A word is stored by writing its bytes. -/
theorem write_wordBytes (a w v : Nat) : write mem a (wordBytes w v) = store w mem a v := by
  induction w generalizing mem a v with
  | zero => rfl
  | succ w ih => rw [wordBytes, write, ih, store]

theorem write_append (a : Nat) (l l' : List UInt8) :
    write mem a (l ++ l') = write (write mem a l) (a + l.length) l' := by
  induction l generalizing mem a with
  | nil => rfl
  | cons b l ih => rw [cons_append, write, ih, write, length_cons, Nat.add_assoc, Nat.add_comm 1]

/-- What a write leaves at an address. -/
theorem write_apply (a : Nat) (l : List UInt8) (x : Nat) :
    write mem a l x = if a ≤ x ∧ x < a + l.length then l.getD (x - a) 0 else mem x := by
  induction l generalizing mem a with
  | nil =>
    rw [write]
    simp
  | cons b l ih =>
    rw [write, ih, length_cons]
    rcases Nat.lt_trichotomy x a with hlt | rfl | hgt
    · rw [if_neg (by omega), if_neg (by omega), update_of_ne (by omega)]
    · rw [if_neg (by omega), if_pos (by omega), update_self, Nat.sub_self]
      rfl
    · rw [show x - a = x - (a + 1) + 1 by omega, getD_cons_succ, update_of_ne (by omega)]
      by_cases hx : x < a + 1 + l.length
      · rw [if_pos (by omega), if_pos (by omega)]
      · rw [if_neg (by omega), if_neg (by omega)]

/-- Bit `j` of byte `k` is bit `8 * k + j` of the word. -/
theorem testBit_load {w k j : Nat} (a : Nat) (hk : k < w) (hj : j < 8) :
    (load w mem a).testBit (8 * k + j) = (mem (a + k)).toNat.testBit j := by
  have hsplit : ∀ b n i : Nat, b < 256 →
      (b + 256 * n).testBit i = if i < 8 then b.testBit i else n.testBit (i - 8) := by
    intro b n i hb
    rw [Nat.add_comm, show (256 : Nat) = 2 ^ 8 from rfl, Nat.testBit_two_pow_mul_add n hb]
  induction w generalizing a k with
  | zero => exact absurd hk (Nat.not_lt_zero k)
  | succ w ih =>
    rw [load, hsplit _ _ _ (UInt8.toNat_lt _)]
    cases k with
    | zero => rw [Nat.zero_add, if_pos hj, Nat.add_zero]
    | succ k =>
      rw [if_neg (by omega), show 8 * (k + 1) + j - 8 = 8 * k + j by omega,
        ih (a + 1) (Nat.lt_of_succ_lt_succ hk), Nat.add_right_comm, Nat.add_assoc a k 1]

theorem load_fill_of_disjoint {w lo hi b : Nat} (v : UInt8) (h : b + w ≤ lo ∨ hi ≤ b) :
    load w (fill mem lo hi v) b = load w mem b :=
  load_congr fun _ hx hxw => if_neg (by omega)

end

/-! ## Records -/

/-- A word of a record: where it stands, how wide it is, and its value. -/
structure Field where
  off : Nat
  width : Nat
  val : Nat

/-- The words of a record that starts at `a`. -/
def storeAll (a : Nat) (mem : ByteMem) (l : List Field) : ByteMem :=
  l.foldl (fun mem f => store f.width mem (a + f.off) f.val) mem

theorem storeAll_outside {a x : Nat} (mem : ByteMem) {l : List Field}
    (h : ∀ f ∈ l, x < a + f.off ∨ a + f.off + f.width ≤ x) : storeAll a mem l x = mem x := by
  induction l generalizing mem with
  | nil => rfl
  | cons f l ih =>
    refine (ih _ fun g hg => h g (mem_cons_of_mem f hg)).trans ?_
    exact store_outside mem f.val (h f mem_cons_self)

/-- Words that do not overlap are all read back. -/
theorem load_storeAll {a : Nat} {mem : ByteMem} {l : List Field} {f : Field}
    (hl : l.Pairwise fun f g => f.off + f.width ≤ g.off ∨ g.off + g.width ≤ f.off) (hf : f ∈ l)
    (hval : f.val < 256 ^ f.width) : load f.width (storeAll a mem l) (a + f.off) = f.val := by
  induction l generalizing mem with
  | nil => cases hf
  | cons g l ih =>
    obtain ⟨hg, hl⟩ := pairwise_cons.mp hl
    rcases mem_cons.mp hf with rfl | hf
    · refine (load_congr fun x hx hxw => ?_).trans (load_store mem (a + f.off) hval)
      refine storeAll_outside (store f.width mem (a + f.off) f.val) fun g hgl => ?_
      rcases hg g hgl with h | h <;> omega
    · exact ih hl hf

end ByteMem

end ArcKernel.Foundation
