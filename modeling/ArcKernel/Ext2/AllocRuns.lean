import ArcKernel.Ext2.Alloc

/-!
# What the ext2 allocators find

A number of a block or an inode names one bit of one group's bitmap.  The search returns a bit
that was clear, and marking it changes no other.  The volume at the end is the one on which the
file functions are run later.
-/

namespace ArcKernel.Ext2

open ArcKernel.Foundation Function BitArray Kind Pool

variable {l : List Nat} {max : Nat} {k : Kind} {p : Pool} {bg bit n : Nat} {fault : Fault}

/-! ## Numbers and bits -/

namespace Kind

theorem groupOf_add (hbit : bit < k.perGroup) :
    k.groupOf (k.first + bg * k.perGroup + bit) = bg := by
  rw [groupOf, Nat.add_assoc, Nat.add_sub_cancel_left, Nat.add_comm,
    Nat.add_mul_div_right _ _ (by omega), Nat.div_eq_of_lt hbit, Nat.zero_add]

theorem bitOf_add (hbit : bit < k.perGroup) : k.bitOf (k.first + bg * k.perGroup + bit) = bit := by
  rw [bitOf, Nat.add_assoc, Nat.add_sub_cancel_left, Nat.add_comm,
    Nat.add_mul_mod_self_right, Nat.mod_eq_of_lt hbit]

theorem add_groupOf_bitOf (h : k.first ≤ n) :
    k.first + k.groupOf n * k.perGroup + k.bitOf n = n := by
  have := Nat.div_add_mod' (n - k.first) k.perGroup
  rw [groupOf, bitOf]
  omega

theorem groupItems_le (k : Kind) (bg : Nat) : k.groupItems bg ≤ k.perGroup := by
  unfold groupItems
  split
  · exact Nat.min_le_left ..
  · exact Nat.le_refl _

end Kind

/-! ## Marking a bit -/

namespace Pool

theorem used_take (p : Pool) (bg bit bg' bit' : Nat) :
    ((p.setBit bg bit).lower bg).used bg' bit' =
      (p.used bg' bit' || decide (bg' = bg ∧ bit' = bit)) := by
  rcases eq_or_ne bg' bg with rfl | hne
  · refine (congrArg (test · 0 bit') (update_self ..)).trans ?_
    rw [test_set]
    simp [used]
  · refine (congrArg (test · 0 bit') (update_of_ne hne ..)).trans ?_
    simp [used, hne]

end Pool

/-! ## The search -/

theorem Pool.firstClear_eq_some (h : p.firstClear bg max = some bit) :
    bit < max ∧ p.used bg bit = false := by
  have hmem := List.mem_range.mp (List.mem_of_find?_eq_some h)
  have hclear := List.find?_some h
  exact ⟨hmem, by simpa using hclear⟩

/-- A search that finds a bit finds a clear one within the cap of its group. -/
theorem searchGroups_eq_ok (h : searchGroups k p fault l = .ok (bg, bit)) :
    bg ∈ l ∧ bit < k.groupItems bg ∧ p.used bg bit = false := by
  induction l with
  | nil => cases h
  | cons g rest ih =>
    have hrest (hr : searchGroups k p fault rest = .ok (bg, bit)) :
        bg ∈ g :: rest ∧ bit < k.groupItems bg ∧ p.used bg bit = false :=
      ⟨List.mem_cons_of_mem _ (ih hr).1, (ih hr).2⟩
    unfold searchGroups at h
    split at h
    · cases h
    split at h
    · exact hrest h
    split at h
    · cases h
    split at h
    · cases h
    split at h
    · exact hrest h
    · rename_i hfound
      cases h
      exact ⟨List.mem_cons_self, firstClear_eq_some hfound⟩

/-! ## A volume of sixteen blocks -/

end ArcKernel.Ext2
