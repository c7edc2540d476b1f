import Mathlib.Tactic

/-!
# Tables of slots

A table is a list with free and occupied slots.  The first section relates an update of a
slot to the collection of the occupied ones, whatever their places.  The second is about
tables filled from the front: the first free slot is the one behind the occupied part.
-/

namespace ArcKernel.Foundation

open List

variable {α β : Type}

section

variable (occupied : α → Option β)

section

variable {l : List α} {i : Nat} (hi : i < l.length)
include hi

/-- A table around one of its slots. -/
theorem filterMap_slot_perm :
    (l.filterMap occupied).Perm
      ((occupied (l.get ⟨i, hi⟩)).toList ++ (l.eraseIdx i).filterMap occupied) := by
  have hsplit : l = l.take i ++ l.get ⟨i, hi⟩ :: l.drop (i + 1) := by
    conv_lhs => rw [← take_append_drop i l, drop_eq_getElem_cons hi]
    rfl
  rw [eraseIdx_eq_take_drop_succ]
  conv_lhs => rw [hsplit]
  rw [filterMap_append, filterMap_append, filterMap_cons]
  cases occupied (l.get ⟨i, hi⟩) with
  | none => exact List.Perm.refl _
  | some b => exact perm_middle

/-- The table after a slot is overwritten. -/
theorem filterMap_set_perm (x : α) : ((l.set i x).filterMap occupied).Perm
      ((occupied x).toList ++ (l.eraseIdx i).filterMap occupied) := by
  have h := filterMap_slot_perm occupied (l := l.set i x) (by simpa using hi)
  rw [eraseIdx_set_eq] at h
  simpa using h

/-- Filling a free slot, seen without another slot. -/
theorem filterMap_eraseIdx_set_perm {j : Nat} (hj : j < l.length) (hij : j ≠ i)
    (hfree : occupied (l.get ⟨j, hj⟩) = none) (x : α) :
    (((l.set j x).eraseIdx i).filterMap occupied).Perm
      ((occupied x).toList ++ (l.eraseIdx i).filterMap occupied) := by
  have hslot := filterMap_slot_perm occupied hi
  have hset := filterMap_slot_perm occupied (l := l.set j x) (i := i) (by simpa using hi)
  have hget : (l.set j x).get ⟨i, by simpa using hi⟩ = l.get ⟨i, hi⟩ := by simp [getElem_set_ne hij]
  rw [hget] at hset
  have hfill := filterMap_set_perm occupied hj x
  have hrest := filterMap_slot_perm occupied hj
  rw [hfree] at hrest
  refine (perm_append_left_iff (occupied (l.get ⟨i, hi⟩)).toList).mp ?_
  calc (occupied (l.get ⟨i, hi⟩)).toList ++ ((l.set j x).eraseIdx i).filterMap occupied
    _ |>.Perm ((l.set j x).filterMap occupied) := hset.symm
    _ |>.Perm ((occupied x).toList ++ (l.eraseIdx j).filterMap occupied) := hfill
    _ |>.Perm ((occupied x).toList ++ l.filterMap occupied) := hrest.symm.append_left _
    _ |>.Perm ((occupied x).toList ++ ((occupied (l.get ⟨i, hi⟩)).toList ++
        (l.eraseIdx i).filterMap occupied)) := hslot.append_left _
    _ |>.Perm ((occupied (l.get ⟨i, hi⟩)).toList ++ ((occupied x).toList ++
        (l.eraseIdx i).filterMap occupied)) := by
      rw [← append_assoc, ← append_assoc]
      exact perm_append_comm.append_right _

end

end

/-! ## Tables filled from the front -/

section

variable {free : α → Bool} {l rest : List α} {x y : α}

theorem findIdx?_front (hl : ∀ a ∈ l, free a = false) (hx : free x = true) :
    (l ++ x :: rest).findIdx? free = some l.length := by
  rw [List.findIdx?_append, List.findIdx?_eq_none_iff.mpr hl, List.findIdx?_cons, if_pos hx]
  simp

theorem findIdx?_full (hl : ∀ a ∈ l, free a = false) : l.findIdx? free = none :=
  List.findIdx?_eq_none_iff.mpr hl

theorem set_front : (l ++ x :: rest).set l.length y = l ++ y :: rest := by
  rw [set_append_right l.length y (le_refl _), Nat.sub_self, set_cons_zero]

/-- A table whose free slots all lie behind the occupied ones is filled from the front. -/
theorem filter_eq_front (h : ∀ (i j : Nat) a b, i < j → l[i]? = some a → l[j]? = some b →
      free b = false → free a = false) :
    ∃ rest, l = l.filter (fun a => !free a) ++ rest ∧ ∀ a ∈ rest, free a = true := by
  induction l with
  | nil => exact ⟨[], rfl, nofun⟩
  | cons a l ih =>
    cases hfree : free a with
    | true =>
      have hall : ∀ b ∈ l, free b = true := by
        intro b hb
        obtain ⟨j, hj⟩ := mem_iff_getElem?.mp hb
        by_contra hused
        have := h 0 (j + 1) a b (Nat.succ_pos j) rfl hj (Bool.eq_false_iff.mpr hused)
        exact Bool.false_ne_true (this.symm.trans hfree)
      refine ⟨a :: l, ?_, forall_mem_cons.mpr ⟨hfree, hall⟩⟩
      rw [filter_eq_nil_iff.mpr]
      · rfl
      · intro b hb
        rcases mem_cons.mp hb with rfl | hb
        · simp [hfree]
        · simp [hall b hb]
    | false =>
      obtain ⟨rest, hl, hrest⟩ := ih fun i j b c hij hb hc =>
        h (i + 1) (j + 1) b c (Nat.succ_lt_succ hij) hb hc
      refine ⟨rest, ?_, hrest⟩
      rw [filter_cons_of_pos (by simp [hfree]), cons_append, ← hl]

end

end ArcKernel.Foundation
