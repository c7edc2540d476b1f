import Mathlib.Tactic

/-!
# Circular doubly linked lists

A ring is read through its two pointer maps: `Ring next prev l` says that the pointers lead
once around the cells of `l` and back to the first.  Where the ring is entered does not matter
(`ring_comm`), so a lemma about the first cell is one about every cell.  The two edits are the
ones of an intrusive queue: a new cell before the first, which is the tail, and a cell taken
out.
-/

namespace ArcKernel.Foundation.Circular

open Function List

variable {next prev next' prev' : Nat → Nat} {a x : Nat} {l r : List Nat}

/-- The pointers between `x` and its successor `y` agree. -/
def Follows (next prev : Nat → Nat) (x y : Nat) : Prop := next x = y ∧ prev y = x

def Ring (next prev : Nat → Nat) : List Nat → Prop
  | [] => True
  | a :: l => (a :: (l ++ [a])).IsChain (Follows next prev)

/-- The ring closes behind its last cell. -/
theorem ring_concat {z : Nat} (h : a :: l = r ++ [z]) :
    Ring next prev (a :: l) ↔ (a :: l).IsChain (Follows next prev) ∧ Follows next prev z a := by
  rw [Ring, ← cons_append, h, append_assoc, singleton_append, isChain_split, isChain_pair]

theorem exists_last (a : Nat) (l : List Nat) : ∃ r z, a :: l = r ++ [z] :=
  ⟨_, _, (dropLast_append_getLast (cons_ne_nil a l)).symm⟩

theorem Ring.rotate (h : Ring next prev (a :: l)) : Ring next prev (l ++ [a]) := by
  cases l with
  | nil => exact h
  | cons b m =>
    have hsplit : Follows next prev a b ∧ (b :: (m ++ [a])).IsChain (Follows next prev) :=
      isChain_cons_cons.mp h
    exact (ring_concat (r := b :: m) (z := a) rfl).mpr ⟨hsplit.2, hsplit.1⟩

/-- A ring may be entered at any cell. -/
theorem Ring.comm (h : Ring next prev (l ++ r)) : Ring next prev (r ++ l) := by
  induction l generalizing r with
  | nil => rwa [append_nil]
  | cons b l ih =>
    have hturned : Ring next prev ((l ++ r) ++ [b]) := Ring.rotate h
    rw [append_assoc] at hturned
    have hback := ih hturned
    rwa [append_assoc] at hback

/-- A chain of cells keeps when the pointers out of all but the last and into all but the
first are kept. -/
theorem isChain_congr (h : l.IsChain (Follows next prev))
    (hnext : ∀ u ∈ l.dropLast, next' u = next u) (hprev : ∀ v ∈ l.tail, prev' v = prev v) :
    l.IsChain (Follows next' prev') := by
  induction l with
  | nil => exact .nil
  | cons b t ih =>
    cases t with
    | nil => exact .singleton b
    | cons c t =>
      obtain ⟨hbc, hrest⟩ := isChain_cons_cons.mp h
      have hb := hnext b (by rw [dropLast_cons_cons]; exact mem_cons_self)
      have hc := hprev c mem_cons_self
      refine isChain_cons_cons.mpr ⟨⟨hb.trans hbc.1, hc.trans hbc.2⟩, ih hrest ?_ ?_⟩
      · exact fun u hu => hnext u (by rw [dropLast_cons_cons]; exact mem_cons_of_mem _ hu)
      · exact fun v hv => hprev v (mem_cons_of_mem _ hv)

/-- A ring does not depend on the pointers of other cells. -/
theorem Ring.congr (h : Ring next prev l) (hnext : ∀ u ∈ l, next' u = next u)
    (hprev : ∀ u ∈ l, prev' u = prev u) : Ring next' prev' l := by
  cases l with
  | nil => trivial
  | cons a l =>
    refine isChain_congr h (fun u hu => hnext u ?_) (fun v hv => hprev v ?_)
    · rwa [← cons_append, dropLast_concat] at hu
    · rcases mem_append.mp hv with hv | hv
      · exact mem_cons_of_mem _ hv
      · exact mem_cons.mpr (.inl (mem_singleton.mp hv))

theorem ring_singleton : Ring next prev [x] ↔ next x = x ∧ prev x = x := isChain_pair

/-- A cell is its own successor only when it is alone. -/
theorem Ring.next_eq_self_iff (h : Ring next prev l) (hnodup : l.Nodup) (hx : x ∈ l) :
    next x = x ↔ l = [x] := by
  obtain ⟨l₁, l₂, rfl⟩ := append_of_mem hx
  have hturned : Ring next prev (x :: (l₂ ++ l₁)) := h.comm
  have hfresh : x ∉ l₂ ++ l₁ := fun hmem =>
    (nodup_middle.mp hnodup).notMem (perm_append_comm.mem_iff.mp hmem)
  cases hrest : l₂ ++ l₁ with
  | nil =>
    obtain ⟨rfl, rfl⟩ := append_eq_nil_iff.mp hrest
    exact iff_of_true (ring_singleton.mp h).1 rfl
  | cons y m =>
    rw [hrest] at hturned hfresh
    have hnext : next x = y := (isChain_cons_cons.mp hturned).1.1
    refine iff_of_false (fun hself => hfresh ?_) fun hone => ?_
    · rw [← hself, hnext]
      exact mem_cons_self
    · have hlength := congrArg List.length hone
      have hlength' := congrArg List.length hrest
      simp only [length_append, length_cons, length_nil] at hlength hlength'
      omega

/-- The pointers of a cell lead to it from both sides. -/
theorem Ring.around (h : Ring next prev l) (hx : x ∈ l) :
    next x ∈ l ∧ prev x ∈ l ∧ prev (next x) = x ∧ next (prev x) = x := by
  obtain ⟨l₁, l₂, rfl⟩ := append_of_mem hx
  have hturned : Ring next prev (x :: (l₂ ++ l₁)) := h.comm
  have hperm : ∀ u, u ∈ x :: (l₂ ++ l₁) ↔ u ∈ l₁ ++ x :: l₂ := fun u =>
    (perm_append_comm : (x :: l₂ ++ l₁).Perm (l₁ ++ x :: l₂)).mem_iff
  rw [← hperm, ← hperm]
  generalize l₂ ++ l₁ = m at hturned
  obtain ⟨r, z, hz⟩ := exists_last x m
  obtain ⟨-, hclose⟩ := (ring_concat hz).mp hturned
  have hnext : next x ∈ x :: m ∧ prev (next x) = x := by
    cases m with
    | nil =>
      obtain ⟨hn, hp⟩ := ring_singleton.mp hturned
      rw [hn]
      exact ⟨mem_cons_self, hp⟩
    | cons y m =>
      have hxy := (isChain_cons_cons.mp hturned).1
      rw [hxy.1]
      exact ⟨mem_cons_of_mem _ mem_cons_self, hxy.2⟩
  refine ⟨hnext.1, ?_, hnext.2, ?_⟩
  · rw [hclose.2, hz]
    exact mem_append_right _ (mem_singleton_self z)
  · rw [hclose.2]
    exact hclose.1

/-- Taking out the first of several cells. -/
theorem Ring.tail (h : Ring next prev (x :: l)) (hnodup : (x :: l).Nodup) (hl : l ≠ []) :
    Ring (update next (prev x) (next x)) (update prev (next x) (prev x)) l := by
  obtain ⟨y, m, rfl⟩ := exists_cons_of_ne_nil hl
  obtain ⟨r, z, hz⟩ := exists_last y m
  obtain ⟨hxy, hrest⟩ : Follows next prev x y ∧ (y :: (m ++ [x])).IsChain (Follows next prev) :=
    isChain_cons_cons.mp h
  have hzx : Follows next prev z x := ((ring_concat (z := z)
    (show x :: y :: m = (x :: r) ++ [z] by rw [hz, cons_append])).mp h).2
  have hinner : (y :: m).IsChain (Follows next prev) := by exact hrest.left_of_append
  rw [hxy.1, hzx.2, ring_concat hz]
  have hnodup' := (nodup_cons.mp hnodup).2
  refine ⟨isChain_congr hinner (fun u hu => ?_) (fun v hv => ?_), ?_, ?_⟩
  · refine update_of_ne (fun heq => ?_) ..
    rw [hz, dropLast_concat] at hu
    rw [hz] at hnodup'
    exact (nodup_append.mp hnodup').2.2 u hu z (mem_singleton_self z) heq
  · have hvy : v ≠ y := fun heq => (nodup_cons.mp hnodup').1 (heq ▸ hv)
    exact update_of_ne hvy ..
  all_goals exact update_self ..

/-- Taking out one of several cells. -/
theorem Ring.remove (h : Ring next prev (l ++ x :: r)) (hnodup : (l ++ x :: r).Nodup)
    (hrest : l ++ r ≠ []) :
    Ring (update next (prev x) (next x)) (update prev (next x) (prev x)) (l ++ r) := by
  have hturned : Ring next prev (x :: (r ++ l)) := h.comm
  have hnodup' : (x :: (r ++ l)).Nodup :=
    (perm_append_comm : (l ++ x :: r).Perm (x :: r ++ l)).nodup_iff.mp hnodup
  refine (hturned.tail hnodup' fun hnil => hrest ?_).comm
  obtain ⟨rfl, rfl⟩ := append_eq_nil_iff.mp hnil
  rfl

/-- A new cell behind the last. -/
theorem Ring.concat (h : Ring next prev (a :: l)) (hnodup : (a :: l).Nodup) (hx : x ∉ a :: l) :
    Ring (update (update next x a) (prev a) x)
      (update (update prev x (prev a)) a x) (a :: (l ++ [x])) := by
  obtain ⟨r, z, hz⟩ := exists_last a l
  obtain ⟨hinner, hclose⟩ := (ring_concat hz).mp h
  have hxa : x ≠ a := fun heq => hx (heq ▸ mem_cons_self)
  have hzmem : z ∈ a :: l := hz ▸ mem_append_right _ (mem_singleton_self z)
  have hxz : x ≠ z := fun heq => hx (heq ▸ hzmem)
  rw [hclose.2]
  have hlast : a :: (l ++ [x]) = (a :: l) ++ [x] := (cons_append ..).symm
  refine (ring_concat hlast).mpr ⟨?_, ?_, ?_⟩
  · rw [hlast, hz, append_assoc, singleton_append, isChain_split, isChain_pair, ← hz]
    refine ⟨isChain_congr hinner (fun u hu => ?_) (fun v hv => ?_), ?_, ?_⟩
    · have hul : u ∈ a :: l := dropLast_subset _ hu
      rw [hz, dropLast_concat] at hu
      rw [hz] at hnodup
      have huz : u ≠ z := (nodup_append.mp hnodup).2.2 u hu z (mem_singleton_self z)
      have hux : u ≠ x := fun heq => hx (heq ▸ hul)
      rw [update_of_ne huz, update_of_ne hux]
    · have hva : v ≠ a := fun heq => (nodup_cons.mp hnodup).1 (heq ▸ hv)
      have hvx : v ≠ x := fun heq => hx (heq ▸ mem_cons_of_mem _ hv)
      rw [update_of_ne hva, update_of_ne hvx]
    · exact update_self ..
    · rw [update_of_ne hxa, update_self]
  · rw [update_of_ne hxz, update_self]
  · exact update_self ..

end ArcKernel.Foundation.Circular
