import Mathlib.Tactic

/-!
# Singly linked lists reached through pointer locations

A pointer lives in a location: the root of a list, or the link field of a cell.  Code that
edits such lists walks with a pointer to a location (`T **pp`), so the empty front of a list
and its inner links are edited by one statement.  `Chain m loc l` says that the list `l`
hangs off the location `loc` in the store `m`, ended by null.

A list occupies the locations `loc :: l.map link`; an edit of another location leaves it.
-/

namespace ArcKernel.Foundation

open Function List

variable {κ : Type} {k : κ} {l : List Nat} {n : Nat}

inductive Loc (κ : Type) where
  | root (k : κ)
  | link (cell : Nat)
  deriving DecidableEq

def Chain (m : Loc κ → Nat) : Loc κ → List Nat → Prop
  | loc, [] => m loc = 0
  | loc, a :: as => m loc = a ∧ a ≠ 0 ∧ Chain m (.link a) as

/-- The cells of a list, without its end. -/
def Path (m : Loc κ → Nat) : Loc κ → List Nat → Prop
  | _, [] => True
  | loc, a :: as => m loc = a ∧ a ≠ 0 ∧ Path m (.link a) as

/-- The location behind the cells. -/
def endLoc : Loc κ → List Nat → Loc κ
  | loc, [] => loc
  | _, a :: as => endLoc (.link a) as

section

variable {m m' : Loc κ → Nat} {loc : Loc κ} {r : List Nat} {p : Nat}

theorem endLoc_append (loc : Loc κ) (l r : List Nat) :
    endLoc loc (l ++ r) = endLoc (endLoc loc l) r := by
  induction l generalizing loc with
  | nil => rfl
  | cons a as ih => exact ih _

theorem endLoc_mem (loc : Loc κ) (l : List Nat) : endLoc loc l ∈ loc :: l.map Loc.link := by
  induction l generalizing loc with
  | nil => exact mem_cons_self
  | cons a as ih => exact mem_cons_of_mem _ (ih _)

theorem chain_append : Chain m loc (l ++ r) ↔ Path m loc l ∧ Chain m (endLoc loc l) r := by
  induction l generalizing loc with
  | nil => exact ⟨fun h => ⟨trivial, h⟩, And.right⟩
  | cons a as ih =>
    rw [cons_append, Chain, ih]
    exact ⟨fun ⟨h₁, h₂, h₃, h₄⟩ => ⟨⟨h₁, h₂, h₃⟩, h₄⟩, fun ⟨⟨h₁, h₂, h₃⟩, h₄⟩ => ⟨h₁, h₂, h₃, h₄⟩⟩

theorem root_notMem_links (k : κ) (l : List Nat) : Loc.root k ∉ l.map Loc.link := by
  intro hmem
  obtain ⟨_, _, h⟩ := mem_map.mp hmem
  cases h

theorem link_mem : (Loc.link p : Loc κ) ∈ l.map Loc.link ↔ p ∈ l := by
  rw [mem_map_of_injective fun a b h => Loc.link.inj h]

/-- The locations of a list without repetition are distinct. -/
theorem simple_of_nodup (k : κ) (h : l.Nodup) : ((Loc.root k : Loc κ) :: l.map Loc.link).Nodup :=
  nodup_cons.mpr ⟨root_notMem_links k _, h.map fun _ _ hab => Loc.link.inj hab⟩

theorem Chain.ne_zero (h : Chain m loc l) : ∀ a ∈ l, a ≠ 0 := by
  induction l generalizing loc with
  | nil => nofun
  | cons b bs ih => exact forall_mem_cons.mpr ⟨h.2.1, ih h.2.2⟩

/-- A list depends on the locations it occupies. -/
theorem Chain.congr (h : Chain m loc l) (hsame : ∀ x ∈ loc :: l.map Loc.link, m' x = m x) :
    Chain m' loc l := by
  induction l generalizing loc with
  | nil => exact (hsame loc mem_cons_self).trans h
  | cons a as ih =>
    refine ⟨(hsame loc mem_cons_self).trans h.1, h.2.1, ih h.2.2 fun x hx => ?_⟩
    exact hsame x (mem_cons_of_mem _ hx)

/-- An edit elsewhere. -/
theorem Chain.update [DecidableEq κ] (h : Chain m loc l) {x : Loc κ} (v : Nat)
    (hx : x ∉ loc :: l.map Loc.link) : Chain (update m x v) loc l :=
  h.congr fun y hy => update_of_ne (fun hyx : y = x => hx (hyx ▸ hy)) ..

/-- The cells do not depend on the location behind them. -/
theorem Path.update_end [DecidableEq κ] (h : Path m loc l) (v : Nat)
    (hsimple : (loc :: l.map Loc.link).Nodup) :
    Path (update m (endLoc loc l) v) loc l := by
  induction l generalizing loc with
  | nil => trivial
  | cons a as ih =>
    obtain ⟨hfresh, hrest⟩ := nodup_cons.mp hsimple
    refine ⟨?_, h.2.1, ih h.2.2 hrest⟩
    rw [update_of_ne, h.1]
    intro heq
    exact hfresh (heq ▸ endLoc_mem (Loc.link a) as)

/-- A list moved to another location. -/
theorem Chain.redirect [DecidableEq κ] (h : Chain m loc l) {x : Loc κ} (hx : x ∉ l.map Loc.link) :
    Chain (Function.update m x (m loc)) x l := by
  cases l with
  | nil => exact (update_self ..).trans h
  | cons a as => exact ⟨(update_self ..).trans h.1, h.2.1, h.2.2.update (m loc) hx⟩

/-- A list hung behind another one. -/
theorem Chain.join [DecidableEq κ] {loc' : Loc κ} (h : Chain m loc l) (h' : Chain m loc' r)
    (hsimple : (loc :: l.map Loc.link).Nodup) (hapart : endLoc loc l ∉ r.map Loc.link) :
    Chain (Function.update m (endLoc loc l) (m loc')) loc (l ++ r) := by
  rw [← append_nil l] at h
  exact chain_append.mpr ⟨(chain_append.mp h).1.update_end _ hsimple, h'.redirect hapart⟩

/-- Unlinking a cell. -/
theorem Chain.unlink [DecidableEq κ] (h : Chain m loc (l ++ p :: r))
    (hsimple : (loc :: (l ++ p :: r).map Loc.link).Nodup) :
    Chain (Function.update m (endLoc loc l) (m (.link p))) loc (l ++ r) := by
  obtain ⟨hpath, -, -, hrest⟩ := chain_append.mp h
  rw [map_append, ← cons_append] at hsimple
  obtain ⟨hl, hr, hdisjoint⟩ := nodup_append.mp hsimple
  refine chain_append.mpr ⟨hpath.update_end _ hl, hrest.redirect fun hmem => ?_⟩
  exact hdisjoint _ (endLoc_mem loc l) _ (mem_cons_of_mem _ hmem) rfl

/-- A new cell at the front. -/
theorem Chain.push [DecidableEq κ] (h : Chain m loc l) (hp : p ≠ 0)
    (hfresh : Loc.link p ∉ loc :: l.map Loc.link) (hloc : loc ∉ l.map Loc.link) :
    Chain (Function.update (Function.update m (.link p) (m loc)) loc p) loc (p :: l) := by
  refine ⟨update_self .., hp, ?_⟩
  have hmoved := h.redirect fun hmem => hfresh (mem_cons_of_mem _ hmem)
  refine hmoved.update p ?_
  rintro (_ | ⟨_, hmem⟩)
  · exact hfresh mem_cons_self
  · exact hloc hmem

/-- The first cell taken off. -/
theorem Chain.pop [DecidableEq κ] (h : Chain m loc (p :: l))
    (hsimple : (loc :: (p :: l).map Loc.link).Nodup) :
    Chain (Function.update (Function.update m loc (m (.link p))) (.link p) 0) loc l := by
  obtain ⟨hloc, hrest⟩ := nodup_cons.mp hsimple
  have hshort := Chain.unlink (l := []) h hsimple
  refine hshort.update 0 ?_
  rintro (_ | ⟨_, hmem⟩)
  · exact hloc mem_cons_self
  · exact (nodup_cons.mp hrest).1 hmem

/-! ## Walking -/

/-- The cells met in at most `n` steps. -/
def cells (m : Loc κ → Nat) : Nat → Loc κ → List Nat
  | 0, _ => []
  | n + 1, loc => if m loc = 0 then [] else m loc :: cells m n (.link (m loc))

/-- The location that points to the cell, found in at most `n` steps. -/
def locate (m : Loc κ → Nat) (p : Nat) : Nat → Loc κ → Option (Loc κ)
  | 0, _ => none
  | n + 1, loc =>
      if m loc = 0 then none
      else if m loc = p then some loc
      else locate m p n (.link (m loc))

theorem Chain.cells_eq (h : Chain m loc l) (hn : l.length ≤ n) : cells m n loc = l := by
  induction l generalizing loc n with
  | nil =>
    cases n with
    | zero => rfl
    | succ n => exact if_pos h
  | cons a as ih =>
    obtain ⟨n, rfl⟩ :=
      Nat.exists_eq_succ_of_ne_zero (Nat.ne_of_gt (Nat.lt_of_lt_of_le (Nat.succ_pos _) hn))
    rw [cells, h.1, if_neg h.2.1, ih h.2.2 (Nat.le_of_succ_le_succ hn)]

theorem Chain.locate_none (h : Chain m loc l) (hp : p ∉ l) (n : Nat) : locate m p n loc = none := by
  induction l generalizing loc n with
  | nil =>
    cases n with
    | zero => rfl
    | succ n => exact if_pos h
  | cons a as ih =>
    cases n with
    | zero => rfl
    | succ n =>
      obtain ⟨hne, has⟩ := not_or.mp (mt mem_cons.mpr hp)
      rw [locate, h.1, if_neg h.2.1, if_neg (Ne.symm hne), ih h.2.2 has]

theorem Chain.locate_some (h : Chain m loc (l ++ p :: r)) (hp : p ∉ l)
    (hn : l.length < n) : locate m p n loc = some (endLoc loc l) := by
  induction l generalizing loc n with
  | nil =>
    obtain ⟨n, rfl⟩ := Nat.exists_eq_succ_of_ne_zero (Nat.ne_of_gt hn)
    rw [locate, h.1, if_neg h.2.1, if_pos rfl]
    rfl
  | cons a as ih =>
    obtain ⟨n, rfl⟩ :=
      Nat.exists_eq_succ_of_ne_zero (Nat.ne_of_gt (Nat.lt_of_le_of_lt (Nat.zero_le _) hn))
    obtain ⟨hne, has⟩ := not_or.mp (mt mem_cons.mpr hp)
    rw [locate, h.1, if_neg h.2.1, if_neg (Ne.symm hne), ih h.2.2 has (Nat.lt_of_succ_lt_succ hn)]
    rfl

end

/-! ## A family of lists -/

/-- One list for each root, no cell on two of them. -/
structure Chains (m : Loc κ → Nat) (K : κ → List Nat) : Prop where
  chain : ∀ k, Chain m (.root k) (K k)
  nodup : ∀ k, (K k).Nodup
  unique : ∀ k k' c, c ∈ K k → c ∈ K k' → k = k'

namespace Chains

variable {m m' : Loc κ → Nat} {K : κ → List Nat} {c : Nat}

theorem simple (h : Chains m K) (k : κ) : ((Loc.root k : Loc κ) :: (K k).map Loc.link).Nodup :=
  simple_of_nodup k (h.nodup k)

/-- A location of one list is not one of another. -/
theorem disjoint (h : Chains m K) {k' : κ} (hkk : k ≠ k') {x : Loc κ}
    (hx : x ∈ (Loc.root k : Loc κ) :: (K k).map Loc.link) :
    x ∉ (Loc.root k' : Loc κ) :: (K k').map Loc.link := by
  intro hx'
  rcases mem_cons.mp hx with rfl | hx
  · rcases mem_cons.mp hx' with hx' | hx'
    · exact hkk (Loc.root.inj hx')
    · exact root_notMem_links k _ hx'
  · obtain ⟨c, hc, rfl⟩ := mem_map.mp hx
    rcases mem_cons.mp hx' with hx' | hx'
    · cases hx'
    · exact hkk (h.unique _ _ _ hc (link_mem.mp hx'))

/-- A cell on no list has its link to itself. -/
theorem link_notMem (hc : ∀ k, c ∉ K k) (k : κ) :
    Loc.link c ∉ (Loc.root k : Loc κ) :: (K k).map Loc.link := by
  rintro (_ | ⟨_, hmem⟩)
  exact hc k (link_mem.mp hmem)

variable [DecidableEq κ]

section

variable (h : Chains m K)
include h

/-- An edit of the locations of one list. -/
theorem edit (k : κ) (hchain : Chain m' (.root k) l) (hnodup : l.Nodup)
    (hapart : ∀ c ∈ l, ∀ k', k' ≠ k → c ∉ K k')
    (hother : ∀ k', k' ≠ k → ∀ x ∈ (Loc.root k' : Loc κ) :: (K k').map Loc.link, m' x = m x) :
    Chains m' (update K k l) := by
  have hself : update K k l k = l := update_self ..
  have hne : ∀ {k'}, k' ≠ k → update K k l k' = K k' := fun hk => update_of_ne hk ..
  refine ⟨fun k' => ?_, fun k' => ?_, fun k₁ k₂ c h₁ h₂ => ?_⟩
  · rcases eq_or_ne k' k with rfl | hk
    · rw [hself]
      exact hchain
    · rw [hne hk]
      exact (h.chain k').congr (hother k' hk)
  · rcases eq_or_ne k' k with rfl | hk
    · rw [hself]
      exact hnodup
    · rw [hne hk]
      exact h.nodup k'
  rcases eq_or_ne k₁ k with rfl | hk₁ <;> rcases eq_or_ne k₂ k₁ with rfl | hk₂
  · rfl
  · rw [hself] at h₁
    rw [hne hk₂] at h₂
    exact absurd h₂ (hapart c h₁ k₂ hk₂)
  · rfl
  · rw [hne hk₁] at h₁
    rcases eq_or_ne k₂ k with rfl | hk
    · rw [hself] at h₂
      exact absurd h₁ (hapart c h₂ k₁ hk₁)
    · rw [hne hk] at h₂
      exact h.unique _ _ _ h₁ h₂

/-- The link of a cell on no list. -/
theorem update_link (hc : ∀ k, c ∉ K k) (v : Nat) : Chains (update m (.link c) v) K :=
  ⟨fun k => (h.chain k).update v (link_notMem hc k), h.nodup, h.unique⟩

theorem push (hzero : c ≠ 0) (hc : ∀ k, c ∉ K k) (k : κ) :
    Chains (update (update m (.link c) (m (.root k))) (.root k) c) (update K k (c :: K k)) := by
  refine h.edit k ((h.chain k).push hzero (link_notMem hc k) (root_notMem_links k _))
    (nodup_cons.mpr ⟨hc k, h.nodup k⟩) (fun a ha k' hk => ?_) fun k' hk x hx => ?_
  · rcases mem_cons.mp ha with rfl | ha
    · exact hc k'
    · exact fun ha' => hk (h.unique _ _ _ ha' ha)
  · rw [update_of_ne, update_of_ne]
    · rintro rfl
      exact link_notMem hc k' hx
    · rintro rfl
      exact h.disjoint hk hx mem_cons_self

theorem unlink {r : List Nat} (hsplit : K k = l ++ c :: r) :
    Chains (update m (endLoc (.root k) l) (m (.link c))) (update K k (l ++ r)) := by
  have hchain := h.chain k
  have hsimple := h.simple k
  have hsub : ∀ a ∈ l ++ r, a ∈ K k := by
    intro a ha
    rw [hsplit]
    rcases mem_append.mp ha with ha | ha
    · exact mem_append_left _ ha
    · exact mem_append_right _ (mem_cons_of_mem _ ha)
  have hend : endLoc (Loc.root k : Loc κ) l ∈ (Loc.root k : Loc κ) :: (K k).map Loc.link := by
    rw [hsplit, map_append]
    exact mem_append_left _ (endLoc_mem _ l)
  rw [hsplit] at hchain hsimple
  refine h.edit k (hchain.unlink hsimple) ?_ (fun a ha k' hk ha' => ?_) fun k' hk x hx => ?_
  · have hnodup := h.nodup k
    rw [hsplit] at hnodup
    exact (nodup_cons.mp (nodup_middle.mp hnodup)).2
  · exact hk (h.unique _ _ _ ha' (hsub a ha))
  · refine update_of_ne ?_ ..
    rintro rfl
    exact h.disjoint hk hx hend

/-- A list dropped. -/
theorem drop (k : κ) : Chains (update m (.root k) 0) (update K k []) := by
  refine h.edit k (update_self ..) nodup_nil nofun fun k' hk x hx => update_of_ne ?_ ..
  rintro rfl
  exact h.disjoint hk hx mem_cons_self

/-- One list put in front of another. -/
theorem splice {i : κ} (hki : k ≠ i) {last : Nat} (hlast : K k = l ++ [last]) :
    Chains (update (update (update m (.link last) (m (.root i)))
        (.root i) (m (.root k))) (.root k) 0)
      (update (update K i (K k ++ K i)) k []) := by
  have hmem : last ∈ K k := hlast ▸ mem_append_right l mem_cons_self
  have hend : endLoc (Loc.root k : Loc κ) (K k) = .link last := by
    rw [hlast, endLoc_append]
    rfl
  have hlink : Loc.link last ∈ (Loc.root k : Loc κ) :: (K k).map Loc.link :=
    mem_cons_of_mem _ (link_mem.mpr hmem)
  -- the two lists become one under the first root, then under the second
  have hjoin : Chain (update m (.link last) (m (.root i))) (.root k) (K k ++ K i) := by
    rw [← hend]
    refine (h.chain k).join (h.chain i) (h.simple k) ?_
    rw [hend]
    exact fun hin => h.disjoint hki hlink (mem_cons_of_mem _ hin)
  have hnodup : (K k ++ K i).Nodup :=
    List.Nodup.append (h.nodup k) (h.nodup i) fun a hk hi => hki (h.unique _ _ _ hk hi)
  have hmoved := hjoin.redirect (root_notMem_links i (K k ++ K i))
  have hfinal := hmoved.update (x := .root k) 0 (by
    rintro (_ | ⟨_, hin⟩)
    · exact hki rfl
    · exact root_notMem_links k _ hin)
  refine ⟨fun k' => ?_, fun k' => ?_, fun k₁ k₂ c h₁ h₂ => ?_⟩
  · rcases eq_or_ne k' k with rfl | hk
    · rw [update_self]
      exact update_self ..
    rw [update_of_ne hk]
    rcases eq_or_ne k' i with rfl | hi
    · rw [update_self]
      exact hfinal
    rw [update_of_ne hi]
    refine (h.chain k').congr fun x hx => ?_
    rw [update_of_ne, update_of_ne, update_of_ne]
    · rintro rfl
      exact h.disjoint hk hx hlink
    · rintro rfl
      exact h.disjoint hi hx mem_cons_self
    · rintro rfl
      exact h.disjoint hk hx mem_cons_self
  · rcases eq_or_ne k' k with rfl | hk
    · rw [update_self]
      exact nodup_nil
    rw [update_of_ne hk]
    rcases eq_or_ne k' i with rfl | hi
    · rw [update_self]
      exact hnodup
    · rw [update_of_ne hi]
      exact h.nodup k'
  · have howner : ∀ {k'}, c ∈ update (update K i (K k ++ K i)) k [] k' →
        k' ≠ k ∧ ((k' = i ∧ (c ∈ K k ∨ c ∈ K i)) ∨ (k' ≠ i ∧ c ∈ K k')) := by
      intro k' hc
      rcases eq_or_ne k' k with rfl | hk
      · rw [update_self] at hc
        cases hc
      rw [update_of_ne hk] at hc
      refine ⟨hk, ?_⟩
      rcases eq_or_ne k' i with rfl | hi
      · rw [update_self] at hc
        exact .inl ⟨rfl, mem_append.mp hc⟩
      · rw [update_of_ne hi] at hc
        exact .inr ⟨hi, hc⟩
    obtain ⟨hk₁, h₁ | h₁⟩ := howner h₁ <;> obtain ⟨hk₂, h₂ | h₂⟩ := howner h₂
    · exact h₁.1.trans h₂.1.symm
    · rcases h₁.2 with h' | h'
      · exact absurd (h.unique _ _ _ h₂.2 h') hk₂
      · exact absurd (h.unique _ _ _ h₂.2 h') h₂.1
    · rcases h₂.2 with h' | h'
      · exact absurd (h.unique _ _ _ h₁.2 h') hk₁
      · exact absurd (h.unique _ _ _ h₁.2 h') h₁.1
    · exact h.unique _ _ _ h₁.2 h₂.2

end

end Chains

end ArcKernel.Foundation
