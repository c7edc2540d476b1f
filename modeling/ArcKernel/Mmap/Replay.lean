import Mathlib.Data.BitVec
import ArcKernel.Foundation.Slots
import ArcKernel.Mmap.Regions

/-!
# What the region table maps

The used slots of the table, read as extents, hold a map from addresses to their backing.
A region of a file carries the file and the offset its address zero would have, so that no
cut changes the value of what it leaves.  With this reading a cut of one slot is a carve of
its extent, the walk over the table carves the whole collection, and the two calls do what
the abstract map does, as long as the table has room for the pieces and `sys_munmap` does
not cut the front off a file.
-/

namespace ArcKernel.Mmap

open ArcKernel.Foundation List Option MmapRegion

variable {r : MmapRegion}

/-- A file and a 64-bit offset, or anonymous memory. -/
abbrev Backing := Option (Nat × BitVec 64)

/-- The file offset of the region's address zero. -/
def MmapRegion.base (r : MmapRegion) : Backing :=
  r.vnode.map fun v => (v, r.offset - BitVec.ofNat 64 r.start)

def MmapRegion.extent (r : MmapRegion) : Option (Extent Backing) :=
  if r.used then some ⟨r.start, r.stop, r.base⟩ else none

def MmapState.extents (s : MmapState) : List (Extent Backing) := s.regions.filterMap extent

section

variable (s : MmapState) (v : Option Nat)

@[simp] theorem regions_vnodeRef : (s.vnodeRef v).regions = s.regions := by cases v <;> rfl

@[simp] theorem regions_vnodePut : (s.vnodePut v).regions = s.regions := by cases v <;> rfl

@[simp] theorem cursor_vnodeRef : (s.vnodeRef v).cursor = s.cursor := by cases v <;> rfl

@[simp] theorem cursor_vnodePut : (s.vnodePut v).cursor = s.cursor := by cases v <;> rfl

@[simp] theorem released_vnodeRef : (s.vnodeRef v).released = s.released := by cases v <;> rfl

end

section

variable (s : MmapState)

@[simp] theorem released_vnodePut (v : Option Nat) :
    (s.vnodePut v).released = s.released := by cases v <;> rfl

@[simp] theorem regions_setRegion (i : Nat) (r : MmapRegion) :
    (s.setRegion i r).regions = s.regions.set i r := rfl

@[simp] theorem cursor_setRegion (i : Nat) (r : MmapRegion) :
    (s.setRegion i r).cursor = s.cursor := rfl

@[simp] theorem regions_freeUserPages (lo hi : Nat) :
    (s.freeUserPages lo hi).regions = s.regions := rfl

@[simp] theorem cursor_freeUserPages (lo hi : Nat) :
    (s.freeUserPages lo hi).cursor = s.cursor := rfl

end

theorem extent_used (h : r.used = true) : r.extent = some ⟨r.start, r.stop, r.base⟩ := if_pos h

theorem extent_unused (h : r.used = false) : r.extent = none := if_neg (Bool.eq_false_iff.mp h)

/-- Moving the start and the offset together keeps the base. -/
theorem offset_shift (x : BitVec 64) {a b : Nat} (h : a ≤ b) :
    x + BitVec.ofNat 64 (b - a) - BitVec.ofNat 64 b = x - BitVec.ofNat 64 a := by
  obtain ⟨c, rfl⟩ := Nat.exists_eq_add_of_le h
  rw [Nat.add_sub_cancel_left, BitVec.ofNat_add]
  ring

theorem not_overlaps {lo hi : Nat} :
    ¬ r.Overlaps lo hi ↔ ∀ e, r.extent = some e → e.hi ≤ lo ∨ hi ≤ e.lo := by
  rw [MmapRegion.Overlaps, extent]
  cases r.used with
  | false => simp
  | true => simp only [if_true, true_and, not_not, some.injEq, forall_eq']

/-! ## One cut -/

/-- What a cut of slot `i`, which holds `r`, does to the table. -/
structure Cuts (lo hi : Nat) (s : MmapState) (i : Nat) (r : MmapRegion) (t : MmapState) : Prop where
  length : t.regions.length = s.regions.length
  cursor : t.cursor = s.cursor
  extents : t.extents.Perm
    (r.extent.toList.flatMap (carve lo hi) ++ (s.regions.eraseIdx i).filterMap extent)
  slot : ∀ j q, t.regions[j]? = some q → ¬ q.Overlaps lo hi ∨ j ≠ i ∧ s.regions[j]? = some q

section

variable {lo hi i : Nat} {s t : MmapState}

/-- At most one piece is left, and it stays in the slot. -/
theorem Cuts.of_set (hslot : s.regions[i]? = some r) (q : MmapRegion)
    (ht : t.regions = s.regions.set i q) (hcursor : t.cursor = s.cursor)
    (hq : q.extent.toList = r.extent.toList.flatMap (carve lo hi)) : Cuts lo hi s i r t := by
  obtain ⟨hi', -⟩ := List.getElem?_eq_some_iff.mp hslot
  refine ⟨by rw [ht, length_set], hcursor, ?_, fun j p hp => ?_⟩
  · rw [MmapState.extents, ht, ← hq]
    exact filterMap_set_perm _ hi' q
  rw [ht, List.getElem?_set] at hp
  split at hp
  · left
    cases hp
    refine not_overlaps.mpr fun e he => ?_
    have hmem : e ∈ r.extent.toList.flatMap (carve lo hi) := by
      rw [← hq, he]
      exact mem_singleton_self e
    obtain ⟨f, -, hf⟩ := mem_flatMap.mp hmem
    exact (carve_inside hf).2.2.2
  · rename_i hne
    exact .inr ⟨fun h => hne h.symm, hp⟩

/-- Two pieces are left: the front stays, the tail goes to a free slot. -/
theorem Cuts.of_split (hslot : s.regions[i]? = some r) (hover : r.Overlaps lo hi)
    {j : Nat} (hj : regionSlotAlloc s = some j) (front tail : MmapRegion)
    (ht : t.regions = (s.regions.set j tail).set i front) (hcursor : t.cursor = s.cursor)
    (hpieces : front.extent.toList ++ tail.extent.toList = r.extent.toList.flatMap (carve lo hi)) :
    Cuts lo hi s i r t := by
  obtain ⟨hi', hri⟩ := List.getElem?_eq_some_iff.mp hslot
  obtain ⟨hj', hfree, -⟩ := List.findIdx?_eq_some_iff_getElem.mp hj
  have hunused : (s.regions.get ⟨j, hj'⟩).used = false := by simpa using hfree
  have hne : j ≠ i := by
    rintro rfl
    have : r.used = false := hri ▸ hunused
    exact Bool.false_ne_true (this.symm.trans hover.1)
  have hbeside : ∀ q, q = front ∨ q = tail → ¬ q.Overlaps lo hi := by
    intro q hq
    refine not_overlaps.mpr fun e he => ?_
    have hmem : e ∈ front.extent.toList ++ tail.extent.toList := by
      rcases hq with rfl | rfl
      · exact mem_append_left _ (he ▸ mem_singleton_self e)
      · exact mem_append_right _ (he ▸ mem_singleton_self e)
    obtain ⟨f, -, hf⟩ := mem_flatMap.mp (hpieces ▸ hmem)
    exact (carve_inside hf).2.2.2
  refine ⟨by rw [ht, length_set, length_set], hcursor, ?_, fun k q hq => ?_⟩
  · rw [MmapState.extents, ht, ← hpieces, append_assoc]
    refine (filterMap_set_perm _ (by rwa [length_set]) front).trans (List.Perm.append_left _ ?_)
    exact filterMap_eraseIdx_set_perm _ hi' hj' hne (extent_unused hunused) tail
  · rw [ht, List.getElem?_set, length_set, List.getElem?_set] at hq
    split at hq
    · exact .inl (hbeside q (.inl (some.inj hq).symm))
    · rename_i hik
      split at hq
      · exact .inl (hbeside q (.inr (some.inj hq).symm))
      · exact .inr ⟨fun h => hik h.symm, hq⟩

/-- The pieces of a region that meets the range. -/
theorem carve_extent (hover : r.Overlaps lo hi) : r.extent.toList.flatMap (carve lo hi) =
      (if r.start < lo then [⟨r.start, lo, r.base⟩] else []) ++
        (if hi < r.stop then [⟨hi, r.stop, r.base⟩] else []) := by
  rw [extent_used hover.1]
  simp only [toList_some, flatMap_singleton]
  rw [carve, if_neg hover.2]

theorem front_extent (hused : r.used = true) (hlo : r.start ≤ lo) :
    ({ r with len := lo - r.start } : MmapRegion).extent = some ⟨r.start, lo, r.base⟩ := by
  rw [extent, if_pos hused]
  simp only [stop, base, Nat.add_sub_cancel' hlo]

theorem tail_extent (hused : r.used = true) (hstart : r.start ≤ hi) (hstop : hi ≤ r.stop) :
    ({ r with start := hi, len := r.stop - hi,
              offset := r.offset + BitVec.ofNat 64 (hi - r.start) } : MmapRegion).extent =
      some ⟨hi, r.stop, r.base⟩ := by
  rw [extent, if_pos hused]
  simp only [stop, base, offset_shift _ hstart] at hstop ⊢
  rw [Nat.add_sub_cancel' hstop]

section

variable (hslot : s.regions[i]? = some r) (hover : r.Overlaps lo hi)
include hslot hover

theorem regionSlotFree_cuts (hlo : lo ≤ r.start) (hhi : r.stop ≤ hi) (ht : t.regions = s.regions)
    (hc : t.cursor = s.cursor) : Cuts lo hi s i r (regionSlotFree t i r) := by
  refine Cuts.of_set hslot { r with vnode := none, used := false } ?_ ?_ ?_
  · rw [regionSlotFree, regions_setRegion, regions_vnodePut, ht]
  · rw [regionSlotFree, cursor_setRegion, cursor_vnodePut, hc]
  · rw [carve_extent hover, if_neg (by omega), if_neg (by omega)]
    rfl

/-- The cut of a replacing mapping. -/
theorem mmapCut_cuts (hroom : r.start < lo → hi < r.stop → regionSlotAlloc s ≠ none) :
    Cuts lo hi s i r (mmapCut lo hi s i r) := by
  have hused := hover.1
  have hmeets := hover.2
  unfold mmapCut
  dsimp only
  split
  · exact regionSlotFree_cuts hslot hover (by omega) (by omega) rfl rfl
  split
  · have hlo : lo ≤ r.start := by omega
    have hhi : hi < r.stop := by omega
    rw [max_eq_right hlo, min_eq_left hhi.le]
    refine Cuts.of_set hslot _ rfl rfl ?_
    rw [carve_extent hover, if_neg (by omega), if_pos hhi, tail_extent hused (by omega) hhi.le]
    rfl
  split
  · have hlo : r.start < lo := by omega
    rw [max_eq_left hlo.le]
    refine Cuts.of_set hslot _ rfl rfl ?_
    rw [carve_extent hover, if_pos hlo, if_neg (by omega), front_extent hused hlo.le]
    rfl
  have hlo : r.start < lo := by omega
  have hhi : hi < r.stop := by omega
  rw [max_eq_left hlo.le, min_eq_left hhi.le]
  obtain ⟨j, hj⟩ := ne_none_iff_exists'.mp (hroom hlo hhi)
  have hj' : regionSlotAlloc (s.freeUserPages lo hi) = some j := hj
  rw [hj']
  refine Cuts.of_split hslot hover hj { r with len := lo - r.start }
    { r with start := hi, len := r.stop - hi,
             offset := r.offset + BitVec.ofNat 64 (hi - r.start), used := true } ?_ ?_ ?_
  · simp only [regions_setRegion, regions_vnodeRef, regions_freeUserPages]
  · simp only [cursor_setRegion, cursor_vnodeRef, cursor_freeUserPages]
  · rw [carve_extent hover, if_pos hlo, if_pos hhi, front_extent hused hlo.le, ← hused,
      tail_extent hused (by omega) hhi.le]
    rfl

omit hslot hover in
/-- The two cuts differ at the front of a region, and when there is no slot left. -/
theorem munmapCut_eq (hfront : ¬ (lo ≤ r.start ∧ hi < r.stop))
    (hroom : r.start < lo → hi < r.stop → regionSlotAlloc s ≠ none) :
    munmapCut lo hi s i r = mmapCut lo hi s i r := by
  unfold munmapCut mmapCut
  dsimp only
  split
  · rfl
  split
  · omega
  split
  · rfl
  · obtain ⟨j, hj⟩ := ne_none_iff_exists'.mp (hroom (by omega) (by omega))
    have hj' : regionSlotAlloc (s.freeUserPages (max lo r.start) (min hi r.stop)) = some j := hj
    rw [regionAdd, hj']
    rfl

/-- The cut of `sys_munmap`, when it leaves no file cut at its front. -/
theorem munmapCut_cuts (hfront : lo ≤ r.start → hi < r.stop → r.vnode = none)
    (hroom : r.start < lo → hi < r.stop → regionSlotAlloc s ≠ none) :
    Cuts lo hi s i r (munmapCut lo hi s i r) := by
  by_cases hcut : lo ≤ r.start ∧ hi < r.stop
  · obtain ⟨hlo, hhi⟩ := hcut
    have hmeets := hover.2
    unfold munmapCut
    dsimp only
    rw [max_eq_right hlo, min_eq_left hhi.le, if_neg (by omega), if_pos rfl]
    refine Cuts.of_set hslot _ rfl rfl ?_
    rw [carve_extent hover, if_neg (by omega), if_pos hhi, extent, if_pos hover.1]
    simp only [stop, base, hfront hlo hhi, map_none] at hhi ⊢
    rw [Nat.add_sub_cancel' hhi.le]
    rfl
  · rw [munmapCut_eq hcut hroom]
    exact mmapCut_cuts hslot hover hroom

end

end

/-! ## The walk over the table -/

/-- The walk so far, with `rest` the slots still to visit: the extents carve to what the old
ones carve to, and only regions not yet visited still meet the range. -/
structure Walked (lo hi : Nat) (s t : MmapState) (rest : List Nat) : Prop where
  length : t.regions.length = s.regions.length
  cursor : t.cursor = s.cursor
  apart : t.extents.Pairwise Extent.Apart
  carved : (t.extents.flatMap (carve lo hi)).Perm (s.extents.flatMap (carve lo hi))
  slot : ∀ j q, t.regions[j]? = some q → ¬ q.Overlaps lo hi ∨ j ∈ rest ∧ s.regions[j]? = some q

section

variable {lo hi i : Nat} {s t : MmapState} {rest : List Nat}

theorem extents_slot (hslot : s.regions[i]? = some r) :
    s.extents.Perm (r.extent.toList ++ (s.regions.eraseIdx i).filterMap extent) := by
  obtain ⟨hi', rfl⟩ := List.getElem?_eq_some_iff.mp hslot
  exact filterMap_slot_perm _ hi'

/-- A table without a free slot has as many extents as slots. -/
theorem extents_full (hfull : regionSlotAlloc s = none) : s.extents.length = s.regions.length := by
  rw [MmapState.extents, length_filterMap_eq_countP, countP_eq_length]
  intro r hr
  have hused := List.findIdx?_eq_none_iff.mp hfull r hr
  rw [extent_used (by simpa using hused)]
  rfl

/-- A region that strictly contains the range is the only one to meet it, so a table that
can hold all pieces has a slot for its tail. -/
theorem room_of_fits (hapart : s.extents.Pairwise Extent.Apart) (hslot : s.regions[i]? = some r)
    (hused : r.used = true) (hlt : lo < hi)
    (hfits : (s.extents.flatMap (carve lo hi)).length ≤ s.regions.length)
    (hlo : r.start < lo) (hhi : hi < r.stop) : regionSlotAlloc s ≠ none := by
  intro hfull
  have hperm := extents_slot hslot
  rw [extent_used hused] at hperm
  have hpair := hapart.perm hperm Extent.Apart.symm
  have hothers : ((s.regions.eraseIdx i).filterMap extent).flatMap (carve lo hi) =
      (s.regions.eraseIdx i).filterMap extent := by
    refine flatMap_carve_beside fun e he => ?_
    have hsep := (pairwise_cons.mp hpair).1 e he
    unfold Extent.Apart at hsep
    dsimp only at hsep
    omega
  have hcount : (s.extents.flatMap (carve lo hi)).length = s.extents.length + 1 := by
    rw [(hperm.flatMap_right _).length_eq, hperm.length_eq, toList_some,
      singleton_append, flatMap_cons, hothers, carve, if_neg (by dsimp only; omega),
      if_pos hlo, if_pos hhi]
    simp
  rw [hcount, extents_full hfull] at hfits
  omega

/-- One cut keeps the reading of the walk. -/
theorem Walked.cut {u : MmapState} (h : Walked lo hi s t (i :: rest)) (hlt : lo < hi)
    (hslot : t.regions[i]? = some r) (hcut : Cuts lo hi t i r u) : Walked lo hi s u rest := by
  have hold := extents_slot hslot
  refine ⟨hcut.length.trans h.length, hcut.cursor.trans h.cursor, ?_, ?_, fun j q hq => ?_⟩
  · refine List.Pairwise.perm ?_ hcut.extents.symm Extent.Apart.symm
    have hpair := h.apart.perm hold Extent.Apart.symm
    obtain ⟨hone, hothers, hcross⟩ := pairwise_append.mp hpair
    refine pairwise_append.mpr ⟨pairwise_flatMap_carve hlt hone, hothers, ?_⟩
    intro x hx y hy
    obtain ⟨e, he, hxe⟩ := mem_flatMap.mp hx
    obtain ⟨h₁, h₂, -, -⟩ := carve_inside hxe
    rcases hcross e he y hy with hsep | hsep
    · exact .inl (by omega)
    · exact .inr (by omega)
  · refine List.Perm.trans ?_ h.carved
    refine (hcut.extents.flatMap_right _).trans (List.Perm.trans ?_ (hold.flatMap_right _).symm)
    rw [flatMap_append, flatMap_append, flatMap_assoc]
    simp only [flatMap_carve_carve]
    exact List.Perm.refl _
  · rcases hcut.slot j q hq with hout | ⟨hne, hq'⟩
    · exact .inl hout
    · refine (h.slot j q hq').imp_right fun ⟨hmem, hs⟩ => ⟨?_, hs⟩
      exact (mem_cons.mp hmem).resolve_left hne

/-- A slot that does not meet the range is passed over. -/
theorem Walked.skip (h : Walked lo hi s t (i :: rest))
    (hout : ∀ q, t.regions[i]? = some q → ¬ q.Overlaps lo hi) : Walked lo hi s t rest := by
  refine { h with slot := fun j q hq => ?_ }
  rcases h.slot j q hq with hq' | ⟨hmem, hs⟩
  · exact .inl hq'
  · rcases mem_cons.mp hmem with rfl | hmem
    · exact .inl (hout q hq)
    · exact .inr ⟨hmem, hs⟩

variable {cut : MmapState → Nat → MmapRegion → MmapState}

/-- The whole walk, for a cut that carves each region of the old table. -/
theorem cutLoop_walked (hlt : lo < hi)
    (hfits : (s.extents.flatMap (carve lo hi)).length ≤ s.regions.length)
    (hcut : ∀ t i r, s.regions[i]? = some r → t.regions[i]? = some r → r.Overlaps lo hi →
      (r.start < lo → hi < r.stop → regionSlotAlloc t ≠ none) → Cuts lo hi t i r (cut t i r)) :
    ∀ rest t, Walked lo hi s t rest → Walked lo hi s (cutLoop cut lo hi rest t) [] := by
  intro rest
  induction rest with
  | nil => exact fun t h => h
  | cons i rest ih =>
    intro t h
    rw [cutLoop]
    split
    · rename_i hnone
      exact ih t (h.skip fun q hq => nomatch hnone.symm.trans hq)
    rename_i r hslot
    by_cases hover : r.Overlaps lo hi
    · rw [if_pos hover]
      obtain ⟨-, hs⟩ := (h.slot i r hslot).resolve_left (not_not.mpr hover)
      refine ih _ (h.cut hlt hslot (hcut t i r hs hslot hover fun hlo hhi => ?_))
      refine room_of_fits h.apart hslot hover.1 hlt ?_ hlo hhi
      rw [h.carved.length_eq, h.length]
      exact hfits
    · rw [if_neg hover]
      exact ih t (h.skip fun q hq => some.inj (hslot.symm.trans hq) ▸ hover)

/-- The table after the walk holds what the old one carves to. -/
theorem cutLoop_extents (s : MmapState) (cut : MmapState → Nat → MmapRegion → MmapState)
    (hlt : lo < hi) (hapart : s.extents.Pairwise Extent.Apart)
    (hlen : s.regions.length = maxRegions)
    (hfits : (s.extents.flatMap (carve lo hi)).length ≤ s.regions.length)
    (hcut : ∀ t i r, s.regions[i]? = some r → t.regions[i]? = some r → r.Overlaps lo hi →
      (r.start < lo → hi < r.stop → regionSlotAlloc t ≠ none) → Cuts lo hi t i r (cut t i r)) :
    ∃ t, cutLoop cut lo hi (List.range maxRegions) s = t ∧
      t.regions.length = s.regions.length ∧ t.cursor = s.cursor ∧
      t.extents.Perm (s.extents.flatMap (carve lo hi)) := by
  have hstart : Walked lo hi s s (List.range maxRegions) := by
    refine ⟨rfl, rfl, hapart, List.Perm.refl _, fun j q hq => .inr ⟨?_, hq⟩⟩
    obtain ⟨hj, -⟩ := List.getElem?_eq_some_iff.mp hq
    exact mem_range.mpr (hlen ▸ hj)
  have h := cutLoop_walked hlt hfits hcut _ s hstart
  refine ⟨_, rfl, h.length, h.cursor, List.Perm.trans (.of_eq ?_) h.carved⟩
  refine (flatMap_carve_beside fun e he => ?_).symm
  obtain ⟨q, hq, hqe⟩ := mem_filterMap.mp he
  obtain ⟨j, hj⟩ := mem_iff_getElem?.mp hq
  have hout := (h.slot j q hj).resolve_right fun hmem => not_mem_nil hmem.1
  exact not_overlaps.mp hout e hqe

/-- A walk that meets no region changes nothing. -/
theorem cutLoop_beside (hout : ∀ r ∈ s.regions, ¬ r.Overlaps lo hi) (rest : List Nat) :
    cutLoop cut lo hi rest s = s := by
  induction rest with
  | nil => rfl
  | cons i rest ih =>
    rw [cutLoop]
    split
    · exact ih
    · rename_i r hslot
      rw [if_neg (hout r (mem_of_getElem? hslot))]
      exact ih

end

end ArcKernel.Mmap
