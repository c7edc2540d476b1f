import Mathlib.Data.UInt
import ArcKernel.Vm.Shadow

/-!
# The page cache of a shared object (`mk/vm/vm_object.c`)

Faults at any offsets on one new shared object, and its release at the end.  The
cache is an array that grows by doubling; an index it does not reach reads as 0, so
growing it changes no cell.

The capacity is a `uint32_t`: from an index of 2 ^ 31 on, the loop that doubles it
passes through 0 and never ends.
-/

namespace ArcKernel.Vm

open ArcKernel.Foundation Function List

variable {s t : FaultSys} {m : FaultMem} {o index : Nat} {size : UInt64} {pages : List Nat}

/-- One fault on the object at `o`: the offset, and what the allocators answer. -/
def sharedStep (o : Nat) (s : FaultSys) (call : UInt64 × FaultMem) : Option FaultSys :=
  (vmObjectFault 1 s o call.1 fun _ => call.2).map (·.2)

/-- The page allocator hands out no page that is in use. -/
def PageFresh (s : FaultSys) (call : UInt64 × FaultMem) : Prop :=
  ∀ p ∈ call.2.page, p ≠ 0 ∧ p ∉ s.taken

instance : ∀ s call, Decidable (PageFresh s call) :=
  fun s call => inferInstanceAs (Decidable (∀ p ∈ call.2.page, p ≠ 0 ∧ p ∉ s.taken))

/-! ## Cells of the cache -/

theorem getD_grown (n i : Nat) : (pages ++ replicate n 0).getD i 0 = pages.getD i 0 := by
  simp only [getD_eq_getElem?_getD, getElem?_append, getElem?_replicate]
  split
  · rfl
  · rw [getElem?_eq_none (by omega)]
    split <;> rfl

theorem getD_set (hlt : index < pages.length) (p i : Nat) :
    (pages.set index p).getD i 0 = if i = index then p else pages.getD i 0 := by
  simp only [getD_eq_getElem?_getD, getElem?_set]
  by_cases hi : i = index
  · simp [hi, hlt]
  · simp [hi, Ne.symm hi]

/-- The state of the object whose cache is `pages`.

* `logged`: the page of every successful fault is in the cell of its index.
* `apart`: no page is in two cells.
* `taken`: the pages of the cache are in use. -/
structure CacheOf (s : FaultSys) (o : Nat) (size : UInt64) (pages : List Nat) : Prop where
  object : s.mem.objects o = some ⟨1, size, .shared pages⟩
  logged : ∀ r ∈ s.log, r.page ≠ 0 ∧ pages.getD r.index 0 = r.page
  apart : ∀ i j, pages.getD i 0 ≠ 0 → pages.getD i 0 = pages.getD j 0 → i = j
  taken : ∀ i, pages.getD i 0 ≠ 0 → pages.getD i 0 ∈ s.taken

section

variable (h : CacheOf s o size pages)
include h

theorem CacheOf.grow (obj : VmObject) (hobj : obj.refCount = 1) (hsize : obj.size = size)
    (n : Nat) :
    CacheOf (s.setKind o obj (.shared (pages ++ replicate n 0))) o size
      (pages ++ replicate n 0) := by
  subst hsize
  refine ⟨by simp [FaultSys.setKind, ObjMem.setObject, hobj], ?_, ?_, ?_⟩
  all_goals simp only [getD_grown]
  exacts [h.logged, h.apart, h.taken]

/-- The page of a cell is recorded as returned. -/
theorem CacheOf.record (hne : pages.getD index 0 ≠ 0) :
    CacheOf (s.record ⟨o, index, pages.getD index 0, false⟩) o size pages := by
  refine { h with logged := fun r hr => ?_ }
  rcases mem_append.mp hr with hr | hr
  · exact h.logged r hr
  · obtain rfl := mem_singleton.mp hr
    exact ⟨hne, rfl⟩

/-- A page nobody uses goes into an empty cell. -/
theorem CacheOf.fill (hlt : index < pages.length) (hempty : pages.getD index 0 = 0) {p : Nat}
    (hp : p ≠ 0 ∧ p ∉ s.taken) :
    CacheOf (FaultSys.setKind { s with taken := p :: s.taken } o ⟨1, size, .shared pages⟩
      (.shared (pages.set index p))) o size (pages.set index p) := by
  have hother : ∀ i, pages.getD i 0 ≠ 0 → pages.getD i 0 ≠ p :=
    fun i hi hip => hp.2 (hip ▸ h.taken i hi)
  refine ⟨by simp [FaultSys.setKind, ObjMem.setObject], fun r hr => ?_, ?_, fun i => ?_⟩
  · obtain ⟨hne, hcell⟩ := h.logged r hr
    have hri : r.index ≠ index := fun hri => hne (by rw [← hcell, hri, hempty])
    rw [getD_set hlt, if_neg hri]
    exact ⟨hne, hcell⟩
  · simp only [getD_set hlt]
    grind [h.apart]
  · rw [getD_set hlt]
    split
    · exact fun _ => mem_cons_self
    · exact fun hi => mem_cons_of_mem _ (h.taken i hi)

end

/-! ## Faults -/

theorem sharedFault_cache (h : CacheOf s o size pages) (hindex : index < 2 ^ 31)
    (hm : ∀ p, m.page = some p → p ≠ 0 ∧ p ∉ s.taken) :
    ∃ res t pages', sharedFault s o ⟨1, size, .shared pages⟩ pages index m = some (res, t) ∧
      CacheOf t o size pages' := by
  obtain ⟨r, hcache⟩ := @sharedCache_isSome pages index m.cache hindex
  rw [sharedFault, hcache]
  cases r with
  | none => exact ⟨_, s, pages, rfl, h⟩
  | some pages' =>
    obtain ⟨hlt, n, rfl⟩ := sharedCache_grown hcache
    have hgrown := h.grow ⟨1, size, .shared pages⟩ rfl rfl n
    dsimp only
    generalize hg : s.setKind o _ (.shared (pages ++ replicate n 0)) = g at hgrown ⊢
    replace hm : ∀ p, m.page = some p → p ≠ 0 ∧ p ∉ g.taken := hg ▸ hm
    split
    · rename_i hne
      exact ⟨_, _, _, rfl, hgrown.record hne⟩
    rename_i hempty
    rw [newPage]
    cases hpage : m.page with
    | none => exact ⟨_, _, _, rfl, hgrown⟩
    | some p =>
      obtain ⟨h0, hfree⟩ := hm p hpage
      dsimp only
      rw [if_neg (not_or.mpr ⟨h0, hfree⟩)]
      cases m.tempMap with
      | false => exact ⟨_, _, _, rfl, hgrown.object, hgrown.logged, hgrown.apart, hgrown.taken⟩
      | true =>
        have hcell : ((pages ++ replicate n 0).set index p).getD index 0 = p := by
          rw [getD_set hlt, if_pos rfl]
        have hrec := (hgrown.fill hlt (not_not.mp hempty) ⟨h0, hfree⟩).record (hcell ▸ h0)
        rw [hcell] at hrec
        exact ⟨_, _, _, rfl, hrec⟩

theorem sharedStep_cache {call : UInt64 × FaultMem} (h : ∃ pages, CacheOf s o size pages)
    (hfresh : PageFresh s call) (hindex : call.1 < size → pageIndex call.1 < 2 ^ 31) :
    ∃ t, sharedStep o s call = some t ∧ ∃ pages, CacheOf t o size pages := by
  obtain ⟨pages, h⟩ := h
  rw [sharedStep, vmObjectFault, h.object]
  dsimp only
  split
  · exact ⟨s, rfl, pages, h⟩
  · obtain ⟨res, t, pages', hfault, ht⟩ := sharedFault_cache h (hindex (by grind)) hfresh
    rw [hfault]
    exact ⟨t, rfl, pages', ht⟩

/-- The release gives the pages of all cells back, each once. -/
theorem CacheOf.release (h : CacheOf t o size pages) :
    (vmObjectRelease 1 t.mem o).freed = t.mem.freed ++ pages.filter (· ≠ 0) ∧
      ∀ r ∈ t.log, (pages.filter (· ≠ 0)).count r.page = 1 := by
  refine ⟨by simp [vmObjectRelease, h.object, VmObject.parent, VmObject.cachedPages,
    ObjMem.setObject], fun r hr => ?_⟩
  obtain ⟨hne, hcell⟩ := h.logged r hr
  have hnodup : (pages.filter (· ≠ 0)).Nodup := by
    rw [List.Nodup, pairwise_filter, pairwise_iff_getElem]
    intro i j hi hj hij hpi _ heq
    have := h.apart i j
    simp only [getD_eq_getElem?_getD, getElem?_eq_getElem, hi, hj] at this
    exact hij.ne (this (by simpa using hpi) heq)
  refine count_eq_one_of_mem hnodup (mem_filter.mpr ⟨?_, by simpa using hne⟩)
  exact hcell ▸ getD_mem (hcell ▸ hne)

/-- Faults below an index of 2 ^ 31 all return; two pages they returned are the same
when the indices are, and only then; the release frees each of these pages once. -/
theorem shared_faults_cached {faults : List (UInt64 × FaultMem)}
    (hnew : s.mem.objects o = some ⟨1, size, .shared []⟩) (hlog : s.log = [])
    (hfresh : AllSteps (sharedStep o) PageFresh s faults)
    (hindex : ∀ f ∈ faults, f.1 < size → pageIndex f.1 < 2 ^ 31) :
    ∃ t, exec (sharedStep o) s faults = some t ∧
      (∀ r ∈ t.log, ∀ r' ∈ t.log, r.page = r'.page ↔ r.index = r'.index) ∧
      ∃ freed, (vmObjectRelease 1 t.mem o).freed = t.mem.freed ++ freed ∧
        ∀ r ∈ t.log, freed.count r.page = 1 := by
  have hstart : ∃ pages, CacheOf s o size pages := ⟨[], hnew, by simp [hlog], by simp, by simp⟩
  have hrun : ∃ t, exec (sharedStep o) s faults = some t ∧ ∃ pages, CacheOf t o size pages := by
    clear hnew hlog
    induction faults generalizing s with
    | nil => exact ⟨s, rfl, hstart⟩
    | cons f faults ih =>
      obtain ⟨mid, hstep, hmid⟩ := sharedStep_cache hstart hfresh.1 (hindex f mem_cons_self)
      obtain ⟨t, hrest, ht⟩ :=
        ih (hfresh.2 mid hstep) (fun g hg => hindex g (mem_cons_of_mem _ hg)) hmid
      exact ⟨t, exec_cons_eq_some.mpr ⟨mid, hstep, hrest⟩, ht⟩
  obtain ⟨t, hexec, pages, ht⟩ := hrun
  refine ⟨t, hexec, fun r hr r' hr' => ?_, _, ht.release⟩
  obtain ⟨hne, hcell⟩ := ht.logged r hr
  obtain ⟨-, hcell'⟩ := ht.logged r' hr'
  constructor
  · intro hpage
    exact ht.apart _ _ (hcell ▸ hne) (by rw [hcell, hcell', hpage])
  · intro hidx
    rw [← hcell, ← hcell', hidx]

/-- A new shared object at address 1. -/
def newShared (size : UInt64) : FaultSys :=
  ⟨(vmObjectCreateShared ⟨fun _ => none, []⟩ size (some 1)).2, 1, [], []⟩

/-- Faults at pages 0, 100 and 0, with growth of the cache in between. -/
theorem shared_faults_cached_regrown :
    ∃ t, exec (sharedStep 1) (newShared 409600000) [(0, ⟨some 5, true, true, (0, 0)⟩),
        (409600, ⟨some 6, true, true, (0, 0)⟩), (8, ⟨none, true, true, (0, 0)⟩)] = some t ∧
      (∀ r ∈ t.log, ∀ r' ∈ t.log, r.page = r'.page ↔ r.index = r'.index) ∧
      ∃ freed, (vmObjectRelease 1 t.mem 1).freed = t.mem.freed ++ freed ∧
        ∀ r ∈ t.log, freed.count r.page = 1 := by
  have hfresh : AllSteps (sharedStep 1) PageFresh (newShared 409600000)
      [(0, ⟨some 5, true, true, (0, 0)⟩), (409600, ⟨some 6, true, true, (0, 0)⟩),
        (8, ⟨none, true, true, (0, 0)⟩)] := by decide +kernel
  exact shared_faults_cached rfl rfl hfresh (by decide)

theorem growCapacity_none (hindex : 2 ^ 31 ≤ index) {fuel newCap : Nat}
    (hcap : newCap = 0 ∨ ∃ j ≤ 31, newCap = 2 ^ j) : growCapacity index fuel newCap = none := by
  induction fuel generalizing newCap with
  | zero => rfl
  | succ fuel ih =>
    have hnext : newCap ≤ 2 ^ 31 ∧ (newCap * 2 % 2 ^ 32 = 0 ∨
        ∃ j ≤ 31, newCap * 2 % 2 ^ 32 = 2 ^ j) := by
      rcases hcap with rfl | ⟨j, hj, rfl⟩
      · simp
      · revert j
        decide
    rw [growCapacity, if_pos (hnext.1.trans hindex)]
    exact ih hnext.2

/-- The fault on page 2 ^ 31 of an object of 2 ^ 44 bytes: the loop runs for any number
of rounds and finds no capacity. -/
theorem huge_index_never_returns :
    sharedStep 1 (newShared (2 ^ 44)) (2 ^ 43, ⟨some 5, true, true, (0, 0)⟩) = none ∧
      ∀ fuel, growCapacity (pageIndex (2 ^ 43)) fuel 64 = none :=
  ⟨by decide +kernel, fun _ => growCapacity_none (by decide) (.inr ⟨6, by decide, rfl⟩)⟩

end ArcKernel.Vm
