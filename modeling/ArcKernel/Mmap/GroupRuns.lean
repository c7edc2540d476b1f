import ArcKernel.Mmap.Group
import ArcKernel.Mmap.Runs

/-!
# When the members of a group agree

A mapping made by one member is a region of that member's table only, and a break moved by
one member is not moved for the others.  So two members of a group disagree as soon as one
of them maps memory that is filled on demand, or both move the break.

What is left is stated as a condition on each call, `orderly`.  A process without threads may
do what it likes.  A thread is made only when every page mapped so far is there.  After that a
member maps memory only where it is filled at once, and no call touches a page that another
member has mapped.  Under it every page mapped by a member is in the directory they share.
-/

namespace ArcKernel.Mmap

open ArcKernel.Foundation Function List Option Bool MmapState

variable {s : Group} {gs : List Grant} {pgs : List Nat} {p : Member} {a : MmapArgs} {i pg q : Nat}
    {c : GroupCall} {g : Option Grant} {mm : MmapState} {o : Nat × Nat}
    {owned ranges : List (Nat × Nat)}

/-! ## Pages -/

theorem mem_pageSpan {lo hi : Nat} :
    pg ∈ pageSpan lo hi ↔ lo / 4096 ≤ pg ∧ pg < lo / 4096 + (hi - lo + 4095) / 4096 := by
  rw [pageSpan, mem_range'_1]

/-- The pages of a part of a range that starts on a page. -/
theorem pageSpan_subset {lo hi lo' hi' : Nat} (halign : lo % 4096 = 0) (hlo : lo ≤ lo')
    (hhi : hi' ≤ hi) (h : pg ∈ pageSpan lo' hi') : pg ∈ pageSpan lo hi := by
  rw [mem_pageSpan] at h ⊢
  omega

theorem pages_freeUserPage (m : Space) (pg : Nat) :
    (freeUserPage m pg).pages = update m.pages pg none := by
  unfold freeUserPage
  split
  · rfl
  · split <;> rfl

variable {m : Space}

/-- Freeing pages leaves the others. -/
theorem pages_freeUserPages (h : pg ∉ pgs) : (pgs.foldl freeUserPage m).pages pg = m.pages pg := by
  induction pgs generalizing m with
  | nil => rfl
  | cons q rest ih =>
    obtain ⟨hne, hrest⟩ := not_or.mp (mt mem_cons.mpr h)
    rw [foldl_cons, ih hrest, pages_freeUserPage, update_of_ne hne]

theorem pages_freeSpans (h : ∀ r ∈ ranges, pg ∉ pageSpan r.1 r.2) :
    (ranges.foldl freeSpan m).pages pg = m.pages pg := by
  induction ranges generalizing m with
  | nil => rfl
  | cons r rest ih =>
    rw [foldl_cons, ih fun q hq => h q (mem_cons_of_mem _ hq)]
    exact pages_freeUserPages (h r mem_cons_self)

@[simp] theorem pages_map_self (m : Space) (pg : Nat) (p : Page) : (m.map pg p).pages pg = some p :=
  update_self ..

theorem pages_map_of_ne (m : Space) (p : Page) (h : q ≠ pg) :
    (m.map pg p).pages q = m.pages q := update_of_ne h ..

/-- A page that is mapped stays mapped when another page is mapped, or the same one again. -/
theorem present_map (p : Page) (h : m.present q = true) : (m.map pg p).present q = true := by
  rw [Space.present] at h ⊢
  by_cases hq : q = pg
  · rw [hq, pages_map_self]
    rfl
  · rwa [pages_map_of_ne m p hq]

theorem present_map_self (m : Space) (pg : Nat) (p : Page) : (m.map pg p).present pg = true := by
  rw [Space.present, pages_map_self]
  rfl

theorem mapFresh_eq_some {t : Space} {w : Bool} (h : mapFresh m pg w g = some t) :
    ∃ p, t = m.map pg p := by
  unfold mapFresh at h
  split at h
  · exact ⟨_, (some.inj h).symm⟩
  · cases h

theorem vmmCowBreak_eq_some {t : Space} (h : vmmCowBreak m pg g = some t) :
    ∃ p, t = m.map pg p := by
  unfold vmmCowBreak at h
  split at h
  · split at h
    · exact ⟨_, (some.inj h).symm⟩
    · cases h
  · cases h

/-- The change of a loop that maps pages of a list and unmaps none. -/
structure Fills (pgs : List Nat) (m t : Space) : Prop where
  outside : ∀ pg, pg ∉ pgs → t.pages pg = m.pages pg
  keeps : ∀ pg, m.present pg = true → t.present pg = true

theorem Fills.refl (pgs : List Nat) (m : Space) : Fills pgs m m := ⟨fun _ _ => rfl, fun _ h => h⟩

theorem Fills.map (hpg : pg ∈ pgs) (p : Page) : Fills pgs m (m.map pg p) :=
  ⟨fun _ hq => pages_map_of_ne m p fun h => hq (h ▸ hpg), fun _ => present_map p⟩

theorem Fills.trans {t u : Space} (h : Fills pgs m t) (h' : Fills pgs t u) : Fills pgs m u :=
  ⟨fun pg hpg => (h'.outside pg hpg).trans (h.outside pg hpg),
    fun pg hpg => h'.keeps pg (h.keeps pg hpg)⟩

theorem Fills.cons {m t : Space} (h : Fills pgs m t) (q : Nat) : Fills (q :: pgs) m t :=
  ⟨fun pg hpg => h.outside pg fun hmem => hpg (mem_cons_of_mem _ hmem), h.keeps⟩

theorem fill_fills (mm : MmapState) (pgs : List Nat) (gs : List Grant) (m : Space) :
    Fills pgs m (fill mm pgs gs m).1 := by
  induction pgs generalizing gs m with
  | nil => exact .refl _ _
  | cons pg rest ih =>
    rw [fill]
    split
    · exact (ih gs m).cons pg
    · split
      · exact .refl _ _
      · rename_i t ht
        obtain ⟨p, rfl⟩ := mapFresh_eq_some ht
        exact (Fills.map mem_cons_self p).trans ((ih gs.tail _).cons pg)

/-- A loop that did not run out of memory has mapped every page it found a region for. -/
theorem fill_present (gs : List Grant) (m : Space)
    (hfound : ∀ pg ∈ pgs, (mmapRegionFind mm (pg * 4096)).isSome = true)
    (hdone : (fill mm pgs gs m).2 = true) :
    ∀ pg ∈ pgs, (fill mm pgs gs m).1.present pg = true := by
  induction pgs generalizing gs m with
  | nil => exact fun pg hpg => absurd hpg not_mem_nil
  | cons q rest ih =>
    rw [fill] at hdone ⊢
    obtain ⟨r, hr⟩ := isSome_iff_exists.mp (hfound q mem_cons_self)
    rw [hr] at hdone ⊢
    dsimp only at hdone ⊢
    split at hdone
    · cases hdone
    rename_i t ht
    obtain ⟨p, rfl⟩ := mapFresh_eq_some ht
    intro pg hpg
    rcases mem_cons.mp hpg with rfl | hpg
    · exact (fill_fills mm rest gs.tail _).keeps _ (present_map_self m _ p)
    · exact ih _ _ (fun k hk => hfound k (mem_cons_of_mem _ hk)) hdone pg hpg

theorem heapFill_fills (pgs : List Nat) (gs : List Grant) (m : Space) :
    Fills pgs m (heapFill pgs gs m).1 := by
  induction pgs generalizing gs m with
  | nil => exact .refl _ _
  | cons pg rest ih =>
    rw [heapFill]
    split
    · exact .refl _ _
    · rename_i t ht
      obtain ⟨p, rfl⟩ := mapFresh_eq_some ht
      exact (Fills.map mem_cons_self p).trans ((ih gs.tail _).cons pg)

theorem heapFill_present (hdone : (heapFill pgs gs m).2 = []) :
    ∀ pg ∈ pgs, (heapFill pgs gs m).1.present pg = true := by
  induction pgs generalizing gs m with
  | nil => exact fun pg hpg => absurd hpg not_mem_nil
  | cons q rest ih =>
    rw [heapFill] at hdone ⊢
    split at hdone
    · cases hdone
    rename_i t ht
    obtain ⟨p, rfl⟩ := mapFresh_eq_some ht
    intro pg hpg
    rcases mem_cons.mp hpg with rfl | hpg
    · exact (heapFill_fills rest gs.tail _).keeps _ (present_map_self m _ p)
    · exact ih hdone pg hpg

/-! ## Calls that unmap nothing -/

theorem mprotectPages_keeps (prot : BitVec 32) (pgs : List Nat) (gs : List Grant) (m : Space) :
    ∀ pg, m.present pg = true → (mprotectPages prot pgs gs m).1.present pg = true := by
  induction pgs generalizing gs m with
  | nil => exact fun pg h => h
  | cons q rest ih =>
    intro pg h
    rw [mprotectPages]
    split
    · exact ih gs m pg h
    dsimp only
    split
    · split
      · exact h
      · rename_i t ht
        obtain ⟨p, rfl⟩ := vmmCowBreak_eq_some ht
        exact ih gs.tail _ pg (present_map p h)
    · exact ih gs _ pg (present_map _ h)

theorem mprotectLoop_keeps (lo hi : Nat) (prot : BitVec 32) (slots : List Nat) (gs : List Grant)
    (m : Space) (mm : MmapState) :
    ∀ pg, m.present pg = true → (mprotectLoop lo hi prot slots gs m mm).1.present pg = true := by
  induction slots generalizing gs m mm with
  | nil => exact fun pg h => h
  | cons i rest ih =>
    intro pg h
    rw [mprotectLoop]
    split
    · exact ih gs m mm pg h
    rename_i r _
    split
    · have hpages := mprotectPages_keeps prot (pageSpan (max lo r.start) (min hi r.stop)) gs m pg h
      split
      · rename_i t ht
        rw [ht] at hpages
        exact hpages
      · rename_i t left ht
        rw [ht] at hpages
        exact ih left t _ pg hpages
    · exact ih gs m mm pg h

section

variable (l : Layout) (m : Space) (mm : MmapState)

theorem sysMprotect_keeps (addr len : Nat) (prot : BitVec 32) (gs : List Grant)
    (h : m.present pg = true) : (sysMprotect l m mm addr len prot gs).1.present pg = true := by
  unfold sysMprotect
  split
  · exact h
  split
  · exact h
  split
  · exact h
  · exact mprotectLoop_keeps _ _ prot _ gs m mm pg h

/-- What a fault can do to the directory: nothing, or map the page it is about. -/
theorem pageFault_eq (addr : Nat) (write : Bool) (g : Option Grant) :
    (pageFault l m mm addr write g).1 = m ∨
      ∃ p, (pageFault l m mm addr write g).1 = m.map (addr / 4096) p := by
  unfold pageFault
  dsimp only
  split
  · rename_i t ht
    cases write with
    | false => cases ht
    | true => exact .inr (vmmCowBreak_eq_some ht)
  split
  · exact .inl rfl
  split
  · exact .inl rfl
  split
  · exact .inl rfl
  split
  · exact .inl rfl
  · rename_i t ht
    exact .inr (mapFresh_eq_some ht)

theorem pageFault_keeps (addr : Nat) (write : Bool) (g : Option Grant) (h : m.present pg = true) :
    (pageFault l m mm addr write g).1.present pg = true := by
  rcases pageFault_eq l m mm addr write g with heq | ⟨p, heq⟩
  · rw [heq]
    exact h
  · rw [heq]
    exact present_map p h

/-- `resolves` is what the hardware and the fault handler make of an access: the page is
there, or it is there after the fault as soon as there is a frame for it. -/
theorem resolves_iff_fault (addr : Nat) : resolves l m mm addr ↔
      ∃ g, (pageFault l m mm addr false g).1.present (addr / 4096) = true := by
  constructor
  · rintro (hthere | ⟨hlazy, hfound⟩)
    · exact ⟨none, pageFault_keeps l m mm addr false none hthere⟩
    · refine ⟨some (.page 0), ?_⟩
      obtain ⟨r, hr⟩ := isSome_iff_exists.mp hfound
      unfold pageFault
      dsimp only
      rw [if_neg Bool.false_ne_true]
      rw [if_neg (by rw [hlazy]; decide), hr]
      dsimp only
      by_cases hthere : m.present (addr / 4096) = true
      · rw [if_pos hthere]
        exact hthere
      · rw [if_neg hthere]
        exact present_map_self ..
  · rintro ⟨g, hg⟩
    by_cases hthere : m.present (addr / 4096) = true
    · exact .inl hthere
    unfold pageFault at hg
    dsimp only at hg
    rw [if_neg Bool.false_ne_true] at hg
    dsimp only at hg
    split at hg
    · exact absurd hg hthere
    · rename_i hlazy
      split at hg
      · exact absurd hg hthere
      · rename_i r hr
        exact .inr ⟨eq_false_iff.mpr hlazy, by rw [hr]; rfl⟩

end

/-! ## The slots a range needs -/

/-- The region goes on at both ends of the range: cutting the range out leaves two pieces. -/
def MmapRegion.straddles (lo hi : Nat) (r : MmapRegion) : Bool :=
  r.used && decide (r.start < lo ∧ hi < r.stop)

namespace MmapState

def cutTails (s : MmapState) (lo hi : Nat) : Nat := s.regions.countP (MmapRegion.straddles lo hi)

def free (s : MmapState) : Nat := s.regions.countP fun r => !r.used

/-- Every tail behind the range finds an empty slot. -/
def keepsTails (s : MmapState) (lo hi : Nat) : Bool := decide (s.cutTails lo hi ≤ s.free)

end MmapState

section

variable {lo hi : Nat} {s t : MmapState} {r : MmapRegion}

/-- What cutting the range out of the slot that holds `r` does when the tail of `r` is kept. -/
structure Trims (lo hi : Nat) (s : MmapState) (r : MmapRegion) (t : MmapState) : Prop where
  released : t.released = s.released ++ [(max lo r.start, min hi r.stop)]
  slots : t.cutTails lo hi + s.free ≤ s.cutTails lo hi + t.free

/-- A piece that does not reach over both ends. -/
theorem straddles_of_le (h : lo ≤ r.start ∨ r.stop ≤ hi) : r.straddles lo hi = false := by
  rw [MmapRegion.straddles, decide_eq_false (by omega), Bool.and_false]

theorem countP_set_add {α : Type} {p : α → Bool} {l : List α} {a b : α} (h : l[i]? = some a) :
    (l.set i b).countP p + (p a).toNat = l.countP p + (p b).toNat := by
  obtain ⟨hi, rfl⟩ := List.getElem?_eq_some_iff.mp h
  have hpos : p l[i] = true → 0 < l.countP p := fun hp =>
    countP_pos_iff.mpr ⟨_, getElem_mem hi, hp⟩
  rw [countP_set hi]
  cases hp : p l[i] <;> cases p b <;> simp_all

section

variable (hslot : s.regions[i]? = some r) (hover : r.Overlaps lo hi)
include hslot hover

/-- At most one piece is left, and it stays in the slot. -/
theorem Trims.of_set (q : MmapRegion) (hregions : t.regions = s.regions.set i q)
    (hreleased : t.released = s.released ++ [(max lo r.start, min hi r.stop)])
    (hq : q.straddles lo hi = false) : Trims lo hi s r t := by
  refine ⟨hreleased, ?_⟩
  have htails := countP_set_add (p := MmapRegion.straddles lo hi) (b := q) hslot
  have hfree := countP_set_add (p := fun r => !r.used) (b := q) hslot
  rw [hq] at htails
  rw [hover.1] at hfree
  rw [cutTails, cutTails, free, free, hregions]
  simp only [Bool.toNat_false, Bool.not_true] at htails hfree
  omega

/-- Two pieces are left: the front stays, the tail goes to an empty slot. -/
theorem Trims.of_split {j : Nat} (hj : regionSlotAlloc s = some j) (front tail : MmapRegion)
    (hregions : t.regions = (s.regions.set j tail).set i front)
    (hreleased : t.released = s.released ++ [(max lo r.start, min hi r.stop)])
    (hr : r.straddles lo hi = true) (hfront : front.straddles lo hi = false)
    (htail : tail.straddles lo hi = false) : Trims lo hi s r t := by
  refine ⟨hreleased, ?_⟩
  obtain ⟨hj', hempty, -⟩ := findIdx?_eq_some_iff_getElem.mp hj
  have hjslot : s.regions[j]? = some s.regions[j] := getElem?_eq_getElem hj'
  have hne : j ≠ i := by
    rintro rfl
    rw [hslot] at hjslot
    rw [← some.inj hjslot, hover.1] at hempty
    cases hempty
  have hislot : (s.regions.set j tail)[i]? = some r := by rw [getElem?_set_ne hne, hslot]
  have htails := countP_set_add (p := MmapRegion.straddles lo hi) (b := tail) hjslot
  have htails' := countP_set_add (p := MmapRegion.straddles lo hi) (b := front) hislot
  have hfree := countP_set_add (p := fun r => !r.used) (b := tail) hjslot
  have hfree' := countP_set_add (p := fun r => !r.used) (b := front) hislot
  rw [htail] at htails
  rw [hr, hfront] at htails'
  rw [hempty] at hfree
  rw [hover.1] at hfree'
  rw [cutTails, cutTails, free, free, hregions]
  simp only [Bool.toNat_false, Bool.toNat_true, Bool.not_true] at htails htails' hfree hfree'
  omega

theorem mmapCut_trims (hle : lo ≤ hi)
    (hroom : r.straddles lo hi = true → regionSlotAlloc s ≠ none) :
    Trims lo hi s r (mmapCut lo hi s i r) := by
  unfold mmapCut
  dsimp only
  split
  · refine .of_set hslot hover { r with vnode := none, used := false } ?_ ?_ rfl
    · exact congrArg (List.set · i _) (regions_vnodePut ..)
    · exact released_vnodePut ..
  split
  · refine .of_set hslot hover _ rfl rfl (straddles_of_le (.inl ?_))
    dsimp only
    omega
  split
  · refine .of_set hslot hover _ rfl rfl (straddles_of_le (.inr ?_))
    dsimp only [MmapRegion.stop]
    omega
  have hr : r.straddles lo hi = true := by
    rw [MmapRegion.straddles, hover.1, Bool.true_and, decide_eq_true_iff]
    omega
  obtain ⟨j, hj⟩ := ne_none_iff_exists'.mp (hroom hr)
  have hj' : regionSlotAlloc (s.freeUserPages (max lo r.start) (min hi r.stop)) = some j := hj
  rw [hj']
  refine .of_split hslot hover hj _ _ (congrArg (List.set · i _) (regions_vnodeRef ..))
    (released_vnodeRef ..) hr (straddles_of_le (.inr ?_)) (straddles_of_le (.inl ?_))
  · dsimp only [MmapRegion.stop]
    omega
  · dsimp only
    omega

theorem munmapCut_trims (hle : lo ≤ hi)
    (hroom : r.straddles lo hi = true → regionSlotAlloc s ≠ none) :
    Trims lo hi s r (munmapCut lo hi s i r) := by
  by_cases hfront : lo ≤ r.start ∧ hi < r.stop
  · -- the front goes: only the offset is not that of a replacing mapping
    unfold munmapCut
    dsimp only
    rw [if_neg (by omega), if_pos (by omega)]
    refine .of_set hslot hover _ rfl rfl (straddles_of_le (.inl ?_))
    dsimp only
    omega
  · rw [munmapCut_eq hfront fun hlo hhi => hroom ?_]
    · exact mmapCut_trims hslot hover hle hroom
    · rw [MmapRegion.straddles, hover.1, Bool.true_and, decide_eq_true_iff]
      exact ⟨hlo, hhi⟩

end

/-- The walk of a table that keeps its tails gives up pages of the range only. -/
theorem cutLoop_trims {cut : MmapState → Nat → MmapRegion → MmapState}
    (hcut : ∀ s i r, s.regions[i]? = some r → r.Overlaps lo hi →
      (r.straddles lo hi = true → regionSlotAlloc s ≠ none) → Trims lo hi s r (cut s i r))
    (slots : List Nat) (s : MmapState) (htails : s.cutTails lo hi ≤ s.free) :
    ∀ q ∈ (cutLoop cut lo hi slots s).released, q ∈ s.released ∨ lo ≤ q.1 ∧ q.2 ≤ hi := by
  induction slots generalizing s with
  | nil => exact fun q hq => .inl hq
  | cons i rest ih =>
    rw [cutLoop]
    split
    · exact ih s htails
    rename_i r hslot
    split
    · rename_i hover
      have htrims := hcut s i r hslot hover fun hr hfull => by
        have hpos := countP_pos_iff.mpr ⟨r, mem_of_getElem? hslot, hr⟩
        obtain ⟨q, hq, hempty⟩ := countP_pos_iff.mp (hpos.trans_le htails)
        exact absurd hempty (findIdx?_eq_none_iff.mp hfull q hq ▸ Bool.false_ne_true)
      have hslots := htrims.slots
      intro q hq
      rcases ih (cut s i r) (by omega) q hq with hq | hq
      · rw [htrims.released, mem_append, mem_singleton] at hq
        refine hq.imp_right ?_
        rintro rfl
        exact ⟨le_max_left .., min_le_left ..⟩
      · exact .inr hq
    · exact ih s htails

end

/-! ## What the table says of a mapping -/

/-- A mapping that is refused before the table is walked releases nothing. -/
theorem sysMmap_refused {l : Layout} {m : MmapState}
    (h : ∀ p ∈ mmapRange l m a, a.fixed = false ∧ ∃ r ∈ m.regions, r.Overlaps p.1 p.2) :
    ∃ t e, sysMmap l m a = (t, .error e) ∧ t.released = m.released := by
  unfold sysMmap
  cases hcheck : mmapCheck l a with
  | error e => exact ⟨m, e, rfl, rfl⟩
  | ok q =>
    obtain ⟨pagelen, vp⟩ := q
    dsimp only
    rw [cursor_vnodeRef]
    split
    · exact ⟨_, _, rfl, released_vnodeRef m vp⟩
    split
    · exact ⟨_, _, rfl, released_vnodeRef m vp⟩
    have hrange : mmapRange l m a =
        some (mmapPlace l m.cursor a, mmapPlace l m.cursor a + pagelen) := by
      rw [mmapRange, hcheck]
      dsimp only
      rw [if_neg (by omega)]
    obtain ⟨hplain, hmeets⟩ := h _ hrange
    rw [regions_vnodeRef, if_pos ⟨by rw [hplain]; decide, hmeets⟩]
    exact ⟨_, _, rfl, by rw [released_vnodePut, released_vnodeRef]⟩

/-- A mapping that is made has its range, and a region for every page of it. -/
theorem sysMmap_ok {l : Layout} {t : MmapState} {start : Nat}
    (h : sysMmap l mm a = (t, .ok start)) :
    mmapRange l mm a = some (start, start + pageRound l (a.len % l.word)) ∧
      ∀ pg ∈ pageSpan start (start + pageRound l (a.len % l.word)),
        (mmapRegionFind t (pg * 4096)).isSome = true := by
  unfold sysMmap at h
  cases hcheck : mmapCheck l a with
  | error e =>
    rw [hcheck] at h
    cases h
  | ok q =>
    obtain ⟨pagelen, vp⟩ := q
    obtain ⟨rfl, -, -⟩ := mmapCheck_ok hcheck
    rw [hcheck] at h
    dsimp only at h
    rw [cursor_vnodeRef] at h
    split at h
    · cases h
    split at h
    · cases h
    split at h
    · cases h
    split at h
    · cases h
    rename_i hbase htop _ _ u hadd
    split at h
    · cases h
    obtain ⟨rfl, hstart⟩ := Prod.mk.inj h
    cases hstart
    refine ⟨?_, fun pg hpg => ?_⟩
    · rw [mmapRange, hcheck]
      dsimp only
      rw [if_neg (by omega)]
    obtain ⟨j, hj, rfl⟩ := map_eq_some_iff.mp hadd
    obtain ⟨hj', -, -⟩ := findIdx?_eq_some_iff_getElem.mp hj
    -- start and length are multiples of the page size
    have hplace : mmapPlace l mm.cursor a % 4096 = 0 := Nat.mul_mod_left ..
    have hin : mmapPlace l mm.cursor a ≤ pg * 4096 ∧
        pg * 4096 < mmapPlace l mm.cursor a + pageRound l (a.len % l.word) := by
      rw [mem_pageSpan] at hpg
      omega
    rw [mmapRegionFind, find?_isSome]
    exact ⟨_, mem_set hj' _, (Bool.true_and _).trans (decide_eq_true hin)⟩

/-- A mapping whose table has room for the tails gives up pages of its range only. -/
theorem sysMmap_trims {l : Layout} {lo hi : Nat} (mm : MmapState)
    (hrange : mmapRange l mm a = some (lo, hi))
    (hreleased : mm.released = []) (htails : mm.keepsTails lo hi = true) :
    ∀ q ∈ (sysMmap l mm a).1.released, lo ≤ q.1 ∧ q.2 ≤ hi := by
  have hnone : ∀ t : MmapState, t.released = [] → ∀ q ∈ t.released, lo ≤ q.1 ∧ q.2 ≤ hi :=
    fun t ht q hq => absurd hq (ht ▸ not_mem_nil)
  unfold mmapRange at hrange
  unfold sysMmap
  cases hcheck : mmapCheck l a with
  | error e => exact hnone _ hreleased
  | ok q =>
    obtain ⟨pagelen, vp⟩ := q
    rw [hcheck] at hrange
    dsimp only at hrange ⊢
    split at hrange
    · cases hrange
    obtain ⟨rfl, rfl⟩ := Prod.mk.inj (some.inj hrange)
    rw [cursor_vnodeRef, if_neg (by omega), if_neg (by omega)]
    split
    · exact hnone _ (by rw [released_vnodePut, released_vnodeRef, hreleased])
    have hgiven := cutLoop_trims
      (fun s i r hslot hover => mmapCut_trims hslot hover (Nat.le_add_right _ pagelen))
      (List.range maxRegions) (mm.vnodeRef vp)
      (by
        rw [cutTails, free, regions_vnodeRef]
        exact of_decide_eq_true htails)
    generalize cutLoop _ _ _ _ _ = t at hgiven ⊢
    have hinside : ∀ q ∈ t.released, mmapPlace l mm.cursor a ≤ q.1 ∧
        q.2 ≤ mmapPlace l mm.cursor a + pagelen := fun q hq =>
      (hgiven q hq).resolve_left (by rw [released_vnodeRef, hreleased]; exact not_mem_nil)
    split
    · rw [released_vnodePut]
      exact hinside
    · rename_i u hadd
      obtain ⟨j, -, rfl⟩ := map_eq_some_iff.mp hadd
      split <;> exact hinside

/-- What a mapping gives up is given up before its pages are filled. -/
theorem released_sysMmap (l : Layout) (mm : MmapState) (a : MmapArgs) (b : Bool) :
    (sysMmap l mm { a with filled := b }).1.released =
      (sysMmap l mm { a with filled := true }).1.released := by
  have hcheck : ∀ b, mmapCheck l { a with filled := b } = mmapCheck l a := fun _ => rfl
  have hplace : ∀ c b, mmapPlace l c { a with filled := b } = mmapPlace l c a := fun _ _ => rfl
  have hfixed : ∀ b, ({ a with filled := b } : MmapArgs).fixed = a.fixed := fun _ => rfl
  unfold sysMmap
  simp only [hcheck, hplace, hfixed]
  split
  · rfl
  iterate 3 (split; · rfl)
  split
  · rfl
  rw [if_neg fun hfull : l.eager = true ∧ ¬ True => hfull.2 trivial]
  split <;> rfl

theorem mmapRange_aligned {l : Layout} {lo hi : Nat} (h : mmapRange l mm a = some (lo, hi)) :
    lo % 4096 = 0 := by
  unfold mmapRange at h
  split at h
  · cases h
  dsimp only at h
  split at h
  · cases h
  · cases h
    exact Nat.mul_mod_left ..

theorem munmapRange_aligned {l : Layout} {addr len lo hi : Nat}
    (h : munmapRange l mm addr len = .ok (lo, hi)) : lo % 4096 = 0 := by
  unfold munmapRange at h
  dsimp only at h
  split at h
  · cases h
  rename_i halign
  iterate 4 (split at h; · cases h)
  cases h
  exact not_not.mp halign

/-! ## Ownership -/

theorem mem_own : o ∈ own i pgs owned ↔ o.1 ∈ pgs ∧ o.2 = i ∨ o ∈ owned ∧ o.1 ∉ pgs := by
  rw [own, List.mem_append, List.mem_map, List.mem_filter]
  refine or_congr ⟨?_, ?_⟩ (and_congr_right fun _ => by simp)
  · rintro ⟨pg, hpg, rfl⟩
    exact ⟨hpg, rfl⟩
  · rintro ⟨hpg, rfl⟩
    exact ⟨o.1, hpg, rfl⟩

theorem mem_disown : o ∈ disown i pgs owned ↔ o ∈ owned ∧ ¬ (o.2 = i ∧ o.1 ∈ pgs) := by
  rw [disown, mem_filter]
  by_cases h : o.2 = i <;> simp [h]

/-- No page of the list is mapped by another member. -/
def Group.clear (s : Group) (i : Nat) (pgs : List Nat) : Bool :=
  s.owned.all fun o => o.2 == i || !pgs.contains o.1

theorem clear_iff : s.clear i pgs = true ↔ ∀ o ∈ s.owned, o.2 ≠ i → o.1 ∉ pgs := by
  rw [Group.clear, List.all_eq_true]
  refine forall₂_congr fun o _ => ?_
  by_cases h : o.2 = i <;> simp [h]

/-! ## The condition -/

/-- A mapping by a member of a group: refused, or filled at once, on pages no other member
has mapped, with an empty slot in the table for every tail behind the range. -/
def mmapOrderly (l : SpaceLayout) (s : Group) (i : Nat) (p : Member) (a : MmapArgs) : Bool :=
  match mmapRange l.toLayout p.mm a with
  | none => true
  | some (lo, hi) =>
      !a.fixed && decide (∃ r ∈ p.mm.regions, r.Overlaps lo hi) ||
      l.eager && p.mm.keepsTails lo hi && s.clear i (pageSpan lo hi)

def munmapOrderly (l : SpaceLayout) (s : Group) (i : Nat) (p : Member) (addr len : Nat) : Bool :=
  match munmapRange l.toLayout p.mm addr len with
  | .error _ => true
  | .ok (lo, hi) => p.mm.keepsTails lo hi && s.clear i (pageSpan lo hi)

def brkOrderly (l : SpaceLayout) (s : Group) (i : Nat) (p : Member) (newBrk : Nat) : Bool :=
  decide (brkIdle l p.heapEnd newBrk) ||
    s.clear i (grownPages p.heapEnd newBrk ++ grownPages newBrk p.heapEnd)

def Group.alone (s : Group) : Bool := decide (s.members.length ≤ 1)

def orderly (l : SpaceLayout) (s : Group) : GroupCall → Bool
  | .clone _ => s.owned.all fun o => s.space.present o.1
  | .mmap i a _ => s.alone || s.members[i]?.all fun p => mmapOrderly l s i p a
  | .munmap i addr len => s.alone || s.members[i]?.all fun p => munmapOrderly l s i p addr len
  | .brk i newBrk _ => s.alone || s.members[i]?.all fun p => brkOrderly l s i p (newBrk % 2 ^ 64)
  | .mprotect .. => true
  | .fault .. => true

/-! ## One call -/

/-- What an orderly call of member `i` on the pages `pgs` does. -/
structure Touches (i : Nat) (pgs : List Nat) (s t : Group) : Prop where
  members : t.members.length = s.members.length
  outside : ∀ pg, pg ∉ pgs → t.space.pages pg = s.space.pages pg
  foreign : ∀ o ∈ s.owned, o.2 ≠ i → o.1 ∉ pgs
  owned : ∀ o ∈ t.owned,
    o ∈ s.owned ∧ (s.space.present o.1 = true → t.space.present o.1 = true) ∨
      o.2 = i ∧ t.space.present o.1 = true

variable {t : Group}

theorem present_of_pages {m m' : Space} {pg : Nat} (h : m'.pages pg = m.pages pg)
    (hthere : m.present pg = true) : m'.present pg = true := by
  rwa [Space.present, h]

/-- A call that leaves pages and owners as they are. -/
theorem Touches.idle (i : Nat) (hmembers : t.members.length = s.members.length)
    (hspace : t.space.pages = s.space.pages) (howned : t.owned = s.owned) : Touches i [] s t :=
  ⟨hmembers, fun _ _ => by rw [hspace], fun _ _ _ => not_mem_nil,
    fun _ ho => .inl ⟨howned ▸ ho, present_of_pages (by rw [hspace])⟩⟩

/-- A call that gives up pages of its own. -/
theorem Touches.disowned (hmembers : t.members.length = s.members.length)
    (houtside : ∀ pg, pg ∉ pgs → t.space.pages pg = s.space.pages pg)
    (hclear : ∀ o ∈ s.owned, o.2 ≠ i → o.1 ∉ pgs) (howned : t.owned = disown i pgs s.owned) :
    Touches i pgs s t := by
  refine ⟨hmembers, houtside, hclear, fun o ho => ?_⟩
  rw [howned] at ho
  obtain ⟨hold, hkept⟩ := mem_disown.mp ho
  refine .inl ⟨hold, present_of_pages (houtside o.1 fun hpg => ?_)⟩
  exact hclear o hold (fun hi => hkept ⟨hi, hpg⟩) hpg

variable {l : SpaceLayout}

theorem groupMmap_touches (gs : List Grant) (h : mmapOrderly l s i p a = true) :
    ∃ pgs, Touches i pgs s (groupMmap l s i p a gs) := by
  have hlen : (groupMmap l s i p a gs).members.length = s.members.length := length_set
  by_cases hrefused : ∀ q ∈ mmapRange l.toLayout p.mm a,
      a.fixed = false ∧ ∃ r ∈ p.mm.regions, r.Overlaps q.1 q.2
  · -- refused: nothing is released and nothing is mapped
    obtain ⟨t, e, hcall, hreleased⟩ :=
      sysMmap_refused (m := { p.mm with released := [] }) (a := { a with filled := true }) hrefused
    have hout : mmapShared l.toLayout s.space p.mm a gs = ⟨s.space, t, none⟩ := by
      unfold mmapShared
      dsimp only
      rw [hcall]
      rw [hreleased]
      rfl
    refine ⟨[], .idle i hlen (by rw [groupMmap, hout]) ?_⟩
    rw [groupMmap, hout]
    dsimp only
    rw [hreleased]
    exact filter_eq_self.mpr fun o _ => by simp
  push Not at hrefused
  obtain ⟨⟨lo, hi⟩, hrange, hnot⟩ := hrefused
  rw [mmapOrderly, hrange] at h
  have hwalks : ¬ (a.fixed = false ∧ ∃ r ∈ p.mm.regions, r.Overlaps lo hi) :=
    fun ⟨hplain, r, hr, hover⟩ => hnot hplain r hr hover
  simp only [or_eq_true, and_eq_true, not_eq_true', decide_eq_true_eq] at h
  obtain ⟨⟨heager, htails⟩, hclear⟩ := h.resolve_left hwalks
  rw [clear_iff] at hclear
  have hinside := sysMmap_trims { p.mm with released := [] } (a := { a with filled := true })
    hrange rfl htails
  have hfill := released_sysMmap l.toLayout { p.mm with released := [] } a
  generalize hdone :
    sysMmap l.toLayout { p.mm with released := [] } { a with filled := true } = done
    at hinside hfill
  obtain ⟨t, result⟩ := done
  have hsub : ∀ pg, ∀ q ∈ t.released, pg ∈ pageSpan q.1 q.2 → pg ∈ pageSpan lo hi :=
    fun pg q hq => pageSpan_subset (mmapRange_aligned hrange) (hinside q hq).1 (hinside q hq).2
  have hcleared : ∀ pg, pg ∉ pageSpan lo hi →
      (t.released.foldl freeSpan s.space).pages pg = s.space.pages pg :=
    fun pg hpg => pages_freeSpans fun q hq hmem => hpg (hsub pg q hq hmem)
  -- what the caller still has after a failure is what the walk did not give up
  have hkept : ∀ o ∈ disown i (t.released.flatMap fun r => pageSpan r.1 r.2) s.owned,
      o ∈ s.owned ∧ (s.space.present o.1 = true →
        (t.released.foldl freeSpan s.space).present o.1 = true) := fun o ho => by
    obtain ⟨hold, hgone⟩ := mem_disown.mp ho
    refine ⟨hold, present_of_pages (pages_freeSpans fun q hq hmem => ?_)⟩
    exact hclear o hold (fun hi => hgone ⟨hi, mem_flatMap.mpr ⟨q, hq, hmem⟩⟩) (hsub o.1 q hq hmem)
  refine ⟨pageSpan lo hi, ?_⟩
  cases result with
  | error e =>
    have hout : mmapShared l.toLayout s.space p.mm a gs =
        ⟨t.released.foldl freeSpan s.space, t, none⟩ := by
      rw [mmapShared, hdone]
    refine ⟨hlen, ?_, hclear, ?_⟩
    all_goals rw [groupMmap, hout]
    · exact hcleared
    · exact fun o ho => .inl (hkept o ho)
  | ok start =>
    obtain ⟨hrange', hfound⟩ := sysMmap_ok hdone
    obtain ⟨rfl, rfl⟩ : start = lo ∧ start + pageRound l.toLayout (a.len % l.word) = hi :=
      Prod.mk.inj (some.inj (hrange'.symm.trans hrange))
    have hfills := fill_fills t (pageSpan start (start + pageRound l.toLayout (a.len % l.word))) gs
      (t.released.foldl freeSpan s.space)
    have hall := fill_present gs (t.released.foldl freeSpan s.space) hfound
    obtain ⟨mm', hmm', hout⟩ : ∃ mm' : MmapState, mm'.released = t.released ∧
        mmapShared l.toLayout s.space p.mm a gs =
          ⟨(fill t (pageSpan start (start + pageRound l.toLayout (a.len % l.word))) gs
              (t.released.foldl freeSpan s.space)).1, mm',
            if (fill t (pageSpan start (start + pageRound l.toLayout (a.len % l.word))) gs
                (t.released.foldl freeSpan s.space)).2 then
              some (start, start + pageRound l.toLayout (a.len % l.word)) else none⟩ := by
      rw [mmapShared, hdone]
      dsimp only
      rw [if_pos heager]
      exact ⟨_, hfill _, rfl⟩
    generalize fill t _ gs (t.released.foldl freeSpan s.space) = filled at hfills hall hout
    obtain ⟨m, complete⟩ := filled
    refine ⟨hlen, fun pg hpg => ?_, hclear, fun o ho => ?_⟩
    · rw [groupMmap, hout]
      exact (hfills.outside pg hpg).trans (hcleared pg hpg)
    rw [groupMmap, hout] at ho ⊢
    cases complete with
    | false =>
      dsimp only at ho
      rw [if_neg Bool.false_ne_true] at ho
      dsimp only at ho
      rw [hmm'] at ho
      exact .inl ((hkept o ho).imp_right fun hthere hp => hfills.keeps o.1 (hthere hp))
    | true =>
      rcases mem_own.mp ho with ⟨hpg, hi⟩ | ⟨hold, hpg⟩
      · exact .inr ⟨hi, hall rfl o.1 hpg⟩
      · refine .inl ⟨hold, present_of_pages ?_⟩
        exact (hfills.outside o.1 hpg).trans (hcleared o.1 hpg)

theorem groupMunmap_touches {addr len : Nat} (h : munmapOrderly l s i p addr len = true) :
    ∃ pgs, Touches i pgs s (groupMunmap l s i p addr len) := by
  have hlen : (groupMunmap l s i p addr len).members.length = s.members.length := length_set
  have hsame : munmapRange l.toLayout { p.mm with released := [] } addr len =
      munmapRange l.toLayout p.mm addr len := rfl
  unfold munmapOrderly at h
  cases hrange : munmapRange l.toLayout p.mm addr len with
  | error e =>
    have hcall : sysMunmap l.toLayout { p.mm with released := [] } addr len =
        ({ p.mm with released := [] }, .error e) := by rw [sysMunmap, hsame, hrange]
    refine ⟨[], .idle i hlen ?_ ?_⟩
    · rw [groupMunmap, munmapShared, hcall]
      rfl
    · rw [groupMunmap, munmapShared, hsame, hrange]
      rfl
  | ok range =>
    obtain ⟨lo, hi⟩ := range
    rw [hrange] at h
    obtain ⟨htails, hclear⟩ := and_eq_true_iff.mp h
    have hgiven := cutLoop_trims
      (fun s i r hslot hover => munmapCut_trims hslot hover (munmapRange_ok hrange).1.le)
      (List.range maxRegions) { p.mm with released := [] } (of_decide_eq_true htails)
    refine ⟨pageSpan lo hi, .disowned hlen (fun pg hpg => ?_) (clear_iff.mp hclear) ?_⟩
    · rw [groupMunmap, munmapShared, sysMunmap, hsame, hrange]
      refine pages_freeSpans fun q hq hmem => hpg ?_
      obtain ⟨hlo, hhi⟩ := (hgiven q hq).resolve_left not_mem_nil
      exact pageSpan_subset (munmapRange_aligned hrange) hlo hhi hmem
    · rw [groupMunmap, munmapShared, hsame, hrange]
      rfl

theorem sysBrk_touches {newBrk : Nat} (gs : List Grant) (h : brkOrderly l s i p newBrk = true) :
    ∃ pgs, Touches i pgs s (sysBrk l s i p newBrk gs) := by
  unfold brkOrderly at h
  unfold sysBrk
  by_cases hidle : brkIdle l p.heapEnd newBrk
  · rw [if_pos hidle]
    exact ⟨[], .idle i rfl rfl rfl⟩
  rw [if_neg hidle]
  rw [decide_eq_false hidle, Bool.false_or, clear_iff] at h
  unfold procBrkResize
  have hfills := heapFill_fills (grownPages p.heapEnd newBrk) gs s.space
  by_cases hshort : (heapFill (grownPages p.heapEnd newBrk) gs s.space).2 ≠ []
  · -- out of memory: the pages mapped so far are taken out again
    rw [if_pos hshort]
    refine ⟨grownPages p.heapEnd newBrk, .disowned rfl (fun pg hpg => ?_)
      (fun o ho hne hmem => h o ho hne (mem_append_left _ hmem)) rfl⟩
    exact (pages_freeUserPages fun hmem => hpg (mem_of_mem_take hmem)).trans (hfills.outside pg hpg)
  rw [if_neg hshort]
  have hall := heapFill_present (not_not.mp hshort)
  have hshrink : ∀ pg, pg ∉ grownPages newBrk p.heapEnd →
      ((grownPages newBrk p.heapEnd).foldl freeUserPage
        (heapFill (grownPages p.heapEnd newBrk) gs s.space).1).pages pg =
        (heapFill (grownPages p.heapEnd newBrk) gs s.space).1.pages pg :=
    fun pg hpg => pages_freeUserPages hpg
  refine ⟨_, length_set, fun pg hpg => ?_, h, fun o ho => ?_⟩
  · obtain ⟨hgrown, hshrunk⟩ := not_or.mp (mt mem_append.mpr hpg)
    exact (hshrink pg hshrunk).trans (hfills.outside pg hgrown)
  obtain ⟨howned, hkept⟩ := mem_disown.mp ho
  rcases mem_own.mp howned with ⟨hpg, hi⟩ | ⟨hold, hpg⟩
  · refine .inr ⟨hi, present_of_pages (hshrink o.1 fun hmem => hkept ⟨hi, hmem⟩) (hall o.1 hpg)⟩
  · refine .inl ⟨hold, present_of_pages ((hshrink o.1 fun hmem => ?_).trans (hfills.outside _ hpg))⟩
    exact h o hold (fun hi => hkept ⟨hi, hmem⟩) (mem_append_right _ hmem)

/-! ## Runs -/

/-- Every page with an owner has a member for it, and once there is more than one member it is
in the directory. -/
structure Settled (s : Group) : Prop where
  owners : ∀ o ∈ s.owned, o.2 < s.members.length
  present : 1 < s.members.length → ∀ o ∈ s.owned, s.space.present o.1 = true

theorem Touches.settled (h : Touches i pgs s t) (hi : i < s.members.length) (hs : Settled s) :
    Settled t := by
  refine ⟨fun o ho => ?_, fun hmany o ho => ?_⟩
  · rw [h.members]
    rcases h.owned o ho with ⟨hold, -⟩ | ⟨rfl, -⟩
    · exact hs.owners o hold
    · exact hi
  · rcases h.owned o ho with ⟨hold, hkept⟩ | ⟨-, hthere⟩
    · exact hkept (hs.present (h.members ▸ hmany) o hold)
    · exact hthere

/-- In a group of one a call may do anything with its own pages. -/
theorem settled_alone (halone : s.members.length ≤ 1)
    (hmembers : t.members.length = s.members.length)
    (howners : ∀ o ∈ t.owned, o.2 < t.members.length) : Settled t :=
  ⟨howners, fun hmany => absurd (hmembers ▸ hmany) (by omega)⟩

section

variable (l : SpaceLayout) (s : Group) (i : Nat) (p : Member)

theorem owners_mmap (a : MmapArgs) (gs : List Grant) :
    ∀ o ∈ (groupMmap l s i p a gs).owned, o ∈ s.owned ∨ o.2 = i := by
  intro o ho
  unfold groupMmap at ho
  dsimp only at ho
  split at ho
  · exact .inl (mem_disown.mp ho).1
  · exact (mem_own.mp ho).symm.imp And.left And.right

theorem owners_munmap (addr len : Nat) :
    ∀ o ∈ (groupMunmap l s i p addr len).owned, o ∈ s.owned ∨ o.2 = i := by
  intro o ho
  unfold groupMunmap at ho
  dsimp only at ho
  split at ho
  · exact .inl ho
  · exact .inl (mem_disown.mp ho).1

theorem owners_brk (newBrk : Nat) (gs : List Grant) :
    ∀ o ∈ (sysBrk l s i p newBrk gs).owned, o ∈ s.owned ∨ o.2 = i := by
  intro o ho
  unfold sysBrk at ho
  split at ho
  · exact .inl ho
  dsimp only at ho
  split at ho
  · exact (mem_own.mp (mem_disown.mp ho).1).symm.imp And.left And.right
  · exact .inl (mem_disown.mp ho).1

theorem length_sysBrk (newBrk : Nat) (gs : List Grant) :
    (sysBrk l s i p newBrk gs).members.length = s.members.length := by
  unfold sysBrk
  split
  · rfl
  dsimp only
  split
  · exact length_set
  · rfl

end

/-- A call that unmaps nothing and keeps the owners. -/
theorem Settled.keeps (hs : Settled s) (hmembers : t.members.length = s.members.length)
    (howned : t.owned = s.owned)
    (hkeeps : ∀ pg, s.space.present pg = true → t.space.present pg = true) : Settled t := by
  refine ⟨fun o ho => ?_, fun hmany o ho => ?_⟩
  · exact hmembers ▸ hs.owners o (howned ▸ ho)
  · exact hkeeps o.1 (hs.present (hmembers ▸ hmany) o (howned ▸ ho))

/-- What an orderly step is: a thread made when every mapped page is there, a call that unmaps
nothing, a call in a group of one, or a call on pages of its own. -/
theorem groupStep_cases (hord : orderly l s c = true) (hstep : groupStep l s c = some t) :
    (c.mapper = none ∧ (∀ o ∈ s.owned, s.space.present o.1 = true) ∧ t.space = s.space ∧
        t.owned = s.owned ∧ s.members.length ≤ t.members.length) ∨
    (c.mapper = none ∧ t.members.length = s.members.length ∧ t.owned = s.owned ∧
        ∀ pg, s.space.present pg = true → t.space.present pg = true) ∨
    ∃ i < s.members.length, (c.mapper = none ∨ c.mapper = some i) ∧
      (s.members.length ≤ 1 ∧ t.members.length = s.members.length ∧
          (∀ o ∈ t.owned, o ∈ s.owned ∨ o.2 = i) ∨
        ∃ pgs, Touches i pgs s t) := by
  cases c with
  | clone i =>
    obtain ⟨p, hp, rfl⟩ := map_eq_some_iff.mp hstep
    refine .inl ⟨rfl, all_eq_true.mp hord, rfl, rfl, ?_⟩
    rw [length_append]
    omega
  | mmap i a gs =>
    obtain ⟨p, hp, rfl⟩ := map_eq_some_iff.mp hstep
    refine .inr (.inr ⟨i, (List.getElem?_eq_some_iff.mp hp).1, .inr rfl, ?_⟩)
    rw [orderly, hp, or_eq_true] at hord
    refine hord.imp (fun halone => ⟨of_decide_eq_true halone, length_set, ?_⟩)
      (groupMmap_touches gs)
    exact owners_mmap l s i p a gs
  | munmap i addr len =>
    obtain ⟨p, hp, rfl⟩ := map_eq_some_iff.mp hstep
    refine .inr (.inr ⟨i, (List.getElem?_eq_some_iff.mp hp).1, .inl rfl, ?_⟩)
    rw [orderly, hp, or_eq_true] at hord
    refine hord.imp (fun halone => ⟨of_decide_eq_true halone, length_set, ?_⟩) groupMunmap_touches
    exact owners_munmap l s i p addr len
  | brk i newBrk gs =>
    obtain ⟨p, hp, rfl⟩ := map_eq_some_iff.mp hstep
    refine .inr (.inr ⟨i, (List.getElem?_eq_some_iff.mp hp).1, .inr rfl, ?_⟩)
    rw [orderly, hp, or_eq_true] at hord
    refine hord.imp (fun halone => ⟨of_decide_eq_true halone, length_sysBrk .., ?_⟩)
      (sysBrk_touches gs)
    exact owners_brk l s i p _ gs
  | mprotect i addr len prot gs =>
    obtain ⟨p, hp, rfl⟩ := map_eq_some_iff.mp hstep
    exact .inr (.inl ⟨rfl, length_set, rfl,
      fun pg hpg => sysMprotect_keeps l.toLayout s.space p.mm addr len prot gs hpg⟩)
  | fault i addr write g =>
    obtain ⟨p, hp, rfl⟩ := map_eq_some_iff.mp hstep
    exact .inr (.inl ⟨rfl, rfl, rfl,
      fun pg hpg => pageFault_keeps l.toLayout s.space p.mm addr write g hpg⟩)

theorem groupStep_settled (s : Group) (c : GroupCall) (t : Group) (hs : Settled s)
    (hord : orderly l s c = true) (hstep : groupStep l s c = some t) : Settled t := by
  rcases groupStep_cases hord hstep with
    ⟨-, hthere, hspace, howned, hmembers⟩ | ⟨-, hmembers, howned, hkeeps⟩ |
    ⟨i, hi, -, ⟨halone, hmembers, howners⟩ | ⟨pgs, htouches⟩⟩
  · refine ⟨fun o ho => ?_, fun _ o ho => ?_⟩
    · exact (hs.owners o (howned ▸ ho)).trans_le hmembers
    · exact hspace ▸ hthere o (howned ▸ ho)
  · exact hs.keeps hmembers howned hkeeps
  · refine settled_alone halone hmembers fun o ho => ?_
    rw [hmembers]
    rcases howners o ho with hold | rfl
    · exact hs.owners o hold
    · exact hi
  · exact htouches.settled hi hs

theorem groupStep_keepsPages (hs : Settled s) (hord : orderly l s c = true) : KeepsPages l s c := by
  intro i hmapper t hstep o ho hne
  rcases groupStep_cases hord hstep with
    ⟨hnone, -⟩ | ⟨hnone, -⟩ | ⟨k, hk, hcaller, hcall⟩
  · cases hnone.symm.trans hmapper
  · cases hnone.symm.trans hmapper
  obtain rfl : k = i := by
    rcases hcaller with hnone | hsome
    · cases hnone.symm.trans hmapper
    · exact some.inj (hsome.symm.trans hmapper)
  rcases hcall with ⟨halone, -⟩ | ⟨pgs, htouches⟩
  · -- the only member owns every page
    have howner := hs.owners o ho
    omega
  · exact htouches.outside o.1 (htouches.foreign o ho hne)

theorem Settled.agree (hs : Settled s) : Agree l s := by
  intro addr i ho j p hj hne
  have hi := hs.owners _ ho
  obtain ⟨hj', -⟩ := List.getElem?_eq_some_iff.mp hj
  exact .inl (hs.present (by dsimp only at hi; omega) _ ho)

/-- **The members of an orderly group agree.**  Start with a process alone in its address space,
whatever it has mapped.  In every run of orderly calls, every address a member has mapped is
resolved for every other member, and no `mmap` or `brk` changes a page another member has
mapped. -/
theorem group_agrees (l : SpaceLayout) (s₀ : Group) (halone : s₀.members.length = 1)
    (howners : ∀ o ∈ s₀.owned, o.2 = 0) (calls : List GroupCall)
    (hord : AllSteps (groupStep l) (fun s c => orderly l s c = true) s₀ calls)
    (s : Group) (run : exec (groupStep l) s₀ calls = some s) :
    Agree l s ∧ AllSteps (groupStep l) (KeepsPages l) s₀ calls := by
  have hstart : Settled s₀ :=
    ⟨fun o ho => by rw [howners o ho, halone]; decide, fun hmany => absurd hmany (by omega)⟩
  refine ⟨(exec_invariant groupStep_settled hstart hord run).agree, ?_⟩
  refine allSteps_iff.mpr fun pre c post t hcalls hpre => ?_
  subst hcalls
  have ht : Settled t := exec_invariant groupStep_settled hstart hord.left hpre
  exact groupStep_keepsPages ht (allSteps_iff.mp hord pre c post t rfl hpre)

/-- A process just after `exec`, with the pages of its image. -/
def Group.start (l : SpaceLayout) (image : Nat → Option Page) : Group :=
  ⟨[⟨.fresh l.toLayout, l.heapStart⟩], ⟨image, []⟩, []⟩

/-- Map anonymous pages at the address given, or where the cursor stands for address zero. -/
def anonymous (addr pages : Nat) : MmapArgs :=
  ⟨addr, pages * 4096, 3, MAP_PRIVATE ||| MAP_ANONYMOUS ||| if addr = 0 then 0 else MAP_FIXED,
    .notOpen, 0, true⟩

/-- On the i386, where pages are filled at once: the creator maps two pages, grows the heap and
makes a thread, which maps two pages of its own; each then unmaps a page of its own. -/
def apartThreads : List GroupCall :=
  [.mmap 0 (anonymous 0 2) [.page 1, .page 2], .brk 0 0x40001000 [.page 3], .clone 0,
    .mmap 1 (anonymous 0x60000000 2) [.page 4, .page 5], .munmap 0 0x50000000 4096,
    .munmap 1 0x60001000 4096, .mprotect 0 0x50001000 4096 1 []]

theorem group_agrees_apart_threads :
    ∃ s, exec (groupStep i386Space) (.start i386Space fun _ => none) apartThreads = some s ∧
      s.owned = [(0x60000, 1), (0x40000, 0), (0x50001, 0)] ∧ Agree i386Space s ∧
      AllSteps (groupStep i386Space) (KeepsPages i386Space)
        (.start i386Space fun _ => none) apartThreads :=
  exists_run_and (by decide +kernel) fun s hrun _ => group_agrees i386Space _ rfl
    (fun o ho => absurd ho not_mem_nil) apartThreads (by decide +kernel) s hrun

/-- On the amd64: a process makes a thread and grows the heap by a page; the thread, whose break
is still the old one, does the same; then the process maps a page. -/
def sharedThreads : List GroupCall :=
  [.clone 0, .brk 0 0x40001000 [.page 1], .brk 1 0x40001000 [.page 2], .mmap 0 (anonymous 0 1) []]

/-- The thread's break replaces the page of the process, and the page the process maps is not
resolved for the thread. -/
theorem members_disagree :
    ∃ s, exec (groupStep amd64Space) (.start amd64Space fun _ => none) sharedThreads = some s ∧
      ¬ Agree amd64Space s ∧
      ¬ AllSteps (groupStep amd64Space) (KeepsPages amd64Space)
        (.start amd64Space fun _ => none) sharedThreads := by
  refine exists_run (A := fun s => (0x50000, 0) ∈ s.owned ∧ ∃ p ∈ s.members[1]?,
    ¬ resolves amd64 s.space p.mm 0x50000000) (by decide +kernel) ?_
  rintro s - ⟨howned, p, hp, hunresolved⟩
  refine ⟨fun hagree => hunresolved (hagree 0x50000000 0 howned 1 p hp (by decide)),
    fun hkeeps => ?_⟩
  obtain ⟨u, hu, howner, t, ht, hframe⟩ : ∃ u ∈ exec (groupStep amd64Space)
      (.start amd64Space fun _ => none) (sharedThreads.take 2), (0x40000, 0) ∈ u.owned ∧
      ∃ t ∈ groupStep amd64Space u (.brk 1 0x40001000 [.page 2]),
        (t.space.pages 0x40000).map Page.frame ≠ (u.space.pages 0x40000).map Page.frame := by
    decide +kernel
  exact hframe (congrArg _ (allSteps_iff.mp hkeeps (sharedThreads.take 2)
    (.brk 1 0x40001000 [.page 2]) (sharedThreads.drop 3) u rfl hu 1 rfl t ht (0x40000, 0) howner
    (by decide)))

end ArcKernel.Mmap
