import ArcKernel.Mmap.Regions

/-!
# Vnode references of mappings

A used region backed by a file holds one reference on its vnode.  `surplus` is how far
the count of a vnode is above the regions of one table that account for it.  The calls on
region tables keep it, with one exception: `sys_mmap` takes its reference before it looks
at the place of the mapping, and returns with it when the place is refused.
-/

namespace ArcKernel.Fd

open ArcKernel.Foundation ArcKernel.Mmap List Option Function

variable {l : List MmapRegion} {s t : MmapState} {r q : MmapRegion} {i lo hi v : Nat}

/-- How many used regions are on the vnode. -/
def mappedBy (l : List MmapRegion) (v : Nat) : Nat :=
  l.countP fun r => r.used && decide (r.vnode = some v)

/-- References on the vnode beyond those of the table's regions. -/
def surplus (s : MmapState) (v : Nat) : Int := s.refs v - mappedBy s.regions v

/-- The reference a file takes. -/
def one (o : Option Nat) (v : Nat) : Int := if o = some v then 1 else 0

/-- One element of a list is replaced: the regions of the others stay. -/
theorem mappedBy_flatMap_set {α : Type} {l : List α} {x : α} (f : α → List MmapRegion)
    (hslot : l[i]? = some x) (y : α) (v : Nat) :
    mappedBy ((l.set i y).flatMap f) v + mappedBy (f x) v =
      mappedBy (l.flatMap f) v + mappedBy (f y) v := by
  induction l generalizing i with
  | nil => cases hslot
  | cons z l ih =>
    cases i with
    | zero =>
      cases hslot
      simp only [mappedBy, set_cons_zero, flatMap_cons, countP_append]
      omega
    | succ i =>
      have hrest := ih hslot
      simp only [mappedBy, set_cons_succ, flatMap_cons, countP_append] at hrest ⊢
      omega

theorem mappedBy_set (hslot : l[i]? = some r) (q : MmapRegion) (v : Nat) :
    mappedBy (l.set i q) v + mappedBy [r] v = mappedBy l v + mappedBy [q] v := by
  simpa using mappedBy_flatMap_set (fun r => [r]) hslot q v

theorem mappedBy_used (hused : r.used = true) (v : Nat) :
    (mappedBy [r] v : Int) = one r.vnode v := by
  rw [mappedBy, countP_singleton, hused, one]
  simp

theorem mappedBy_unused (hused : r.used = false) (v : Nat) : mappedBy [r] v = 0 := by
  rw [mappedBy, countP_singleton, hused]
  rfl

theorem surplus_setRegion (hslot : s.regions[i]? = some r) (q : MmapRegion) (v : Nat) :
    surplus (s.setRegion i q) v + mappedBy [q] v = surplus s v + mappedBy [r] v := by
  have hset := mappedBy_set hslot q v
  simp only [surplus, MmapState.setRegion]
  omega

theorem surplus_vnodeRef (s : MmapState) (o : Option Nat) (v : Nat) :
    surplus (s.vnodeRef o) v = surplus s v + one o v := by
  cases o with
  | none => simp [MmapState.vnodeRef, one]
  | some w =>
    simp only [surplus, MmapState.vnodeRef, one]
    rcases eq_or_ne w v with rfl | hne
    · rw [update_self, if_pos rfl]
      ring
    · rw [update_of_ne hne.symm, if_neg fun h => hne (some.inj h)]
      ring

theorem surplus_vnodePut (s : MmapState) (o : Option Nat) (v : Nat) :
    surplus (s.vnodePut o) v = surplus s v - one o v := by
  cases o with
  | none => simp [MmapState.vnodePut, one]
  | some w =>
    simp only [surplus, MmapState.vnodePut, one]
    rcases eq_or_ne w v with rfl | hne
    · rw [update_self, if_pos rfl]
      ring
    · rw [update_of_ne hne.symm, if_neg fun h => hne (some.inj h)]
      ring

/-- A region that keeps its file changes no count. -/
theorem surplus_edit (hslot : s.regions[i]? = some r) (hr : r.used = true) (hq : q.used = true)
    (hfile : q.vnode = r.vnode) : surplus (s.setRegion i q) v = surplus s v := by
  have hset := surplus_setRegion hslot q v
  rw [mappedBy_used hr, mappedBy_used hq, hfile] at hset
  omega

theorem surplus_regionSlotFree (hslot : s.regions[i]? = some r) (hr : r.used = true) (v : Nat) :
    surplus (regionSlotFree s i r) v = surplus s v := by
  have hput : (s.vnodePut r.vnode).regions[i]? = some r := by cases hv : r.vnode <;> exact hslot
  have hset := surplus_setRegion hput { r with vnode := none, used := false } v
  rw [mappedBy_used hr, mappedBy_unused rfl, surplus_vnodePut] at hset
  rw [regionSlotFree]
  omega

theorem slotAlloc_unused {j : Nat} (h : regionSlotAlloc s = some j) :
    ∃ q, s.regions[j]? = some q ∧ q.used = false := by
  obtain ⟨hj, hfree, -⟩ := findIdx?_eq_some_iff_getElem.mp h
  exact ⟨_, getElem?_eq_getElem hj, by simpa using hfree⟩

/-- A region in a free slot is on the vnode it names; the others stay where they are. -/
theorem surplus_fill {j : Nat} (h : regionSlotAlloc s = some j) (hq : q.used = true) (v : Nat) :
    surplus (s.setRegion j q) v = surplus s v - one q.vnode v ∧
      ∀ (i : Nat) r, s.regions[i]? = some r → r.used = true →
        (s.setRegion j q).regions[i]? = some r := by
  obtain ⟨free, hslot, hfree⟩ := slotAlloc_unused h
  have hset := surplus_setRegion hslot q v
  rw [mappedBy_used hq, mappedBy_unused hfree] at hset
  refine ⟨by omega, fun i r hr hused => ?_⟩
  have hne : j ≠ i := by
    rintro rfl
    cases hslot.symm.trans hr
    exact absurd hused (by rw [hfree]; exact Bool.false_ne_true)
  rw [MmapState.setRegion, getElem?_set_ne hne]
  exact hr

theorem surplus_regionAdd {start len : Nat} {prot flags : BitVec 32} {vp : Option Nat}
    {offset : BitVec 64} (h : regionAdd s start len prot flags vp offset = some t) (v : Nat) :
    surplus t v = surplus s v - one vp v ∧
      ∀ (i : Nat) r, s.regions[i]? = some r → r.used = true → t.regions[i]? = some r := by
  obtain ⟨j, hj, rfl⟩ := map_eq_some_iff.mp h
  exact surplus_fill (q := ⟨start, len, prot, flags, vp, offset, true⟩) hj rfl v

/-! ## The calls on one table -/

theorem getElem?_vnodeRef (o : Option Nat) : (s.vnodeRef o).regions[i]? = s.regions[i]? := by
  cases o <;> rfl

section

variable (hslot : s.regions[i]? = some r) (hr : r.used = true) (v : Nat)
include hslot hr

theorem surplus_mmapCut : surplus (mmapCut lo hi s i r) v = surplus s v := by
  unfold mmapCut
  dsimp only
  -- the pages given back are no part of the count
  have hpages : (s.freeUserPages (max lo r.start) (min hi r.stop)).regions[i]? = some r := hslot
  change _ = surplus (s.freeUserPages (max lo r.start) (min hi r.stop)) v
  split
  · exact surplus_regionSlotFree hpages hr v
  split
  · exact surplus_edit hpages hr hr rfl
  split
  · exact surplus_edit hpages hr hr rfl
  split
  · rename_i j hj
    obtain ⟨hfill, hkept⟩ := surplus_fill (q := { r with
      start := min hi r.stop, len := r.stop - min hi r.stop,
      offset := r.offset + BitVec.ofNat 64 (min hi r.stop - r.start), used := true }) hj rfl v
    have hpages' := (getElem?_vnodeRef r.vnode).trans (hkept i r hpages hr)
    refine Eq.trans (surplus_edit hpages' hr (by exact hr) (by rfl)) ?_
    rw [surplus_vnodeRef, hfill, sub_add_cancel]
  · exact surplus_edit (s := s.freeUserPages _ _) hpages hr hr rfl

theorem surplus_munmapCut : surplus (munmapCut lo hi s i r) v = surplus s v := by
  unfold munmapCut
  dsimp only
  have hpages : (s.freeUserPages (max lo r.start) (min hi r.stop)).regions[i]? = some r := hslot
  change _ = surplus (s.freeUserPages (max lo r.start) (min hi r.stop)) v
  generalize s.freeUserPages (max lo r.start) (min hi r.stop) = s at hpages ⊢
  split
  · exact surplus_regionSlotFree hpages hr v
  split
  · exact surplus_edit hpages hr hr rfl
  split
  · exact surplus_edit hpages hr hr rfl
  split
  · exact surplus_regionSlotFree (s := s.freeUserPages _ _) hpages hr v
  · rename_i t hadd
    obtain ⟨hfill, hkept⟩ := surplus_regionAdd hadd v
    have hpages' := (getElem?_vnodeRef r.vnode).trans (hkept i r hpages hr)
    refine Eq.trans (surplus_edit hpages' hr (by exact hr) (by rfl)) ?_
    rw [surplus_vnodeRef, hfill, sub_add_cancel]

end

/-- A walk over the table keeps what its cut keeps. -/
theorem surplus_cutLoop {cut : MmapState → Nat → MmapRegion → MmapState}
    (hcut : ∀ s i r, s.regions[i]? = some r → r.used = true → surplus (cut s i r) v = surplus s v)
    (slots : List Nat) (s : MmapState) : surplus (cutLoop cut lo hi slots s) v = surplus s v := by
  induction slots generalizing s with
  | nil => rfl
  | cons i rest ih =>
    rw [cutLoop]
    split
    · exact ih s
    rename_i r hslot
    refine (ih _).trans ?_
    split
    · rename_i hover
      exact hcut s i r hslot hover.1
    · rfl

/-- A file whose mapping passes the checks is mapped inside the user's addresses. -/
def PlaceAccepted (l : Layout) (s : MmapState) (a : MmapArgs) : Prop :=
  match mmapCheck l a with
  | .ok (pagelen, some _) =>
      l.userBase ≤ mmapPlace l s.cursor a ∧ mmapPlace l s.cursor a + pagelen ≤ l.stackTop
  | _ => True

instance (l : Layout) (s : MmapState) (a : MmapArgs) : Decidable (PlaceAccepted l s a) := by
  unfold PlaceAccepted
  split <;> infer_instance

theorem surplus_sysMmap {l : Layout} {a : MmapArgs} (hplace : PlaceAccepted l s a) (v : Nat) :
    surplus (sysMmap l s a).1 v = surplus s v := by
  unfold sysMmap
  split
  · rfl
  rename_i pagelen vp hcheck
  -- a mapping without a file has taken no reference
  have hrefused : ∀ hbad : mmapPlace l s.cursor a < l.userBase ∨
      l.stackTop < mmapPlace l s.cursor a + pagelen, surplus (s.vnodeRef vp) v = surplus s v := by
    intro hbad
    cases vp with
    | none => rfl
    | some w =>
      rw [PlaceAccepted, hcheck] at hplace
      omega
  have hcursor : (s.vnodeRef vp).cursor = s.cursor := by cases vp <;> rfl
  dsimp only
  rw [hcursor]
  split
  · exact hrefused (.inl ‹_›)
  split
  · exact hrefused (.inr ‹_›)
  split
  · rw [surplus_vnodePut, surplus_vnodeRef, add_sub_cancel_right]
  have hwalk : ∀ lo hi, surplus (cutLoop (mmapCut lo hi) lo hi (List.range maxRegions)
      (s.vnodeRef vp)) v = surplus s v + one vp v := fun lo hi =>
    (surplus_cutLoop (fun _ _ _ hslot hr => surplus_mmapCut hslot hr v) _ _).trans
      (surplus_vnodeRef s vp v)
  split
  · rw [surplus_vnodePut, hwalk, add_sub_cancel_right]
  · rename_i t hadd
    have hadd := (surplus_regionAdd hadd v).1
    rw [hwalk, add_sub_cancel_right] at hadd
    split <;> exact hadd

theorem surplus_sysMunmap (l : Layout) (s : MmapState) (addr len v : Nat) :
    surplus (sysMunmap l s addr len).1 v = surplus s v := by
  unfold sysMunmap
  split
  · rfl
  · exact surplus_cutLoop (fun _ _ _ hslot hr => surplus_munmapCut hslot hr v) _ s

theorem surplus_mmapTeardown (l : Layout) (s : MmapState) (v : Nat) :
    surplus (mmapTeardown l s) v = surplus s v := by
  unfold mmapTeardown
  generalize List.range maxRegions = slots
  induction slots generalizing s with
  | nil => rfl
  | cons i rest ih =>
    refine (ih _).trans ?_
    dsimp only
    split
    · rename_i r hslot
      split
      · exact surplus_regionSlotFree hslot ‹_› v
      · rfl
    · rfl

/-- A region that is copied takes its own reference. -/
theorem surplus_mmapFork (parent child : MmapState) (v : Nat) :
    surplus (mmapFork parent child) v = surplus child v := by
  unfold mmapFork
  generalize parent.regions = regions
  induction regions generalizing child with
  | nil => rfl
  | cons r regions ih =>
    refine (ih _).trans ?_
    unfold mmapForkOne
    split
    · split
      · rfl
      · rename_i d hadd
        rw [surplus_vnodeRef, (surplus_regionAdd hadd v).1, sub_add_cancel]
    · rfl

/-- The region table of a process just allocated. -/
def freshRegions (refs : Nat → Int) : MmapState := ⟨List.replicate maxRegions .zero, 0, refs, []⟩

theorem surplus_fresh (refs : Nat → Int) (v : Nat) : surplus (freshRegions refs) v = refs v := by
  exact sub_zero _

/-! ## All processes -/

/-- The region tables of the processes, which share the counts of the vnodes. -/
structure MapSys where
  tables : List MmapState
  refs : Nat → Int

/-- How many used regions of all processes are on the vnode. -/
def MapSys.mapped (sys : MapSys) (v : Nat) : Nat := mappedBy (sys.tables.flatMap (·.regions)) v

/-- A call of the process in slot `p` on its own table. -/
def MapSys.call (sys : MapSys) (p : Nat) (f : MmapState → MmapState) : Option MapSys :=
  sys.tables[p]?.map fun t =>
    ⟨sys.tables.set p (f { t with refs := sys.refs }), (f { t with refs := sys.refs }).refs⟩

/-- `proc_fork` and `proc_execve` may fail before they come to the region table. -/
inductive MapCall where
  | mmap (p : Nat) (a : MmapArgs)
  | munmap (p addr len : Nat)
  | fork (p : Nat) (reached : Bool)
  | exec (p : Nat) (reached : Bool)
  | exit (p : Nat)

def mapStep (l : Layout) (sys : MapSys) : MapCall → Option MapSys
  | .mmap p a => sys.call p fun t => (sysMmap l t a).1
  | .munmap p addr len => sys.call p fun t => (sysMunmap l t addr len).1
  | .fork p reached =>
      sys.tables[p]?.map fun t =>
        if reached then
          ⟨sys.tables ++ [mmapFork t (freshRegions sys.refs)],
            (mmapFork t (freshRegions sys.refs)).refs⟩
        else sys
  | .exec p reached => sys.call p fun t => if reached then mmapTeardown l t else t
  | .exit p => sys.call p (mmapTeardown l)

/-- No file mapping that passes the checks on its arguments is refused for its place. -/
def Accepted (l : Layout) (sys : MapSys) : MapCall → Prop
  | .mmap p a => ∀ t ∈ sys.tables[p]?, PlaceAccepted l t a
  | _ => True

instance : ∀ l sys c, Decidable (Accepted l sys c)
  | l, sys, .mmap p a => inferInstanceAs (Decidable (∀ t ∈ sys.tables[p]?, PlaceAccepted l t a))
  | _, _, .munmap .. | _, _, .fork .. | _, _, .exec .. | _, _, .exit .. => isTrue trivial

/-- The first process, before it has mapped anything. -/
def MapSys.start : MapSys := ⟨[freshRegions fun _ => 0], fun _ => 0⟩

/-- Every reference owed to a mapping is that of a used region. -/
def MapSys.Balanced (sys : MapSys) : Prop := ∀ v, sys.refs v = sys.mapped v

theorem call_balanced {sys sys' : MapSys} {p : Nat} {f : MmapState → MmapState}
    (hstep : sys.call p f = some sys')
    (hf : ∀ t ∈ sys.tables[p]?, ∀ v, surplus (f { t with refs := sys.refs }) v =
      surplus { t with refs := sys.refs } v) (h : sys.Balanced) : sys'.Balanced := by
  intro v
  obtain ⟨t, hslot, rfl⟩ := map_eq_some_iff.mp hstep
  have hkept := hf t hslot v
  have hset := mappedBy_flatMap_set (·.regions) hslot (f { t with refs := sys.refs }) v
  have hold := h v
  simp only [surplus, MapSys.mapped] at hkept hset hold ⊢
  omega

theorem mapStep_balanced {l : Layout} (sys : MapSys) (c : MapCall) (sys' : MapSys)
    (h : sys.Balanced) (hok : Accepted l sys c) (hstep : mapStep l sys c = some sys') :
    sys'.Balanced := by
  cases c with
  | mmap p a =>
    exact call_balanced (f := fun t => (sysMmap l t a).1) hstep
      (fun t ht v => surplus_sysMmap (s := { t with refs := sys.refs }) (hok t ht) v) h
  | munmap p addr len =>
    exact call_balanced (f := fun t => (sysMunmap l t addr len).1) hstep
      (fun t _ v => surplus_sysMunmap l _ addr len v) h
  | fork p reached =>
    obtain ⟨t, -, rfl⟩ := map_eq_some_iff.mp hstep
    split
    · intro v
      have hchild := (surplus_mmapFork t (freshRegions sys.refs) v).trans (surplus_fresh sys.refs v)
      have hold := h v
      simp only [surplus, MapSys.mapped, mappedBy, flatMap_append, flatMap_singleton,
        countP_append] at hchild hold ⊢
      omega
    · exact h
  | exec p reached =>
    refine call_balanced (f := fun t => if reached then mmapTeardown l t else t) hstep
      (fun t _ v => ?_) h
    split
    · exact surplus_mmapTeardown l _ v
    · rfl
  | exit p =>
    exact call_balanced (f := mmapTeardown l) hstep (fun t _ v => surplus_mmapTeardown l _ v) h

/-- **References of mappings.**  In every run in which no file mapping is refused for its
place, the references a vnode owes to mappings are as many as the used regions of all
processes that it backs. -/
theorem mapping_references_balanced (l : Layout) (calls : List MapCall) (sys : MapSys)
    (hrun : exec (mapStep l) MapSys.start calls = some sys)
    (hok : AllSteps (mapStep l) (Accepted l) MapSys.start calls) : sys.Balanced := by
  refine exec_invariant mapStep_balanced (fun v => ?_) hok hrun
  have hstart := surplus_fresh (fun _ => 0) v
  simp only [surplus, freshRegions] at hstart
  simp only [MapSys.start, MapSys.mapped, flatMap_singleton, freshRegions]
  omega

/-- A page of the file `v`, where the cursor stands or at a fixed address. -/
def filePage (addr v : Nat) (flags : BitVec 32) : MmapArgs :=
  ⟨addr, 4096, 1, flags, .file v, 0, true⟩

/-- A file is mapped, the process forks, and the child unmaps its copy and exits. -/
theorem mapping_references_forked :
    ∃ sys, exec (mapStep amd64) MapSys.start [.exec 0 true, .mmap 0 (filePage 0 7 MAP_PRIVATE),
        .fork 0 true, .munmap 1 0x50000000 4096, .exit 1] = some sys ∧
      sys.Balanced ∧ sys.refs 7 = 1 := by
  have hok : AllSteps (mapStep amd64) (Accepted amd64) MapSys.start [.exec 0 true,
      .mmap 0 (filePage 0 7 MAP_PRIVATE), .fork 0 true, .munmap 1 0x50000000 4096, .exit 1] := by
    decide +kernel
  exact ⟨_, rfl, mapping_references_balanced amd64 _ _ rfl hok, by decide +kernel⟩

/-- A file mapped at an address below the user's: the call fails and keeps its reference. -/
theorem refused_place_keeps_reference : ∃ sys, exec (mapStep amd64) MapSys.start
        [.mmap 0 (filePage 0x1000 7 (MAP_PRIVATE ||| MAP_FIXED))] = some sys ∧
      sys.mapped 7 = 0 ∧ sys.refs 7 = 1 :=
  ⟨_, rfl, by decide +kernel, by decide +kernel⟩

end ArcKernel.Fd
