import ArcKernel.Mmap.Replay

/-!
# Runs of `mmap` and `munmap`

The abstract map takes an address to its backing, if it is mapped.  A successful call has
an effect on that map, and a run is compared with the replay of the effects of its
successful calls.

The two agree while the calls are benign: the table can hold the pieces a call leaves,
`sys_munmap` does not cut the front off a file mapping, and no eager mapping runs out of
pages.
-/

namespace ArcKernel.Mmap

open ArcKernel.Foundation List Option BitVec

variable {s t : MmapState} {len addr hi lo start : Nat} {vp : Option Nat} {offset : BitVec 64}

/-! ## The abstract map -/

abbrev AddrMap := Nat → Option Backing

/-- The backing at an address, from that of address zero. -/
def Backing.at (b : Backing) (a : Nat) : Backing := b.map fun p => (p.1, p.2 + BitVec.ofNat 64 a)

/-- What a successful call does. -/
inductive Effect where
  | mapped (lo hi : Nat) (file : Option Nat) (offset : BitVec 64)
  | unmapped (lo hi : Nat)
  deriving DecidableEq

def Effect.apply (m : AddrMap) (e : Effect) (a : Nat) : Option Backing :=
  match e with
  | .mapped lo hi file offset =>
      if lo ≤ a ∧ a < hi then some (file.map fun v => (v, offset + BitVec.ofNat 64 (a - lo)))
      else m a
  | .unmapped lo hi => if lo ≤ a ∧ a < hi then none else m a

def replay (effects : List Effect) : AddrMap := effects.foldl Effect.apply fun _ => none

/-- The map the table holds, as a page fault would find it. -/
def backing (s : MmapState) : AddrMap := fun a =>
  (mmapRegionFind s a).map fun r =>
    r.vnode.map fun v => (v, r.offset + BitVec.ofNat 64 (a - r.start))

/-- The extents hold the map. -/
structure Holds (l : List (Extent Backing)) (m : AddrMap) : Prop where
  mapped : ∀ a b, Maps l a b → m a = some (b.at a)
  unmapped : ∀ a, (∀ b, ¬ Maps l a b) → m a = none

section

variable {l l' : List (Extent Backing)} {m m' : AddrMap}

theorem Holds.unique (h : Holds l m) (h' : Holds l m') : m = m' := by
  funext a
  by_cases hmaps : ∃ b, Maps l a b
  · obtain ⟨b, hb⟩ := hmaps
    rw [h.mapped a b hb, h'.mapped a b hb]
  · have hnone := not_exists.mp hmaps
    rw [h.unmapped a hnone, h'.unmapped a hnone]

theorem Holds.perm (h : Holds l m) (hperm : l.Perm l') : Holds l' m :=
  ⟨fun a b hb => h.mapped a b ((Maps.perm hperm).mpr hb),
    fun a ha => h.unmapped a fun b hb => ha b ((Maps.perm hperm).mp hb)⟩

/-- Carving is unmapping. -/
theorem Holds.unmap (h : Holds l m) :
    Holds (l.flatMap (carve lo hi)) (Effect.apply m (.unmapped lo hi)) := by
  constructor
  · intro a b hb
    obtain ⟨hb', hout⟩ := maps_flatMap_carve.mp hb
    exact (if_neg hout).trans (h.mapped a b hb')
  · intro a ha
    by_cases hin : lo ≤ a ∧ a < hi
    · exact if_pos hin
    · refine (if_neg hin).trans (h.unmapped a fun b hb => ?_)
      exact ha b (maps_flatMap_carve.mpr ⟨hb, hin⟩)

/-- An extent on a carved range is a mapping of it. -/
theorem Holds.map (h : Holds l m) (file : Option Nat) (offset : BitVec 64) :
    Holds (⟨lo, hi, file.map fun v => (v, offset - BitVec.ofNat 64 lo)⟩ ::
        l.flatMap (carve lo hi)) (Effect.apply m (.mapped lo hi file offset)) := by
  constructor
  · intro a b hb
    rcases maps_cons.mp hb with ⟨hin, rfl⟩ | hb'
    · refine (if_pos hin).trans ?_
      cases file with
      | none => rfl
      | some v =>
        have hshift : offset - BitVec.ofNat 64 lo + BitVec.ofNat 64 a =
            offset + BitVec.ofNat 64 (a - lo) := by
          have := offset_shift offset hin.1
          rw [← this]
          ring
        simp only [Backing.at, Option.map_some, hshift]
    · obtain ⟨hb', hout⟩ := maps_flatMap_carve.mp hb'
      exact (if_neg hout).trans (h.mapped a b hb')
  · intro a ha
    have hout : ¬ (lo ≤ a ∧ a < hi) := fun hin => ha _ (maps_cons.mpr (.inl ⟨hin, rfl⟩))
    refine (if_neg hout).trans (h.unmapped a fun b hb => ?_)
    exact ha b (maps_cons.mpr (.inr (maps_flatMap_carve.mpr ⟨hb, hout⟩)))

end

theorem mem_extents {e : Extent Backing} :
    e ∈ s.extents ↔ ∃ r ∈ s.regions, r.used = true ∧ e = ⟨r.start, r.stop, r.base⟩ := by
  rw [MmapState.extents, mem_filterMap]
  refine exists_congr fun r => and_congr_right fun _ => ?_
  rw [MmapRegion.extent]
  cases r.used with
  | false => simp
  | true => simp [eq_comm]

/-- Extents of a table that share an address are one extent. -/
theorem eq_of_has {l : List (Extent Backing)} (hapart : l.Pairwise Extent.Apart)
    {e f : Extent Backing} (he : e ∈ l) (hf : f ∈ l) {a : Nat} (hea : e.Has a) (hfa : f.Has a) :
    e = f := by
  by_contra hne
  have hsym : Std.Symm (@Extent.Apart Backing) := ⟨fun _ _ => Extent.Apart.symm⟩
  have hsep := hapart.forall he hf hne
  unfold Extent.Apart at hsep
  unfold Extent.Has at hea hfa
  omega

/-- The lookup of the source reads the map the extents hold. -/
theorem holds_backing (hapart : s.extents.Pairwise Extent.Apart) : Holds s.extents (backing s) := by
  constructor
  · rintro a b ⟨e, he, hea, rfl⟩
    cases hfind : mmapRegionFind s a with
    | none =>
      obtain ⟨r, hr, hused, rfl⟩ := mem_extents.mp he
      have hmiss := List.find?_eq_none.mp hfind r hr
      simp only [hused, Bool.true_and, decide_eq_true_eq] at hmiss
      exact absurd hea hmiss
    | some r =>
      have hr := mem_of_find?_eq_some hfind
      have hhit := List.find?_some hfind
      simp only [Bool.and_eq_true, decide_eq_true_eq] at hhit
      obtain ⟨hused, hstart, hstop⟩ := hhit
      have hmem := mem_extents.mpr ⟨r, hr, hused, rfl⟩
      obtain rfl := eq_of_has hapart he hmem hea ⟨hstart, hstop⟩
      rw [backing, hfind]
      simp only [Option.map_some, MmapRegion.base, Backing.at, Option.map_map]
      congr 2
      funext v
      simp only [Function.comp_apply, Prod.mk.injEq, true_and]
      rw [← offset_shift r.offset hstart]
      ring
  · intro a hnone
    rw [backing, map_eq_none_iff]
    refine find?_eq_none.mpr fun r hr hhit => ?_
    simp only [Bool.and_eq_true, decide_eq_true_eq] at hhit
    exact hnone _ ⟨_, mem_extents.mpr ⟨r, hr, hhit.1, rfl⟩, hhit.2, rfl⟩

/-! ## The two calls -/

/-- The table can hold `extra` regions beside what is left without the range. -/
def Fits (s : MmapState) (lo hi extra : Nat) : Prop :=
  (s.extents.flatMap (carve lo hi)).length + extra ≤ maxRegions

instance (s : MmapState) (lo hi extra : Nat) : Decidable (Fits s lo hi extra) :=
  inferInstanceAs (Decidable (_ ≤ _))

structure WellFormed (s : MmapState) : Prop where
  slots : s.regions.length = maxRegions
  apart : s.extents.Pairwise Extent.Apart

/-- The file of a mapping. -/
def MmapArgs.file (a : MmapArgs) : Option Nat :=
  if a.flags &&& MAP_ANONYMOUS ≠ 0 then none
  else
    match a.fd with
    | .file v => some v
    | _ => none

/-- The range of a mapping that passes every check before the table is walked. -/
def mmapRange (l : Layout) (s : MmapState) (a : MmapArgs) : Option (Nat × Nat) :=
  match mmapCheck l a with
  | .error _ => none
  | .ok (pagelen, _) =>
      let start := mmapPlace l s.cursor a
      if start < l.userBase ∨ l.stackTop < start + pagelen then none
      else some (start, start + pagelen)

variable {l : Layout}

theorem mmapCheck_ok {a : MmapArgs} {pagelen : Nat} (h : mmapCheck l a = .ok (pagelen, vp)) :
    pagelen = pageRound l (a.len % l.word) ∧ 0 < pagelen ∧ vp = a.file := by
  unfold mmapCheck at h
  dsimp only at h
  iterate 7 (split at h; · cases h)
  have hpos : 0 < pageRound l (a.len % l.word) := by omega
  split at h
  · rename_i hanon
    cases h
    exact ⟨rfl, hpos, (if_pos hanon).symm⟩
  rename_i hanon
  cases hfd : a.fd with
  | notOpen => cases hfd ▸ h
  | notRegular => cases hfd ▸ h
  | denied => cases hfd ▸ h
  | file v =>
    rw [hfd] at h
    cases h
    refine ⟨rfl, hpos, ?_⟩
    rw [MmapArgs.file, if_neg hanon, hfd]

/-- A free slot takes a new region. -/
theorem regionAdd_extents {prot flags : BitVec 32}
    (h : regionAdd s start len prot flags vp offset = some t) :
    t.regions.length = s.regions.length ∧ t.cursor = s.cursor ∧
      t.extents.Perm (⟨start, start + len, vp.map fun v => (v, offset - BitVec.ofNat 64 start)⟩ ::
        s.extents) := by
  obtain ⟨j, hj, rfl⟩ := map_eq_some_iff.mp h
  obtain ⟨hj', hfree, -⟩ := findIdx?_eq_some_iff_getElem.mp hj
  have hunused : (s.regions.get ⟨j, hj'⟩).used = false := by simpa using hfree
  refine ⟨length_set, rfl, ?_⟩
  have hrest := filterMap_slot_perm MmapRegion.extent hj'
  rw [extent_unused hunused] at hrest
  refine (filterMap_set_perm MmapRegion.extent hj' _).trans ?_
  exact hrest.symm.cons _

/-- The table has no room for a new region only when every slot is used. -/
theorem regionAdd_none {prot flags : BitVec 32}
    (h : regionAdd s start len prot flags vp offset = none) :
    s.extents.length = s.regions.length := extents_full (map_eq_none_iff.mp h)

/-- What a mapping must not do to be replayed: replace regions when the table cannot hold
the pieces and the new region, or run out of pages when they are mapped at once. -/
def MmapBenign (l : Layout) (s : MmapState) (a : MmapArgs) : Prop :=
  ∀ p ∈ mmapRange l s a, (l.eager = true → a.filled = true) ∧
    (a.fixed = true → (∃ r ∈ s.regions, r.Overlaps p.1 p.2) → Fits s p.1 p.2 1)

/-- The walk of a mapping, whether it meets a region or not. -/
theorem mmap_walk {v : Option Nat} (hs : WellFormed s) (hlt : lo < hi)
    (hroom : (∃ r ∈ s.regions, r.Overlaps lo hi) → Fits s lo hi 1) :
    ∃ t, cutLoop (mmapCut lo hi) lo hi (range maxRegions) (s.vnodeRef v) = t ∧
      t.regions.length = s.regions.length ∧ t.cursor = s.cursor ∧
      t.extents.Perm (s.extents.flatMap (carve lo hi)) ∧
      (t.regions = s.regions ∨ Fits s lo hi 1) := by
  have hregions := regions_vnodeRef s v
  have hextents : (s.vnodeRef v).extents = s.extents := by
    rw [MmapState.extents, hregions, MmapState.extents]
  by_cases hmeets : ∃ r ∈ s.regions, r.Overlaps lo hi
  · have hfits := hroom hmeets
    have hpieces : ((s.vnodeRef v).extents.flatMap (carve lo hi)).length ≤
        (s.vnodeRef v).regions.length := by
      rw [hextents, hregions, hs.slots]
      exact (Nat.le_add_right _ 1).trans hfits
    obtain ⟨t, hloop, hlength, hcursor, hperm⟩ :=
      cutLoop_extents (s.vnodeRef v) (mmapCut lo hi) hlt (hextents ▸ hs.apart)
        (hregions ▸ hs.slots) hpieces fun t i r _ hslot hover hfree =>
          mmapCut_cuts hslot hover hfree
    rw [hextents] at hperm
    exact ⟨t, hloop, hregions ▸ hlength, hcursor.trans (cursor_vnodeRef s v), hperm, .inr hfits⟩
  · have hout : ∀ r ∈ s.regions, ¬ r.Overlaps lo hi := fun r hr h => hmeets ⟨r, hr, h⟩
    refine ⟨_, cutLoop_beside (hregions ▸ hout) _, ?_, cursor_vnodeRef s v, ?_, .inl hregions⟩
    · rw [hregions]
    · rw [hextents, flatMap_carve_beside fun e he => ?_]
      obtain ⟨r, hr, hused, rfl⟩ := mem_extents.mp he
      exact not_overlaps.mp (hout r hr) _ (extent_used hused)

/-- `sys_mmap` refuses without a trace or maps its range. -/
theorem sysMmap_spec {a : MmapArgs} (hs : WellFormed s) (hbenign : MmapBenign l s a) :
    (∃ t e, sysMmap l s a = (t, .error e) ∧ t.regions = s.regions ∧ t.cursor = s.cursor) ∨
    ∃ t lo, sysMmap l s a = (t, .ok lo) ∧ t.regions.length = s.regions.length ∧
      lo < lo + pageRound l (a.len % l.word) ∧
      t.extents.Perm (⟨lo, lo + pageRound l (a.len % l.word),
          a.file.map fun v => (v, a.offset - BitVec.ofNat 64 lo)⟩ ::
        s.extents.flatMap (carve lo (lo + pageRound l (a.len % l.word)))) := by
  unfold sysMmap
  cases hcheck : mmapCheck l a with
  | error e => exact .inl ⟨s, e, rfl, rfl, rfl⟩
  | ok p =>
    obtain ⟨pagelen, vp⟩ := p
    obtain ⟨hlen, hpos, rfl⟩ := mmapCheck_ok hcheck
    rw [← hlen]
    dsimp only
    rw [cursor_vnodeRef]
    generalize hplace : mmapPlace l s.cursor a = lo
    split
    · exact .inl ⟨_, _, rfl, regions_vnodeRef s _, cursor_vnodeRef s _⟩
    split
    · exact .inl ⟨_, _, rfl, regions_vnodeRef s _, cursor_vnodeRef s _⟩
    have hrange : mmapRange l s a = some (lo, lo + pagelen) := by
      rw [mmapRange, hcheck]
      dsimp only
      rw [hplace, if_neg (by omega)]
    obtain ⟨hfilled, hroom⟩ := hbenign _ hrange
    rw [regions_vnodeRef]
    split
    · refine .inl ⟨_, _, rfl, ?_, ?_⟩
      · rw [regions_vnodePut, regions_vnodeRef]
      · rw [cursor_vnodePut, cursor_vnodeRef]
    rename_i hplain
    obtain ⟨t, hloop, hlength, hcursor, hperm, hkept⟩ :=
      mmap_walk (v := a.file) hs (show lo < lo + pagelen by omega) fun hmeets =>
        hroom (by by_contra hfix; exact hplain ⟨hfix, hmeets⟩) hmeets
    rw [hloop]
    cases hadd : regionAdd t lo pagelen a.prot a.flags a.file a.offset with
    | none =>
      rcases hkept with hsame | hfits
      · refine .inl ⟨_, _, rfl, ?_, ?_⟩
        · rw [regions_vnodePut, hsame]
        · rw [cursor_vnodePut, hcursor]
      · have hfull := regionAdd_none hadd
        rw [hperm.length_eq, hlength, hs.slots] at hfull
        unfold Fits at hfits
        omega
    | some u =>
      obtain ⟨hlength', -, hperm'⟩ := regionAdd_extents hadd
      dsimp only
      rw [if_neg fun h => h.2 (hfilled h.1)]
      exact .inr ⟨_, lo, rfl, hlength'.trans hlength, by omega, hperm'.trans (hperm.cons _)⟩

/-- What an unmapping must not do to be replayed: leave more pieces than the table can hold,
or cut the front off a file mapping. -/
def MunmapBenign (l : Layout) (s : MmapState) (addr len : Nat) : Prop :=
  ∀ p ∈ (munmapRange l s addr len).toOption, Fits s p.1 p.2 0 ∧
    ∀ r ∈ s.regions, r.Overlaps p.1 p.2 → p.1 ≤ r.start → p.2 < r.stop → r.vnode = none

theorem munmapRange_ok (h : munmapRange l s addr len = .ok (lo, hi)) :
    lo < hi ∧ lo = addr % l.word ∧ hi = lo + pageRound l (len % l.word) := by
  unfold munmapRange at h
  dsimp only at h
  iterate 5 (split at h; · cases h)
  cases h
  exact ⟨by omega, rfl, rfl⟩

/-- `sys_munmap` refuses without a trace or unmaps its range. -/
theorem sysMunmap_spec (hs : WellFormed s) (hbenign : MunmapBenign l s addr len) :
    (∃ e, sysMunmap l s addr len = (s, .error e)) ∨
    ∃ t lo hi, sysMunmap l s addr len = (t, .ok ()) ∧ lo < hi ∧ lo = addr % l.word ∧
      hi = lo + pageRound l (len % l.word) ∧ t.regions.length = s.regions.length ∧
      t.extents.Perm (s.extents.flatMap (carve lo hi)) := by
  unfold sysMunmap
  cases hrange : munmapRange l s addr len with
  | error e => exact .inl ⟨e, rfl⟩
  | ok p =>
    obtain ⟨lo, hi⟩ := p
    obtain ⟨hlt, hlo, hhi⟩ := munmapRange_ok hrange
    obtain ⟨hfits, hfront⟩ := hbenign (lo, hi) (by rw [hrange]; rfl)
    obtain ⟨t, hloop, hlength, -, hperm⟩ :=
      cutLoop_extents s (munmapCut lo hi) hlt hs.apart hs.slots (hs.slots ▸ hfits)
        fun t i r hold hslot hover hfree => munmapCut_cuts hslot hover
          (hfront r (mem_of_getElem? hold) hover) hfree
    exact .inr ⟨t, lo, hi, by rw [← hloop], hlt, hlo, hhi, hlength, hperm⟩

/-! ## Runs -/

inductive MmapCall where
  | mmap (args : MmapArgs)
  | munmap (addr len : Nat)

/-- A process, and the effects of its successful calls, oldest first. -/
structure MmapSys where
  state : MmapState
  effects : List Effect

/-- The call as made in the state: what it leaves, and its effect if it succeeds. -/
def runCall (l : Layout) (s : MmapState) : MmapCall → MmapState × Option Effect
  | .mmap a =>
      match sysMmap l s a with
      | (t, .error _) => (t, none)
      | (t, .ok lo) => (t, some (.mapped lo (lo + pageRound l (a.len % l.word)) a.file a.offset))
  | .munmap addr len =>
      match sysMunmap l s addr len with
      | (t, .error _) => (t, none)
      | (t, .ok ()) =>
          (t, some (.unmapped (addr % l.word) (addr % l.word + pageRound l (len % l.word))))

def mmapStep (l : Layout) (sys : MmapSys) (c : MmapCall) : Option MmapSys :=
  let (t, effect) := runCall l sys.state c
  some ⟨t, sys.effects ++ effect.toList⟩

/-- The process after `exec`. -/
def MmapState.fresh (l : Layout) : MmapState :=
  ⟨replicate maxRegions .zero, l.mmapStart, fun _ => 0, []⟩

def Benign (l : Layout) (sys : MmapSys) : MmapCall → Prop
  | .mmap a => MmapBenign l sys.state a
  | .munmap addr len => MunmapBenign l sys.state addr len

instance (l : Layout) (sys : MmapSys) (c : MmapCall) : Decidable (Benign l sys c) := by
  cases c <;> exact inferInstanceAs (Decidable (∀ p ∈ _, _))

/-- The table is well formed and holds the replayed map. -/
structure Replays (sys : MmapSys) : Prop where
  formed : WellFormed sys.state
  holds : Holds sys.state.extents (replay sys.effects)

/-- What a benign call leaves, with its effect. -/
theorem runCall_spec {c : MmapCall} {effects : List Effect} (hs : WellFormed s)
    (hbenign : Benign l ⟨s, effects⟩ c) :
    ∃ t effect, runCall l s c = (t, effect) ∧
      (effect = none → t.regions = s.regions ∧ t.cursor = s.cursor) ∧
      ∀ e ∈ effect, t.regions.length = s.regions.length ∧ t.extents.Pairwise Extent.Apart ∧
        ∀ m, Holds s.extents m → Holds t.extents (e.apply m) := by
  cases c with
  | mmap a =>
    rcases sysMmap_spec hs hbenign with ⟨t, e, hcall, hsame⟩ | ⟨t, lo, hcall, hlen, hlt, hperm⟩
    · exact ⟨t, none, by rw [runCall, hcall], fun _ => hsame, nofun⟩
    refine ⟨t, some (.mapped lo _ a.file a.offset), by rw [runCall, hcall],
      nofun, ?_⟩
    rintro e ⟨⟩
    refine ⟨hlen, ?_, fun m hm => (hm.map a.file a.offset).perm hperm.symm⟩
    refine List.Pairwise.perm ?_ hperm.symm Extent.Apart.symm
    refine pairwise_cons.mpr ⟨fun f hf => ?_, pairwise_flatMap_carve hlt hs.apart⟩
    obtain ⟨g, -, hfg⟩ := mem_flatMap.mp hf
    exact (carve_inside hfg).2.2.2.symm
  | munmap addr len =>
    rcases sysMunmap_spec hs hbenign with ⟨e, hcall⟩ |
      ⟨t, lo, hi, hcall, hlt, rfl, rfl, hlen, hperm⟩
    · exact ⟨s, none, by rw [runCall, hcall], fun _ => ⟨rfl, rfl⟩, nofun⟩
    · refine ⟨t, some (.unmapped _ _), by rw [runCall, hcall], nofun, ?_⟩
      rintro e ⟨⟩
      refine ⟨hlen, ?_, fun m hm => hm.unmap.perm hperm.symm⟩
      exact (pairwise_flatMap_carve hlt hs.apart).perm hperm.symm Extent.Apart.symm

theorem extents_congr (h : t.regions = s.regions) : t.extents = s.extents := by
  rw [MmapState.extents, h, MmapState.extents]

theorem mmapStep_replays (sys : MmapSys) (c : MmapCall) (sys' : MmapSys) (h : Replays sys)
    (hbenign : Benign l sys c) (hstep : mmapStep l sys c = some sys') : Replays sys' := by
  obtain ⟨t, effect, hcall, hnone, hsome⟩ := runCall_spec h.formed hbenign
  obtain rfl : (⟨t, sys.effects ++ effect.toList⟩ : MmapSys) = sys' := by
    rw [mmapStep, hcall] at hstep
    exact some.inj hstep
  cases effect with
  | none =>
    obtain ⟨hregions, -⟩ := hnone rfl
    have hextents := extents_congr hregions
    rw [toList_none, append_nil]
    exact ⟨⟨hregions ▸ h.formed.slots, hextents ▸ h.formed.apart⟩, hextents ▸ h.holds⟩
  | some e =>
    obtain ⟨hlen, hapart, hholds⟩ := hsome e rfl
    refine ⟨⟨hlen.trans h.formed.slots, hapart⟩, ?_⟩
    rw [toList_some, replay, foldl_concat]
    exact hholds _ h.holds

/-- No two used regions share an address. -/
def RegionsDisjoint (s : MmapState) : Prop :=
  s.regions.Pairwise fun r q => r.used = true → q.used = true → r.stop ≤ q.start ∨ q.stop ≤ r.start

theorem WellFormed.disjoint (h : WellFormed s) : RegionsDisjoint s :=
  (pairwise_filterMap.mp h.apart).imp fun hrq hr hq => hrq _ (extent_used hr) _ (extent_used hq)

theorem replays_empty (hslots : s.regions.length = maxRegions)
    (hempty : ∀ r ∈ s.regions, r.used = false) : Replays ⟨s, []⟩ := by
  have hnil : s.extents = [] := filterMap_eq_nil_iff.mpr fun r hr => extent_unused (hempty r hr)
  refine ⟨⟨hslots, hnil ▸ List.Pairwise.nil⟩, ?_⟩
  rw [hnil]
  exact ⟨fun a b ⟨e, he, _⟩ => (not_mem_nil he).elim, fun a _ => rfl⟩

/-- **The region table replays the successful calls.**  Starting without regions, after every
part of a run of benign calls the regions are disjoint, the table maps every address as the
replay does, and the next call leaves table and cursor as they are if it fails. -/
theorem regions_replay_calls (l : Layout) (s₀ : MmapState) (hslots : s₀.regions.length = maxRegions)
    (hempty : ∀ r ∈ s₀.regions, r.used = false) (calls : List MmapCall)
    (benign : AllSteps (mmapStep l) (Benign l) ⟨s₀, []⟩ calls)
    (before after : List MmapCall) (hcalls : calls = before ++ after) (sys : MmapSys)
    (run : exec (mmapStep l) ⟨s₀, []⟩ before = some sys) :
    RegionsDisjoint sys.state ∧ backing sys.state = replay sys.effects ∧
      ∀ c ∈ after.head?, (runCall l sys.state c).2 = none →
        (runCall l sys.state c).1.regions = sys.state.regions ∧
        (runCall l sys.state c).1.cursor = sys.state.cursor := by
  subst hcalls
  have h : Replays sys :=
    exec_invariant mmapStep_replays (replays_empty hslots hempty) benign.left run
  refine ⟨h.formed.disjoint, (holds_backing h.formed.apart).unique h.holds, fun c hc hfail => ?_⟩
  have hbenign : Benign l sys c := by
    obtain ⟨rest, rfl⟩ : ∃ rest, after = c :: rest := head?_eq_some_iff.mp hc
    exact allSteps_iff.mp benign before c rest sys rfl run
  obtain ⟨t, effect, hcall, hnone, -⟩ := runCall_spec h.formed hbenign
  rw [hcall] at hfail ⊢
  exact hnone hfail

/-- Map `pages` pages of a file, at an address of the kernel's choice. -/
def mapFile (v pages : Nat) (offset : BitVec 64) : MmapCall :=
  .mmap ⟨0, pages * 4096, 1, MAP_PRIVATE, .file v, offset, true⟩

/-- Map `pages` anonymous pages at the address given. -/
def mapFixed (addr pages : Nat) : MmapCall :=
  .mmap ⟨addr, pages * 4096, 3, MAP_PRIVATE ||| MAP_FIXED ||| MAP_ANONYMOUS, .notOpen, 0, true⟩

/-- A file of four pages, its second page replaced and its last one unmapped. -/
def patchedFile : List MmapCall :=
  [mapFile 7 4 0x3000, mapFixed 0x50001000 1, .munmap 0x50003000 4096]

set_option synthInstance.maxSize 512 in
theorem regions_replay_patched_file :
    ∃ sys, exec (mmapStep amd64) ⟨.fresh amd64, []⟩ patchedFile = some sys ∧
      backing sys.state 0x50001000 = some none ∧
      backing sys.state 0x50002000 = some (some (7, 0x5000)) ∧
      backing sys.state 0x50003000 = none ∧
      RegionsDisjoint sys.state ∧ backing sys.state = replay sys.effects := by
  refine exists_run (A := fun sys => backing sys.state 0x50001000 = some none ∧
    backing sys.state 0x50002000 = some (some (7, 0x5000)) ∧ backing sys.state 0x50003000 = none)
    (by decide +kernel) ?_
  rintro sys hrun ⟨h₁, h₂, h₃⟩
  obtain ⟨hdisjoint, hreplay, -⟩ := regions_replay_calls amd64 (.fresh amd64) (by decide)
    (by decide) patchedFile (by decide +kernel) patchedFile [] rfl sys hrun
  exact ⟨h₁, h₂, h₃, hdisjoint, hreplay⟩

set_option synthInstance.maxSize 512 in
/-- Unmapping the first page of a file moves the second page's contents to the offset of the
first. -/
theorem munmap_front_shifts_file : ∃ sys, exec (mmapStep amd64) ⟨.fresh amd64, []⟩
        [mapFile 7 2 0x3000, .munmap 0x50000000 4096] = some sys ∧
      sys.effects = [.mapped 0x50000000 0x50002000 (some 7) 0x3000,
        .unmapped 0x50000000 0x50001000] ∧
      backing sys.state 0x50001000 = some (some (7, 0x3000)) ∧
      replay sys.effects 0x50001000 = some (some (7, 0x4000)) := by
  exact exists_run (by decide +kernel) fun _ _ h => h

end ArcKernel.Mmap
