import ArcKernel.Blk.Coherent

/-!
# One caller at a time

`Latest` is the flat array behind all of it: what was last written to each block, or `none`
for a block whose last device write failed.  `Shows` ties it to the cache: every block that
has a latest value has it as its current value.  Each function keeps `Shows` for the array
that its answer accounts for, whatever transfers fail, so a run of calls is a run on the array.
-/

namespace ArcKernel.Blk

open List BlkSys

open Function (update_self update_of_ne)

variable {β : Type}

/-- The addresses of `n` blocks from `l` on. -/
def lbas (l : Lba) : Nat → List Lba
  | 0 => []
  | n + 1 => l :: lbas (l + 1) n

abbrev Latest (β : Type) : Type := Nat → Lba → Option β

namespace Latest

def set (m : Latest β) (d : Nat) (l : Lba) (z : Option β) : Latest β :=
  Function.update m d (Function.update (m d) l z)

def store (m : Latest β) (d : Nat) (l : Lba) : List (Option β) → Latest β
  | [] => m
  | z :: zs => (m.set d l z).store d (l + 1) zs

/-- After a write that ended so: the blocks of the device write that failed are unknown. -/
def ended (m : Latest β) (d : Nat) (l : Lba) (xs : List β) : WriteEnd → Latest β
  | .done => m.store d l (xs.map some)
  | .failed _ stored asked => m.store d l ((xs.take stored).map some ++ List.replicate asked none)

/-- What a finished call does to the array. -/
def record (m : Latest β) : BlkCall β → BlkOut β → Latest β
  | .write d l xs _, .write r => m.ended d l xs r
  | _, _ => m

theorem set_apply (m : Latest β) (d : Nat) (l : Lba) (z : Option β) (d' : Nat) (l' : Lba) :
    m.set d l z d' l' = if d' = d ∧ l' = l then z else m d' l' := by
  unfold set
  rcases eq_or_ne d' d with rfl | hd
  · rcases eq_or_ne l' l with rfl | hl
    · rw [update_self, update_self, if_pos ⟨rfl, rfl⟩]
    · rw [update_self, update_of_ne hl, if_neg fun h => hl h.2]
  · rw [update_of_ne hd, if_neg fun h => hd h.1]

end Latest

namespace BlkSys

/-- Every block that has a latest value has it as its current one. -/
structure Shows (devs : Nat → Dev) (on : Bool) (m : Latest β) (s : BlkSys β) : Prop where
  tidy : Tidy s.disk s
  agrees : ∀ d l x, m d l = some x → s.cur s.disk d l = x
  devs : s.devs = devs
  on : s.enabled = on

variable (io : Nat → Transfer β) {devs : Nat → Dev} {on : Bool} {m : Latest β} {s t : BlkSys β}
    {i d n : Nat} {l : Lba}
  {x : β}

/-- A change of slots that no current value sees. -/
theorem Shows.keep (h : Shows devs on m s) (ht : Tidy s.disk t ∧ t.cur s.disk = s.cur s.disk)
    (hdisk : t.disk = s.disk) (hdevs : t.devs = s.devs) (hon : t.enabled = s.enabled) :
    Shows devs on m t where
  tidy := hdisk ▸ ht.1
  agrees := fun d l x hx => by
    rw [hdisk, ht.2]
    exact h.agrees d l x hx
  devs := hdevs.trans h.devs
  on := hon.trans h.on

theorem Shows.ticked (h : Shows devs on m s) : Shows devs on m s.ticked :=
  h.keep ⟨h.tidy.congr rfl rfl rfl, cur_congr _ rfl rfl⟩ rfl rfl rfl

theorem put_disk (s : BlkSys β) (d : Nat) (l : Lba) (x : β) (d' : Nat) (l' : Lba) :
    (s.put d l x).disk d' l' = if d' = d ∧ l' = l then x else s.disk d' l' := by
  show Function.update s.disk d (Function.update (s.disk d) l x) d' l' = _
  rcases eq_or_ne d' d with rfl | hd
  · rcases eq_or_ne l' l with rfl | hl
    · rw [update_self, update_self, if_pos ⟨rfl, rfl⟩]
    · rw [update_self, update_of_ne hl, if_neg fun h => hl h.2]
  · rw [update_of_ne hd, if_neg fun h => hd h.1]

/-- The device's block changes where the cache has a dirty slot or none. -/
theorem Tidy.put (h : Tidy s.disk s) (x : β)
    (hno : ∀ j, (s.slots j).dev = some d → (s.slots j).lba = l → (s.slots j).dirty = true) :
    Tidy (s.put d l x).disk (s.put d l x) ∧ ∀ d' l', (s.put d l x).cur (s.put d l x).disk d' l' =
      if d' = d ∧ l' = l ∧ s.hit d l = none then x else s.cur s.disk d' l' := by
  have ht : Tidy s.disk (s.put d l x) := h.congr rfl rfl rfl
  constructor
  · apply ht.rebase
    intro j d' hdev hclean _
    rw [put_disk, if_neg]
    rintro ⟨rfl, hl⟩
    cases (hno j hdev hl).symm.trans hclean
  intro d' l'
  have hhit : (s.put d l x).hit d' l' = s.hit d' l' := rfl
  rw [cur, cur, hhit, put_disk]
  cases hhold : s.hit d' l' with
  | none =>
    by_cases hsame : d' = d ∧ l' = l
    · rw [if_pos hsame, if_pos ⟨hsame.1, hsame.2, hsame.1 ▸ hsame.2 ▸ hhold⟩]
    · rw [if_neg hsame, if_neg fun hbad => hsame ⟨hbad.1, hbad.2.1⟩]
  | some j =>
    obtain ⟨hdev, hlba⟩ := h.hit_eq_some.mp hhold
    have hnot : ¬(d' = d ∧ l' = l ∧ s.hit d l = none) := by
      rintro ⟨rfl, rfl, hnone⟩
      cases hnone.symm.trans hhold
    rw [if_neg hnot]
    by_cases hsame : d' = d ∧ l' = l
    · obtain ⟨rfl, rfl⟩ := hsame
      have hpop := (h.dirty j (hno j hdev hlba)).1
      show (if (s.slots j).populated then (s.slots j).data else _) =
        if (s.slots j).populated then (s.slots j).data else _
      rw [if_pos hpop, if_pos hpop]
    · rw [if_neg hsame]
      rfl

section

variable (h : Shows devs on m s)
include h

/-- A transfer to the block of a dirty slot shows nowhere. -/
theorem Shows.putBehind (hdev : (s.slots i).dev = some d) (hlba : (s.slots i).lba = l)
    (hdirty : (s.slots i).dirty = true) (x : β) : Shows devs on m (s.put d l x) := by
  obtain ⟨htidy, hcur⟩ := h.tidy.put x (l := l) (d := d) fun j hdev' hlba' =>
    h.tidy.unique j i d hdev' hdev (hlba'.trans hlba.symm) ▸ hdirty
  refine ⟨htidy, fun d' l' y hy => ?_, h.devs, h.on⟩
  rw [hcur, h.tidy.hit_eq_some.mpr ⟨hdev, hlba⟩, if_neg (by simp)]
  exact h.agrees d' l' y hy

/-- A transfer to a block without a slot. -/
theorem Shows.putDirect (hno : s.hit d l = none) {z : Option β} (hz : ∀ y, z = some y → y = x) :
    Shows devs on (m.set d l z) (s.put d l x) := by
  obtain ⟨htidy, hcur⟩ := h.tidy.put x fun j hdev hlba =>
    absurd hlba (h.tidy.hit_eq_none.mp hno j hdev)
  refine ⟨htidy, fun d' l' y hy => ?_, h.devs, h.on⟩
  rw [Latest.set_apply] at hy
  rw [hcur]
  by_cases hsame : d' = d ∧ l' = l
  · rw [if_pos hsame] at hy
    rw [if_pos ⟨hsame.1, hsame.2, hno⟩, hz y hy]
  · rw [if_neg hsame] at hy
    rw [if_neg fun hbad => hsame ⟨hbad.1, hbad.2.1⟩]
    exact h.agrees d' l' y hy

theorem Shows.forget (d : Nat) (l : Lba) : Shows devs on (m.set d l none) s where
  tidy := h.tidy
  agrees := fun d' l' y hy => by
    rw [Latest.set_apply] at hy
    split at hy
    · cases hy
    · exact h.agrees d' l' y hy
  devs := h.devs
  on := h.on

/-- Many blocks of a device whose slots are none of them; `zs` is what can be said of `ys`. -/
theorem Shows.putAll {ys zs : List (Option β)}
    (hyz : List.Forall₂ (fun y z => ∀ x, z = some x → y = some x) ys zs)
    (hno : ∀ b ∈ lbas l ys.length, s.hit d b = none) :
    Shows devs on (m.store d l zs) (s.putAll d l ys) := by
  induction hyz generalizing m s l with
  | nil => exact h
  | @cons y z ys zs hy _ ih =>
    have hhere := hno l mem_cons_self
    have hrest : ∀ b ∈ lbas (l + 1) ys.length, s.hit d b = none :=
      fun b hb => hno b (mem_cons_of_mem l hb)
    cases y with
    | none =>
      obtain rfl : z = none := by
        cases z with
        | none => rfl
        | some x => cases hy x rfl
      exact ih (h.forget d l) hrest
    | some x => exact ih (h.putDirect hhere fun x' hx' => (Option.some.inj (hy x' hx')).symm) hrest

end

/-! ## Device operations -/

theorem physical_write (h : Shows devs on m s) (xs : List β)
    (hno : ∀ b ∈ lbas l xs.length, s.hit d b = none) :
    ((physical io).write s d l xs = (.ok (), ((physical io).write s d l xs).2) ∧
        Shows devs on (m.store d l (xs.map some)) ((physical io).write s d l xs).2) ∨
      ∃ e, (physical io).write s d l xs = (.error e, ((physical io).write s d l xs).2) ∧
        Shows devs on (m.store d l (List.replicate xs.length none))
          ((physical io).write s d l xs).2 := by
  simp only [physical]
  cases io s.tick with
  | done =>
    refine .inl ⟨rfl, (h.putAll ?_ (by rwa [length_map])).ticked⟩
    exact forall₂_same.mpr fun _ _ _ hy => hy
  | failed left =>
    refine .inr ⟨.eio, rfl, (h.putAll ?_ (by rwa [length_map, length_range])).ticked⟩
    rw [forall₂_iff_get]
    refine ⟨by simp, fun k hk hk' y hy => ?_⟩
    simp at hy

theorem getAll_eq (s : BlkSys β) (d : Nat) (l : Lba) (n : Nat) :
    s.getAll d l n = (lbas l n).map (s.disk d) := by
  induction n generalizing l with
  | zero => rfl
  | succ n ih => rw [getAll, lbas, map_cons, ih]

/-- What a read of blocks has to return. -/
def Reads (m : Latest β) (d : Nat) (l : Lba) (n : Nat) (xs : List β) : Prop :=
  List.Forall₂ (fun b x => ∀ y, m d b = some y → x = y) (lbas l n) xs

theorem physical_read (h : Shows devs on m s) (hno : ∀ b ∈ lbas l n, s.hit d b = none) :
    Shows devs on m ((physical io).read s d l n).2 ∧ ∀ xs, ((physical io).read s d l n).1 = .ok xs →
        xs = (lbas l n).map (s.disk d) ∧ Reads m d l n xs := by
  simp only [physical]
  cases io s.tick with
  | failed left => exact ⟨h.ticked, nofun⟩
  | done =>
    refine ⟨h.ticked, fun xs hxs => ?_⟩
    cases hxs
    rw [getAll_eq]
    refine ⟨rfl, ?_⟩
    rw [Reads, forall₂_map_right_iff, forall₂_same]
    intro b hb y hy
    rw [← h.agrees d b y hy, cur, hno b hb]

/-- `blk_cache_writeback`, done or failed: no current value changes. -/
theorem Shows.writeback (h : Shows devs on m s) (hdirty : (s.slots i).dirty = true) :
    Shows devs on m (s.writeback (physical io) i).2 ∧
      (∀ j, j ≠ i → (s.writeback (physical io) i).2.slots j = s.slots j) ∧
      ((∃ e, (s.writeback (physical io) i).1 = .error e) ∧
          (s.writeback (physical io) i).2.slots i = s.slots i ∨
        (s.writeback (physical io) i).1 = .ok () ∧
          (s.writeback (physical io) i).2.slots i = { s.slots i with dirty := false }) := by
  obtain ⟨d, hdev⟩ := Option.isSome_iff_exists.mp (h.tidy.dirty i hdirty).2
  rw [BlkSys.writeback, hdev]
  simp only [physical]
  cases io s.tick with
  | failed left =>
    refine ⟨?_, fun j _ => ?_, .inl ⟨⟨.eio, rfl⟩, ?_⟩⟩ <;>
      simp only [length_cons, length_nil, range_succ, range_zero,
        nil_append, map_cons, map_nil] <;> cases left 0
    · exact h.ticked
    · exact (h.putBehind hdev rfl hdirty _).ticked
    all_goals rfl
  | done =>
    simp only [map_cons, map_nil, BlkSys.putAll]
    have ht := (h.putBehind hdev rfl hdirty (s.slots i).data).ticked
    generalize hput : (s.put d (s.slots i).lba (s.slots i).data).ticked = t at ht ⊢
    have hslots : t.slots = s.slots := by
      rw [← hput]
      rfl
    refine ⟨ht.keep (ht.tidy.clear fun d' hd' => ?_) rfl rfl rfl, fun j hj => ?_,
      .inr ⟨trivial, ?_⟩⟩
    · rw [hslots, hdev] at hd'
      cases hd'
      rw [← hput]
      exact ((put_disk ..).trans (if_pos ⟨rfl, rfl⟩)).symm
    · rw [cleaned, setSlot_of_ne t _ hj, hslots]
    · rw [cleaned, setSlot_same, hslots]

/-! ## Slots -/

theorem victim_mem (hv : s.victim d l = some i) : i ∈ s.ways d l := by
  rw [victim, Option.or_eq_some_iff] at hv
  rcases hv with hv | ⟨-, hv⟩ <;> exact mem_of_find?_eq_some hv

theorem hash_congr (hdevs : t.devs = s.devs) (d : Nat) (l : Lba) : t.ways d l = s.ways d l := by
  simp only [ways, hash, hdevs]

theorem Shows.release (h : Shows devs on m s) (i : Nat) : Shows devs on m (s.release i) :=
  h.keep (h.tidy.setRefs ..) rfl rfl rfl

theorem mem_lbas_one {b : Lba} (hno : s.hit d l = none) (hb : b ∈ lbas l 1) : s.hit d b = none := by
  obtain rfl := mem_singleton.mp hb
  exact hno

theorem reads_one (hx : ∀ y, m d l = some y → x = y) : Reads m d l 1 [x] := .cons hx .nil

theorem Shows.writeDirect (h : Shows devs on m s) (xs : List β)
    (hno : s.cacheable d = false ∨ s.enabled = false) :
    Shows devs on (m.ended d l xs (s.writeDirect (physical io) d l xs).1)
      (s.writeDirect (physical io) d l xs).2 := by
  unfold BlkSys.writeDirect
  rcases physical_write io (l := l) h xs fun b _ => h.tidy.uncached hno b
    with ⟨heq, ht⟩ | ⟨e, heq, ht⟩ <;> rw [heq] <;> exact ht

section Get

variable [Inhabited β]

/-- A cache that was never used. -/
theorem Tidy.of_zero (back : Nat → Lba → β) (hzero : ∀ i, s.slots i = Slot.zero) :
    Tidy back s ∧ s.cur back = back := by
  have hdev : ∀ i, (s.slots i).dev = none := fun i => congrArg Slot.dev (hzero i)
  have htidy : Tidy back s :=
    { placed := fun i d hd => nomatch (hdev i).symm.trans hd
      unique := fun i j d hd => nomatch (hdev i).symm.trans hd
      clean := fun i d hd => nomatch (hdev i).symm.trans hd
      dirty := fun i hd => nomatch (congrArg Slot.dirty (hzero i)).symm.trans hd
      cacheable := fun i d hd => nomatch (hdev i).symm.trans hd
      off := fun _ => hdev }
  refine ⟨htidy, ?_⟩
  funext d l
  exact htidy.cur_of_absent fun i hd => nomatch (hdev i).symm.trans hd

theorem Shows.install (h : Shows devs true m s) (hcacheable : s.cacheable d = true)
    (hway : i ∈ s.ways d l) (hno : s.hit d l = none) (hclean : (s.slots i).dirty = false) :
    Shows devs true m (s.install i d l) :=
  h.keep (h.tidy.install h.on hcacheable hway (h.tidy.hit_eq_none.mp hno) hclean) rfl rfl rfl

theorem install_holds (s : BlkSys β) (i d : Nat) (l : Lba) :
    ((s.install i d l).slots i).dev = some d ∧ ((s.install i d l).slots i).lba = l := by
  rw [install, setSlot_same]
  exact ⟨rfl, rfl⟩

/-- `blk_cache_get`: a slot that holds the block, or none because none holds it. -/
theorem Shows.cacheGet (h : Shows devs true m s) (hcacheable : s.cacheable d = true) :
    Shows devs true m (s.cacheGet (physical io) d l).2 ∧
      (∀ i, (s.cacheGet (physical io) d l).1 = some i →
        ((s.cacheGet (physical io) d l).2.slots i).dev = some d ∧
        ((s.cacheGet (physical io) d l).2.slots i).lba = l) ∧
      ((s.cacheGet (physical io) d l).1 = none →
        (s.cacheGet (physical io) d l).2.hit d l = none) := by
  unfold BlkSys.cacheGet getFirst
  cases hhit : s.hit d l with
  | some i =>
    refine ⟨h.keep (h.tidy.setRefs ..) rfl rfl rfl, fun j hj => ?_, by rintro ⟨⟩⟩
    cases hj
    rw [setSlot_same]
    exact h.tidy.hit_eq_some.mp hhit
  | none =>
    cases hv : s.victim d l with
    | none => exact ⟨h, by rintro _ ⟨⟩, fun _ => hhit⟩
    | some i =>
      dsimp only
      by_cases hdirty : (s.slots i).dirty = true
      · rw [if_pos hdirty]
        dsimp only
        obtain ⟨hw, hother, hthis⟩ := h.writeback io hdirty
        generalize s.writeback (physical io) i = r at hw hother hthis
        have hway : i ∈ r.2.ways d l := by
          rw [hash_congr (hw.devs.trans h.devs.symm)]
          exact victim_mem hv
        have hno : r.2.hit d l = none := by
          rw [hw.tidy.hit_eq_none]
          intro j hdev
          have hold := h.tidy.hit_eq_none.mp hhit j
          rcases eq_or_ne j i with rfl | hj
          · rcases hthis with ⟨-, heq⟩ | ⟨-, heq⟩ <;> rw [heq] at hdev ⊢ <;> exact hold hdev
          · rw [hother j hj] at hdev ⊢
            exact hold hdev
        unfold getAgain
        split
        · exact ⟨hw, by rintro _ ⟨⟩, fun _ => hno⟩
        rename_i hfree
        rw [not_or, Bool.not_eq_true] at hfree
        have hc : r.2.cacheable d = true := by
          rw [cacheable, hw.devs.trans h.devs.symm]
          exact hcacheable
        refine ⟨hw.install hc hway hno hfree.2, fun j hj => ?_, by rintro ⟨⟩⟩
        cases hj
        exact install_holds ..
      · rw [if_neg hdirty]
        rw [Bool.not_eq_true] at hdirty
        refine ⟨h.install hcacheable (victim_mem hv) hhit hdirty, fun j hj => ?_, by rintro ⟨⟩⟩
        cases hj
        exact install_holds ..

/-! ## Reading -/

theorem Shows.readBlock (h : Shows devs true m s) (hcacheable : s.cacheable d = true) :
    Shows devs true m (s.readBlock (physical io) d l).2 ∧
      ∀ xs, (s.readBlock (physical io) d l).1 = .ok xs → Reads m d l 1 xs := by
  obtain ⟨hget, hsome, hnone⟩ := h.cacheGet io (l := l) hcacheable
  unfold BlkSys.readBlock
  generalize s.cacheGet (physical io) d l = g at hget hsome hnone
  obtain ⟨_ | i, t⟩ := g
  · obtain ⟨ht, hxs⟩ := physical_read io (n := 1) hget fun b => mem_lbas_one (hnone rfl)
    exact ⟨ht, fun xs h => (hxs xs h).2⟩
  obtain ⟨hdev, hlba⟩ := hsome i rfl
  dsimp only at hget hdev hlba ⊢
  have hcur := hget.tidy.cur_of_slot hdev hlba
  split
  · rename_i hpop
    refine ⟨hget.release i, fun xs hxs => ?_⟩
    cases hxs
    apply reads_one
    intro y hy
    rw [← hget.agrees d l y hy, hcur, if_pos hpop]
  rename_i hempty
  rw [Bool.not_eq_true] at hempty
  rw [hempty] at hcur
  simp only [physical]
  cases io t.tick with
  | failed left => exact ⟨hget.ticked.release i, nofun⟩
  | done =>
    have hfill := hget.ticked.keep (hget.ticked.tidy.fill (i := i) hdev hempty (t.disk d l)
      (congrArg (t.disk d) hlba).symm) rfl rfl rfl
    refine ⟨hfill.release i, fun xs hxs => ?_⟩
    cases hxs
    apply reads_one
    intro y hy
    rw [← hget.agrees d l y hy, hcur]
    exact congrArg Slot.data (setSlot_same ..)

theorem Shows.readLoop (h : Shows devs true m s) (hcacheable : s.cacheable d = true) :
    Shows devs true m (readLoop (physical io) s d l n).2 ∧
      ∀ xs, (readLoop (physical io) s d l n).1 = .ok xs → Reads m d l n xs := by
  induction n generalizing s l with
  | zero =>
    refine ⟨h, fun xs hxs => ?_⟩
    cases hxs
    exact .nil
  | succ n ih =>
    obtain ⟨hone, hread⟩ := h.readBlock io (l := l) hcacheable
    rw [readLoop]
    generalize s.readBlock (physical io) d l = r at hone hread
    obtain ⟨_ | x, t⟩ := r
    · exact ⟨hone, by rintro _ ⟨⟩⟩
    have hc : t.cacheable d = true := by
      rw [cacheable, hone.devs.trans h.devs.symm]
      exact hcacheable
    obtain ⟨hrest, htail⟩ := ih (l := l + 1) hone hc
    dsimp only
    generalize readLoop (physical io) t d (l + 1) n = r at hrest htail
    obtain ⟨_ | xs', u⟩ := r
    · exact ⟨hrest, by rintro _ ⟨⟩⟩
    · refine ⟨hrest, fun xs hxs => ?_⟩
      cases hxs
      exact rel_append (hread x rfl) (htail xs' rfl)

theorem Shows.cacheInit (h : Shows devs on m s) (mem : Bool) :
    Shows devs (s.cacheInit mem).enabled m (s.cacheInit mem) := by
  unfold BlkSys.cacheInit
  split
  · exact { h with on := rfl }
  rename_i hoff
  rw [Bool.not_eq_true] at hoff
  split
  · obtain ⟨htidy, hcur⟩ := Tidy.of_zero s.disk (s := { s with
      enabled := true, slots := fun _ => Slot.zero }) fun _ => rfl
    refine ⟨htidy, fun d l x hx => ?_, h.devs, rfl⟩
    rw [← h.agrees d l x hx, h.tidy.cur_of_absent fun i hdev =>
      nomatch (h.tidy.off hoff i).symm.trans hdev]
    exact congrFun (congrFun hcur d) l
  · exact { h with on := rfl }

theorem cacheInit_cacheable (s : BlkSys β) (mem : Bool) (d : Nat) :
    (s.cacheInit mem).cacheable d = s.cacheable d := by
  unfold cacheInit
  split
  · rfl
  · split <;> rfl

theorem Shows.blkRead (h : Shows devs on m s) (mem : Bool) :
    (∃ on', Shows devs on' m (s.blkRead (physical io) d l n mem).2) ∧
      ∀ xs, (s.blkRead (physical io) d l n mem).1 = .ok xs → Reads m d l n xs := by
  unfold BlkSys.blkRead
  split
  · subst n
    refine ⟨⟨on, h⟩, fun xs hxs => ?_⟩
    cases hxs
    exact .nil
  have hinit := h.cacheInit mem
  split
  · rename_i hno
    obtain ⟨ht, hxs⟩ := physical_read io (n := n) h fun b _ => h.tidy.uncached (.inl hno) b
    exact ⟨⟨on, ht⟩, fun xs h => (hxs xs h).2⟩
  rename_i hc
  split
  · rename_i hoff
    obtain ⟨ht, hxs⟩ := physical_read io (n := n) hinit fun b _ => hinit.tidy.uncached (.inr hoff) b
    exact ⟨⟨_, ht⟩, fun xs h => (hxs xs h).2⟩
  rename_i hon
  rw [Bool.not_eq_false] at hc hon
  rw [hon] at hinit
  obtain ⟨ht, hxs⟩ := hinit.readLoop io (n := n) (l := l) (by rw [cacheInit_cacheable]; exact hc)
  exact ⟨⟨true, ht⟩, hxs⟩

/-! ## Writing -/

theorem Shows.writeBlock (h : Shows devs true m s) (hcacheable : s.cacheable d = true) (x : β) :
    ((s.writeBlock (physical io) d l x).1 = .ok () ∧
        Shows devs true (m.set d l (some x)) (s.writeBlock (physical io) d l x).2) ∨
      ∃ e, (s.writeBlock (physical io) d l x).1 = .error e ∧
        Shows devs true (m.set d l none) (s.writeBlock (physical io) d l x).2 := by
  obtain ⟨hget, hsome, hnone⟩ := h.cacheGet io (l := l) hcacheable
  unfold BlkSys.writeBlock
  generalize s.cacheGet (physical io) d l = g at hget hsome hnone
  obtain ⟨_ | i, t⟩ := g
  · rcases physical_write io (l := l) hget [x] fun b => mem_lbas_one (hnone rfl)
      with ⟨heq, ht⟩ | ⟨e, heq, ht⟩
    · exact .inl ⟨congrArg Prod.fst heq, ht⟩
    · exact .inr ⟨e, congrArg Prod.fst heq, ht⟩
  obtain ⟨hdev, hlba⟩ := hsome i rfl
  dsimp only at hget hdev hlba ⊢
  obtain ⟨htidy, hcur⟩ := hget.tidy.store hdev x
  generalize hstored : t.setSlot i _ = u at htidy hcur ⊢
  have hdisk : u.disk = t.disk := by
    rw [← hstored]
    rfl
  refine .inl ⟨rfl, Shows.release ⟨hdisk ▸ htidy, fun d' l' y hy => ?_, ?_, ?_⟩ i⟩
  rotate_left
  · rw [← hstored]
    exact hget.devs
  · rw [← hstored]
    exact hget.on
  rw [Latest.set_apply] at hy
  rw [hdisk]
  refine (congrFun (congrFun hcur d') l').trans ?_
  rw [hlba]
  rcases eq_or_ne d' d with rfl | hd
  · rw [update_self]
    rcases eq_or_ne l' l with rfl | hl
    · rw [if_pos ⟨rfl, rfl⟩] at hy
      rw [update_self]
      exact Option.some.inj hy
    · rw [if_neg fun hbad => hl hbad.2] at hy
      rw [update_of_ne hl]
      exact hget.agrees d' l' y hy
  · rw [if_neg fun hbad => hd hbad.1] at hy
    rw [update_of_ne hd]
    exact hget.agrees d' l' y hy

theorem Shows.writeLoop (h : Shows devs true m s) (hcacheable : s.cacheable d = true)
    (xs : List β) :
    Shows devs true (m.ended d l xs (writeLoop (physical io) s d l xs).1)
      (writeLoop (physical io) s d l xs).2 := by
  induction xs generalizing m s l with
  | nil => exact h
  | cons x xs ih =>
    have hone := h.writeBlock io (l := l) hcacheable x
    rw [writeLoop]
    generalize s.writeBlock (physical io) d l x = r at hone
    obtain ⟨r, t⟩ := r
    rcases hone with ⟨rfl, ht⟩ | ⟨e, rfl, ht⟩
    · have hc : t.cacheable d = true := by
        rw [cacheable, ht.devs.trans h.devs.symm]
        exact hcacheable
      have hrest := ih (l := l + 1) ht hc
      dsimp only
      generalize writeLoop (physical io) t d (l + 1) xs = r at hrest
      obtain ⟨_ | ⟨e, stored, asked⟩, u⟩ := r <;> exact hrest
    · exact ht

theorem Shows.blkWrite (h : Shows devs on m s) (xs : List β) (mem : Bool) :
    ∃ on', Shows devs on' (m.ended d l xs (s.blkWrite (physical io) d l xs mem).1)
      (s.blkWrite (physical io) d l xs mem).2 := by
  unfold BlkSys.blkWrite
  split
  · subst xs
    exact ⟨on, h⟩
  have hinit := h.cacheInit mem
  split
  · rename_i hno
    exact ⟨on, h.writeDirect io xs (.inl hno)⟩
  rename_i hc
  split
  · rename_i hoff
    exact ⟨_, hinit.writeDirect io xs (.inr hoff)⟩
  · rename_i hon
    rw [Bool.not_eq_false] at hc hon
    rw [hon] at hinit
    exact ⟨true, hinit.writeLoop io (by rw [cacheInit_cacheable]; exact hc) xs⟩

end Get

/-! ## Syncing -/

/-- The loop keeps every value; without an error it leaves the device's slots clean. -/
theorem Shows.syncLoop (h : Shows devs on m s) (err : Except Errno Unit) (is : List Nat) :
    Shows devs on m (syncLoop (physical io) s d err is).2 ∧
      ((syncLoop (physical io) s d err is).1 = .ok () → err = .ok () ∧
        ∀ j, ((syncLoop (physical io) s d err is).2.slots j).dev = some d →
          ((syncLoop (physical io) s d err is).2.slots j).dirty = true →
          j ∉ is ∧ (s.slots j).dev = some d ∧ (s.slots j).dirty = true) := by
  induction is generalizing s err with
  | nil => exact ⟨h, fun herr => ⟨herr, fun j hdev hdirty => ⟨not_mem_nil, hdev, hdirty⟩⟩⟩
  | cons i is ih =>
    rw [syncLoop]
    split
    · rename_i hmine
      obtain ⟨hw, hother, hthis⟩ := h.writeback io hmine.2
      generalize s.writeback (physical io) i = r at hw hother hthis
      obtain ⟨r, t⟩ := r
      rcases hthis with ⟨⟨e, rfl⟩, heq⟩ | ⟨rfl, heq⟩
      · obtain ⟨hkeep, hok⟩ := ih hw (err.bind fun _ => .error e)
        refine ⟨hkeep, fun hret => ?_⟩
        have herr := (hok hret).1
        cases err with
        | error e' => cases herr
        | ok => cases herr
      obtain ⟨hkeep, hok⟩ := ih hw err
      refine ⟨hkeep, fun hret => ⟨(hok hret).1, fun j hdev hdirty => ?_⟩⟩
      obtain ⟨hrest, hdev', hdirty'⟩ := (hok hret).2 j hdev hdirty
      have hj : j ≠ i := by
        rintro rfl
        rw [heq] at hdirty'
        cases hdirty'
      rw [hother j hj] at hdev' hdirty'
      exact ⟨not_mem_cons_of_ne_of_not_mem hj hrest, hdev', hdirty'⟩
    · rename_i hnot
      obtain ⟨hkeep, hok⟩ := ih h err
      refine ⟨hkeep, fun hret => ⟨(hok hret).1, fun j hdev hdirty => ?_⟩⟩
      obtain ⟨hrest, hdev', hdirty'⟩ := (hok hret).2 j hdev hdirty
      have hj : j ≠ i := by
        rintro rfl
        exact hnot ⟨hdev', hdirty'⟩
      exact ⟨not_mem_cons_of_ne_of_not_mem hj hrest, hdev', hdirty'⟩

theorem Shows.blkSync (h : Shows devs on m s) : Shows devs on m (s.blkSync (physical io) d).2 ∧
      ((s.blkSync (physical io) d).1 = .ok () → ∀ l x, m d l = some x →
        (s.blkSync (physical io) d).2.disk d l = x) := by
  unfold BlkSys.blkSync
  split
  · rename_i hoff
    refine ⟨h, fun _ l x hx => ?_⟩
    rw [← h.agrees d l x hx, h.tidy.cur_of_absent fun i hdev =>
      nomatch (h.tidy.off hoff i).symm.trans hdev]
  obtain ⟨hkeep, hok⟩ := h.syncLoop io (d := d) (.ok ()) (List.range total)
  refine ⟨hkeep, fun hret l x hx => ?_⟩
  have hclean := (hok hret).2
  generalize (BlkSys.syncLoop (physical io) s d (.ok ()) (List.range total)).2 = t at hkeep hclean
  rw [← hkeep.agrees d l x hx]
  cases hhit : t.hit d l with
  | none => rw [cur, hhit]
  | some i =>
    obtain ⟨hdev, hlba⟩ := hkeep.tidy.hit_eq_some.mp hhit
    have hnot : (t.slots i).dirty = false := by
      by_contra hdirty
      rw [Bool.not_eq_false] at hdirty
      exact (hclean i hdev hdirty).1 (mem_range.mpr (mem_ways_lt (hkeep.tidy.placed i d hdev)))
    exact (hkeep.tidy.cur_of_clean hdev hlba hnot).symm

/-! ## Runs -/

variable [Inhabited β]

/-- The calls in order, with the array their answers account for. -/
def runCalls (io : Nat → Transfer β) : BlkSys β × Latest β → List (BlkCall β) → BlkSys β × Latest β
  | st, [] => st
  | (s, m), c :: cs =>
      runCalls io ((s.blkCall (physical io) c).2, m.record c (s.blkCall (physical io) c).1) cs

theorem Shows.blkCall (h : Shows devs on m s) (c : BlkCall β) :
    ∃ on', Shows devs on' (m.record c (s.blkCall (physical io) c).1)
      (s.blkCall (physical io) c).2 := by
  cases c with
  | read d l n mem => exact (h.blkRead io mem).1
  | sync d => exact ⟨on, (h.blkSync io).1⟩
  | write d l xs mem =>
    obtain ⟨on', hw⟩ := h.blkWrite io (d := d) (l := l) xs mem
    exact ⟨on', hw⟩

theorem runCalls_shows (calls : List (BlkCall β)) (h : Shows devs on m s) :
    ∃ on', Shows devs on' (runCalls io (s, m) calls).2 (runCalls io (s, m) calls).1 := by
  induction calls generalizing s m on with
  | nil => exact ⟨on, h⟩
  | cons c cs ih =>
    obtain ⟨on', hstep⟩ := h.blkCall io c
    exact ih hstep

theorem boot_shows (devs : Nat → Dev) (disk : Nat → Lba → β) :
    Shows devs false (fun d l => some (disk d l)) (boot devs disk) := by
  obtain ⟨htidy, hcur⟩ := Tidy.of_zero disk (s := boot devs disk) fun _ => rfl
  refine ⟨htidy, fun d l x hx => ?_, rfl, rfl⟩
  exact (congrFun (congrFun hcur d) l).trans (Option.some.inj hx)

/-- After every sequence of calls, whatever transfers fail: a read that succeeds returns the
latest data of each block, and a sync that returns 0 leaves the latest data on the device. -/
theorem cache_is_flat_array (devs : Nat → Dev) (disk : Nat → Lba → β) (io : Nat → Transfer β)
    (calls : List (BlkCall β)) :
    let st := runCalls io (boot devs disk, fun d l => some (disk d l)) calls
    (∀ d l n mem xs, (st.1.blkRead (physical io) d l n mem).1 = .ok xs → Reads st.2 d l n xs) ∧
      ∀ d, (st.1.blkSync (physical io) d).1 = .ok () →
        ∀ l x, st.2 d l = some x → (st.1.blkSync (physical io) d).2.disk d l = x := by
  obtain ⟨on, h⟩ := runCalls_shows io calls (boot_shows devs disk)
  exact ⟨fun d l n mem xs hxs => (h.blkRead io mem).2 xs hxs, fun d => (h.blkSync io).2⟩

/-- Whatever transfers fail, no block is in two slots, and only a dirty slot keeps the latest data
of its block from the device. -/
theorem latest_dirty_or_on_device (devs : Nat → Dev) (disk : Nat → Lba → β)
    (io : Nat → Transfer β) (calls : List (BlkCall β)) (d : Nat) (l : Lba) :
    let st := runCalls io (boot devs disk, fun d l => some (disk d l)) calls
    (∀ i, (st.1.slots i).dev = some d → (st.1.slots i).lba = l → st.1.hit d l = some i) ∧
      ((∀ i, st.1.hit d l = some i → (st.1.slots i).dirty = false) →
        ∀ x, st.2 d l = some x → st.1.disk d l = x) := by
  intro st
  obtain ⟨on, h⟩ := runCalls_shows io calls (boot_shows devs disk)
  refine ⟨fun i hdev hlba => h.tidy.hit_eq_some.mpr ⟨hdev, hlba⟩, fun hclean x hx => ?_⟩
  refine Eq.trans ?_ (h.agrees d l x hx)
  cases hhit : st.1.hit d l with
  | none =>
    exact (h.tidy.cur_of_absent fun i hdev hlba =>
      absurd hlba (h.tidy.hit_eq_none.mp hhit i hdev)).symm
  | some i =>
    obtain ⟨hdev, hlba⟩ := h.tidy.hit_eq_some.mp hhit
    exact (h.tidy.cur_of_clean hdev hlba (hclean i hhit)).symm

/-- A device of 512-byte blocks, all zero, on which every transfer fails. -/
def deadDisk : BlkSys Nat × Latest Nat :=
  runCalls (fun _ => .failed fun _ => none)
    (boot (fun _ => { blockSize := 512, cacheKey := 1 }) fun _ _ => 0, fun _ _ => some 0)
    [.write 0 27 [1] true, .write 0 56 [2] true, .write 0 103 [3] true, .write 0 156 [4] true]

/-- The bucket of block 11 is full of blocks that cannot be written, so the write of blocks 10
and 11 fails; block 10 is in the cache by then and is read back. -/
theorem failed_write_reads_back : let io : Nat → Transfer Nat := fun _ => .failed fun _ => none
    let r := deadDisk.1.blkWrite (physical io) 0 10 [7, 8] true
    deadDisk.2 0 10 = some 0 ∧ r.1 = .failed .eio 1 1 ∧
      (r.2.blkRead (physical io) 0 10 1 true).1.toOption = some [7] := by
  refine ⟨?_, ?_, ?_⟩ <;> decide +kernel

end BlkSys

end ArcKernel.Blk
