import ArcKernel.Vm.MapInvariant

/-!
# What an address is mapped to

An address map is for its callers a function from addresses to places in objects.
`vm_map_unmap` takes a range out of it, unless splitting an entry moves the array:
then the entry keeps the range.  `vm_map_find_entry` finds the entry of an address.
-/

namespace ArcKernel.Vm

open ArcKernel.Foundation List

variable {mem : MapMem} {m : VmMap} {addr stop : Nat} {e : VmEntry}

/-! ## Addresses -/

/-- The object an address reaches, the place in it, and how it is mapped. -/
structure Mapping where
  obj : Nat
  offset : Nat
  prot : Nat
  inherit : Nat
  deriving DecidableEq

def VmEntry.mapping (e : VmEntry) (a : Nat) : Mapping :=
  ⟨e.obj, add64 e.objOffset (a - e.start), e.prot, e.inherit⟩

/-- The entry maps address `a` as `v` says. -/
def VmEntry.MapsTo (e : VmEntry) (a : Nat) (v : Mapping) : Prop :=
  e.start ≤ a ∧ a < e.stop ∧ e.mapping a = v

/-- One of the entries does. -/
def Maps (l : List VmEntry) (a : Nat) (v : Mapping) : Prop := ∃ e ∈ l, e.MapsTo a v

section Maps

variable {l l' : List VmEntry} {a : Nat} {v : Mapping}

@[simp] theorem maps_nil : Maps [] a v ↔ False := by simp [Maps]

@[simp] theorem maps_singleton : Maps [e] a v ↔ e.MapsTo a v := by simp [Maps]

theorem maps_append : Maps (l ++ l') a v ↔ Maps l a v ∨ Maps l' a v := by
  simp only [Maps, mem_append, or_and_right, exists_or]

theorem maps_flatMap {f : VmEntry → List VmEntry} :
    Maps (l.flatMap f) a v ↔ ∃ e ∈ l, Maps (f e) a v := by
  simp only [Maps, mem_flatMap]
  constructor
  · rintro ⟨x, ⟨e, he, hx⟩, hmap⟩
    exact ⟨e, he, x, hx, hmap⟩
  · rintro ⟨e, he, x, hx, hmap⟩
    exact ⟨x, ⟨e, he, hx⟩, hmap⟩

/-- The right part of an entry reaches the same places. -/
theorem mapping_fromCut {cut : Nat} (hlow : e.start ≤ cut) (hcut : cut ≤ a) :
    (e.fromCut cut).mapping a = e.mapping a := by
  have hsum : e.objOffset + (a - e.start) = e.objOffset + (cut - e.start) + (a - cut) := by omega
  simp only [VmEntry.mapping, VmEntry.fromCut, add64, Nat.mod_add_mod, hsum]

theorem maps_cut : Maps (e.cut addr stop) a v ↔ e.MapsTo a v ∧ ¬ (addr ≤ a ∧ a < stop) := by
  rw [VmEntry.cut]
  split
  · rename_i hover
    obtain ⟨hstart, hstop⟩ := entryOverlaps_iff.mp hover
    have hleft : Maps (if e.start < addr then [{ e with stop := addr }] else []) a v ↔
        e.MapsTo a v ∧ a < addr := by
      split
      · rw [maps_singleton]
        exact ⟨fun h => ⟨⟨h.1, h.2.1.trans hstop, h.2.2⟩, h.2.1⟩, fun h => ⟨h.1.1, h.2, h.1.2.2⟩⟩
      · rw [maps_nil, false_iff]
        exact fun h => absurd h.1.1 (by omega)
    have hright : Maps (if stop < e.stop then [e.fromCut stop] else []) a v ↔
        e.MapsTo a v ∧ stop ≤ a := by
      split
      · rw [maps_singleton]
        constructor
        · rintro ⟨hlow, hhigh, hv⟩
          rw [mapping_fromCut hstart.le hlow] at hv
          exact ⟨⟨hstart.le.trans hlow, hhigh, hv⟩, hlow⟩
        · rintro ⟨⟨_, hhigh, hv⟩, hlow⟩
          rw [← mapping_fromCut hstart.le hlow] at hv
          exact ⟨hlow, hhigh, hv⟩
      · rw [maps_nil, false_iff]
        exact fun h => absurd h.1.2.1 (by omega)
    rw [maps_append, hleft, hright, ← and_or_left]
    exact and_congr_right fun _ => by omega
  · rename_i hover
    rw [entryOverlaps_iff] at hover
    rw [maps_singleton]
    refine (and_iff_left_of_imp fun h => ?_).symm
    have := h.1
    have := h.2.1
    omega

end Maps

/-! ## Unmapping -/

/-- The range is unmapped, and every other address is mapped as before. -/
def Unmaps (before after : List VmEntry) (addr stop : Nat) : Prop :=
  ∀ a v, Maps after a v ↔ Maps before a v ∧ ¬ (addr ≤ a ∧ a < stop)

theorem vmMapGrow_room {grown : VmMap} {block : Option (Nat → VmEntry)} (h : m.Shaped)
    (hgrow : vmMapGrow m block = some grown) : grown.entryCount + 1 ≤ grown.maxEntries := by
  have hcap : m.entryCount + 1 ≤
      if m.maxEntries < vmMapInitCapacity then vmMapInitCapacity else m.maxEntries * 2 := by
    have := h.fits
    unfold vmMapInitCapacity
    split <;> omega
  unfold vmMapGrow at hgrow
  simp only [Option.ite_none_left_eq_some] at hgrow
  cases block with
  | none => exact absurd hgrow.2 (Option.some_ne_none _).symm
  | some fresh => exact Option.some.inj hgrow.2 ▸ hcap

/-- When the array moves for one more entry there is room for it. -/
theorem ensureCapacity_ok_of_moved (h : m.Shaped)
    (hmoved : (vmMapEnsureCapacity m 1 mem).moved = true) :
    (vmMapEnsureCapacity m 1 mem).ok = true := by
  cases mem with
  | nil => simp [vmMapEnsureCapacity] at hmoved
  | cons block mem =>
    rw [vmMapEnsureCapacity] at hmoved ⊢
    split
    · rename_i hfull
      rw [if_pos hfull] at hmoved
      cases hgrow : vmMapGrow m block with
      | none => simp [hgrow] at hmoved
      | some grown =>
        have hroom := vmMapGrow_room h hgrow
        cases mem with
        | nil => simpa [vmMapEnsureCapacity] using hroom
        | cons block' mem => simp [vmMapEnsureCapacity, Nat.not_lt.mpr hroom]
    · rfl

/-- A loop that is stuck nowhere succeeds. -/
theorem Sweep.ret_eq_zero {l : LoopTurns} {I : VmMap → MapMem → List VmEntry → Prop}
    (hturn : ∀ {m mem e rest pieces events m' mem'}, I m mem (e :: rest) →
      l.turn m mem e pieces events m' mem' → I m' mem' rest)
    (hstuck : ∀ {m mem e rest}, I m mem (e :: rest) → ¬ l.stuck m mem e ∧ ¬ l.lost m mem e)
    {done post : List VmEntry} {refs : List RefEvent} {r : MapResult}
    (hsweep : Sweep l done post m mem refs r) (hI : I m mem post) : r.ret = 0 := by
  induction hsweep with
  | finish => rfl
  | fail _ _ hs => exact absurd hs (hstuck hI).1
  | astray _ hl _ => exact absurd hl (hstuck hI).2
  | next _ ht _ _ ih => exact ih (hturn hI ht)

theorem UnmapReady.not_stuck {cap : Capacity}
    {rest : List VmEntry} (hready : UnmapReady addr stop cap m mem (e :: rest))
    (hok : cap.ok = true) : ¬ (unmapTurns addr stop).stuck m mem e := by
  rintro ⟨hlow, hhigh, hfull⟩
  rw [hready.split e mem_cons_self hlow hhigh, hok] at hfull
  cases hfull

section Unmap

section

variable (hrange : addr < stop) (h : m.Shaped) (hsep : Separated VmEntry.start VmEntry.stop m.live)
include hrange h hsep

/-- While the array stays in place, the loop takes the range out of the map. -/
theorem unmapLoop_unmaps (hstays : SplitStays m m.live addr stop mem)
    (hret : (unmapLoop addr stop m.entryCount 0 m mem []).ret = 0) :
    Unmaps m.live (unmapLoop addr stop m.entryCount 0 m mem []).map.live addr stop := by
  obtain ⟨pre, rest, hsplit, hlive, hall⟩ := (unmapLoop_spec hrange mem h hsep).passed
  rw [hall hret, append_nil] at hsplit hlive
  intro a v
  rw [hlive, ← hsplit, nil_append, maps_flatMap]
  constructor
  · rintro ⟨e, he, hmap⟩
    rw [hstays.unmapped_eq he] at hmap
    exact ⟨⟨e, he, (maps_cut.mp hmap).1⟩, (maps_cut.mp hmap).2⟩
  · rintro ⟨⟨e, he, hmap⟩, hout⟩
    refine ⟨e, he, ?_⟩
    rw [hstays.unmapped_eq he]
    exact maps_cut.mpr ⟨hmap, hout⟩

/-- When it moves, the loop succeeds and the entry that should be split stays. -/
theorem unmapLoop_keeps (he : e ∈ m.live) (hlow : e.start < addr)
    (hhigh : stop < e.stop) (hmoved : (vmMapEnsureCapacity m 1 mem).moved = true) :
    (unmapLoop addr stop m.entryCount 0 m mem []).ret = 0 ∧
      e ∈ (unmapLoop addr stop m.entryCount 0 m mem []).map.live := by
  have hok := ensureCapacity_ok_of_moved h hmoved
  have hret : (unmapLoop addr stop m.entryCount 0 m mem []).ret = 0 :=
    (unmapLoop_sweep [] mem [] h rfl (le_of_eq h.length_live)).ret_eq_zero
      (I := UnmapReady addr stop (vmMapEnsureCapacity m 1 mem))
      (fun hI ht => (UnmapTurn.unmapped hI ht).2) (fun hI => ⟨hI.not_stuck hok, id⟩)
      ⟨hrange, hsep, fun _ _ _ _ => rfl⟩
  obtain ⟨pre, rest, hsplit, hlive, hall⟩ := (unmapLoop_spec hrange mem h hsep).passed
  rw [hall hret, append_nil] at hsplit hlive
  refine ⟨hret, ?_⟩
  rw [hlive, ← hsplit]
  refine mem_flatMap.mpr ⟨e, he, ?_⟩
  rw [VmEntry.unmapped, if_pos ⟨hmoved, hlow, hhigh⟩]
  exact mem_cons_self

end

end Unmap

/-- A successful `vm_map_unmap` takes exactly the range out of the map, if and only
if the array stays in place when an entry has to be split. -/
theorem unmap_exact_iff (m : VmMap) (addr size : UInt64) (mem : MapMem) (h : m.Shaped)
    (hsep : Separated VmEntry.start VmEntry.stop m.live) :
    ((vmMapUnmap m addr size mem).ret = 0 →
      Unmaps m.live (vmMapUnmap m addr size mem).map.live addr.toNat
        (add64 addr.toNat size.toNat)) ↔
    (addr.toNat < add64 addr.toNat size.toNat →
      SplitStays m m.live addr.toNat (add64 addr.toNat size.toNat) mem) := by
  rw [vmMapUnmap]
  generalize hstop : add64 addr.toNat size.toNat = stop
  split
  · rename_i hsize
    simp only [add64, hsize, Nat.add_zero, Nat.mod_eq_of_lt addr.toNat_lt] at hstop
    simp [hstop]
  split
  · rename_i hwrap
    simp [hwrap.le]
  rename_i hsize hwrap
  have hrange : addr.toNat < stop := by
    rw [← hstop] at hwrap ⊢
    rw [add64_eq hwrap]
    omega
  refine ⟨fun hexact _ e he hlow hhigh => ?_, fun hstays hret =>
    unmapLoop_unmaps hrange h hsep (hstays hrange) hret⟩
  by_contra hmoved
  obtain ⟨hret, hkept⟩ := unmapLoop_keeps hrange h hsep he hlow hhigh (Bool.not_eq_false _ ▸ hmoved)
  -- the entry still maps the first address of the range
  have hmapped := (hexact hret addr.toNat (e.mapping addr.toNat)).mp
    ⟨e, hkept, hlow.le, hrange.trans hhigh, rfl⟩
  exact hmapped.2 ⟨le_refl _, hrange⟩

/-- A map with `n` entries of three pages each in a block of 64 entries. -/
def threePages (n : Nat) : VmMap where
  entries := (range 64).map fun i => if i < n then
    ⟨0x8000000 + i * 0x4000, 0x8003000 + i * 0x4000, 1, 0, 3, 0⟩ else default
  entryCount := n
  maxEntries := 64

theorem unmap_exact_iff_middle_page :
    Unmaps (threePages 1).live (vmMapUnmap (threePages 1) 0x8001000 0x1000 []).map.live 0x8001000
      0x8002000 := by
  have hsep : Separated VmEntry.start VmEntry.stop (threePages 1).live := ⟨by decide, by decide⟩
  exact (unmap_exact_iff (threePages 1) 0x8001000 0x1000 [] ⟨rfl, by decide⟩ hsep).mpr
    (fun _ _ _ _ _ => rfl) (by decide)

/-- The array is full, and the page taken out of the first entry stays mapped. -/
theorem unmapped_page_stays : Separated VmEntry.start VmEntry.stop (threePages 64).live ∧
      (vmMapUnmap (threePages 64) 0x8001000 0x1000 [some default]).ret = 0 ∧
      Maps (vmMapUnmap (threePages 64) 0x8001000 0x1000 [some default]).map.live 0x8001000
        ⟨1, 0x1000, 3, 0⟩ := by
  refine ⟨⟨by decide +kernel, by decide +kernel⟩, by decide +kernel,
    ⟨0x8000000, 0x8003000, 1, 0, 3, 0⟩, by decide +kernel, by decide, by decide, by decide⟩

/-! ## Finding the entry -/

/-- The search of `vm_map_find_entry` below `top`, its `hi + 1`; `best` is the last
entry seen to begin at or before the address. -/
def findLoop (m : VmMap) (addr : Nat) : Nat → Nat → Nat → Option Nat → Option Nat
  | 0, _, _, best => best
  | fuel + 1, lo, top, best =>
      if lo < top then
        let mid := lo + (top - 1 - lo) / 2
        if (m.entry mid).start ≤ addr then findLoop m addr fuel (mid + 1) top (some mid)
        else findLoop m addr fuel lo mid best
      else best

/-- `vm_map_find_entry`: the index of the entry. -/
def vmMapFindEntry (m : VmMap) (addr : Nat) : Option Nat :=
  (findLoop m addr m.entryCount 0 m.entryCount none).filter fun i => addr < (m.entry i).stop

/-- Entry `i` contains the address. -/
def VmMap.Contains (m : VmMap) (addr i : Nat) : Prop :=
  i < m.entryCount ∧ (m.entry i).start ≤ addr ∧ addr < (m.entry i).stop

/-- The entries outside the bounds are decided. -/
structure Narrowed (m : VmMap) (addr lo top : Nat) (best : Option Nat) : Prop where
  bounds : lo ≤ top ∧ top ≤ m.entryCount
  best : ∀ i, (∃ k ∈ best, i ≤ k) ↔ i < lo
  below : ∀ i < lo, (m.entry i).start ≤ addr
  above : ∀ i, top ≤ i → i < m.entryCount → addr < (m.entry i).start

section Find

variable (hsorted : ∀ j < m.entryCount, ∀ i < j, (m.entry i).start ≤ (m.entry j).start)
include hsorted

/-- What is found is the last entry that begins at or before the address. -/
theorem findLoop_last {fuel lo top : Nat} {best : Option Nat} (h : Narrowed m addr lo top best)
    (hfuel : top ≤ fuel + lo) (i : Nat) :
    (∃ k ∈ findLoop m addr fuel lo top best, i ≤ k) ↔
      i < m.entryCount ∧ (m.entry i).start ≤ addr := by
  have hmeet {lo top best} (h : Narrowed m addr lo top best) (hle : top ≤ lo) :
      (∃ k ∈ best, i ≤ k) ↔ i < m.entryCount ∧ (m.entry i).start ≤ addr := by
    have hbounds := h.bounds
    rw [h.best]
    refine ⟨fun hi => ⟨by omega, h.below i hi⟩, fun hi => ?_⟩
    by_contra hge
    exact absurd (h.above i (by omega) hi.1) (by omega)
  fun_induction findLoop m addr fuel lo top best with
  | case1 => exact hmeet h (by omega)
  | case2 fuel lo top best hlt mid hmid ih =>
    have hbounds := h.bounds
    refine ih ⟨by omega, by simp, fun j hj => ?_, h.above⟩ (by omega)
    rcases Nat.lt_succ_iff_lt_or_eq.mp hj with hj | rfl
    · exact (hsorted mid (by omega) j hj).trans hmid
    · exact hmid
  | case3 fuel lo top best hlt mid hmid ih =>
    have hbounds := h.bounds
    refine ih ⟨by omega, h.best, h.below, fun j hj hcount => ?_⟩ (by omega)
    rcases Nat.eq_or_lt_of_le hj with rfl | hj
    · exact not_le.mp hmid
    · exact (not_le.mp hmid).trans_le (hsorted j hcount mid hj)
  | case4 => exact hmeet h (by omega)

/-- **The binary search agrees with a scan.**  In a map sorted by start whose entries
end before the next begins, `vm_map_find_entry` returns the entry that contains the
address, which is the only one, and nothing exactly when there is none. -/
theorem find_entry_exact
    (hdisjoint : ∀ j < m.entryCount, ∀ i < j, (m.entry i).stop ≤ (m.entry j).start) :
    (∀ i, vmMapFindEntry m addr = some i ↔ m.Contains addr i) ∧
      (∀ i j, m.Contains addr i → m.Contains addr j → i = j) ∧
      (vmMapFindEntry m addr = none ↔ ∀ i, ¬ m.Contains addr i) := by
  have hfresh : Narrowed m addr 0 m.entryCount none :=
    ⟨⟨Nat.zero_le _, le_refl _⟩, by simp, by simp, by omega⟩
  have hlast := findLoop_last hsorted hfresh (Nat.le_refl m.entryCount)
  have hexact (i : Nat) : vmMapFindEntry m addr = some i ↔ m.Contains addr i := by
    rw [vmMapFindEntry, Option.filter_eq_some_iff]
    constructor
    · rintro ⟨hfound, hstop⟩
      obtain ⟨hi, hstart⟩ := (hlast i).mp ⟨i, hfound, le_refl i⟩
      exact ⟨hi, hstart, of_decide_eq_true hstop⟩
    · rintro ⟨hi, hstart, hstop⟩
      obtain ⟨k, hk, hik⟩ := (hlast i).mpr ⟨hi, hstart⟩
      obtain ⟨hcount, hle⟩ := (hlast k).mp ⟨k, hk, le_refl k⟩
      -- an entry after `i` begins after the address
      rcases Nat.eq_or_lt_of_le hik with rfl | hlt
      · exact ⟨hk, decide_eq_true hstop⟩
      · exact absurd (hdisjoint k hcount i hlt) (by omega)
  refine ⟨hexact, fun i j hi hj => ?_, ?_⟩
  · exact Option.some_inj.mp (((hexact i).mpr hi).symm.trans ((hexact j).mpr hj))
  · rw [Option.eq_none_iff_forall_ne_some]
    exact forall_congr' fun i => not_congr (hexact i)

end Find

def twoEntries : VmMap := ⟨[⟨1, 3, 1, 0, 0, 0⟩, ⟨5, 9, 2, 0, 0, 0⟩], 2, 64⟩

theorem find_entry_exact_two :
    vmMapFindEntry twoEntries 6 = some 1 ∧ ∀ i, ¬ twoEntries.Contains 4 i :=
  ⟨by decide, (find_entry_exact (by decide) (by decide)).2.2.mp (by decide)⟩

end ArcKernel.Vm
