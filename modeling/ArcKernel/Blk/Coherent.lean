import ArcKernel.Blk.Cache

/-!
# What the cache holds against what is behind it

`back` is what a device would return for a block if the cache were passed by.  The cache is
tidy when every slot stands in the bucket of its block, no block has two slots, and a clean
slot holds what is behind it; then each block has one current value, `cur`.  Three kinds of
change cover all of `block.c`: a slot is replaced, something behind the cache changes, and
fields that no lookup reads change.
-/

namespace ArcKernel.Blk

open Function Slot

variable {β : Type}

@[simp] theorem Slot.holds_iff {x : Slot β} {d : Nat} {l : Lba} :
    x.holds d l = true ↔ x.dev = some d ∧ x.lba = l := by
  simp [holds]

namespace BlkSys

/-- The data of a block: the slot's if there is one, and otherwise what is behind. -/
def cur (back : Nat → Lba → β) (s : BlkSys β) (d : Nat) (l : Lba) : β :=
  match s.hit d l with
  | some i => if (s.slots i).populated then (s.slots i).data else back d l
  | none => back d l

structure Tidy (back : Nat → Lba → β) (s : BlkSys β) : Prop where
  placed : ∀ i d, (s.slots i).dev = some d → i ∈ s.ways d (s.slots i).lba
  unique : ∀ i j d, (s.slots i).dev = some d → (s.slots j).dev = some d →
    (s.slots i).lba = (s.slots j).lba → i = j
  clean : ∀ i d, (s.slots i).dev = some d → (s.slots i).populated = true →
    (s.slots i).dirty = false → (s.slots i).data = back d (s.slots i).lba
  dirty : ∀ i, (s.slots i).dirty = true →
    (s.slots i).populated = true ∧ ((s.slots i).dev).isSome = true
  cacheable : ∀ i d, (s.slots i).dev = some d → s.cacheable d = true
  off : s.enabled = false → ∀ i, (s.slots i).dev = none

variable {back : Nat → Lba → β} {s t : BlkSys β} {i d : Nat} {l : Lba} {x : Slot β}

theorem mem_ways_lt (h : i ∈ s.ways d l) : i < total := by
  simp only [ways, List.mem_map, List.mem_range] at h
  have hash : s.hash d l < 128 := by
    have hle : s.hash d l ≤ (127#32).toNat := by exact Nat.and_le_right
    exact Nat.lt_succ_of_le hle
  simp only [total]
  omega

/-! ## Lookup -/

section

variable (h : Tidy back s)
include h

theorem Tidy.hit_eq_some : s.hit d l = some i ↔ (s.slots i).dev = some d ∧ (s.slots i).lba = l := by
  constructor
  · intro hhit
    exact holds_iff.mp (List.find?_some (p := fun i => (s.slots i).holds d l) hhit)
  rintro ⟨hdev, hlba⟩
  cases hhit : s.hit d l with
  | none =>
    have := List.find?_eq_none.mp hhit i (hlba ▸ h.placed i d hdev)
    exact absurd (holds_iff.mpr ⟨hdev, hlba⟩) this
  | some j =>
    obtain ⟨hdev', hlba'⟩ := holds_iff.mp
      (List.find?_some (p := fun i => (s.slots i).holds d l) hhit)
    rw [h.unique j i d hdev' hdev (hlba'.trans hlba.symm)]

theorem Tidy.hit_eq_none :
    s.hit d l = none ↔ ∀ i, (s.slots i).dev = some d → (s.slots i).lba ≠ l := by
  constructor
  · intro hhit i hdev hlba
    rw [h.hit_eq_some.mpr ⟨hdev, hlba⟩] at hhit
    cases hhit
  · intro hno
    cases hhit : s.hit d l with
    | none => rfl
    | some i => exact absurd (h.hit_eq_some.mp hhit).2 (hno i (h.hit_eq_some.mp hhit).1)

/-- A device that is not cached, or all of them before the cache is there. -/
theorem Tidy.uncached (hno : s.cacheable d = false ∨ s.enabled = false) (b : Lba) :
    s.hit d b = none := by
  refine h.hit_eq_none.mpr fun j hdev => ?_
  rcases hno with hno | hno
  · cases (h.cacheable j d hdev).symm.trans hno
  · cases (h.off hno j).symm.trans hdev

/-- A block that no slot has data of is the one behind the cache. -/
theorem Tidy.cur_of_absent
    (hno : ∀ i, (s.slots i).dev = some d → (s.slots i).lba = l → (s.slots i).populated = false) :
    s.cur back d l = back d l := by
  rw [cur]
  cases hhit : s.hit d l with
  | none => rfl
  | some i =>
    obtain ⟨hdev, hlba⟩ := h.hit_eq_some.mp hhit
    simp [hno i hdev hlba]

theorem Tidy.cur_of_slot (hdev : (s.slots i).dev = some d) (hlba : (s.slots i).lba = l) :
    s.cur back d l = if (s.slots i).populated then (s.slots i).data else back d l := by
  rw [cur, h.hit_eq_some.mpr ⟨hdev, hlba⟩]

/-- A slot that is not dirty agrees with what is behind it. -/
theorem Tidy.cur_of_clean (hdev : (s.slots i).dev = some d) (hlba : (s.slots i).lba = l)
    (hclean : (s.slots i).dirty = false) : s.cur back d l = back d l := by
  rw [h.cur_of_slot hdev hlba]
  split
  · rename_i hpop
    rw [h.clean i d hdev hpop hclean, hlba]
  · rfl

end

/-! ## Changes -/

/-- Only the slots, the devices' records and the switch matter. -/
theorem Tidy.congr (h : Tidy back s) (hslots : t.slots = s.slots) (hdevs : t.devs = s.devs)
    (hon : t.enabled = s.enabled) : Tidy back t := by
  have hways : ∀ d l, t.ways d l = s.ways d l := by
    intro d l
    simp only [ways, BlkSys.hash, hdevs]
  constructor
  · intro i d hdev
    rw [hslots] at hdev ⊢
    rw [hways]
    exact h.placed i d hdev
  · rw [hslots]
    exact h.unique
  · rw [hslots]
    exact h.clean
  · rw [hslots]
    exact h.dirty
  · intro i d hdev
    rw [hslots] at hdev
    rw [BlkSys.cacheable, hdevs]
    exact h.cacheable i d hdev
  · rw [hslots, hon]
    exact h.off

theorem cur_congr (back : Nat → Lba → β) (hslots : t.slots = s.slots) (hdevs : t.devs = s.devs) :
    t.cur back = s.cur back := by
  funext d l
  simp only [cur, hit, ways, BlkSys.hash, hslots, hdevs]

/-- Behind the cache something changed, but under no clean slot. -/
theorem Tidy.rebase {back' : Nat → Lba → β} (h : Tidy back s)
    (hsame : ∀ i d, (s.slots i).dev = some d → (s.slots i).dirty = false →
      (s.slots i).populated = true → back' d (s.slots i).lba = back d (s.slots i).lba) :
    Tidy back' s :=
  { h with clean := fun i d hdev hpop hclean =>
      (h.clean i d hdev hpop hclean).trans (hsame i d hdev hclean hpop).symm }

/-- What may be put into slot `i`. -/
structure Fits (back : Nat → Lba → β) (s : BlkSys β) (i : Nat) (x : Slot β) : Prop where
  placed : ∀ d, x.dev = some d → i ∈ s.ways d x.lba
  alone : ∀ d, x.dev = some d → ∀ j, j ≠ i → (s.slots j).dev = some d → (s.slots j).lba ≠ x.lba
  clean : ∀ d, x.dev = some d → x.populated = true → x.dirty = false → x.data = back d x.lba
  dirty : x.dirty = true → x.populated = true ∧ x.dev.isSome = true
  cacheable : ∀ d, x.dev = some d → s.cacheable d = true
  off : s.enabled = false → x.dev = none

@[simp] theorem setSlot_same (s : BlkSys β) (i : Nat) (x : Slot β) :
    (s.setSlot i x).slots i = x := update_self ..

theorem setSlot_of_ne (s : BlkSys β) (x : Slot β) {j : Nat} (h : j ≠ i) :
    (s.setSlot i x).slots j = s.slots j := update_of_ne h ..

/-- A slot replaced by one that fits. -/
theorem Tidy.set (h : Tidy back s) (hx : Fits back s i x) : Tidy back (s.setSlot i x) := by
  have hcase : ∀ j, (j = i ∧ (s.setSlot i x).slots j = x) ∨
      (j ≠ i ∧ (s.setSlot i x).slots j = s.slots j) := by
    intro j
    rcases eq_or_ne j i with rfl | hj
    · exact .inl ⟨rfl, setSlot_same ..⟩
    · exact .inr ⟨hj, setSlot_of_ne s x hj⟩
  constructor
  · intro j d
    rcases hcase j with ⟨rfl, hj⟩ | ⟨-, hj⟩ <;> rw [hj]
    · exact hx.placed d
    · exact h.placed j d
  · intro j k d hj hk hlba
    by_contra hne
    rcases hcase j with ⟨rfl, hxj⟩ | ⟨hji, hxj⟩ <;> rw [hxj] at hj hlba
    · rw [setSlot_of_ne s x (Ne.symm hne)] at hk hlba
      exact hx.alone d hj k (Ne.symm hne) hk hlba.symm
    · rcases hcase k with ⟨rfl, hxk⟩ | ⟨-, hxk⟩ <;> rw [hxk] at hk hlba
      · exact hx.alone d hk j hji hj hlba
      · exact hne (h.unique j k d hj hk hlba)
  · intro j d
    rcases hcase j with ⟨rfl, hj⟩ | ⟨-, hj⟩ <;> rw [hj]
    · exact hx.clean d
    · exact h.clean j d
  · intro j
    rcases hcase j with ⟨rfl, hj⟩ | ⟨-, hj⟩ <;> rw [hj]
    · exact hx.dirty
    · exact h.dirty j
  · intro j d
    rcases hcase j with ⟨rfl, hj⟩ | ⟨-, hj⟩ <;> rw [hj]
    · exact hx.cacheable d
    · exact h.cacheable j d
  · intro hoff j
    rcases hcase j with ⟨rfl, hj⟩ | ⟨-, hj⟩ <;> rw [hj]
    · exact hx.off hoff
    · exact h.off hoff j

/-- The current value of a block after a slot was replaced. -/
theorem Tidy.cur_set (h : Tidy back s) (hx : Fits back s i x) (d : Nat) (l : Lba) :
    (s.setSlot i x).cur back d l =
      if x.holds d l then (if x.populated then x.data else back d l)
      else if (s.slots i).holds d l then back d l
      else s.cur back d l := by
  have ht := h.set hx
  by_cases hnew : x.holds d l = true
  · rw [if_pos hnew]
    obtain ⟨hdev, hlba⟩ := holds_iff.mp hnew
    have hsame := setSlot_same s i x
    rw [ht.cur_of_slot (by rw [hsame]; exact hdev) (by rw [hsame]; exact hlba), hsame]
  rw [if_neg hnew]
  have hother : ∀ j, ((s.setSlot i x).slots j).dev = some d →
      ((s.setSlot i x).slots j).lba = l → j ≠ i := by
    rintro j hdev hlba rfl
    rw [setSlot_same] at hdev hlba
    exact hnew (holds_iff.mpr ⟨hdev, hlba⟩)
  by_cases hold : (s.slots i).holds d l = true
  · rw [if_pos hold]
    obtain ⟨hdev, hlba⟩ := holds_iff.mp hold
    apply ht.cur_of_absent
    intro j hdev' hlba'
    have hj := hother j hdev' hlba'
    rw [setSlot_of_ne s x hj] at hdev' hlba'
    exact absurd (h.unique j i d hdev' hdev (hlba'.trans hlba.symm)) hj
  rw [if_neg hold]
  cases hhit : s.hit d l with
  | none =>
    have hno := h.hit_eq_none.mp hhit
    rw [ht.cur_of_absent, h.cur_of_absent]
    · exact fun j hdev hlba => absurd hlba (hno j hdev)
    · intro j hdev hlba
      have hj := hother j hdev hlba
      rw [setSlot_of_ne s x hj] at hdev hlba
      exact absurd hlba (hno j hdev)
  | some j =>
    obtain ⟨hdev, hlba⟩ := h.hit_eq_some.mp hhit
    have hj : j ≠ i := by
      rintro rfl
      exact hold (holds_iff.mpr ⟨hdev, hlba⟩)
    have hsame := setSlot_of_ne s x hj
    rw [ht.cur_of_slot (by rw [hsame]; exact hdev) (by rw [hsame]; exact hlba), hsame,
      h.cur_of_slot hdev hlba]

/-! ## The changes the code makes -/

section

variable (h : Tidy back s)
include h

/-- Every slot fits where it is. -/
theorem Tidy.fits (i : Nat) : Fits back s i (s.slots i) where
  placed := h.placed i
  alone := fun d hdev j hj hdev' hlba => hj (h.unique j i d hdev' hdev hlba)
  clean := h.clean i
  dirty := h.dirty i
  cacheable := h.cacheable i
  off := fun hoff => h.off hoff i

/-- The slot keeps its block and its current value. -/
theorem Tidy.keep (hdev : x.dev = (s.slots i).dev) (hlba : x.lba = (s.slots i).lba)
    (hclean : ∀ d, x.dev = some d → x.populated = true → x.dirty = false → x.data = back d x.lba)
    (hdirty : x.dirty = true → x.populated = true ∧ x.dev.isSome = true)
    (hsame : ∀ d, x.dev = some d → (if x.populated then x.data else back d x.lba) =
      if (s.slots i).populated then (s.slots i).data else back d x.lba) :
    Tidy back (s.setSlot i x) ∧ (s.setSlot i x).cur back = s.cur back := by
  have hold := h.fits i
  have hx : Fits back s i x :=
    { placed := fun d hd => hlba ▸ hold.placed d (hdev ▸ hd)
      alone := fun d hd => hlba ▸ hold.alone d (hdev ▸ hd)
      clean := hclean
      dirty := hdirty
      cacheable := fun d hd => hold.cacheable d (hdev ▸ hd)
      off := fun hoff => hdev ▸ hold.off hoff }
  refine ⟨h.set hx, ?_⟩
  funext d l
  rw [h.cur_set hx]
  by_cases hholds : x.holds d l = true
  · obtain ⟨hd, rfl⟩ := holds_iff.mp hholds
    rw [if_pos hholds, hsame d hd, h.cur_of_slot (hdev ▸ hd) hlba.symm]
  · have hholds' : ¬(s.slots i).holds d l = true := by
      rw [holds_iff, ← hdev, ← hlba, ← holds_iff]
      exact hholds
    rw [if_neg hholds, if_neg hholds']

/-- References are no part of what a block is. -/
theorem Tidy.setRefs (i n : Nat) : Tidy back (s.setSlot i { s.slots i with refs := n }) ∧
      (s.setSlot i { s.slots i with refs := n }).cur back = s.cur back :=
  h.keep rfl rfl (h.clean i) (h.dirty i) fun _ _ => rfl

/-- A slot whose data is now also behind it becomes clean. -/
theorem Tidy.clear
    (hbehind : ∀ d, (s.slots i).dev = some d → (s.slots i).data = back d (s.slots i).lba) :
    Tidy back (s.cleaned i) ∧ (s.cleaned i).cur back = s.cur back :=
  h.keep rfl rfl (fun d hd _ _ => hbehind d hd) nofun fun _ _ => rfl

/-- An unpopulated slot takes what is behind it. -/
theorem Tidy.fill (hdev : (s.slots i).dev = some d) (hempty : (s.slots i).populated = false) (b : β)
    (hb : b = back d (s.slots i).lba) :
    Tidy back (s.setSlot i { s.slots i with data := b, populated := true }) ∧
      (s.setSlot i { s.slots i with data := b, populated := true }).cur back = s.cur back := by
  have hsome : ∀ d', (s.slots i).dev = some d' → b = back d' (s.slots i).lba := by
    intro d' hd'
    rw [hdev] at hd'
    exact Option.some.inj hd' ▸ hb
  refine h.keep rfl rfl (fun d' hd' _ _ => hsome d' hd') ?_ ?_
  · intro hdirty
    exact ⟨rfl, (h.dirty i hdirty).2⟩
  · intro d' hd'
    simp only [hempty, if_true, Bool.false_eq_true, if_false]
    exact hsome d' hd'

/-- A clean slot is given to a block that has none. -/
theorem Tidy.install [Inhabited β] (hon : s.enabled = true) (hcacheable : s.cacheable d = true)
    (hway : i ∈ s.ways d l) (hno : ∀ j, (s.slots j).dev = some d → (s.slots j).lba ≠ l)
    (hclean : (s.slots i).dirty = false) :
    Tidy back (s.install i d l) ∧ (s.install i d l).cur back = s.cur back := by
  have hx : Fits back s i { zero with dev := some d, lba := l, refs := 1 } :=
    { placed := by
        intro d' hd'
        cases hd'
        exact hway
      alone := by
        intro d' hd' j _
        cases hd'
        exact hno j
      clean := fun _ _ hpop _ => nomatch hpop
      dirty := nofun
      cacheable := by
        intro d' hd'
        cases hd'
        exact hcacheable
      off := fun hoff => nomatch hoff.symm.trans hon }
  refine ⟨h.set hx, ?_⟩
  funext d' l'
  rw [BlkSys.install, h.cur_set hx]
  split
  · rename_i hnew
    obtain ⟨hd', hl'⟩ := holds_iff.mp hnew
    cases hd'
    cases hl'
    exact (h.cur_of_absent fun j hdev hlba => absurd hlba (hno j hdev)).symm
  · split
    · rename_i hold
      obtain ⟨hdev, hlba⟩ := holds_iff.mp hold
      exact (h.cur_of_clean hdev hlba hclean).symm
    · rfl

/-- A block is written into its slot. -/
theorem Tidy.store (hdev : (s.slots i).dev = some d) (b : β) :
    let x := { s.slots i with data := b, populated := true, dirty := true }
    Tidy back (s.setSlot i x) ∧ (s.setSlot i x).cur back =
      update (s.cur back) d (update (s.cur back d) (s.slots i).lba b) := by
  intro x
  have hold := h.fits i
  have hx : Fits back s i x :=
    { hold with
      clean := nofun
      dirty := fun _ => ⟨rfl, by rw [show x.dev = some d from hdev]; rfl⟩ }
  refine ⟨h.set hx, ?_⟩
  funext d' l'
  rw [h.cur_set hx]
  by_cases hholds : x.holds d' l' = true
  · obtain ⟨hd', rfl⟩ := holds_iff.mp hholds
    obtain rfl : d = d' := Option.some.inj (hdev.symm.trans hd')
    rw [if_pos hholds, update_self]
    exact (update_self (s.slots i).lba b (s.cur back d)).symm
  have hne : ¬(d' = d ∧ l' = (s.slots i).lba) := by
    rintro ⟨rfl, rfl⟩
    exact hholds (holds_iff.mpr ⟨hdev, rfl⟩)
  rw [if_neg hholds, if_neg (show ¬(s.slots i).holds d' l' = true from hholds)]
  rcases eq_or_ne d' d with rfl | hd
  · rw [update_self, update_of_ne (fun hl => hne ⟨rfl, hl⟩)]
  · rw [update_of_ne hd]

end

end BlkSys

end ArcKernel.Blk
