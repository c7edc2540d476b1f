import ArcKernel.Ext2.Map
import ArcKernel.Ext2.AllocRuns
import ArcKernel.Foundation.PtrForest

/-!
# The blocks of the inodes of a volume

The words of the inodes are the roots of a forest of pointer blocks.  As long as no block
stands at two places of it and every block in it is marked in use, mapping a block with
allocation fills empty places with fresh blank blocks and changes nothing else.
-/

namespace ArcKernel.Ext2

open ArcKernel.Foundation Function ByteMem

variable {f g : Nat → Inode} {v w x : Volume} {e : Errno} {p : Pool}

/-! ## Fresh numbers -/

/-- No number of an item in a group wraps. -/
def Kind.Fits (k : Kind) : Prop :=
  0 < k.perGroup ∧
    ∀ bg < k.groups, ∀ bit < k.groupItems bg, k.first + bg * k.perGroup + bit < 2 ^ 32

/-- The number is in use, or is below those that can be allocated. -/
def Pool.Marked (k : Kind) (p : Pool) (n : Nat) : Prop :=
  n < k.first ∨ p.used (k.groupOf n) (k.bitOf n) = true

/-- Setting the bit of a number that was not marked marks that number and no other. -/
theorem marked_take {k : Kind} {bg bit : Nat} (hbit : bit < k.perGroup) (m : Nat) :
    ((p.setBit bg bit).lower bg).Marked k m ↔
      p.Marked k m ∨ m = k.first + bg * k.perGroup + bit := by
  have hsame : k.first ≤ m →
      (k.groupOf m = bg ∧ k.bitOf m = bit ↔ m = k.first + bg * k.perGroup + bit) := by
    intro hm
    constructor
    · rintro ⟨rfl, rfl⟩
      exact (Kind.add_groupOf_bitOf hm).symm
    · rintro rfl
      exact ⟨Kind.groupOf_add hbit, Kind.bitOf_add hbit⟩
  unfold Pool.Marked
  rw [Pool.used_take, Bool.or_eq_true, decide_eq_true_iff]
  rcases Nat.lt_or_ge m k.first with hm | hm
  · exact iff_of_true (.inl hm) (.inl (.inl hm))
  · rw [hsame hm, or_assoc]

/-- The block numbers of a volume the mount accepts do not wrap. -/
theorem Fs.Checked.block_fits {fs : Fs} (h : fs.Checked) : (fs.kind .block).Fits := by
  refine ⟨h.blocks_pos, fun bg hbg bit hbit => ?_⟩
  have htotal := h.total_blocks_lt
  have hfirst := h.first_le
  have hpos := h.blocks_pos
  have hgroups := h.groups
  -- every group but the last is full, and the last ends with the volume
  have hlow : bg * fs.blocksPerGroup < fs.totalBlocks := by
    have hle : bg + 1 ≤ (fs.totalBlocks + fs.blocksPerGroup - 1) / fs.blocksPerGroup := by
      rw [← hgroups]
      exact hbg
    have := (Nat.le_div_iff_mul_le hpos).mp hle
    rw [Nat.add_mul] at this
    omega
  have hend : bg * fs.blocksPerGroup + bit < fs.totalBlocks := by
    change bit < if bg = fs.bgdtCount - 1 then min fs.blocksPerGroup
      ((fs.totalBlocks + 2 ^ 32 - bg * fs.blocksPerGroup % 2 ^ 32) % 2 ^ 32)
      else fs.blocksPerGroup at hbit
    split at hbit
    · rw [Nat.mod_eq_of_lt (a := bg * fs.blocksPerGroup) (by omega),
        show fs.totalBlocks + 2 ^ 32 - bg * fs.blocksPerGroup =
          fs.totalBlocks - bg * fs.blocksPerGroup + 2 ^ 32 by omega, Nat.add_mod_right] at hbit
      omega
    change bg < fs.bgdtCount at hbg
    have hle : bg + 2 ≤ (fs.totalBlocks + fs.blocksPerGroup - 1) / fs.blocksPerGroup := by omega
    have := (Nat.le_div_iff_mul_le hpos).mp hle
    rw [Nat.add_mul] at this
    omega
  show fs.firstDataBlock + bg * fs.blocksPerGroup + bit < 2 ^ 32
  omega

/-! ## Allocating a block -/

/-- The block is marked in use. -/
def Volume.Marked (v : Volume) (b : Nat) : Prop := (v.pool .block).Marked (v.fs.kind .block) b

/-- What `ext2_alloc_block` leaves alone. -/
structure Volume.Beside (v w : Volume) : Prop where
  fs : w.fs = v.fs
  reserved : w.reserved = v.reserved
  spoiled : w.spoiled = v.spoiled

theorem Volume.Beside.refl (v : Volume) : v.Beside v := ⟨rfl, rfl, rfl⟩

theorem Volume.Beside.trans (h : v.Beside w) (h' : w.Beside x) : v.Beside x :=
  ⟨h'.fs.trans h.fs, h'.reserved.trans h.reserved, h'.spoiled.trans h.spoiled⟩

theorem Volume.writeBlock_beside {blk : Nat} (hblk : v.reserved blk = false) (buf : ByteMem) :
    v.Beside (v.writeBlock blk buf) :=
  ⟨rfl, rfl, (congrArg (v.spoiled || ·) hblk).trans (Bool.or_false _)⟩

/-- A successful allocation takes a block that was not marked, marks it and fills it with
zeroes. -/
theorem ext2AllocBlock_ok {b : Nat} (hfs : v.fs.Checked)
    (hguarded : ∀ c, v.reserved c = true → v.Marked c)
    (h : ext2AllocBlock v .none = (.ok b, w)) :
    v.Beside w ∧ ¬ v.Marked b ∧ b < 2 ^ 32 ∧ (∀ c, w.Marked c ↔ v.Marked c ∨ c = b) ∧
      w.disk = update v.disk b fun _ => 0 := by
  unfold ext2AllocBlock Volume.alloc at h
  dsimp only at h
  split at h
  · cases h
  rename_i bg bit hsearch
  obtain ⟨hmem, hitems, hused⟩ := searchGroups_eq_ok hsearch
  have hbit := Nat.lt_of_lt_of_le hitems ((v.fs.kind .block).groupItems_le bg)
  have hlt := hfs.block_fits.2 bg (List.mem_range.mp hmem) bit hitems
  rw [show (v.fs.kind .block).number bg bit = _ from Nat.mod_eq_of_lt hlt] at h
  cases h
  have hfresh : ¬ v.Marked ((v.fs.kind .block).first + bg * (v.fs.kind .block).perGroup + bit) := by
    rintro (hbad | hbad)
    · omega
    · rw [Kind.groupOf_add hbit, Kind.bitOf_add hbit, hused] at hbad
      cases hbad
  have hblk := Bool.eq_false_of_not_eq_true fun hbad => hfresh (hguarded _ hbad)
  exact ⟨⟨rfl, rfl, (Volume.writeBlock_beside hblk fun _ => 0).spoiled⟩, hfresh, hlt,
    marked_take hbit, rfl⟩

/-- A failed one changes nothing. -/
theorem ext2AllocBlock_error (h : ext2AllocBlock v .none = (.error e, w)) : w = v := by
  unfold ext2AllocBlock Volume.alloc at h
  dsimp only at h
  split at h
  · cases h
    rfl
  · cases h

/-! ## Places -/

/-- A symbolic link whose text is in the inode, where the pointers of other inodes are. -/
def Inode.fast (ev : Inode) : Bool := ev.mode == .lnk && decide (ev.size < 60)

/-- A word of an inode, as a pointer. -/
def Inode.pointer (ev : Inode) (slot : Nat) : Nat := if ev.fast then 0 else ev.block slot

/-- The pointers of the inodes `f`. -/
def forest (v : Volume) (f : Nat → Inode) : PtrForest (Nat × Nat) where
  root := fun k => (f k.1).pointer k.2
  ptr := v.ptr

/-- The places that can hold a block: `slot - 11` levels below word `slot`. -/
def Place (fs : Fs) (k : Nat × Nat) (is : List Nat) : Prop :=
  k.2 < 15 ∧ is.length ≤ k.2 - 11 ∧ ∀ i ∈ is, i < fs.pointers

theorem place_closed (fs : Fs) : PtrForest.Closed (Place fs) := by
  rintro k is i ⟨hslot, hlen, hbound⟩
  rw [List.length_append] at hlen
  exact ⟨hslot, by omega, fun j hj => hbound j (List.mem_append_left _ hj)⟩

/-- The place of a data block. -/
def DataPlace (fs : Fs) (k : Nat × Nat) (is : List Nat) : Prop :=
  Place fs k is ∧ is.length = k.2 - 11

/-- No block stands at two places, every block at a place is marked in use and holds no metadata,
and what holds metadata is marked; block 0, which stands for a hole, is never given out. -/
structure Held (v : Volume) (f : Nat → Inode) : Prop where
  checked : v.fs.Checked
  intact : v.spoiled = false
  guarded : ∀ b, v.reserved b = true → v.Marked b
  zero : v.Marked 0
  distinct : (forest v f).Distinct (Place v.fs)
  marked : ∀ k is, Place v.fs k is → (forest v f).node k is ≠ 0 →
    v.Marked ((forest v f).node k is) ∧ v.reserved ((forest v f).node k is) = false

/-- A byte of a data block; a hole reads as zero. -/
def byteAt (v : Volume) (f : Nat → Inode) (k : Nat × Nat) (is : List Nat) (off : Nat) : UInt8 :=
  if (forest v f).node k is = 0 then 0 else v.disk ((forest v f).node k is) off

/-- Blocks were added to the inodes. -/
structure Extends (v : Volume) (f : Nat → Inode) (w : Volume) (g : Nat → Inode) : Prop where
  beside : v.Beside w
  held : Held w g
  keeps : ∀ k is, Place v.fs k is → (forest v f).node k is ≠ 0 →
    (forest w g).node k is = (forest v f).node k is
  marks : ∀ b, v.Marked b → w.Marked b

theorem Extends.refl (h : Held v f) : Extends v f v f :=
  ⟨.refl v, h, fun _ _ _ _ => rfl, fun _ h => h⟩

theorem Extends.trans {h : Nat → Inode} (h₁ : Extends v f w g)
    (h₂ : Extends w g x h) : Extends v f x h where
  beside := h₁.beside.trans h₂.beside
  held := h₂.held
  keeps := by
    intro k is hplace hne
    have hfirst := h₁.keeps k is hplace hne
    rw [← hfirst] at hne ⊢
    exact h₂.keeps k is (h₁.beside.fs ▸ hplace) hne
  marks := fun b hb => h₂.marks b (h₁.marks b hb)

/-- Blocks were added and no data changed. -/
structure Grown (v : Volume) (f : Nat → Inode) (w : Volume) (g : Nat → Inode) : Prop
    extends Extends v f w g where
  bytes : ∀ k is off, DataPlace v.fs k is → byteAt w g k is off = byteAt v f k is off

theorem Grown.refl (h : Held v f) : Grown v f v f := ⟨.refl h, fun _ _ _ _ => rfl⟩

theorem Grown.trans {h : Nat → Inode} (h₁ : Grown v f w g)
    (h₂ : Grown w g x h) : Grown v f x h where
  toExtends := h₁.toExtends.trans h₂.toExtends
  bytes := by
    intro k is off hplace
    rw [h₂.bytes k is off (h₁.beside.fs ▸ hplace), h₁.bytes k is off hplace]

/-! ## Filling an empty place -/

/-- No block is left to allocate. -/
def Volume.full (v : Volume) : Bool :=
  match (ext2AllocBlock v .none).1 with
  | .ok _ => false
  | .error _ => true

/-- What mapping leaves of an inode besides its pointers and its block count. -/
structure Inode.Alike (ev ev' : Inode) : Prop where
  mode : ev'.mode = ev.mode
  size : ev'.size = ev.size
  links : ev'.linksCount = ev.linksCount

theorem Inode.Alike.refl (ev : Inode) : ev.Alike ev := ⟨rfl, rfl, rfl⟩

theorem Inode.Alike.trans {a b c : Inode} (h : a.Alike b) (h' : b.Alike c) : a.Alike c :=
  ⟨h'.mode.trans h.mode, h'.size.trans h.size, h'.links.trans h.links⟩

theorem Inode.Alike.fast {ev ev' : Inode} (h : ev.Alike ev') : ev'.fast = ev.fast := by
  unfold Inode.fast
  rw [h.mode, h.size]

section Fill

variable {k : Nat × Nat} {is : List Nat} {b : Nat}

theorem Held.fresh_ne (h : Held v f) (hfresh : ¬ v.Marked b) : b ≠ 0 := by
  rintro rfl
  exact hfresh h.zero

/-- A block that is not marked stands at no place. -/
theorem Held.nowhere (h : Held v f) (hfresh : ¬ v.Marked b) (k' : Nat × Nat) (is' : List Nat)
    (hp : Place v.fs k' is') : (forest v f).node k' is' ≠ b := by
  rintro rfl
  exact hfresh (h.marked k' is' hp (h.fresh_ne hfresh)).1

/-- One empty place gets a fresh block, which is blank if it is for data. -/
theorem Held.fill (h : Held v f) (hbeside : v.Beside w) (hfresh : ¬ v.Marked b)
    (hmarks : ∀ c, w.Marked c ↔ v.Marked c ∨ c = b) (hplace : Place v.fs k is)
    (hempty : (forest v f).node k is = 0)
    (hnode : ∀ k' is', Place v.fs k' is' → (k' = k ∧ is' = is → (forest w g).node k' is' = b) ∧
        (¬ (k' = k ∧ is' = is) → (forest w g).node k' is' = (forest v f).node k' is'))
    (hdisk : ∀ k' is', DataPlace v.fs k' is' → (forest v f).node k' is' ≠ 0 →
      w.disk ((forest v f).node k' is') = v.disk ((forest v f).node k' is'))
    (hblank : DataPlace v.fs k is → w.disk b = fun _ => 0) :
    Grown v f w g ∧ (forest w g).node k is = b ∧ b ≠ 0 := by
  have hb := h.fresh_ne hfresh
  have hself : (forest w g).node k is = b := (hnode k is hplace).1 ⟨rfl, rfl⟩
  have hfree := Bool.eq_false_of_not_eq_true fun hbad => hfresh (h.guarded b hbad)
  refine ⟨⟨⟨hbeside, ⟨hbeside.fs ▸ h.checked, hbeside.spoiled.trans h.intact, fun c hc => ?_,
    (hmarks 0).mpr (.inl h.zero), ?_, ?_⟩, ?_, fun c hc => (hmarks c).mpr (.inl hc)⟩, ?_⟩,
    hself, hb⟩
  · rw [hbeside.reserved] at hc
    exact (hmarks c).mpr (.inl (h.guarded c hc))
  · rw [hbeside.fs]
    exact h.distinct.insert (h.nowhere hfresh) (fun k' is' hp => (hnode k' is' hp).1)
      (fun k' is' hp => (hnode k' is' hp).2)
  · intro k' is' hp hne
    rw [hbeside.fs] at hp
    rw [hmarks, hbeside.reserved]
    by_cases hnew : k' = k ∧ is' = is
    · rw [(hnode k' is' hp).1 hnew]
      exact ⟨.inr rfl, hfree⟩
    · rw [(hnode k' is' hp).2 hnew] at hne ⊢
      exact (h.marked k' is' hp hne).imp_left .inl
  · intro k' is' hp hne
    refine (hnode k' is' hp).2 ?_
    rintro ⟨rfl, rfl⟩
    exact hne hempty
  · intro k' is' off hp
    unfold byteAt
    by_cases hnew : k' = k ∧ is' = is
    · obtain ⟨rfl, rfl⟩ := hnew
      rw [hself, if_neg hb, hempty, if_pos rfl, hblank hp]
    · rw [(hnode k' is' hp.1).2 hnew]
      split
      · rfl
      · rw [hdisk k' is' hp ‹_›]

theorem load_zero (n a : Nat) : load n (fun _ => 0) a = 0 := by
  induction n generalizing a with
  | zero => rfl
  | succ n ih => rw [load, ih]; rfl

/-- A word of an inode. -/
theorem Held.fillRoot {ino slot : Nat} (h : Held v f) (ev : Inode) (hslot : slot < 15)
    (hempty : (f ino).pointer slot = 0) (halloc : ext2AllocBlock v .none = (.ok b, w))
    (hword : ev.pointer slot = b) (hwords : ∀ j, j ≠ slot → ev.pointer j = (f ino).pointer j) :
    Grown v f w (update f ino ev) ∧
      (forest w (update f ino ev)).node (ino, slot) [] = b ∧ b ≠ 0 := by
  obtain ⟨hbeside, hfresh, -, hmarks, hdisk⟩ := ext2AllocBlock_ok h.checked h.guarded halloc
  have hb := h.fresh_ne hfresh
  have hplace : Place v.fs (ino, slot) [] :=
    ⟨hslot, Nat.zero_le _, fun i hi => absurd hi List.not_mem_nil⟩
  have hnowhere := h.nowhere hfresh
  refine h.fill hbeside hfresh hmarks hplace hempty (fun k' is' hp => ?_) ?_ ?_
  · refine PtrForest.node_plant (place_closed v.fs) hempty hb hnowhere ?_ ?_ ?_ ?_ hp
    · show (update f ino ev ino).pointer slot = b
      rw [update_self, hword]
    · rintro ⟨i', s'⟩ hne
      show (update f ino ev i').pointer s' = (f i').pointer s'
      by_cases hi : i' = ino
      · subst hi
        rw [update_self]
        exact hwords s' fun hs => hne (hs ▸ rfl)
      · rw [update_of_ne hi]
    · intro j
      show load 4 (w.disk b) (4 * j) = 0
      rw [hdisk, update_self, load_zero]
    · intro p j hp
      show load 4 (w.disk p) (4 * j) = load 4 (v.disk p) (4 * j)
      rw [hdisk, update_of_ne hp]
  · intro k' is' hp hne
    rw [hdisk, update_of_ne (hnowhere k' is' hp.1)]
  · intro _
    rw [hdisk, update_self]

/-- A word of a pointer block, which is written back with what was read before. -/
theorem Held.fillWord {i : Nat} (h : Held v f) (ino : Nat) (ev : Inode)
    (hplace : Place v.fs k (is ++ [i])) (hblk : (forest v f).node k is ≠ 0)
    (hempty : (forest v f).node k (is ++ [i]) = 0) (halloc : ext2AllocBlock v .none = (.ok b, w))
    (hwords : ∀ j, ev.pointer j = (f ino).pointer j) :
    Grown v f (w.writeBlock ((forest v f).node k is)
          (store 4 (v.disk ((forest v f).node k is)) (4 * i) b))
        (update f ino ev) ∧
      (forest (w.writeBlock ((forest v f).node k is)
          (store 4 (v.disk ((forest v f).node k is)) (4 * i) b))
        (update f ino ev)).node k (is ++ [i]) = b ∧ b ≠ 0 := by
  obtain ⟨hbeside, hfresh, hlt, hmarks, hdisk⟩ := ext2AllocBlock_ok h.checked h.guarded halloc
  have hb := h.fresh_ne hfresh
  have htable : Place v.fs k is := place_closed v.fs k is i hplace
  have hnowhere := h.nowhere hfresh
  have hout := (h.marked k is htable hblk).2
  rw [← hbeside.reserved] at hout
  generalize hp : (forest v f).node k is = p at hblk hout ⊢
  have hpb : p ≠ b := hp ▸ hnowhere k is htable
  have hread (c : Nat) : (w.writeBlock p (store 4 (v.disk p) (4 * i) b)).disk c =
      if c = p then store 4 (v.disk p) (4 * i) b
      else if c = b then fun _ => 0 else v.disk c := by
    show update w.disk p _ c = _
    rw [hdisk, update_apply, update_apply]
  refine h.fill (hbeside.trans (Volume.writeBlock_beside hout _)) hfresh hmarks hplace hempty
    (fun k' is' hp' => ?_) ?_ ?_
  · refine PtrForest.node_grow (place_closed v.fs) h.distinct htable (hp.symm ▸ hblk) hempty hb
      hnowhere ?_ ?_ ?_ ?_ hp'
    · funext k'
      show (update f ino ev k'.1).pointer k'.2 = (f k'.1).pointer k'.2
      by_cases hi : k'.1 = ino
      · rw [hi, update_self, hwords]
      · rw [update_of_ne hi]
    · show load 4 ((w.writeBlock p _).disk _) (4 * i) = b
      rw [hp, hread, if_pos rfl]
      exact load_store _ _ hlt
    · intro j
      show load 4 ((w.writeBlock p _).disk b) (4 * j) = 0
      rw [hread, if_neg hpb.symm, if_pos rfl, load_zero]
    · intro c j hcb hother
      show load 4 ((w.writeBlock p _).disk c) (4 * j) = load 4 (v.disk c) (4 * j)
      rw [hread]
      split
      · rename_i hcp
        subst hcp
        exact load_store_of_disjoint _ _ (by omega)
      · rfl
  · -- the table is not a data block
    intro k' is' hp' hne
    have hnep : (forest v f).node k' is' ≠ p := by
      intro heq
      obtain ⟨rfl, rfl⟩ := h.distinct k' is' k is hp'.1 htable hne (heq.trans hp.symm)
      have hlen := hplace.2.1
      rw [List.length_append, List.length_singleton, hp'.2] at hlen
      omega
    rw [hread, if_neg hnep, if_neg (hnowhere k' is' hp'.1)]
  · intro _
    rw [hread, if_neg hpb.symm, if_pos rfl]

end Fill

end ArcKernel.Ext2
