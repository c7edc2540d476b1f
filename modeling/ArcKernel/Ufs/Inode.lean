import ArcKernel.Foundation.Bytes

/-!
# Inodes on a UFS volume

`ufs_read_inode` and `ufs_write_inode` of `bsd/vfs/ufs/ufs.c`, for both formats.  A format is a
table of places; the in-memory inode has the same fields in 64 bits (signed ones in two's
complement).  The text of a short symbolic link lies over the block pointers.

Both functions move a whole block between the device and a buffer.  `ufs_write_inode` clears
`UFS_MAXSYMLINKLEN` = 120 bytes for the text, the size of the area in the larger format, where
the smaller one has 60: the fields behind the pointers are lost, and the start of the next inode
or of whatever follows the buffer.
-/

namespace ArcKernel.Ufs

open ArcKernel.Foundation ByteMem

variable {off w x : Nat}

/-! ## The two formats -/

/-- The fields of `ufs_vnode_t` that are read from the device. -/
inductive Fld where
  | mode | nlink | uid | gid | size | blocks | atime | mtime | ctime | birthtime | gen | flags
  | db (i : Fin 12)
  | ib (i : Fin 3)

def Fld.isPtr : Fld → Bool
  | .db _ | .ib _ => true
  | _ => false

def Fld.all : List Fld :=
  [.mode, .nlink, .uid, .gid, .size, .blocks, .atime, .mtime, .ctime, .birthtime, .gen, .flags] ++
    (List.finRange 12).map .db ++ (List.finRange 3).map .ib

inductive Format where
  | ufs1
  | ufs2
  deriving DecidableEq

namespace Format

/-- Offset and width of a field in `ufs1_dinode_t` or `ufs2_dinode_t`. -/
def place : Format → Fld → Option (Nat × Nat)
  | .ufs1, .mode => some (0, 2)
  | .ufs1, .nlink => some (2, 2)
  | .ufs1, .size => some (8, 8)
  | .ufs1, .atime => some (16, 4)
  | .ufs1, .mtime => some (24, 4)
  | .ufs1, .ctime => some (32, 4)
  | .ufs1, .db i => some (40 + 4 * i, 4)
  | .ufs1, .ib i => some (88 + 4 * i, 4)
  | .ufs1, .flags => some (100, 4)
  | .ufs1, .blocks => some (104, 4)
  | .ufs1, .gen => some (108, 4)
  | .ufs1, .uid => some (112, 4)
  | .ufs1, .gid => some (116, 4)
  | .ufs1, .birthtime => none
  | .ufs2, .mode => some (0, 2)
  | .ufs2, .nlink => some (2, 2)
  | .ufs2, .uid => some (4, 4)
  | .ufs2, .gid => some (8, 4)
  | .ufs2, .size => some (16, 8)
  | .ufs2, .blocks => some (24, 8)
  | .ufs2, .atime => some (32, 8)
  | .ufs2, .mtime => some (40, 8)
  | .ufs2, .ctime => some (48, 8)
  | .ufs2, .birthtime => some (56, 8)
  | .ufs2, .gen => some (80, 4)
  | .ufs2, .flags => some (88, 4)
  | .ufs2, .db i => some (112 + 8 * i, 8)
  | .ufs2, .ib i => some (208 + 8 * i, 8)

/-- `UFS1_INODE_SIZE`, `UFS2_INODE_SIZE`. -/
def isize : Format → Nat
  | .ufs1 => 128
  | .ufs2 => 256

/-- The offset of `di_db`, where the text of a short link begins. -/
def text : Format → Nat
  | .ufs1 => 40
  | .ufs2 => 112

/-- `fs_maxsymlinklen`, as `ufs_validate_sblock` demands it. -/
def maxSymlink : Format → Nat
  | .ufs1 => 60
  | .ufs2 => 120

/-- A word of the device in 64 bits: the block pointers of UFS1 are signed. -/
def widen (fmt : Format) (f : Fld) (x : Nat) : Nat :=
  if fmt = .ufs1 ∧ f.isPtr = true ∧ 2 ^ 31 ≤ x then x + (2 ^ 64 - 2 ^ 32) else x

end Format

/-- `UFS_MAXSYMLINKLEN`. -/
def maxSymlinkLen : Nat := 120

/-- `ufs_vnode_t` without the fields that only exist in memory. -/
@[ext] structure Uv where
  word : Fld → Nat
  shortlink : Fin 120 → UInt8

/-- `(mode & IFMT) == IFLNK`. -/
def Uv.isLink (uv : Uv) : Bool := uv.word .mode &&& 0xF000 == 0xA000

/-- A link whose text `ufs_read_inode` takes from the pointers. -/
def Uv.Short (fmt : Format) (uv : Uv) : Prop := uv.isLink = true ∧ uv.word .size < fmt.maxSymlink

instance (fmt : Format) (uv : Uv) : Decidable (uv.Short fmt) := inferInstanceAs (Decidable (_ ∧ _))

/-- The words of the inode at `p` of a buffer. -/
def readWords (fmt : Format) (buf : ByteMem) (p : Nat) : Uv where
  word := fun f => match fmt.place f with
    | some (off, w) => fmt.widen f (load w buf (p + off))
    | none => 0
  shortlink := fun _ => 0

/-! ## The volume -/

/-- What of the superblock says where inodes are. -/
structure Volume where
  fmt : Format
  fsize : Nat
  fragshift : Nat
  inopb : Nat
  ipg : Nat
  ncg : Nat
  fpg : Nat
  iblkno : Nat
  cgoffset : BitVec 32
  cgmask : BitVec 32

namespace Volume

def bsize (v : Volume) : Nat := v.fsize * 2 ^ v.fragshift

/-- `CG_START`. -/
def cgStart (v : Volume) (cg : Nat) : Nat :=
  v.fpg * cg + if v.fmt = .ufs2 then 0
    else (v.cgoffset * (BitVec.ofNat 32 cg &&& ~~~v.cgmask)).toNat

/-- `INO_TO_FSBA`. -/
def inoToFsba (v : Volume) (ino : Nat) : Nat :=
  v.cgStart (ino / v.ipg) + v.iblkno + ino % v.ipg / v.inopb * 2 ^ v.fragshift

/-- `INO_TO_FSBO`. -/
def inoToFsbo (v : Volume) (ino : Nat) : Nat := ino % v.inopb

def HasInode (v : Volume) (ino : Nat) : Prop := 2 ≤ ino ∧ ino < v.ncg * v.ipg

instance (v : Volume) (ino : Nat) : Decidable (v.HasInode ino) :=
  inferInstanceAs (Decidable (_ ∧ _))

/-- Where the block of an inode starts on the device, and the inode in it. -/
def blockAt (v : Volume) (ino : Nat) : Nat := v.inoToFsba ino * v.fsize

def within (v : Volume) (ino : Nat) : Nat := v.inoToFsbo ino * v.fmt.isize

/-- `ufs_read_inode`; `none` is `-EINVAL`. -/
def readInode (v : Volume) (disk : ByteMem) (ino : Nat) : Option Uv :=
  if v.HasInode ino then
    let buf : ByteMem := fun x => disk (v.blockAt ino + x)
    let uv := readWords v.fmt buf (v.within ino)
    some (if uv.Short v.fmt then
      { uv with shortlink := fun k => buf (v.within ino + v.fmt.text + k) } else uv)
  else none

/-- What `ufs_write_inode` ends in. -/
inductive Outcome where
  | ok (disk : ByteMem)
  | einval
  /-- A write behind the buffer. -/
  | overrun

/-- The stores to the fields. -/
def fields (fmt : Format) (uv : Uv) : List ByteMem.Field :=
  Fld.all.filterMap fun f => (fmt.place f).map fun (off, w) => ⟨off, w, uv.word f % 256 ^ w⟩

/-- The `memset` and the `memcpy` of the text, at `a`. -/
def putText (buf : ByteMem) (a : Nat) (uv : Uv) : ByteMem := fun x =>
  if h : a ≤ x ∧ x < a + maxSymlinkLen then
    if x - a < uv.word .size then uv.shortlink ⟨x - a, by unfold maxSymlinkLen at h; omega⟩ else 0
  else buf x

/-- `ufs_write_inode`. -/
def writeInode (v : Volume) (disk : ByteMem) (ino : Nat) (uv : Uv) : Outcome :=
  if v.HasInode ino then
    let buf : ByteMem := fun x => disk (v.blockAt ino + x)
    let p := v.within ino
    let buf := storeAll p buf (fields v.fmt uv)
    let short := uv.isLink = true ∧ uv.word .size ≤ v.fmt.maxSymlink
    if short ∧ v.bsize < p + v.fmt.text + maxSymlinkLen then .overrun
    else
      let buf := if short then putText buf (p + v.fmt.text) uv else buf
      .ok fun x => if v.blockAt ino ≤ x ∧ x < v.blockAt ino + v.bsize then buf (x - v.blockAt ino)
        else disk x
  else .einval

/-! ## What is promised -/

/-- What the mount has checked of the geometry, and that the inodes of two cylinder groups do not
share bytes. -/
structure Sound (v : Volume) : Prop where
  fsize_pos : 0 < v.fsize
  inopb_pos : 0 < v.inopb
  inopb_eq : v.inopb * v.fmt.isize = v.bsize
  ipg_eq : v.ipg % v.inopb = 0
  apart : ∀ cg < v.ncg, ∀ cg' < v.ncg, cg < cg' ∨ cg' < cg →
    (v.cgStart cg + v.iblkno) * v.fsize + v.ipg * v.fmt.isize ≤
        (v.cgStart cg' + v.iblkno) * v.fsize ∨
      (v.cgStart cg' + v.iblkno) * v.fsize + v.ipg * v.fmt.isize ≤
        (v.cgStart cg + v.iblkno) * v.fsize

/-- Where an inode is on the device. -/
def inodeAt (v : Volume) (ino : Nat) : Nat := v.blockAt ino + v.within ino

end Volume

/-- Every field is what its place on the device can hold, and there is text only in a short
link, up to its size. -/
structure Uv.Fits (fmt : Format) (uv : Uv) : Prop where
  word : ∀ f off w, fmt.place f = some (off, w) → fmt.widen f (uv.word f % 256 ^ w) = uv.word f
  absent : ∀ f, fmt.place f = none → uv.word f = 0
  text : ∀ k, uv.shortlink k ≠ 0 → uv.Short fmt ∧ k.val < uv.word .size

/-- The same inode; the pointers of a short link are its text and nothing else. -/
structure Uv.Same (fmt : Format) (uv uv' : Uv) : Prop where
  word : ∀ f, uv.Short fmt ∧ f.isPtr = true ∨ uv'.word f = uv.word f
  shortlink : uv'.shortlink = uv.shortlink

/-- The writes that go wrong: the text of a UFS1 link is cleared past its area, and on UFS2 the
pointers of a link of exactly `fs_maxsymlinklen` bytes are taken for text. -/
def Uv.Clobbered (fmt : Format) (uv : Uv) : Prop :=
  uv.isLink = true ∧ (fmt = .ufs1 ∧ uv.word .size ≤ 60 ∨
    fmt = .ufs2 ∧ uv.word .size = 120 ∧ ∃ f, f.isPtr = true ∧ uv.word f ≠ 0)

variable {v : Volume} {disk : ByteMem} {ino ino' : Nat} {uv : Uv} {f : Fld} {fmt : Format}

/-! ## Places of inodes -/

theorem Volume.Sound.inodeAt_eq (h : v.Sound) (ino : Nat) : v.inodeAt ino =
    (v.cgStart (ino / v.ipg) + v.iblkno) * v.fsize + ino % v.ipg * v.fmt.isize := by
  have hdvd : v.inopb ∣ v.ipg := Nat.dvd_of_mod_eq_zero h.ipg_eq
  have hmod : ino % v.inopb = ino % v.ipg % v.inopb := (Nat.mod_mod_of_dvd ino hdvd).symm
  have hsplit := Nat.div_add_mod (ino % v.ipg) v.inopb
  unfold Volume.inodeAt Volume.blockAt Volume.within Volume.inoToFsba Volume.inoToFsbo
  rw [hmod, Nat.add_mul, Nat.add_assoc]
  congr 1
  calc ino % v.ipg / v.inopb * 2 ^ v.fragshift * v.fsize + ino % v.ipg % v.inopb * v.fmt.isize
      = ino % v.ipg / v.inopb * v.bsize + ino % v.ipg % v.inopb * v.fmt.isize := by
        rw [Nat.mul_assoc, Nat.mul_comm (2 ^ v.fragshift)]
        rfl
    _ = (v.inopb * (ino % v.ipg / v.inopb) + ino % v.ipg % v.inopb) * v.fmt.isize := by
        rw [← h.inopb_eq]
        ring
    _ = ino % v.ipg * v.fmt.isize := by rw [hsplit]

/-- Two inodes have no byte in common. -/
theorem Volume.Sound.disjoint (h : v.Sound) (hino : v.HasInode ino) (hino' : v.HasInode ino')
    (hne : ino' ≠ ino) : v.inodeAt ino + v.fmt.isize ≤ v.inodeAt ino' ∨
      v.inodeAt ino' + v.fmt.isize ≤ v.inodeAt ino := by
  have hpos : 0 < v.ipg := Nat.pos_of_ne_zero fun h0 => by
    have := hino.2
    rw [h0] at this
    omega
  have hgroup (x : Nat) (hx : x < v.ncg * v.ipg) : x / v.ipg < v.ncg :=
    Nat.div_lt_of_lt_mul (by rwa [Nat.mul_comm])
  have hin (x : Nat) : x % v.ipg * v.fmt.isize + v.fmt.isize ≤ v.ipg * v.fmt.isize := by
    rw [← Nat.succ_mul]
    exact Nat.mul_le_mul_right _ (Nat.mod_lt x hpos)
  rw [h.inodeAt_eq, h.inodeAt_eq]
  rcases Nat.lt_trichotomy (ino / v.ipg) (ino' / v.ipg) with hlt | heq | hlt
  · have := hin ino
    have := hin ino'
    rcases h.apart _ (hgroup ino hino.2) _ (hgroup ino' hino'.2) (.inl hlt) with h | h <;> omega
  · have hslot : ino % v.ipg < ino' % v.ipg ∨ ino' % v.ipg < ino % v.ipg := by
      have := Nat.div_add_mod ino v.ipg
      have := Nat.div_add_mod ino' v.ipg
      rw [heq] at *
      omega
    have hstep (a b : Nat) (hab : a < b) : a * v.fmt.isize + v.fmt.isize ≤ b * v.fmt.isize := by
      rw [← Nat.succ_mul]
      exact Nat.mul_le_mul_right _ hab
    rw [heq]
    rcases hslot with hlt | hlt
    all_goals
      have := hstep _ _ hlt
      omega
  · have := hin ino
    have := hin ino'
    rcases h.apart _ (hgroup ino hino.2) _ (hgroup ino' hino'.2) (.inr hlt) with h | h <;> omega

/-! ## Fields -/

theorem Fld.mem_all (f : Fld) : f ∈ Fld.all := by cases f <;> simp [Fld.all, List.mem_finRange]

theorem Format.place_fits (h : fmt.place f = some (off, w)) :
    off + w ≤ fmt.isize ∧ (fmt = .ufs2 → f.isPtr = false → off + w ≤ 112) ∧
      (fmt = .ufs2 → f.isPtr = true → 112 ≤ off ∧ off + w ≤ 232 ∧ w = 8) := by
  cases fmt <;> cases f <;> cases h <;> simp [Format.isize, Fld.isPtr] <;> omega

theorem fields_pairwise (fmt : Format) (uv : Uv) : (Volume.fields fmt uv).Pairwise fun f g =>
    f.off + f.width ≤ g.off ∨ g.off + g.width ≤ f.off := by
  have hplaces : ((Fld.all.filterMap fmt.place).Pairwise fun f g =>
      f.1 + f.2 ≤ g.1 ∨ g.1 + g.2 ≤ f.1) := by
    cases fmt <;> decide +kernel
  rw [List.pairwise_filterMap] at hplaces
  rw [Volume.fields, List.pairwise_filterMap]
  refine hplaces.imp fun {a b} hab x hx y hy => ?_
  rw [Option.map_eq_some_iff] at hx hy
  obtain ⟨p, hp, rfl⟩ := hx
  obtain ⟨q, hq, rfl⟩ := hy
  exact hab p hp q hq

theorem load_fields (buf : ByteMem) (p : Nat) (h : fmt.place f = some (off, w)) :
    load w (storeAll p buf (Volume.fields fmt uv)) (p + off) = uv.word f % 256 ^ w := by
  have hmem : (⟨off, w, uv.word f % 256 ^ w⟩ : ByteMem.Field) ∈ Volume.fields fmt uv :=
    List.mem_filterMap.mpr ⟨f, f.mem_all, by rw [h]; rfl⟩
  exact load_storeAll (fields_pairwise fmt uv) hmem (Nat.mod_lt _ (by positivity))

theorem fields_outside (buf : ByteMem) (p : Nat) (h : x < p ∨ p + fmt.isize ≤ x) :
    storeAll p buf (Volume.fields fmt uv) x = buf x := by
  refine storeAll_outside buf fun g hg => ?_
  obtain ⟨f, -, hf⟩ := List.mem_filterMap.mp hg
  obtain ⟨⟨off, w⟩, hplace, rfl⟩ := Option.map_eq_some_iff.mp hf
  have := (Format.place_fits hplace).1
  dsimp only
  omega

/-! ## The written block -/

/-- The buffer that `ufs_write_inode` writes back. -/
def Volume.written (v : Volume) (disk : ByteMem) (ino : Nat) (uv : Uv) : ByteMem :=
  let buf := storeAll (v.within ino) (fun x => disk (v.blockAt ino + x)) (Volume.fields v.fmt uv)
  if uv.isLink = true ∧ uv.word .size ≤ v.fmt.maxSymlink then
    putText buf (v.within ino + v.fmt.text) uv else buf

theorem Volume.Sound.within_le (h : v.Sound) (ino : Nat) :
    v.within ino + v.fmt.isize ≤ v.bsize := by
  unfold Volume.within Volume.inoToFsbo
  rw [← h.inopb_eq, ← Nat.succ_mul]
  exact Nat.mul_le_mul_right _ (Nat.mod_lt ino h.inopb_pos)

section

variable (hok : ¬(uv.isLink = true ∧ v.fmt = .ufs1 ∧ uv.word .size ≤ 60))
include hok

/-- Outside the inode nothing changes, unless the text runs over. -/
theorem written_outside (hx : x < v.within ino ∨ v.within ino + v.fmt.isize ≤ x) :
    v.written disk ino uv x = disk (v.blockAt ino + x) := by
  unfold Volume.written
  split
  · rename_i hshort
    cases hfmt : v.fmt with
    | ufs1 =>
      rw [hfmt] at hshort
      exact absurd ⟨hshort.1, hfmt, hshort.2⟩ hok
    | ufs2 =>
      rw [hfmt] at hx
      simp only [Format.isize] at hx
      rw [Volume.putText, dif_neg (by simp only [Format.text, maxSymlinkLen]; omega)]
      exact fields_outside _ _ hx
  · exact fields_outside _ _ hx

/-- The fields that the text does not lie over. -/
theorem load_written (hf : v.fmt.place f = some (off, w))
    (hptr : uv.isLink = true ∧ uv.word .size ≤ v.fmt.maxSymlink → f.isPtr = false) :
    load w (v.written disk ino uv) (v.within ino + off) = uv.word f % 256 ^ w := by
  unfold Volume.written
  split
  · rename_i hshort
    have hfmt : v.fmt = .ufs2 := by
      cases hfmt : v.fmt with
      | ufs1 =>
        rw [hfmt] at hshort
        exact absurd ⟨hshort.1, hfmt, hshort.2⟩ hok
      | ufs2 => rfl
    have hbelow := (Format.place_fits hf).2.1 hfmt (hptr hshort)
    rw [← load_fields (fun x => disk (v.blockAt ino + x)) (v.within ino) hf]
    refine load_congr fun x _ hx => ?_
    rw [Volume.putText, dif_neg]
    rw [hfmt]
    simp only [Format.text]
    omega
  · exact load_fields _ _ hf

end

/-- The device with the block written back. -/
def Volume.stored (v : Volume) (disk : ByteMem) (ino : Nat) (uv : Uv) : ByteMem := fun x =>
  if v.blockAt ino ≤ x ∧ x < v.blockAt ino + v.bsize then
    v.written disk ino uv (x - v.blockAt ino) else disk x

theorem writeInode_eq (hino : v.HasInode ino)
    (hroom : uv.isLink = true ∧ uv.word .size ≤ v.fmt.maxSymlink →
      v.within ino + v.fmt.text + maxSymlinkLen ≤ v.bsize) :
    v.writeInode disk ino uv = .ok (v.stored disk ino uv) := by
  unfold Volume.writeInode
  rw [if_pos hino]
  exact if_neg fun hbad => absurd (hroom hbad.1) (by omega)

theorem stored_block (hx : x < v.bsize) :
    v.stored disk ino uv (v.blockAt ino + x) = v.written disk ino uv x := by
  unfold Volume.stored
  rw [if_pos (by omega), Nat.add_sub_cancel_left]

/-- What is read back. -/
theorem readInode_stored (h : v.Sound) (hino : v.HasInode ino) :
    let read := readWords v.fmt (v.written disk ino uv) (v.within ino)
    v.readInode (v.stored disk ino uv) ino = some (if read.Short v.fmt then { read with
      shortlink := fun k => v.stored disk ino uv (v.blockAt ino + (v.within ino + v.fmt.text + k)) }
      else read) := by
  have hwords : readWords v.fmt (fun x => v.stored disk ino uv (v.blockAt ino + x))
      (v.within ino) = readWords v.fmt (v.written disk ino uv) (v.within ino) := by
    unfold readWords
    congr 1
    funext f
    split
    · rename_i off w hf
      have := (Format.place_fits hf).1
      have := h.within_le ino
      exact congrArg _ (load_congr fun x hx hxw => stored_block (by omega))
    · rfl
  unfold Volume.readInode
  rw [if_pos hino]
  dsimp only
  rw [hwords]

/-- A link of the greatest length has no text, and zeros are written over its pointers. -/
theorem word_under_text (hfit : uv.Fits v.fmt) (hfmt : v.fmt = .ufs2) (hlink : uv.isLink = true)
    (hsize : uv.word .size = 120) (hptr : f.isPtr = true) :
    (readWords v.fmt (v.written disk ino uv) (v.within ino)).word f = 0 := by
  have hmax : uv.word .size = v.fmt.maxSymlink := by rw [hsize, hfmt]; rfl
  have hblank : ∀ k, uv.shortlink k = 0 := by
    intro k
    by_contra hne
    exact absurd (hfit.text k hne).1.2 (by rw [hmax]; exact lt_irrefl _)
  simp only [readWords]
  split
  · rename_i off w hf
    obtain ⟨hlo, hhi, -⟩ := (Format.place_fits hf).2.2 hfmt hptr
    have hload : load w (v.written disk ino uv) (v.within ino + off) = 0 := by
      rw [← load_zero w (v.within ino + off)]
      refine load_congr fun x hx hxw => ?_
      unfold Volume.written
      rw [if_pos ⟨hlink, hmax.le⟩, Volume.putText, dif_pos]
      · split
        · exact hblank _
        · rfl
      · rw [hfmt]
        simp only [Format.text, maxSymlinkLen]
        omega
    rw [hload, Format.widen, if_neg (by omega)]
  · rfl

/-- Without a clobbered field, what was written is read back. -/
theorem words_written (hfit : uv.Fits v.fmt) (hnot : ¬uv.Clobbered v.fmt) (f : Fld) :
    uv.Short v.fmt ∧ f.isPtr = true ∨
      (readWords v.fmt (v.written disk ino uv) (v.within ino)).word f = uv.word f := by
  have hok : ¬(uv.isLink = true ∧ v.fmt = .ufs1 ∧ uv.word .size ≤ 60) :=
    fun h => hnot ⟨h.1, .inl h.2⟩
  by_cases htext : (uv.isLink = true ∧ uv.word .size ≤ v.fmt.maxSymlink) ∧ f.isPtr = true
  · obtain ⟨⟨hlink, hsize⟩, hptr⟩ := htext
    rcases Nat.lt_or_eq_of_le hsize with hlt | heq
    · exact .inl ⟨⟨hlink, hlt⟩, hptr⟩
    right
    cases hfmt : v.fmt with
    | ufs1 =>
      rw [hfmt] at hsize
      exact absurd ⟨hlink, hfmt, hsize⟩ hok
    | ufs2 =>
      rw [hfmt] at heq
      have hzero : uv.word f = 0 := by
        by_contra hne
        exact hnot ⟨hlink, .inr ⟨hfmt, heq, f, hptr, hne⟩⟩
      rw [hzero, ← hfmt]
      exact word_under_text hfit hfmt hlink heq hptr
  right
  simp only [readWords]
  split
  · rename_i off w hf
    rw [load_written hok hf fun hshort => by
      rw [← Bool.not_eq_true]
      exact fun hptr => htext ⟨hshort, hptr⟩]
    exact hfit.word f off w hf
  · rename_i hf
    exact (hfit.absent f hf).symm

/-- The bytes of the other inodes. -/
theorem stored_other (h : v.Sound) (hino : v.HasInode ino) (hnot : ¬uv.Clobbered v.fmt)
    (hino' : v.HasInode ino') (hne : ino' ≠ ino) {k : Nat} (hk : k < v.fmt.isize) :
    v.stored disk ino uv (v.inodeAt ino' + k) = disk (v.inodeAt ino' + k) := by
  have hapart := h.disjoint hino hino' hne
  unfold Volume.stored
  split
  · rw [written_outside (fun hbad => hnot ⟨hbad.1, .inl hbad.2⟩)]
    · congr 1
      omega
    · unfold Volume.inodeAt at *
      omega
  · rfl

/-- The text and the words of an inode that was not clobbered. -/
theorem same_of_stored (h : v.Sound) (hino : v.HasInode ino) (hfit : uv.Fits v.fmt)
    (hnot : ¬uv.Clobbered v.fmt) :
    ∃ uv', v.readInode (v.stored disk ino uv) ino = some uv' ∧ uv.Same v.fmt uv' := by
  have hword : ∀ f, uv.Short v.fmt ∧ f.isPtr = true ∨
      (readWords v.fmt (v.written disk ino uv) (v.within ino)).word f = uv.word f :=
    words_written hfit hnot
  have hplain (f : Fld) (hf : f.isPtr = false) :
      (readWords v.fmt (v.written disk ino uv) (v.within ino)).word f = uv.word f :=
    (hword f).resolve_left fun hbad => by rw [hf] at hbad; cases hbad.2
  have hshort : (readWords v.fmt (v.written disk ino uv) (v.within ino)).Short v.fmt ↔
      uv.Short v.fmt := by
    unfold Uv.Short Uv.isLink
    rw [hplain .mode rfl, hplain .size rfl]
  refine ⟨_, readInode_stored h hino, ?_⟩
  by_cases hs : uv.Short v.fmt
  · rw [if_pos (hshort.mpr hs)]
    refine ⟨hword, funext fun k => ?_⟩
    have hfmt : v.fmt = .ufs2 := by
      cases hfmt : v.fmt with
      | ufs1 =>
        have hsize := hs.2
        rw [hfmt] at hsize
        exact absurd ⟨hs.1, .inl ⟨hfmt, hsize.le⟩⟩ hnot
      | ufs2 => rfl
    have hroom := h.within_le ino
    have hin : v.within ino + v.fmt.text + k < v.bsize := by
      rw [hfmt] at hroom ⊢
      simp only [Format.isize, Format.text] at hroom ⊢
      omega
    dsimp only
    rw [stored_block hin, Volume.written, if_pos ⟨hs.1, hs.2.le⟩, Volume.putText,
      dif_pos ⟨by omega, by unfold maxSymlinkLen; omega⟩]
    simp only [Nat.add_sub_cancel_left]
    split
    · rfl
    · rename_i hout
      by_contra hne
      exact hout (hfit.text k (Ne.symm hne)).2
  · rw [if_neg (mt hshort.mp hs)]
    refine ⟨hword, funext fun k => ?_⟩
    by_contra hne
    exact hs (hfit.text k (Ne.symm hne)).1

/-- On every device the inode is read back as it was written and no byte of another changes. -/
def Volume.Faithful (v : Volume) (ino : Nat) (uv : Uv) : Prop :=
  ∀ disk, ∃ disk', v.writeInode disk ino uv = .ok disk' ∧
    (∃ uv', v.readInode disk' ino = some uv' ∧ uv.Same v.fmt uv') ∧
    ∀ ino', v.HasInode ino' → ino' ≠ ino → ∀ k < v.fmt.isize,
      disk' (v.inodeAt ino' + k) = disk (v.inodeAt ino' + k)

/-- A short link of UFS1 runs over the next inode, or over the buffer. -/
theorem not_faithful_ufs1 (h : v.Sound) (hino : v.HasInode ino) (hfmt : v.fmt = .ufs1)
    (hlink : uv.isLink = true) (hsize : uv.word .size ≤ 60) : ¬v.Faithful ino uv := by
  intro hall
  obtain ⟨disk', hwrite, -, hframe⟩ := hall fun _ => 1
  have hshort : uv.isLink = true ∧ uv.word .size ≤ v.fmt.maxSymlink := by
    rw [hfmt]
    exact ⟨hlink, hsize⟩
  have hin : v.within ino + 160 ≤ v.bsize := by
    by_contra hout
    unfold Volume.writeInode at hwrite
    rw [if_pos hino] at hwrite
    rw [if_pos ⟨hshort, by rw [hfmt]; simp only [Format.text, maxSymlinkLen]; omega⟩] at hwrite
    cases hwrite
  rw [writeInode_eq hino fun _ => by
    rw [hfmt]; simp only [Format.text, maxSymlinkLen]; omega] at hwrite
  cases hwrite
  -- the block has room for another inode, and its first byte is cleared
  have hslot : ino % v.inopb + 1 < v.inopb := by
    have heq := h.inopb_eq
    unfold Volume.within Volume.inoToFsbo at hin
    rw [hfmt] at heq hin
    simp only [Format.isize] at heq hin
    omega
  have hndvd : ¬v.inopb ∣ ino + 1 := by
    rw [Nat.dvd_iff_mod_eq_zero, ← Nat.mod_add_mod, Nat.mod_eq_of_lt hslot]
    exact Nat.succ_ne_zero _
  have hgroup : v.inopb ∣ v.ipg := Nat.dvd_of_mod_eq_zero h.ipg_eq
  have hhas : v.HasInode (ino + 1) :=
    ⟨by have := hino.1; omega, lt_of_le_of_ne hino.2 fun heq =>
      hndvd (heq ▸ Dvd.dvd.mul_left hgroup _)⟩
  have hdiv : (ino + 1) / v.ipg = ino / v.ipg :=
    Nat.succ_div_of_not_dvd fun hbad => hndvd (hgroup.trans hbad)
  have hmod : (ino + 1) % v.ipg = ino % v.ipg + 1 := by
    have h1 := Nat.div_add_mod (ino + 1) v.ipg
    have h2 := Nat.div_add_mod ino v.ipg
    rw [hdiv] at h1
    omega
  have hat : v.inodeAt (ino + 1) = v.blockAt ino + (v.within ino + 128) := by
    rw [h.inodeAt_eq, hdiv, hmod, Nat.succ_mul, ← Nat.add_assoc, ← h.inodeAt_eq, hfmt]
    rfl
  have hclear := hframe (ino + 1) hhas (by omega) 0 (by rw [hfmt]; decide)
  rw [Nat.add_zero, hat, stored_block (by omega), Volume.written, if_pos hshort, Volume.putText,
    dif_pos (by rw [hfmt]; simp only [Format.text, maxSymlinkLen]; omega), if_neg
      (by rw [hfmt]; simp only [Format.text]; omega)] at hclear
  exact absurd hclear (by decide)

/-- A pointer under the text of a link of 120 bytes is lost. -/
theorem not_faithful_ufs2 (h : v.Sound) (hino : v.HasInode ino) (hfit : uv.Fits v.fmt)
    (hfmt : v.fmt = .ufs2) (hlink : uv.isLink = true) (hsize : uv.word .size = 120)
    (hptr : f.isPtr = true) (hne : uv.word f ≠ 0) : ¬v.Faithful ino uv := by
  intro hall
  obtain ⟨disk', hwrite, ⟨uv', hread, hsame⟩, -⟩ := hall fun _ => 0
  have hroom := h.within_le ino
  rw [hfmt] at hroom
  simp only [Format.isize] at hroom
  rw [writeInode_eq hino fun _ => by
    rw [hfmt]; simp only [Format.text, maxSymlinkLen]; omega] at hwrite
  cases hwrite
  have hlong : ¬uv.Short v.fmt := fun hs => by
    have := hs.2
    rw [hsize, hfmt] at this
    exact absurd this (by decide)
  have hword := (hsame.word f).resolve_left fun hbad => hlong hbad.1
  rw [readInode_stored h hino, Option.some_inj] at hread
  apply hne
  rw [← hword, ← hread]
  have hzero : (readWords v.fmt (v.written (fun _ => 0) ino uv) (v.within ino)).word f = 0 :=
    word_under_text hfit hfmt hlink hsize hptr
  split
  · exact hzero
  · exact hzero

/-- Exactly the links named are not stored and read back faithfully. -/
theorem faithful_iff (h : v.Sound) (hino : v.HasInode ino) (hfit : uv.Fits v.fmt) :
    v.Faithful ino uv ↔ ¬uv.Clobbered v.fmt := by
  constructor
  · rintro hall ⟨hlink, ⟨hfmt, hsize⟩ | ⟨hfmt, hsize, f, hptr, hne⟩⟩
    · exact not_faithful_ufs1 h hino hfmt hlink hsize hall
    · exact not_faithful_ufs2 h hino hfit hfmt hlink hsize hptr hne hall
  intro hnot disk
  refine ⟨_, writeInode_eq hino fun hshort => ?_, same_of_stored h hino hfit hnot,
    fun ino' hino' hne k hk => stored_other h hino hnot hino' hne hk⟩
  have hroom := h.within_le ino
  cases hfmt : v.fmt with
  | ufs1 =>
    rw [hfmt] at hshort
    exact absurd ⟨hshort.1, .inl ⟨hfmt, hshort.2⟩⟩ hnot
  | ufs2 =>
    rw [hfmt] at hroom
    simp only [Format.isize] at hroom
    simp only [Format.text, maxSymlinkLen]
    omega

/-! ## A link of three bytes -/

/-- One group of 32 inodes in blocks of 4 KiB. -/
def oneGroup (fmt : Format) (inopb : Nat) : Volume where
  fmt := fmt
  fsize := 4096
  fragshift := 0
  inopb := inopb
  ipg := 32
  ncg := 1
  fpg := 64
  iblkno := 3
  cgoffset := 0
  cgmask := 0

def threeBytes : Uv where
  word
    | .mode => 0xA1FF
    | .nlink => 1
    | .size => 3
    | _ => 0
  shortlink := fun k => if k.val < 3 then 97 else 0

theorem oneGroup_sound : (oneGroup .ufs1 32).Sound ∧ (oneGroup .ufs2 16).Sound := by
  constructor <;> refine ⟨by decide, by decide, by decide, by decide, fun cg h cg' h' => ?_⟩ <;>
    simp only [oneGroup] at h h' <;> omega

theorem threeBytes_fits (fmt : Format) : threeBytes.Fits fmt where
  word f off w h := by cases fmt <;> cases f <;> cases h <;> decide +revert
  absent f h := by cases fmt <;> cases f <;> first | rfl | cases h
  text k h := by
    have hk : k.val < 3 := by
      by_contra hout
      exact h (if_neg hout)
    exact ⟨⟨by decide, by cases fmt <;> decide⟩, hk⟩

theorem faithful_iff_ufs2_link : (oneGroup .ufs2 16).Faithful 2 threeBytes :=
  (faithful_iff oneGroup_sound.2 (by decide) (threeBytes_fits .ufs2)).mpr fun h =>
    h.2.elim (fun h => nomatch h.1) fun h => absurd h.2.1 (by decide)

/-- On UFS1 the first byte of the next inode is lost. -/
theorem ufs1_link_clears_next : (oneGroup .ufs1 32).Sound ∧ threeBytes.Fits .ufs1 ∧
    (oneGroup .ufs1 32).HasInode 2 ∧ (oneGroup .ufs1 32).HasInode 3 ∧
    ∃ disk', (oneGroup .ufs1 32).writeInode (fun _ => 1) 2 threeBytes = .ok disk' ∧
      disk' ((oneGroup .ufs1 32).inodeAt 3) = 0 := by
  refine ⟨oneGroup_sound.1, threeBytes_fits .ufs1, by decide, by decide, _,
    writeInode_eq (by decide) fun _ => by decide, ?_⟩
  rw [show (oneGroup .ufs1 32).inodeAt 3 = (oneGroup .ufs1 32).blockAt 2 + 384 from by decide,
    stored_block (by decide), Volume.written, if_pos (by decide), Volume.putText,
    dif_pos (by decide), if_neg (by decide)]

end ArcKernel.Ufs
