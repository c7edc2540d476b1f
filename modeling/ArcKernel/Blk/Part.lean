import ArcKernel.Blk.Raw

/-!
# Partitions

The partition tables (`bsd/vfs/part.c`) and the transfers of a partition, which go to its parent
with a shifted block number and a count cut at its end.  `part_init` runs once at boot, when only
the disks and the RAM disk are registered; their sectors have 512 bytes.
-/

namespace ArcKernel.Blk

/-! ## Partition tables -/

/-- `part_device_t`. -/
structure Part where
  lbaStart : Nat
  sectorCount : Nat
  deriving DecidableEq

structure MbrEntry where
  type : BitVec 8
  lbaStart : BitVec 32
  sectorCount : BitVec 32

def MbrEntry.used (e : MbrEntry) : Bool := e.type ≠ 0 ∧ e.sectorCount ≠ 0

def maxPartitions : Nat := 16

/-- The loop of `mbr_parse` with `count` partitions in the table: whether it met a protective entry,
and what it registered. -/
def mbrLoop : List MbrEntry → Nat → Bool × List Part
  | [], _ => (false, [])
  | e :: es, count =>
      if !e.used then mbrLoop es count
      else if e.type = 0xEE then (true, [])
      else if maxPartitions ≤ count then (false, [])
      else if e.type = 0x05 then mbrLoop es count
      else
        let r := mbrLoop es (count + 1)
        (r.1, ⟨e.lbaStart.toNat, e.sectorCount.toNat⟩ :: r.2)

/-- The entries the loop takes: the primary ones before a protective one, while there is room. -/
def mbrTaken (es : List MbrEntry) (count : Nat) : List MbrEntry :=
  ((es.takeWhile fun e => !(e.used ∧ e.type = 0xEE)).filter fun e =>
    e.used ∧ e.type ≠ 0x05).take (maxPartitions - count)

theorem mbrLoop_parts (es : List MbrEntry) (count : Nat) : (mbrLoop es count).2 =
      (mbrTaken es count).map fun e => ⟨e.lbaStart.toNat, e.sectorCount.toNat⟩ := by
  induction es generalizing count with
  | nil => simp [mbrLoop, mbrTaken]
  | cons e es ih =>
    simp only [mbrLoop]
    split_ifs with hunused hprotective hfull hextended
    · simp_all [mbrTaken]
    · simp_all [mbrTaken]
    · simp [mbrTaken, Nat.sub_eq_zero_of_le hfull]
    · simp_all [mbrTaken]
    · have hroom : maxPartitions - count = maxPartitions - (count + 1) + 1 := by omega
      simp_all [mbrTaken]

structure GptEntry where
  used : Bool
  firstLba : BitVec 64
  lastLba : BitVec 64

/-- What the loop of `gpt_parse` did: the places in `entries_buf` it looked at and the partitions it
registered. -/
structure GptScan where
  looked : List Nat
  parts : List Part
  deriving DecidableEq

/-- The loop of `gpt_parse` from entry `i` on. The place of an entry is a 32-bit product. -/
def gptLoop (numBlocks : Nat) (buf : Nat → GptEntry) : Nat → Nat → Nat → GptScan
  | 0, _, _ => ⟨[], []⟩
  | todo + 1, i, count =>
      let place := i * 128 % 2 ^ 32 / 128
      let e := buf place
      let sectorCount := (e.lastLba.toNat - e.firstLba.toNat + 1) % 2 ^ 64
      if e.used ∧ maxPartitions ≤ count then ⟨[place], []⟩
      else if !e.used ∨ e.lastLba < e.firstLba ∨ numBlocks ≤ e.firstLba.toNat ∨
          numBlocks - e.firstLba.toNat < sectorCount then
        let r := gptLoop numBlocks buf todo (i + 1) count
        { r with looked := place :: r.looked }
      else
        let r := gptLoop numBlocks buf todo (i + 1) (count + 1)
        ⟨place :: r.looked, ⟨e.firstLba.toNat, sectorCount⟩ :: r.parts⟩

/-- `gpt_header_t`: what is checked of it. -/
structure GptHeader where
  signature : Nat
  revision : Nat
  entrySize : Nat
  numEntries : BitVec 32

/-- `total_sectors`: four entries a sector, counted in 32 bits. -/
def gptSectors (numEntries : BitVec 32) : Nat := (numEntries.toNat + 3) % 2 ^ 32 / 4

/-- The sectors `entries_buf` has room for. -/
def gptRoom : Nat := 4096 / 512

/-- The checks of `gpt_parse`; `entries_size` is again counted in 32 bits. -/
def gptAccepts (hdr : GptHeader) : Bool :=
  hdr.signature = 0x5452415020494645 ∧ hdr.revision = 0x00010000 ∧ hdr.entrySize = 128 ∧
    gptSectors hdr.numEntries * 512 % 2 ^ 32 ≤ 4096

/-- `gpt_parse` once the header is read. The device delivers `readable` sectors from the first one
of the table on, and `blk_read` stores them one after the other until it has `total_sectors` or
fails. Sectors behind the end of `entries_buf` overwrite the stack, and nothing is said about what
follows. -/
def gptParse (numBlocks : Nat) (hdr : GptHeader) (readable : Nat) (buf : Nat → GptEntry)
    (count : Nat) : Option GptScan :=
  if !gptAccepts hdr then some ⟨[], []⟩
  else if gptRoom < min readable (gptSectors hdr.numEntries) then none
  else if readable < gptSectors hdr.numEntries then some ⟨[], []⟩
  else some (gptLoop numBlocks buf hdr.numEntries.toNat 0 count)

variable {numBlocks w count lba : Nat} {buf : Nat → GptEntry}

theorem gptLoop_looked {todo i place : Nat}
    (h : place ∈ (gptLoop numBlocks buf todo i count).looked) : place < i + todo := by
  induction todo generalizing i count with
  | zero => cases h
  | succ todo ih =>
    have hplace : i * 128 % 2 ^ 32 / 128 < i + (todo + 1) := by omega
    simp only [gptLoop] at h
    split_ifs at h
    · rwa [List.mem_singleton.mp h]
    all_goals
      rcases List.mem_cons.mp h with rfl | h
      · exact hplace
      · have := ih h
        omega

theorem gptLoop_looks_first (todo count : Nat) :
    0 ∈ (gptLoop numBlocks buf (todo + 1) 0 count).looked := by
  simp only [gptLoop]
  split_ifs <;> exact List.mem_cons_self

theorem gptLoop_parts {todo i : Nat} {p : Part}
    (h : p ∈ (gptLoop numBlocks buf todo i count).parts) :
    p.lbaStart + p.sectorCount ≤ numBlocks := by
  induction todo generalizing i count with
  | zero => cases h
  | succ todo ih =>
    simp only [gptLoop] at h
    split_ifs at h with hfull hskip
    · cases h
    · exact ih h
    · rcases List.mem_cons.mp h with rfl | h
      · simp only [not_or, Nat.not_le, Nat.not_lt] at hskip
        dsimp only
        omega
      · exact ih h

/-- The parser stays inside `entries_buf` and looks only at entries that were read. -/
def GptReads (numBlocks : Nat) (hdr : GptHeader) (readable : Nat) (buf : Nat → GptEntry)
    (count : Nat) : Prop :=
  ∃ scan, gptParse numBlocks hdr readable buf count = some scan ∧
    ∀ place ∈ scan.looked, place < 4 * gptSectors hdr.numEntries

/-- A table that passes the checks has at most 32 entries, or the disk fails before more sectors
are read than there is room for. -/
def GptSafe (hdr : GptHeader) (readable : Nat) : Prop :=
  gptAccepts hdr → hdr.numEntries.toNat ≤ 32 ∨
    (readable ≤ gptRoom ∧ gptSectors hdr.numEntries ≠ 0)

/-- A size that wraps is no size of a few sectors: nothing is read, or far too much. -/
theorem gptSectors_wrapped {hdr : GptHeader} (haccepts : gptAccepts hdr)
    (hmany : 32 < hdr.numEntries.toNat) :
    gptSectors hdr.numEntries = 0 ∨ gptRoom < gptSectors hdr.numEntries := by
  have hsize : gptSectors hdr.numEntries * 512 % 2 ^ 32 ≤ 4096 :=
    (of_decide_eq_true haccepts).2.2.2
  have := hdr.numEntries.isLt
  unfold gptRoom gptSectors at *
  omega

theorem gptParse_reads_iff (hdr : GptHeader) (readable : Nat) :
    GptReads numBlocks hdr readable buf count ↔ GptSafe hdr readable := by
  unfold GptReads GptSafe gptParse
  split_ifs with hrefused hover hfails
  · exact iff_of_true ⟨_, rfl, fun _ h => by cases h⟩ fun h => by simp [h] at hrefused
  all_goals
    have haccepts : gptAccepts hdr := by simpa using hrefused
    rw [forall_prop_of_true haccepts]
  · refine iff_of_false (by simp) ?_
    unfold gptRoom gptSectors at *
    omega
  · refine iff_of_true ⟨_, rfl, fun _ h => by cases h⟩ (.inr ?_)
    omega
  · rcases Nat.lt_or_ge 32 hdr.numEntries.toNat with hmany | hfew
    · -- nothing was read, and the loop looks at the first entry
      have hnone : gptSectors hdr.numEntries = 0 := by
        have := gptSectors_wrapped haccepts hmany
        omega
      refine iff_of_false ?_ (by omega)
      rintro ⟨scan, hscan, hlooked⟩
      cases hscan
      obtain ⟨rest, hrest⟩ := Nat.exists_eq_add_of_lt hmany
      rw [hrest] at hlooked
      have := hlooked 0 (gptLoop_looks_first ..)
      omega
    · refine iff_of_true ⟨_, rfl, fun place hplace => ?_⟩ (.inl hfew)
      have := gptLoop_looked hplace
      unfold gptSectors
      omega

theorem gptParse_parts {hdr : GptHeader} {readable : Nat} {scan : GptScan}
    (h : gptParse numBlocks hdr readable buf count = some scan) :
    ∀ p ∈ scan.parts, p.lbaStart + p.sectorCount ≤ numBlocks := by
  intro p hp
  unfold gptParse at h
  split_ifs at h <;> cases h
  · cases hp
  · cases hp
  · exact gptLoop_parts hp

/-! ## Reads and writes of a partition -/

/-- The blocks of the parent `part_block_read` and `part_block_write` ask for. -/
def partRange (w : Nat) (pd : Part) (lba count : Nat) : Nat × Nat :=
  if pd.sectorCount ≤ lba then (0, 0)
  else ((pd.lbaStart + lba) % 2 ^ 64, clampCount w lba pd.sectorCount count)

/-- Every block asked for is one of the partition. -/
def PartOk (w : Nat) (pd : Part) (lba count : Nat) : Prop :=
  ∀ i < (partRange w pd lba count).2, ∃ j < pd.sectorCount,
    ((partRange w pd lba count).1 + i) % 2 ^ 64 = pd.lbaStart + j

theorem partOk_iff {pd : Part} (hw : w = 32 ∨ w = 64)
    (hpart : pd.lbaStart + pd.sectorCount < 2 ^ 64) (hcount : count < 2 ^ w) :
    PartOk w pd lba count ↔ pd.sectorCount ≤ lba ∨ lba + count < 2 ^ 64 := by
  have hwide : 2 ^ w ≤ 2 ^ 64 := Nat.pow_le_pow_right (by decide) (by omega)
  unfold PartOk partRange
  split_ifs with hout
  · exact iff_of_true (fun i hi => absurd hi (Nat.not_lt_zero i)) (.inl hout)
  rw [or_iff_right hout]
  rcases lt_or_ge (lba + count) (2 ^ 64) with hsum | hsum
  · rw [clampCount_eq (by omega) (by omega) hcount hsum]
    refine iff_of_true (fun i hi => ⟨lba + i, by omega, ?_⟩) hsum
    dsimp only
    omega
  · rw [clampCount_wrapped (by omega) (by omega) (by omega) hsum]
    refine iff_of_false (fun hok => ?_) (by omega)
    -- the block after the last of the partition
    obtain ⟨j, hj, heq⟩ := hok (pd.sectorCount - lba) (by dsimp only; omega)
    dsimp only at heq
    omega

theorem partitions_confined_iff (hnum : numBlocks < 2 ^ 64) (hw : w = 32 ∨ w = 64)
    (es : List MbrEntry) (hdr : GptHeader) (readable : Nat) (buf : Nat → GptEntry) (count : Nat) :
    (GptReads numBlocks hdr readable buf count ↔ GptSafe hdr readable) ∧
    (∀ scan, gptParse numBlocks hdr readable buf count = some scan →
      ∀ p ∈ scan.parts, p.lbaStart + p.sectorCount ≤ numBlocks) ∧
    ((∀ p ∈ (mbrLoop es count).2, p.lbaStart + p.sectorCount ≤ numBlocks) ↔
      ∀ e ∈ mbrTaken es count, e.lbaStart.toNat + e.sectorCount.toNat ≤ numBlocks) ∧
    ∀ p, (p ∈ (mbrLoop es count).2 ∨
        ∃ scan, gptParse numBlocks hdr readable buf count = some scan ∧ p ∈ scan.parts) →
      ∀ lba n, n < 2 ^ w → (PartOk w p lba n ↔ p.sectorCount ≤ lba ∨ lba + n < 2 ^ 64) := by
  refine ⟨gptParse_reads_iff .., fun _ => gptParse_parts, by simp [mbrLoop_parts], ?_⟩
  intro p hp lba n hn
  refine partOk_iff hw ?_ hn
  rcases hp with hp | ⟨scan, hscan, hp⟩
  · rw [mbrLoop_parts, List.mem_map] at hp
    obtain ⟨e, -, rfl⟩ := hp
    dsimp only
    omega
  · exact (gptParse_parts hscan p hp).trans_lt hnum

/-- A disk of 64 blocks with an entry in either table, and a read at the end of the partition. -/
theorem partitions_confined_disk :
    (mbrLoop [⟨0x83, 2, 8⟩] 0).2 = [⟨2, 8⟩] ∧
    (∀ p ∈ (mbrLoop [⟨0x83, 2, 8⟩] 0).2, p.lbaStart + p.sectorCount ≤ 64) ∧
    GptReads 64 ⟨0x5452415020494645, 0x00010000, 128, 1⟩ 60 (fun _ => ⟨true, 34, 40⟩) 0 ∧
    gptParse 64 ⟨0x5452415020494645, 0x00010000, 128, 1⟩ 60 (fun _ => ⟨true, 34, 40⟩) 0 =
      some ⟨[0], [⟨34, 7⟩]⟩ ∧ 34 + 7 ≤ 64 ∧ PartOk 64 ⟨34, 7⟩ 5 100 := by
  obtain ⟨hreads, hparts, hmbr, hranges⟩ := partitions_confined_iff
    (by decide : 64 < 2 ^ 64) (.inr rfl : 64 = 32 ∨ 64 = 64) [⟨0x83, 2, 8⟩]
    ⟨0x5452415020494645, 0x00010000, 128, 1⟩ 60 (fun _ => ⟨true, 34, 40⟩) 0
  have hscan : gptParse 64 ⟨0x5452415020494645, 0x00010000, 128, 1⟩ 60
      (fun _ => ⟨true, 34, 40⟩) 0 = some ⟨[0], [⟨34, 7⟩]⟩ := by decide +kernel
  refine ⟨by decide, hmbr.mpr (by decide), hreads.mpr fun _ => .inl (by decide), hscan,
    hparts _ hscan _ (List.mem_singleton.mpr rfl), ?_⟩
  exact (hranges _ (.inr ⟨_, hscan, List.mem_singleton.mpr rfl⟩) 5 100 (by decide)).mpr
    (.inr (by decide))

theorem partition_past_disk :
    ¬ ∀ p ∈ (mbrLoop [⟨0x83, 100, 100⟩] 0).2, p.lbaStart + p.sectorCount ≤ 10 := by
  decide

end ArcKernel.Blk
