import ArcKernel.Blk.Cache
import Mathlib.Tactic

/-!
# Raw devices

The read and write of a `/dev` node of a block device (`bsd/vfs/devfs/devfs.c`) cut the count at
the end of the device and go to the block cache.  Block numbers are `uint64_t`; a count is a
`size_t`, of 32 or 64 bits.  Past the end the difference that is to cut the count wraps.
-/

namespace ArcKernel.Blk

variable {count lba n w : Nat}

/-- `if (lba + count > limit) count = (size_t)(limit - lba)`. -/
def clampCount (w lba limit count : Nat) : Nat :=
  if limit < (lba + count) % 2 ^ 64 then (limit + 2 ^ 64 - lba) % 2 ^ 64 % 2 ^ w else count

section

variable {limit : Nat} (hlimit : limit < 2 ^ 64)
include hlimit

/-- Without a wrap the cut count stays below the limit. -/
theorem clampCount_eq (hlba : lba ≤ limit) (hcount : count < 2 ^ w) (hsum : lba + count < 2 ^ 64) :
    clampCount w lba limit count = min count (limit - lba) := by
  unfold clampCount
  rw [Nat.mod_eq_of_lt hsum]
  split
  · have hsub : limit + 2 ^ 64 - lba = limit - lba + 2 ^ 64 := by omega
    rw [hsub, Nat.add_mod_right, Nat.mod_eq_of_lt (by omega : limit - lba < 2 ^ 64),
      Nat.mod_eq_of_lt (by omega), min_eq_right (by omega)]
  · rw [min_eq_left (by omega)]

/-- A sum that wraps is not cut. -/
theorem clampCount_wrapped (hlba : lba ≤ limit) (hcount : count < 2 ^ 64)
    (hsum : 2 ^ 64 ≤ lba + count) : clampCount w lba limit count = count := by
  unfold clampCount
  rw [if_neg]
  omega

end

/-! ## The device node -/

inductive RawErrno where
  | einval
  | io (e : Errno)

variable {β : Type}

/-- The blocks `dev_block_read` and `dev_block_write` ask the cache for. -/
def devBlockRange (w bsz numBlocks : Nat) (offset : Int) (count : Nat) :
    Except RawErrno (Nat × Nat) :=
  if bsz = 0 then .error (.io .eio)
  else if offset < 0 ∨ offset % bsz ≠ 0 then .error .einval
  else
    let lba := offset.toNat / bsz
    let nblocks := count / bsz
    .ok (lba, if nblocks = 0 then 0 else clampCount w lba numBlocks nblocks)

/-- `(ssize_t)(nblocks * bsz)`. -/
def devBlockReturn (w n bsz : Nat) : Int :=
  let r := n * bsz % 2 ^ w
  if r < 2 ^ (w - 1) then r else r - 2 ^ w

def devBlockRead [Inhabited β] (ops : DevOps β) (s : BlkSys β) (w d numBlocks : Nat) (offset : Int)
    (count : Nat) (mem : Bool) : Except RawErrno (List β × Int) × BlkSys β :=
  match devBlockRange w (s.devs d).blockSize numBlocks offset count with
  | .error e => (.error e, s)
  | .ok (lba, n) =>
      match s.blkRead ops d (.ofNat 64 lba) n mem with
      | (.error e, t) => (.error (.io e), t)
      | (.ok xs, t) => (.ok (xs, devBlockReturn w n (s.devs d).blockSize), t)

def devBlockWrite [Inhabited β] (ops : DevOps β) (s : BlkSys β) (w d numBlocks : Nat)
    (offset : Int) (count : Nat) (buf : Nat → β) (mem : Bool) : Except RawErrno Int × BlkSys β :=
  match devBlockRange w (s.devs d).blockSize numBlocks offset count with
  | .error e => (.error e, s)
  | .ok (lba, n) =>
      match s.blkWrite ops d (.ofNat 64 lba) ((List.range n).map buf) mem with
      | (.failed e .., t) => (.error (.io e), t)
      | (.done, t) => (.ok (devBlockReturn w n (s.devs d).blockSize), t)

theorem devBlockReturn_eq_iff {bsz : Nat} (hn : n * bsz < 2 ^ w) :
    devBlockReturn w n bsz = n * bsz ↔ n * bsz < 2 ^ (w - 1) := by
  rw [devBlockReturn, Nat.mod_eq_of_lt hn]
  split
  · rename_i hlt
    exact iff_of_true (by push_cast; rfl) hlt
  · rename_i hge
    refine iff_of_false ?_ hge
    have : (0 : Int) < 2 ^ w := by positivity
    push_cast
    omega

/-- A transfer of `n` blocks from `lba` on stays on the device and within the caller's `count`
bytes, and returns how many bytes it moved. -/
def RawOk (w bsz numBlocks count lba n : Nat) : Prop :=
  (∀ i < n, lba + i < numBlocks) ∧ n * bsz ≤ count ∧ devBlockReturn w n bsz = n * bsz

theorem RawOk.nothing {bsz numBlocks : Nat} : RawOk w bsz numBlocks count lba 0 := by
  refine ⟨fun i hi => absurd hi (Nat.not_lt_zero i), by omega, ?_⟩
  exact (devBlockReturn_eq_iff (by simp)).mpr (by simp)

theorem devBlockRange_iff {bsz numBlocks : Nat} {offset : Int} (hw : w = 32 ∨ w = 64)
    (hnum : numBlocks < 2 ^ 64) (hoffset : offset < 2 ^ 63) (hcount : count < 2 ^ w)
    (h : devBlockRange w bsz numBlocks offset count = .ok (lba, n)) :
    RawOk w bsz numBlocks count lba n ↔ count < bsz ∨
      (lba ≤ numBlocks ∧ lba + count / bsz < 2 ^ 64 ∧
        min (count / bsz) (numBlocks - lba) * bsz < 2 ^ (w - 1)) ∨
      (numBlocks < lba ∧ 2 ^ w ∣ lba - numBlocks) := by
  unfold devBlockRange at h
  split_ifs at h with hzero hbad
  have hbsz := Nat.pos_of_ne_zero hzero
  obtain ⟨rfl, rfl⟩ := Prod.mk.inj (Except.ok.inj h)
  have hlba : offset.toNat / bsz < 2 ^ 63 := by
    have := Nat.div_le_self offset.toNat bsz
    omega
  generalize offset.toNat / bsz = lba at *
  have hmul : count / bsz * bsz ≤ count := Nat.div_mul_le_self count bsz
  have hle := Nat.div_le_self count bsz
  have hlt : count / bsz = 0 ↔ count < bsz := by rw [Nat.div_eq_zero_iff]; omega
  by_cases hnone : count / bsz = 0
  · rw [if_pos hnone]
    exact iff_of_true .nothing (.inl (hlt.mp hnone))
  rw [if_neg hnone]
  have hbig : ¬ count < bsz := fun hsmall => hnone (hlt.mpr hsmall)
  have hwide : 2 ^ w ≤ 2 ^ 64 := Nat.pow_le_pow_right (by decide) (by omega)
  rcases le_or_gt lba numBlocks with hin | hout
  · rcases lt_or_ge (lba + count / bsz) (2 ^ 64) with hsum | hsum
    · have hbytes : min (count / bsz) (numBlocks - lba) * bsz ≤ count :=
        (Nat.mul_le_mul_right bsz (min_le_left ..)).trans hmul
      rw [clampCount_eq hnum hin (by omega) hsum, RawOk,
        devBlockReturn_eq_iff (hbytes.trans_lt hcount)]
      constructor
      · exact fun hok => .inr (.inl ⟨hin, hsum, hok.2.2⟩)
      · rintro (hsmall | ⟨-, -, hret⟩ | ⟨hpast, -⟩)
        · exact absurd hsmall hbig
        · exact ⟨fun i hi => by omega, hbytes, hret⟩
        · omega
    · rw [clampCount_wrapped hnum hin (by omega) hsum]
      refine iff_of_false (fun hok => ?_) ?_
      · have := hok.1 (numBlocks - lba) (by omega)
        omega
      · rintro (hsmall | ⟨-, hno, -⟩ | ⟨hpast, -⟩) <;> omega
  -- past the end only a difference that is cut to 0 does no harm
  have hcut : clampCount w lba numBlocks (count / bsz) = 0 ↔ 2 ^ w ∣ lba - numBlocks := by
    unfold clampCount
    generalize count / bsz = b at hnone hle ⊢
    rcases hw with rfl | rfl <;> split <;> omega
  rw [or_iff_right hbig, or_iff_right (by omega), and_iff_right hout, ← hcut]
  constructor
  · intro hok
    by_contra hne
    have := hok.1 0 (Nat.pos_of_ne_zero hne)
    omega
  · intro hz
    rw [hz]
    exact .nothing

/-! ## What is transferred -/

theorem length_getAll (s : BlkSys β) (d : Nat) (l : Lba) (n : Nat) :
    (s.getAll d l n).length = n := by
  induction n generalizing l with
  | zero => rfl
  | succ n ih => exact congrArg Nat.succ (ih _)

section

variable [Inhabited β] {io : Nat → Transfer β} {s t : BlkSys β} {d : Nat} {l : Lba} {xs : List β}

omit [Inhabited β] in
theorem length_read (h : (physical io).read s d l n = (.ok xs, t)) : xs.length = n := by
  simp only [physical] at h
  split at h
  · cases h
    exact length_getAll ..
  · cases h

theorem length_readBlock (h : s.readBlock (physical io) d l = (.ok xs, t)) : xs.length = 1 := by
  unfold BlkSys.readBlock at h
  split at h
  · exact length_read h
  split at h
  · cases h
    rfl
  split at h
  · cases h
  · cases h
    rfl

theorem length_readLoop (h : s.readLoop (physical io) d l n = (.ok xs, t)) : xs.length = n := by
  induction n generalizing s l xs with
  | zero =>
    cases h
    rfl
  | succ n ih =>
    unfold BlkSys.readLoop at h
    split at h
    · cases h
    rename_i x u hblock
    split at h
    · cases h
    rename_i ys v hloop
    cases h
    rw [List.length_append, length_readBlock hblock, ih hloop, Nat.add_comm]

theorem length_blkRead {mem : Bool} (h : s.blkRead (physical io) d l n mem = (.ok xs, t)) :
    xs.length = n := by
  unfold BlkSys.blkRead at h
  split_ifs at h with hn
  · cases h
    exact hn.symm
  · exact length_read h
  · exact length_read h
  · exact length_readLoop h

end

theorem raw_transfer_iff [Inhabited β] (io : Nat → Transfer β) (s : BlkSys β) (mem : Bool)
    {w d numBlocks count lba n : Nat} {offset : Int} (hw : w = 32 ∨ w = 64)
    (hnum : numBlocks < 2 ^ 64) (hoffset : offset < 2 ^ 63) (hcount : count < 2 ^ w)
    (h : devBlockRange w (s.devs d).blockSize numBlocks offset count = .ok (lba, n)) :
    (RawOk w (s.devs d).blockSize numBlocks count lba n ↔ count < (s.devs d).blockSize ∨
      (lba ≤ numBlocks ∧ lba + count / (s.devs d).blockSize < 2 ^ 64 ∧
        min (count / (s.devs d).blockSize) (numBlocks - lba) * (s.devs d).blockSize < 2 ^ (w - 1)) ∨
      (numBlocks < lba ∧ 2 ^ w ∣ lba - numBlocks)) ∧
    (∀ xs ret t, devBlockRead (physical io) s w d numBlocks offset count mem = (.ok (xs, ret), t) →
      xs.length = n ∧ ret = devBlockReturn w n (s.devs d).blockSize) ∧
    ∀ buf ret t, devBlockWrite (physical io) s w d numBlocks offset count buf mem = (.ok ret, t) →
      ret = devBlockReturn w n (s.devs d).blockSize := by
  refine ⟨devBlockRange_iff hw hnum hoffset hcount h, fun xs ret t hread => ?_,
    fun buf ret t hwrite => ?_⟩
  · simp only [devBlockRead, h] at hread
    split at hread
    · cases hread
    · rename_i ys u hblocks
      cases hread
      exact ⟨length_blkRead hblocks, rfl⟩
  · simp only [devBlockWrite, h] at hwrite
    split at hwrite
    · cases hwrite
    · cases hwrite
      rfl

theorem raw_transfer_last_block : RawOk 64 512 10 1024 9 1 ∧ ∀ xs ret t,
      devBlockRead (physical fun _ => .done)
        (BlkSys.boot (fun _ => ⟨512, 1⟩) fun _ l => l.toNat) 64 0
        10 4608 1024 false = (.ok (xs, ret), t) → xs.length = 1 ∧ ret = 512 := by
  have h := raw_transfer_iff (fun _ => .done) (BlkSys.boot (fun _ => ⟨512, 1⟩) fun _ l => l.toNat)
    false (.inr rfl) (by decide : 10 < 2 ^ 64) (by decide : (4608 : Int) < 2 ^ 63)
    (by decide : 1024 < 2 ^ 64) (rfl : devBlockRange 64 512 10 4608 1024 = .ok (9, 1)) (d := 0)
  exact ⟨h.1.mpr (.inr (.inl (by decide))), h.2.1⟩

/-- One block past the end, `2 ^ 64 - 1` blocks are asked for. -/
theorem read_past_end_wraps : devBlockRange 64 512 10 5632 512 = .ok (11, 2 ^ 64 - 1) ∧
      ¬ RawOk 64 512 10 512 11 (2 ^ 64 - 1) := by
  refine ⟨rfl, fun hok => ?_⟩
  have := hok.1 0 (by decide)
  omega

end ArcKernel.Blk
