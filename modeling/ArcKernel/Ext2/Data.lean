import ArcKernel.Ext2.Forest

/-!
# File data on ext2

Each logical block of a file has one place in the forest, so a file is a function from
positions to bytes.  `ext2_read_data` returns a stretch of that function; `ext2_write_data`
changes it on the stretch it writes, in one file, and nowhere else.
-/

namespace ArcKernel.Ext2

open ArcKernel.Foundation Function List PtrForest

variable {fs : Fs} {data : List UInt8} {lblk count fuel n pos slot : Nat} {k : Nat × Nat}
    {ev : Inode} {is : List Nat} {v : Volume} {mem : Nat → Bool}

/-! ## Logical blocks and places -/

/-- The logical block of a place. -/
def pathBlock (fs : Fs) : Nat × List Nat → Nat
  | (slot, []) => slot
  | (_, [a]) => 12 + a
  | (_, [a, b]) => 12 + fs.pointers + (a * fs.pointers + b)
  | (_, a :: b :: c :: _) =>
    12 + fs.pointers + fs.pointers * fs.pointers + ((a * fs.pointers + b) * fs.pointers + c)

theorem pathBlock_blockPath {x : Nat × List Nat}
    (h : blockPath fs lblk = some x) : pathBlock fs x = lblk := by
  unfold blockPath ndirBlocks at h
  dsimp only at h
  split at h
  · cases h
    rfl
  split at h
  · cases h
    simp only [pathBlock]
    omega
  split at h
  · cases h
    simp only [pathBlock]
    rw [Nat.div_add_mod']
    omega
  split at h
  · cases h
    simp only [pathBlock]
    rw [← Nat.div_div_eq_div_mul, Nat.div_add_mod', Nat.div_add_mod']
    omega
  · cases h

theorem blockPath_inj {a b : Nat} {x : Nat × List Nat} (ha : blockPath fs a = some x)
    (hb : blockPath fs b = some x) : a = b :=
  (pathBlock_blockPath ha).symm.trans (pathBlock_blockPath hb)

theorem blockPath_place
    (h : blockPath fs lblk = some (slot, is)) (ino : Nat) : DataPlace fs (ino, slot) is := by
  unfold blockPath ndirBlocks at h
  dsimp only at h
  split at h
  · cases h
    exact ⟨⟨by dsimp only; omega, Nat.zero_le _, fun i hi => absurd hi not_mem_nil⟩,
      by dsimp only [length_nil]; omega⟩
  split at h
  · rename_i hlt
    cases h
    refine ⟨⟨show 12 < 15 by decide, Nat.le_refl 1, fun i hi => ?_⟩, rfl⟩
    rw [mem_singleton.mp hi]
    exact hlt
  split at h
  · rename_i hlt
    cases h
    have hpos : 0 < fs.pointers := Nat.pos_of_mul_pos_left (Nat.zero_lt_of_lt hlt)
    refine ⟨⟨show 13 < 15 by decide, Nat.le_refl 2, fun i hi => ?_⟩, rfl⟩
    rcases mem_cons.mp hi with rfl | hi
    · exact Nat.div_lt_of_lt_mul hlt
    · rw [mem_singleton.mp hi]
      exact Nat.mod_lt _ hpos
  split at h
  · rename_i hlt
    cases h
    have hpos : 0 < fs.pointers := Nat.pos_of_mul_pos_left (Nat.zero_lt_of_lt hlt)
    refine ⟨⟨show 14 < 15 by decide, Nat.le_refl 3, fun i hi => ?_⟩, rfl⟩
    rcases mem_cons.mp hi with rfl | hi
    · exact Nat.div_lt_of_lt_mul hlt
    · rcases mem_cons.mp hi with rfl | hi
      · exact Nat.mod_lt _ hpos
      · rw [mem_singleton.mp hi]
        exact Nat.mod_lt _ hpos
  · cases h

theorem Fs.Checked.blockSize_pos (h : fs.Checked) : 1024 ≤ fs.blockSize := by
  obtain ⟨n, -, hn⟩ := h.block_size
  rw [hn, Nat.shiftLeft_eq]
  exact Nat.le_mul_of_pos_right _ (Nat.two_pow_pos n)

/-- Every position below 4 GiB has a place, for every block size the mount accepts. -/
theorem Fs.Checked.blockPath_isSome (h : fs.Checked) (hpos : pos < 2 ^ 32) :
    ∃ slot is, blockPath fs (fs.lblk pos) = some (slot, is) := by
  have hsize := h.blockSize_pos
  have hlblk : fs.lblk pos < 2 ^ 22 := by
    have hle : fs.lblk pos ≤ pos / fs.blockSize := Nat.mod_le _ _
    have hdiv : pos / fs.blockSize ≤ pos / 1024 := Nat.div_le_div_left hsize (by omega)
    omega
  have hp : 256 ≤ fs.pointers := (Nat.le_div_iff_mul_le (by omega)).mpr (by omega)
  have hcube : 256 * 256 * 256 ≤ fs.pointers * fs.pointers * fs.pointers :=
    Nat.mul_le_mul (Nat.mul_le_mul hp hp) hp
  unfold blockPath
  dsimp only
  split
  · exact ⟨_, _, rfl⟩
  split
  · exact ⟨_, _, rfl⟩
  split
  · exact ⟨_, _, rfl⟩
  rw [if_pos (by omega)]
  exact ⟨_, _, rfl⟩

/-! ## Mapping without allocation -/

theorem mapLevels_lookup (v : Volume) (ev : Inode) (p : Nat) (is : List Nat) :
    mapLevels false v ev p is = ⟨.ok (walk v.ptr p is), v, ev⟩ := by
  induction is generalizing p with
  | nil => rfl
  | cons i is ih =>
    rw [mapLevels, walk]
    split
    · rfl
    · exact ih _

theorem ext2MapBlock_lookup (hpath : blockPath v.fs lblk = some (slot, is)) :
    ext2MapBlock v ev lblk false = ⟨.ok (walk v.ptr (ev.block slot) is), v, ev⟩ := by
  unfold ext2MapBlock
  rw [hpath]
  exact mapLevels_lookup v ev _ is

/-! ## Mapping with allocation -/

/-- What a mapping with allocation does for inode `ino`: the place gets a block if it had
none, or there is no block left. -/
structure Allocated (v : Volume) (f : Nat → Inode) (ino : Nat) (k : Nat × Nat) (is : List Nat)
    (m : Mapped) : Prop where
  grown : Grown v f m.vol (update f ino m.ev)
  alike : (f ino).Alike m.ev
  ok : ∀ q, m.result = .ok q → (forest m.vol (update f ino m.ev)).node k is = q ∧ q ≠ 0
  error : ∀ e, m.result = .error e → m.vol.full = true

section Alloc

variable {w : Volume} {f : Nat → Inode} {ino : Nat} {js : List Nat}

/-- Nothing is to be allocated. -/
theorem allocated_found {q : Nat} (h : Held v f) (hnode : (forest v f).node k is = q) (hq : q ≠ 0) :
    Allocated v f ino k is ⟨.ok q, v, f ino⟩ := by
  refine ⟨?_, .refl _, fun r hr => ?_, nofun⟩
  · rw [update_eq_self]
    exact .refl h
  · cases hr
    rw [update_eq_self]
    exact ⟨hnode, hq⟩

theorem allocated_none {e : Errno} (h : Held v f)
    (halloc : ext2AllocBlock v .none = (.error e, w)) (e' : Errno) :
    Allocated v f ino k is ⟨.error e', w, f ino⟩ := by
  obtain rfl := ext2AllocBlock_error halloc
  refine ⟨?_, .refl _, nofun, fun _ _ => ?_⟩
  · rw [update_eq_self]
    exact .refl h
  · rw [Volume.full, halloc]

theorem mapRoot_alloc (h : Held v f) (hfast : (f ino).fast = false) (hslot : slot < 15) :
    Allocated v f ino (ino, slot) [] (mapRoot v (f ino) slot true) := by
  have hpointer (j : Nat) : (f ino).pointer j = (f ino).block j := by
    unfold Inode.pointer
    rw [hfast]
    rfl
  unfold mapRoot
  split
  · rename_i hempty
    rw [Bool.true_and, beq_iff_eq] at hempty
    split
    · exact allocated_none h ‹_› _
    rename_i b w halloc
    generalize hev : ({ f ino with block := update (f ino).block slot b } : Inode).counted v.fs = ev
    have hblock : ev.block = update (f ino).block slot b := by
      rw [← hev]
      rfl
    have halike : (f ino).Alike ev := by
      rw [← hev]
      exact ⟨rfl, rfl, rfl⟩
    have hpointer' (j : Nat) : ev.pointer j = ev.block j := by
      unfold Inode.pointer
      rw [halike.fast, hfast]
      rfl
    obtain ⟨hgrown, hnode, hb⟩ := h.fillRoot ev hslot ((hpointer slot).trans hempty)
      halloc (by rw [hpointer', hblock, update_self])
      (fun j hj => by rw [hpointer', hblock, update_of_ne hj, hpointer])
    refine ⟨hgrown, halike, fun q hq => ?_, nofun⟩
    cases hq
    exact ⟨hnode, hb⟩
  · rename_i hfull
    rw [Bool.true_and, beq_iff_eq] at hfull
    exact allocated_found h (hpointer slot) hfull

theorem mapWord_alloc {i : Nat} (h : Held v f) (hplace : Place v.fs (ino, slot) (js ++ [i]))
    (hblk : (forest v f).node (ino, slot) js ≠ 0) :
    Allocated v f ino (ino, slot) (js ++ [i])
      (mapWord v (f ino) ((forest v f).node (ino, slot) js) i true) := by
  have hword := node_concat_of_ne (i := i) hblk
  unfold mapWord
  dsimp only
  split
  · rename_i hempty
    rw [Bool.true_and, beq_iff_eq] at hempty
    split
    · exact allocated_none h ‹_› _
    rename_i b w halloc
    obtain ⟨hgrown, hnode, hb⟩ := h.fillWord ino ((f ino).counted v.fs) hplace
      hblk (hword.trans hempty) halloc fun _ => rfl
    refine ⟨hgrown, ⟨rfl, rfl, rfl⟩, fun q hq => ?_, nofun⟩
    cases hq
    exact ⟨hnode, hb⟩
  · rename_i hfull
    rw [Bool.true_and, beq_iff_eq] at hfull
    exact allocated_found h hword hfull

/-- A mapping that got part of the way, and the rest. -/
theorem Allocated.next {m m' : Mapped} (h : Allocated v f ino k js m)
    (h' : Allocated m.vol (update f ino m.ev) ino k is m') :
    Allocated v f ino k is m' where
  grown := by
    have hgrown := h'.grown
    rw [update_idem] at hgrown
    exact h.grown.trans hgrown
  alike := by
    have halike := h'.alike
    rw [update_self] at halike
    exact h.alike.trans halike
  ok := by
    have hok := h'.ok
    rw [update_idem] at hok
    exact hok
  error := h'.error

theorem mapLevels_alloc (h : Held v f) (hplace : Place v.fs (ino, slot) (js ++ is))
    (hblk : (forest v f).node (ino, slot) js ≠ 0) :
    Allocated v f ino (ino, slot) (js ++ is)
      (mapLevels true v (f ino) ((forest v f).node (ino, slot) js) is) := by
  induction is generalizing v f js with
  | nil =>
    rw [append_nil, mapLevels]
    exact allocated_found h rfl hblk
  | cons i is ih =>
    have hsplit : js ++ i :: is = js ++ [i] ++ is := by simp
    rw [hsplit] at hplace ⊢
    have hstep := mapWord_alloc h ((place_closed v.fs).append hplace) hblk
    rw [mapLevels, if_neg hblk]
    generalize mapWord v (f ino) ((forest v f).node (ino, slot) js) i true = m at hstep
    obtain ⟨r, w, ev⟩ := m
    cases r with
    | error e => exact { hstep with ok := nofun }
    | ok q =>
      obtain ⟨hnode, hq⟩ := hstep.ok q rfl
      have hrest := ih (v := w) (f := update f ino ev)
        hstep.grown.held (hstep.grown.beside.fs ▸ hplace) (hnode ▸ hq)
      rw [update_self, hnode] at hrest
      exact hstep.next hrest

theorem ext2MapBlock_alloc (h : Held v f) (hfast : (f ino).fast = false)
    (hpath : blockPath v.fs lblk = some (slot, is)) :
    Allocated v f ino (ino, slot) is (ext2MapBlock v (f ino) lblk true) := by
  have hplace := (blockPath_place hpath ino).1
  have hroot := mapRoot_alloc h hfast hplace.1
  unfold ext2MapBlock
  rw [hpath]
  dsimp only
  generalize mapRoot v (f ino) slot true = m at hroot
  obtain ⟨r, w, ev⟩ := m
  cases r with
  | error e => exact { hroot with ok := nofun }
  | ok q =>
    obtain ⟨hnode, hq⟩ := hroot.ok q rfl
    have hrest := mapLevels_alloc hroot.grown.held
      (show Place w.fs (ino, slot) ([] ++ is) from hroot.grown.beside.fs ▸ hplace) (hnode ▸ hq)
    rw [update_self, hnode] at hrest
    exact hroot.next hrest

end Alloc

/-! ## Files as functions -/

/-- The byte of a file at a position. -/
def fileByte (v : Volume) (f : Nat → Inode) (ino pos : Nat) : UInt8 :=
  match blockPath v.fs (v.fs.lblk pos) with
  | none => 0
  | some (slot, is) => byteAt v f (ino, slot) is (pos % v.fs.blockSize)

theorem same_block (bs offset j : Nat) (h : offset % bs + j < bs) :
    (offset + j) / bs = offset / bs ∧ (offset + j) % bs = offset % bs + j := by
  have hsum : offset + j = offset % bs + j + bs * (offset / bs) := by
    have := Nat.div_add_mod offset bs
    omega
  constructor
  · rw [hsum, Nat.add_mul_div_left _ _ (by omega), Nat.div_eq_of_lt h, Nat.zero_add]
  · rw [hsum, Nat.add_mul_mod_self_left, Nat.mod_eq_of_lt h]

section Files

variable {w : Volume} {f g : Nat → Inode} {ino offset : Nat}

theorem fileByte_of_path (hpath : blockPath v.fs (v.fs.lblk pos) = some (slot, is)) :
    fileByte v f ino pos = byteAt v f (ino, slot) is (pos % v.fs.blockSize) := by
  unfold fileByte
  rw [hpath]

/-- Growing files does not change what they contain. -/
theorem Grown.fileByte (h : Grown v f w g) (ino pos : Nat) :
    fileByte w g ino pos = fileByte v f ino pos := by
  unfold Ext2.fileByte
  rw [h.beside.fs]
  split
  · rfl
  · rename_i slot is hpath
    exact h.bytes _ is _ (blockPath_place hpath ino)

theorem node_of_not_fast (hfast : (f ino).fast = false) :
    (forest v f).node (ino, slot) is = walk v.ptr ((f ino).block slot) is := by
  show walk v.ptr ((f ino).pointer slot) is = _
  unfold Inode.pointer
  rw [hfast]
  rfl

/-- The bytes that one round of the reading loop copies. -/
theorem bytes_of_path (hfast : (f ino).fast = false)
    (hpath : blockPath v.fs (v.fs.lblk offset) = some (slot, is))
    (hn : offset % v.fs.blockSize + n ≤ v.fs.blockSize) :
    v.bytes (walk v.ptr ((f ino).block slot) is) (offset % v.fs.blockSize) n =
      (List.range n).map fun j => fileByte v f ino (offset + j) := by
  have hbyte (j : Nat) (hj : j < n) : fileByte v f ino (offset + j) =
      byteAt v f (ino, slot) is (offset % v.fs.blockSize + j) := by
    obtain ⟨hdiv, hmod⟩ := same_block v.fs.blockSize offset j (by omega)
    have hlblk : v.fs.lblk (offset + j) = v.fs.lblk offset := by
      unfold Fs.lblk
      rw [hdiv]
    rw [fileByte_of_path (hlblk ▸ hpath), hmod]
  have hmap : ((List.range n).map fun j => fileByte v f ino (offset + j)) =
      (List.range n).map fun j => byteAt v f (ino, slot) is (offset % v.fs.blockSize + j) :=
    map_congr_left fun j hj => hbyte j (mem_range.mp hj)
  rw [hmap]
  unfold Volume.bytes byteAt
  rw [node_of_not_fast hfast]
  split
  · rw [map_const', length_range]
  · rfl

theorem readLoop_eq (hfs : v.fs.Checked) (hfast : (f ino).fast = false)
    (hmem : ∀ off, mem off = true) (hfuel : count ≤ fuel) (hrange : offset + count ≤ 2 ^ 32) :
    readLoop v (f ino) mem fuel offset count =
      (List.range count).map fun j => fileByte v f ino (offset + j) := by
  have hsize := hfs.blockSize_pos
  induction fuel generalizing offset count with
  | zero =>
    obtain rfl := Nat.le_zero.mp hfuel
    rfl
  | succ fuel ih =>
    rw [readLoop]
    split
    · subst count
      rfl
    have hoff : offset % v.fs.blockSize < v.fs.blockSize := Nat.mod_lt _ (by omega)
    obtain ⟨slot, is, hpath⟩ := hfs.blockPath_isSome (show offset < 2 ^ 32 by omega)
    rw [ext2MapBlock_lookup hpath]
    dsimp only
    rw [hmem, if_neg (fun h => Bool.noConfusion h.2)]
    generalize hn : min (v.fs.blockSize - offset % v.fs.blockSize) count = n
    have hle : offset % v.fs.blockSize + n ≤ v.fs.blockSize := by omega
    rw [bytes_of_path hfast hpath hle, ih (by omega) (by omega)]
    -- the rest of the range starts where this block ends
    have hsplit : List.range count = List.range n ++ (List.range (count - n)).map (n + ·) := by
      rw [← range_add, Nat.add_sub_cancel' (by omega)]
    rw [hsplit, map_append, map_map]
    refine congrArg (List.append _) (map_congr_left fun j _ => ?_)
    show fileByte v f ino (offset + n + j) = fileByte v f ino (offset + (n + j))
    rw [Nat.add_assoc]

/-- `ext2_read_data` returns the bytes of the file, up to its size. -/
theorem ext2ReadData_eq (hfs : v.fs.Checked) (hfast : (f ino).fast = false)
    (hmem : ∀ off, mem off = true) (hrange : offset + count ≤ 2 ^ 32) :
    ext2ReadData v (f ino) offset count mem =
      (List.range (min count ((f ino).size - offset))).map fun j =>
        fileByte v f ino (offset + j) := by
  unfold ext2ReadData
  split
  · rw [Nat.sub_eq_zero_of_le ‹_›, Nat.min_zero]
    rfl
  · generalize hn : (if (f ino).size < offset + count then (f ino).size - offset else count) = n
    have hmin : min count ((f ino).size - offset) = n := by split at hn <;> omega
    rw [hmin]
    exact readLoop_eq hfs hfast hmem (Nat.le_refl n) (by omega)

/-! ## Writing -/

/-- A data block is overwritten: the forest stands. -/
theorem Held.overwrite (h : Held v f) (hplace : DataPlace v.fs k is)
    (hne : (forest v f).node k is ≠ 0) (buf : ByteMem) :
    Extends v f (v.writeBlock ((forest v f).node k is) buf) f ∧
      ∀ k' is' off, DataPlace v.fs k' is' →
        byteAt (v.writeBlock ((forest v f).node k is) buf) f k' is' off =
          if k' = k ∧ is' = is then buf off else byteAt v f k' is' off := by
  have hnode (k' : Nat × Nat) (is' : List Nat) (hp : Place v.fs k' is') :
      (forest (v.writeBlock ((forest v f).node k is) buf) f).node k' is' =
        (forest v f).node k' is' := by
    refine node_congr (place_closed v.fs) (fun _ _ => rfl) ?_ hp
    -- a table on the way is not a data block
    intro k'' js i hpi hjs
    have hpj := place_closed v.fs k'' js i hpi
    have hother : (forest v f).node k'' js ≠ (forest v f).node k is := by
      intro heq
      obtain ⟨rfl, rfl⟩ := h.distinct k'' js k is hpj hplace.1 hjs heq
      have hlen := hpi.2.1
      rw [length_append, length_singleton, hplace.2] at hlen
      omega
    show ByteMem.load 4 (update v.disk _ buf _) _ = _
    rw [update_of_ne hother]
    rfl
  have hbeside := Volume.writeBlock_beside (h.marked k is hplace.1 hne).2 buf
  refine ⟨⟨hbeside, ⟨h.checked, hbeside.spoiled.trans h.intact, h.guarded, h.zero, ?_, ?_⟩, ?_,
    fun _ hb => hb⟩, ?_⟩
  · exact h.distinct.mono fun k' is' hp => .inr (hnode k' is' hp)
  · intro k' is' hp hne'
    rw [hnode k' is' hp] at hne' ⊢
    exact h.marked k' is' hp hne'
  · exact fun k' is' hp _ => hnode k' is' hp
  · intro k' is' off hp
    unfold byteAt
    rw [hnode k' is' hp.1]
    split
    · rename_i hzero
      rw [if_neg]
      rintro ⟨rfl, rfl⟩
      exact hne hzero
    rename_i hne'
    show update v.disk _ buf _ off = _
    by_cases heq : (forest v f).node k' is' = (forest v f).node k is
    · obtain ⟨rfl, rfl⟩ := h.distinct k' is' k is hp.1 hplace.1 hne' heq
      rw [update_self, if_pos ⟨rfl, rfl⟩]
    · rw [update_of_ne heq, if_neg]
      rintro ⟨rfl, rfl⟩
      exact heq rfl

/-- What writing `data` at `offset` of inode `ino` does: the first `count` bytes are written
there, all of them unless no block is left, and nothing else changes. -/
structure Wrote (v : Volume) (f : Nat → Inode) (ino offset : Nat) (data : List UInt8)
    (r : Written) : Prop where
  extend : Extends v f r.vol (update f ino r.ev)
  alike : (f ino).Alike r.ev
  le : r.count ≤ data.length
  short : r.count < data.length → r.vol.full = true
  bytes : ∀ i pos, pos < 2 ^ 32 → fileByte r.vol (update f ino r.ev) i pos =
    if i = ino ∧ offset ≤ pos ∧ pos < offset + r.count then data.getD (pos - offset) 0
    else fileByte v f i pos

/-- Nothing is there to be written. -/
theorem Wrote.none (h : Held v f) : Wrote v f ino offset [] ⟨0, v, f ino⟩ := by
  refine ⟨?_, .refl _, Nat.zero_le _, fun hbad => absurd hbad (Nat.lt_irrefl 0), fun i pos _ => ?_⟩
  · rw [update_eq_self]
    exact .refl h
  · rw [update_eq_self, if_neg (by dsimp only; omega)]

/-- The next block could not be had. -/
theorem Wrote.stop {m : Mapped} (h : Allocated v f ino k is m) (hfull : m.vol.full = true) :
    Wrote v f ino offset data ⟨0, m.vol, m.ev⟩ where
  extend := h.grown.toExtends
  alike := h.alike
  le := Nat.zero_le _
  short := fun _ => hfull
  bytes := by
    intro i pos _
    rw [if_neg (by dsimp only; omega)]
    exact h.grown.fileByte i pos

/-- One round of the loop: the block at `offset` is there and gets its part of the data. -/
theorem Held.writeRound (h : Held v f) (part : List UInt8)
    (hpath : blockPath v.fs (v.fs.lblk offset) = some (slot, is))
    (hne : (forest v f).node (ino, slot) is ≠ 0)
    (hpart : offset % v.fs.blockSize + part.length ≤ v.fs.blockSize) (hrange : offset < 2 ^ 32) :
    Extends v f (v.writeBlock ((forest v f).node (ino, slot) is)
        (ByteMem.write (v.disk ((forest v f).node (ino, slot) is)) (offset % v.fs.blockSize)
          part)) f ∧
      ∀ i pos, pos < 2 ^ 32 → fileByte (v.writeBlock ((forest v f).node (ino, slot) is)
          (ByteMem.write (v.disk ((forest v f).node (ino, slot) is)) (offset % v.fs.blockSize)
            part)) f i pos =
          if i = ino ∧ offset ≤ pos ∧ pos < offset + part.length then part.getD (pos - offset) 0
          else fileByte v f i pos := by
  have hsize := h.checked.blockSize_pos
  have hplace := blockPath_place hpath ino
  obtain ⟨hextend, hbytes⟩ := h.overwrite hplace hne
    (ByteMem.write (v.disk ((forest v f).node (ino, slot) is)) (offset % v.fs.blockSize) part)
  refine ⟨hextend, fun i pos hpos => ?_⟩
  obtain ⟨slot', is', hpath'⟩ := h.checked.blockPath_isSome hpos
  rw [fileByte_of_path (v := v.writeBlock ..) hpath', fileByte_of_path hpath']
  refine (hbytes (i, slot') is' (pos % v.fs.blockSize) (blockPath_place hpath' i)).trans ?_
  -- the same place is the same block of the same file
  have hsame : ((i, slot') = (ino, slot) ∧ is' = is) ↔
      i = ino ∧ pos / v.fs.blockSize = offset / v.fs.blockSize := by
    have hlblk (x : Nat) (hx : x < 2 ^ 32) : v.fs.lblk x = x / v.fs.blockSize :=
      Nat.mod_eq_of_lt (Nat.lt_of_le_of_lt (Nat.div_le_self ..) hx)
    rw [← hlblk pos hpos, ← hlblk offset hrange]
    constructor
    · rintro ⟨heq, rfl⟩
      cases heq
      exact ⟨rfl, blockPath_inj hpath' hpath⟩
    · rintro ⟨rfl, heq⟩
      rw [heq, hpath] at hpath'
      cases hpath'
      exact ⟨rfl, rfl⟩
  by_cases hblock : (i, slot') = (ino, slot) ∧ is' = is
  · obtain ⟨rfl, hdiv⟩ := hsame.mp hblock
    obtain ⟨heq, rfl⟩ := hblock
    cases heq
    rw [if_pos ⟨rfl, rfl⟩, ByteMem.write_apply]
    have hpos' := Nat.div_add_mod pos v.fs.blockSize
    have hoff' := Nat.div_add_mod offset v.fs.blockSize
    rw [hdiv] at hpos'
    by_cases hin : offset ≤ pos ∧ pos < offset + part.length
    · rw [if_pos (by omega), if_pos ⟨rfl, hin⟩]
      congr 1
      omega
    · rw [if_neg (by omega), if_neg (fun hbad => hin hbad.2)]
      unfold byteAt
      rw [if_neg hne]
  · rw [if_neg hblock, if_neg]
    rintro ⟨rfl, hle, hlt⟩
    refine hblock (hsame.mpr ⟨rfl, ?_⟩)
    have hj := same_block v.fs.blockSize offset (pos - offset) (by omega)
    rw [Nat.add_sub_cancel' hle] at hj
    exact hj.1

/-- A round, and the rest of the loop. -/
theorem Wrote.next {r : Written} {x : Volume}
    (hn : n ≤ data.length) (hextend : Extends v f x (update f ino ev)) (halike : (f ino).Alike ev)
    (hbytes : ∀ i pos, pos < 2 ^ 32 → fileByte x (update f ino ev) i pos =
      if i = ino ∧ offset ≤ pos ∧ pos < offset + n then data.getD (pos - offset) 0
      else fileByte v f i pos) (h : Wrote x (update f ino ev) ino (offset + n) (data.drop n) r) :
    Wrote v f ino offset data { r with count := n + r.count } where
  extend := by
    have hrest := h.extend
    rw [update_idem] at hrest
    exact hextend.trans hrest
  alike := by
    have hrest := h.alike
    rw [update_self] at hrest
    exact halike.trans hrest
  le := by
    have hle := h.le
    rw [length_drop] at hle
    dsimp only
    omega
  short := by
    intro hlt
    refine h.short ?_
    rw [length_drop]
    dsimp only at hlt
    omega
  bytes := by
    intro i pos hpos
    have hrest := h.bytes i pos hpos
    rw [update_idem, hbytes i pos hpos] at hrest
    rw [hrest]
    by_cases hi : i = ino
    · subst hi
      simp only [true_and]
      rcases Nat.lt_or_ge pos offset with hlt | hge
      · rw [if_neg (by omega), if_neg (by omega), if_neg (by omega)]
      rcases Nat.lt_or_ge pos (offset + n) with hlt | hge'
      · rw [if_neg (by omega), if_pos (by omega), if_pos (by omega)]
      rw [if_neg (c := offset ≤ pos ∧ pos < offset + n) (by omega)]
      by_cases hin : pos < offset + n + r.count
      · rw [if_pos ⟨hge', hin⟩, if_pos (by omega), getD_eq_getElem?_getD, List.getElem?_drop]
        congr 2
        omega
      · rw [if_neg (by omega), if_neg (by omega)]
    · rw [if_neg (fun h => hi h.1), if_neg (fun h => hi h.1), if_neg (fun h => hi h.1)]

theorem writeLoop_wrote (h : Held v f) (hfast : (f ino).fast = false)
    (hmem : ∀ off, mem off = true) (hfuel : data.length ≤ fuel)
    (hrange : offset + data.length ≤ 2 ^ 32) :
    Wrote v f ino offset data (writeLoop mem fuel v (f ino) offset data) := by
  induction fuel generalizing v f offset data with
  | zero =>
    obtain rfl := eq_nil_of_length_eq_zero (Nat.le_zero.mp hfuel)
    exact .none h
  | succ fuel ih =>
    rw [writeLoop]
    split
    · subst data
      exact .none h
    rename_i hdata
    have hlen : 0 < data.length := length_pos_iff.mpr hdata
    have hsize := h.checked.blockSize_pos
    have hoff : offset % v.fs.blockSize < v.fs.blockSize := Nat.mod_lt _ (by omega)
    obtain ⟨slot, is, hpath⟩ := h.checked.blockPath_isSome (show offset < 2 ^ 32 by omega)
    have hmap := ext2MapBlock_alloc h hfast hpath
    dsimp only
    generalize hn : min (v.fs.blockSize - offset % v.fs.blockSize) data.length = n
    generalize ext2MapBlock v (f ino) (v.fs.lblk offset) true = m at hmap
    obtain ⟨r, w, ev⟩ := m
    cases r with
    | error e => exact .stop hmap (hmap.error e rfl)
    | ok q =>
      dsimp only
      rw [hmem, if_neg (Ne.symm Bool.false_ne_true)]
      obtain ⟨hnode, hq⟩ := hmap.ok q rfl
      have hfs := hmap.grown.beside.fs
      have hgrown := hmap.grown
      have halike := hmap.alike
      have htake : (data.take n).length = n := by
        rw [length_take]
        omega
      obtain ⟨hextend, hbytes⟩ := hgrown.held.writeRound (data.take n) (hfs ▸ hpath) (hnode ▸ hq)
        (by rw [hfs]; omega) (by omega)
      rw [hnode, hfs] at hextend hbytes
      have hall := hgrown.toExtends.trans hextend
      have hrest := ih (v := w.writeBlock q (ByteMem.write (w.disk q)
        (offset % v.fs.blockSize) (data.take n))) (f := update f ino ev)
        hextend.held
        (by rw [update_self, halike.fast, hfast])
        (show (data.drop n).length ≤ fuel by rw [length_drop]; omega)
        (show offset + n + (data.drop n).length ≤ 2 ^ 32 by rw [length_drop]; omega)
      rw [update_self] at hrest
      refine .next (by omega) hall halike (fun i pos hpos => ?_) hrest
      rw [hbytes i pos hpos, htake, hgrown.fileByte]
      split
      · rw [getD_eq_getElem?_getD, List.getElem?_take_of_lt (by omega), getD_eq_getElem?_getD]
      · rfl

end Files

end ArcKernel.Ext2
