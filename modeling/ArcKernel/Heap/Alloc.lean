import ArcKernel.Heap.Blocks

/-!
# Allocation

On a represented heap `kmalloc` takes a free block of the list, the first one that is
large enough, or adds a block at the break.  The result is a represented heap whose
used blocks are those of before and the one handed out.
-/

namespace ArcKernel.Heap

open ArcKernel.Foundation List

/-- No two free blocks are neighbours, and the last block is not free. -/
structure Settled (bs : List Block) : Prop where
  alternate : bs.IsChain fun x y => ¬ (x.free = true ∧ y.free = true)
  last : ∀ x ∈ bs.getLast?, x.free = false

/-- No two free blocks are neighbours. -/
abbrev Alternates (bs : List Block) : Prop :=
  bs.IsChain fun x y => ¬ (x.free = true ∧ y.free = true)

/-- What becomes of a free block when `need` bytes are taken from it. -/
def Block.take (arch : X86) (need : Nat) (x : Block) : List Block :=
  if x.size - need ≥ arch.heapMinBlock then
    [⟨x.addr, need, false⟩, ⟨x.addr + need, x.size - need, true⟩]
  else [⟨x.addr, x.size, false⟩]

variable {arch : X86} {h h' g : HeapState} {bs pre post : List Block} {x y : Block}
    {need addr c : Nat}

theorem Settled.next_used (hs : Settled (pre ++ x :: post)) (hx : x.free = true) :
    ∃ z rest, post = z :: rest ∧ z.free = false := by
  cases post with
  | nil =>
    have := hs.last x (by simp)
    rw [hx] at this
    cases this
  | cons z rest =>
    obtain ⟨_, hxz, _⟩ := isChain_append_cons_cons.mp hs.alternate
    exact ⟨z, rest, rfl, by simpa [hx] using hxz⟩

theorem Settled.take (hs : Settled (pre ++ x :: post)) (hx : x.free = true) :
    Settled (pre ++ x.take arch need ++ post) := by
  obtain ⟨z, rest, rfl, hz⟩ := hs.next_used hx
  obtain ⟨hpre, hrest, _⟩ := isChain_append.mp hs.alternate
  have htail := (isChain_cons_cons.mp hrest).2
  have hlast : ∀ y ∈ (z :: rest).getLast?, y.free = false := fun y hy => hs.last y (by
    rw [List.getLast?_append, List.getLast?_cons_cons, Option.mem_def.mp hy]
    rfl)
  constructor
  · rw [append_assoc]
    refine isChain_append.mpr ⟨hpre, ?_, ?_⟩
    · unfold Block.take
      split
      · exact isChain_cons_cons.mpr ⟨by simp, isChain_cons_cons.mpr ⟨by simp [hz], htail⟩⟩
      · exact isChain_cons_cons.mpr ⟨by simp, htail⟩
    · intro a _ y hy
      have : y.free = false := by
        unfold Block.take at hy
        split at hy <;> simp at hy <;> rw [← hy]
      simp [this]
  · intro y hy
    rw [List.getLast?_append] at hy
    refine hlast y ?_
    cases hl : (z :: rest).getLast? with
    | none => simp at hl
    | some w => rw [hl] at hy; exact hy

theorem Settled.grow (hs : Settled bs) (hx : x.free = false) : Settled (bs ++ [x]) := by
  constructor
  · refine isChain_append.mpr ⟨hs.alternate, isChain_singleton x, ?_⟩
    intro a _ y hy
    obtain rfl : x = y := by simpa using hy
    simp [hx]
  · intro y hy
    obtain rfl : x = y := by simpa using hy
    exact hx

theorem usedPtrs_take : (usedPtrs arch (pre ++ x.take arch need ++ post)).Perm
    ((x.addr + arch.heapHeaderSize) :: usedPtrs arch (pre ++ post)) := by
  have htake : usedPtrs arch (x.take arch need) = [x.addr + arch.heapHeaderSize] := by
    unfold Block.take
    split <;> rfl
  rw [usedPtrs_append, usedPtrs_append, usedPtrs_append, htake, append_assoc]
  exact perm_middle

/-- The header of one block is written, and that of a block apart from it stays. -/
theorem header_kept {b : Nat} (hc : Apart arch b c) (v w : Nat) :
    ((h.setSize arch b v).setNext arch b w).size arch c = h.size arch c ∧
      ((h.setSize arch b v).setNext arch b w).next arch c = h.next arch c :=
  ⟨(size_setNext (.inr hc)).trans (size_setSize_of_apart hc),
    (next_setNext_of_apart hc).trans (next_setSize (.inr hc))⟩

/-! ## Taking a free block -/

/-- The last writes of `kmalloc` on the free list: the list around the block is closed
with `target`, and the block's header says that it is used. -/
def heapClaim (arch : X86) (g : HeapState) (prev target b size : Nat) : HeapState :=
  ((g.link arch prev target).setSize arch b size).setNext arch b arch.heapMagicUsed

section Claim

variable {l : List Nat} {target b size : Nat}

theorem size_heapClaim (hc : Apart arch b c) (hl : ∀ a ∈ l, a = c ∨ Apart arch a c) :
    (heapClaim arch g (lastCell l) target b size).size arch c = g.size arch c := by
  rw [heapClaim, (header_kept hc _ _).1, size_link hl]

theorem next_heapClaim (hc : Apart arch b c) (hl : ∀ a ∈ l, Apart arch a c) :
    (heapClaim arch g (lastCell l) target b size).next arch c = g.next arch c := by
  rw [heapClaim, (header_kept hc _ _).2, next_link hl]

theorem size_heapClaim_self (hsize : size < arch.wordSpan) :
    (heapClaim arch g (lastCell l) target b size).size arch b = size := by
  rw [heapClaim, size_setNext (.inl rfl), size_setSize hsize]

theorem next_heapClaim_self :
    (heapClaim arch g (lastCell l) target b size).next arch b = arch.heapMagicUsed :=
  next_setNext (heapMagicUsed_lt arch)

theorem heapClaim_segment {q : Nat} (hseg : Segment (g.next arch) g.freeList l q)
    (hapart : l.Pairwise (Apart arch)) (hb : ∀ a ∈ l, Apart arch b a)
    (htarget : target < arch.wordSpan) :
    Segment ((heapClaim arch g (lastCell l) target b size).next arch)
      (heapClaim arch g (lastCell l) target b size).freeList l target := by
  refine (link_segment hseg hapart htarget).congr fun a ha => ?_
  rw [heapClaim, (header_kept (hb a ha) _ _).2]

end Claim

/-- A free block and a used one are different blocks. -/
theorem HeapState.Represents.apart_of_used (hr : h.Represents arch bs) (hx : x ∈ bs)
    (hy : y ∈ bs) (hxf : x.free = true) (hyu : y.free = false) : Apart arch x.addr y.addr := by
  refine (hr.apart hx hy).resolve_left fun heq => ?_
  have hpos : ∀ z ∈ bs, 0 < z.size := fun z hz => by have := hr.size_ge hz; omega
  rw [hr.tiles.eq_of_start hpos hx hy heq, hyu] at hxf
  cases hxf

section

variable (hr : h.Represents arch (pre ++ x :: post))
include hr

theorem HeapState.Represents.apart_before (hy : y ∈ pre) (hc : x.addr ≤ c) :
    Apart arch y.addr c := by
  have := hr.before hy
  have := hr.size_ge (mem_append_left _ hy)
  have := heapHeaderSize_le arch
  exact .inl (by omega)

theorem HeapState.Represents.apart_after (hy : y ∈ post)
    (hc : c + arch.heapHeaderSize ≤ x.addr + x.size) : Apart arch c y.addr := by
  have := hr.after hy
  exact .inl (by omega)

/-- A header inside the block is apart from those of the other blocks. -/
theorem HeapState.Represents.apart_within (hc : x.addr ≤ c)
    (hc' : c + arch.heapHeaderSize ≤ x.addr + x.size) : ∀ y ∈ pre ++ post, Apart arch c y.addr :=
  fun _ hy => (mem_append.mp hy).elim (fun hy => (hr.apart_before hy hc).symm)
    fun hy => hr.apart_after hy hc'

/-- The free blocks in front are apart from each other and from the used blocks. -/
theorem HeapState.Represents.front_apart : (freeAddrs pre).Pairwise (Apart arch) := by
  have hall := hr.freeAddrs_apart
  rw [freeAddrs_append] at hall
  exact (pairwise_append.mp hall).1

theorem HeapState.Represents.link_apart (hy : y ∈ pre ++ post) {a : Nat} (ha : a ∈ freeAddrs pre) :
    (a = y.addr ∨ Apart arch a y.addr) ∧ (y.free = false → Apart arch a y.addr) := by
  obtain ⟨z, hz, hzf, rfl⟩ := mem_freeAddrs.mp ha
  have hz := mem_append_left (x :: post) hz
  have hy := perm_middle.symm.subset (mem_cons_of_mem x hy)
  exact ⟨hr.apart hz hy, hr.apart_of_used hz hy hzf⟩

/-- The links into and out of a free block. -/
theorem HeapState.Represents.chain_around (hx : x.free = true) :
    Segment (h.next arch) h.freeList (freeAddrs pre) x.addr ∧
      Segment (h.next arch) (headCell (freeAddrs post)) (freeAddrs post) 0 := by
  have hchain := hr.chain
  rw [freeAddrs_append, freeAddrs_cons_free hx] at hchain
  obtain ⟨hl, _, _⟩ := segment_around.mp hchain
  obtain ⟨hm, hhead⟩ := hr.next_free hx
  exact ⟨hl, hhead ▸ hm⟩

end

theorem headCell_lt (hr : h.Represents arch bs) (hsub : ∀ y ∈ post, y ∈ bs) :
    headCell (freeAddrs post) < arch.wordSpan := by
  have hspan := hr.brk_lt
  cases hl : freeAddrs post with
  | nil => exact (Nat.zero_le _).trans_lt hspan
  | cons a as =>
    obtain ⟨y, hy, _, rfl⟩ := mem_freeAddrs.mp (hl ▸ mem_cons_self : a ∈ freeAddrs post)
    have := (hr.bounds (hsub y hy)).2
    exact lt_of_le_of_lt (by omega : y.addr ≤ _) hspan

section

variable (hr : h.Represents arch (pre ++ x :: post)) (hx : x.free = true)
include hr hx

/-- The front of a free block is handed out.  `g` is the heap with the header of the
rest, if there is one, already written, and `target` leads to the free blocks behind. -/
theorem heapClaim_represents {rest : List Block} {target size : Nat}
    (hbrk : g.brk = h.brk) (hmapped : g.mappedEnd = h.mappedEnd) (hlist : g.freeList = h.freeList)
    (hsame : ∀ y ∈ pre ++ post, g.size arch y.addr = h.size arch y.addr ∧
      g.next arch y.addr = h.next arch y.addr)
    (htiles : Tiles Block.addr Block.size x.addr (x.addr + x.size) (⟨x.addr, size, false⟩ :: rest))
    (hsized : ∀ y ∈ ⟨x.addr, size, false⟩ :: rest,
      arch.heapMinBlock ≤ y.size ∧ arch.heapBlockAlign ∣ y.size)
    (hrest : ∀ y ∈ rest, y.free = true ∧ g.size arch y.addr = y.word)
    (htarget : target < arch.wordSpan)
    (hchain : Segment (g.next arch) target (freeAddrs rest ++ freeAddrs post) 0) :
    (heapClaim arch g (lastCell (freeAddrs pre)) target x.addr size).Represents arch
      (pre ++ (⟨x.addr, size, false⟩ :: rest) ++ post) := by
  have hmem : x ∈ pre ++ x :: post := by simp
  have hhead := heapHeaderSize_le arch
  have hxsize := hr.size_ge hmem
  have hbound := (hr.bounds hmem).2
  have hspan := hr.brk_lt
  have hsize : arch.heapMinBlock ≤ size := (hsized _ mem_cons_self).1
  rw [heapMinBlock_eq] at hsize
  -- the blocks of the rest lie behind the header of the block and inside the old one
  have hinside : ∀ y ∈ rest, x.addr + size ≤ y.addr ∧
      y.addr + arch.heapHeaderSize ≤ x.addr + x.size := fun y hy => by
    have hb : x.addr + size ≤ y.addr ∧ y.addr + y.size ≤ x.addr + x.size := htiles.2.bounds hy
    have := (hsized y (mem_cons_of_mem _ hy)).1
    rw [heapMinBlock_eq] at this
    exact ⟨hb.1, by omega⟩
  have hother := hr.apart_within le_rfl (by omega)
  have hpre : ∀ a ∈ freeAddrs pre, ∀ c, x.addr ≤ c → Apart arch a c := fun a ha c hc => by
    obtain ⟨y, hy, _, rfl⟩ := mem_freeAddrs.mp ha
    exact hr.apart_before hy hc
  have hbehind : ∀ y ∈ rest ++ post, x.addr ≤ y.addr ∧ Apart arch x.addr y.addr := fun y hy => by
    rcases mem_append.mp hy with hy | hy
    · have := (hinside y hy).1
      exact ⟨by omega, .inl (by omega)⟩
    · have := hr.after hy
      exact ⟨by omega, hother y (mem_append_right _ hy)⟩
  have hr' : h.Represents arch (pre ++ [x] ++ post) := by simpa using hr
  refine hr'.replace (by simp [heapClaim, HeapState.setSize, HeapState.setNext, hbrk])
    (by simp [heapClaim, HeapState.setSize, HeapState.setNext, hmapped]) ?_ hsized ?_ ?_ ?_ ?_
  · rintro lo hi ⟨rfl, hhi⟩
    exact hhi ▸ htiles
  · intro y hy
    exact ⟨(size_heapClaim (hother y hy) fun a ha => (hr.link_apart hy ha).1).trans (hsame y hy).1,
      fun hused => (next_heapClaim (hother y hy) fun a ha => (hr.link_apart hy ha).2 hused).trans
        (hsame y hy).2⟩
  · intro y hy
    rcases mem_cons.mp hy with rfl | hy
    · have hle : x.addr + size ≤ x.addr + x.size := htiles.2.le
      exact size_heapClaim_self (by omega)
    · obtain ⟨hlow, hapart⟩ := hbehind y (mem_append_left _ hy)
      rw [size_heapClaim hapart fun a ha => .inr (hpre a ha _ hlow)]
      exact (hrest y hy).2
  · intro y hy hused
    rcases mem_cons.mp hy with rfl | hy
    · exact next_heapClaim_self
    · rw [(hrest y hy).1] at hused
      cases hused
  · rw [freeAddrs_append, freeAddrs_append, append_assoc]
    refine segment_append.mpr ⟨target, heapClaim_segment (q := x.addr) ?_ hr.front_apart
      (fun a ha => (hpre a ha _ le_rfl).symm) htarget, ?_⟩
    · rw [hlist]
      refine (hr.chain_around hx).1.congr fun a ha => ?_
      obtain ⟨y, hy, _, rfl⟩ := mem_freeAddrs.mp ha
      exact (hsame y (mem_append_left _ hy)).2
    · refine hchain.congr fun a ha => ?_
      rw [← freeAddrs_append] at ha
      obtain ⟨y, hy, _, rfl⟩ := mem_freeAddrs.mp ha
      obtain ⟨hlow, hapart⟩ := hbehind y hy
      exact next_heapClaim hapart fun c hc => hpre c hc _ hlow

/-- Taking `need` bytes from a free block of a represented heap. -/
theorem heapTake_represents (hneed : 32 ≤ need) (halign : arch.heapBlockAlign ∣ need)
    (hfits : need ≤ x.size) :
    (heapTake arch h need (lastCell (freeAddrs pre)) x.addr x.size
      (headCell (freeAddrs post))).Represents arch (pre ++ x.take arch need ++ post) := by
  have hmem : x ∈ pre ++ x :: post := by simp
  have hmin := heapMinBlock_eq arch
  have hhead := heapHeaderSize_le arch
  have hbound := (hr.bounds hmem).2
  have hspan := hr.brk_lt
  obtain ⟨_, hm⟩ := hr.chain_around hx
  have htarget : headCell (freeAddrs post) < arch.wordSpan := headCell_lt hr (by simp +contextual)
  unfold heapTake Block.take
  by_cases hsplit : x.size - need ≥ arch.heapMinBlock
  · rw [if_pos hsplit, if_pos hsplit]
    have haddr : arch.add x.addr need = x.addr + need := add_eq (by omega)
    simp only [haddr]
    have hdvd : arch.heapBlockAlign ∣ x.size - need := Nat.dvd_sub (hr.sized x hmem).2 halign
    have heven : 2 ∣ x.size - need := (heapBlockAlign_even arch).trans hdvd
    have hmark : markFree (x.size - need) = x.size - need + 1 := by unfold markFree; omega
    -- the header of the rest touches no other block
    have hapart := hr.apart_within (Nat.le_add_right x.addr need) (by omega)
    refine heapClaim_represents hr hx rfl rfl rfl (fun y hy => header_kept (hapart y hy) _ _)
      ⟨rfl, rfl, ?_⟩ ?_ ?_ (by omega) ?_
    · show x.addr + need + (x.size - need) = x.addr + x.size
      omega
    · intro y hy
      rcases mem_cons.mp hy with rfl | hy
      · exact ⟨by rw [hmin]; exact hneed, halign⟩
      · obtain rfl := mem_singleton.mp hy
        exact ⟨hsplit, hdvd⟩
    · intro y hy
      obtain rfl := mem_singleton.mp hy
      refine ⟨rfl, ?_⟩
      rw [size_setNext (.inl rfl), hmark, size_setSize (by omega)]
      rfl
    · have hne : x.addr + need ≠ 0 := by omega
      refine ⟨rfl, hne, ?_⟩
      rw [next_setNext htarget]
      refine hm.congr fun a ha => ?_
      obtain ⟨y, hy, _, rfl⟩ := mem_freeAddrs.mp ha
      exact (header_kept (hapart y (mem_append_right _ hy)) _ _).2
  · rw [if_neg hsplit, if_neg hsplit]
    refine heapClaim_represents hr hx rfl rfl rfl (fun _ _ => ⟨rfl, rfl⟩) ⟨rfl, rfl⟩ ?_
      nofun htarget hm
    intro y hy
    obtain rfl := mem_singleton.mp hy
    exact hr.sized x hmem

end

/-! ## The walk over the free list -/

/-- A list of blocks from its first free block on: used blocks, the free block, and
the rest. -/
theorem first_free {xs others : List Block} (hfree : xs.filter (·.free) = x :: others) :
    ∃ used rest, xs = used ++ x :: rest ∧ freeAddrs used = [] ∧ x.free = true ∧
      rest.filter (·.free) = others := by
  obtain ⟨used, rest, rfl, hused, hx, hrest⟩ := filter_eq_cons_iff.mp hfree
  refine ⟨used, rest, rfl, ?_, hx, hrest⟩
  rw [freeAddrs, filter_eq_nil_iff.mpr hused, map_nil]

theorem headCell_first (hpre : freeAddrs pre = []) (hx : x.free = true) :
    headCell (freeAddrs (pre ++ x :: post)) = x.addr := by
  rw [freeAddrs_append, hpre, freeAddrs_cons_free hx]
  rfl

theorem lastCell_concat (pre : List Block) (hx : x.free = true) :
    lastCell (freeAddrs (pre ++ [x])) = x.addr := by
  rw [freeAddrs_append, freeAddrs_cons_free hx]
  exact getLastD_concat

/-- The block that the walk finds, with what surrounds it in the list of blocks. -/
def WalkFinds (arch : X86) (h : HeapState) (bs : List Block) (need : Nat)
    (result : Option (Nat × HeapState)) : Prop :=
  result = none ∨ ∃ pre x post, bs = pre ++ x :: post ∧ x.free = true ∧ need ≤ x.size ∧
    result = some (x.addr, heapTake arch h need (lastCell (freeAddrs pre)) x.addr x.size
      (headCell (freeAddrs post)))

/-- The link out of a free block passes the check of `kmalloc`. -/
theorem HeapState.Represents.link_sane (hr : h.Represents arch (pre ++ x :: post))
    (hx : x.free = true) : ¬ (h.next arch x.addr ≠ 0 ∧ (h.next arch x.addr < arch.heapStart ∨
      h.next arch x.addr > h.brk ∨ h.next arch x.addr % arch.heapBlockAlign ≠ 0 ∨
      h.next arch x.addr ≤ x.addr)) := by
  rw [(hr.next_free hx).2]
  rintro ⟨hne, hbad⟩
  cases hl : freeAddrs post with
  | nil => exact hne (by rw [hl]; rfl)
  | cons a as =>
    obtain ⟨y, hy, _, rfl⟩ := mem_freeAddrs.mp (hl ▸ mem_cons_self : a ∈ freeAddrs post)
    have hmem : y ∈ pre ++ x :: post := by simp [hy]
    have hbounds := hr.bounds hmem
    have halign := Nat.mod_eq_zero_of_dvd (hr.dvd_addr hmem)
    have hafter := hr.after hy
    have hsize := hr.size_ge (by simp : x ∈ pre ++ x :: post)
    rw [hl, show headCell (y.addr :: as) = y.addr from rfl] at hbad
    omega

/-- The walk, from the point where the free blocks of `pre` have been passed. -/
theorem kmallocWalk_finds (hr : h.Represents arch bs) {steps : Nat} :
    ∀ {pre post : List Block}, bs = pre ++ post → (post.filter (·.free)).length ≤ steps →
      WalkFinds arch h bs need (kmallocWalk arch h need steps (lastCell (freeAddrs pre))
        (headCell (freeAddrs post))) := by
  induction steps with
  | zero => exact fun _ _ => .inl rfl
  | succ steps ih =>
    intro pre post hbs hsteps
    rcases hfree : post.filter (·.free) with _ | ⟨x, others⟩
    · exact .inl (by simp [kmallocWalk, freeAddrs, hfree, headCell])
    -- the next free block of the list, behind used blocks only
    obtain ⟨used, rest, rfl, hnone, hx, hrest⟩ := first_free hfree
    have hbs' : bs = (pre ++ used) ++ x :: rest := by rw [hbs, append_assoc]
    have hlast : freeAddrs (pre ++ used) = freeAddrs pre := by
      rw [freeAddrs_append, hnone, append_nil]
    have hr' := hbs' ▸ hr
    have hmem : x ∈ pre ++ used ++ x :: rest := by simp
    rw [headCell_first hnone hx, kmallocWalk, if_neg (hr'.addr_pos hmem).ne', hr'.addrSane hmem]
    dsimp only
    rw [hr'.isFree hmem, hx, hr'.sizeSane hmem, if_neg (by decide),
      if_neg (hr'.link_sane hx), hr'.sizeMask hmem, (hr'.next_free hx).2]
    by_cases hfits : x.size ≥ need
    · rw [if_pos hfits, ← hlast]
      exact .inr ⟨_, x, rest, hbs', hx, hfits, rfl⟩
    rw [if_neg hfits, ← lastCell_concat (pre ++ used) hx]
    refine ih (by rw [hbs', append_assoc _ [x]]; rfl) ?_
    rw [hfree, length_cons, ← hrest] at hsteps
    omega

/-! ## Growing -/

/-- Mapping pages keeps the heap below the old mapped end. -/
structure MapGrows (addr : Nat) (h : HeapState) (ok : Bool) (h' : HeapState) : Prop where
  list : h'.freeList = h.freeList
  brk : h'.brk = h.brk
  mapped : h.mappedEnd ≤ h'.mappedEnd
  paged : pageSize ∣ h.mappedEnd → pageSize ∣ h'.mappedEnd
  mem : ∀ a, a < h.mappedEnd → h'.mem a = h.mem a
  reached : ok = true → addr ≤ h'.mappedEnd

theorem heapMapLoop_grows {n : Nat} {answers : Nat → PageAnswer}
    (hfuel : addr ≤ h.mappedEnd + n * pageSize) :
    MapGrows addr h (heapMapLoop addr n answers h).1 (heapMapLoop addr n answers h).2 := by
  induction n generalizing h answers with
  | zero => exact ⟨rfl, rfl, le_rfl, id, fun _ _ => rfl, fun _ => show addr ≤ h.mappedEnd by
      simpa using hfuel⟩
  | succ n ih =>
    rw [heapMapLoop]
    split
    · dsimp only
      split
      · exact ⟨rfl, rfl, le_rfl, id, fun _ _ => rfl, nofun⟩
      split
      · have hrest := @ih { h with
            mappedEnd := h.mappedEnd + pageSize
            mem := fun x => if h.mappedEnd ≤ x ∧ x < h.mappedEnd + pageSize then
              (answers 0).contents (x - h.mappedEnd) else h.mem x
            pages := Function.update h.pages h.mappedEnd (answers 0).phys
            taken := h.taken ++ [(answers 0).phys] } (fun k => answers (k + 1))
          (by rw [Nat.succ_mul] at hfuel; dsimp only; omega)
        refine ⟨hrest.list, hrest.brk, (Nat.le_add_right _ _).trans hrest.mapped,
          fun hdvd => hrest.paged (Nat.dvd_add hdvd dvd_rfl), fun a ha => ?_, hrest.reached⟩
        rw [hrest.mem a (Nat.lt_add_right _ ha)]
        exact if_neg (by omega)
      · exact ⟨rfl, rfl, le_rfl, id, fun _ _ => rfl, nofun⟩
    · rename_i hdone
      exact ⟨rfl, rfl, le_rfl, id, fun _ _ => rfl, fun _ => not_lt.mp hdone⟩

theorem heapMapUntil_grows (addr : Nat) (answers : Nat → PageAnswer) (h : HeapState) :
    MapGrows addr h (heapMapUntil addr answers h).1 (heapMapUntil addr answers h).2 := by
  refine heapMapLoop_grows ?_
  simp only [pageSize]
  omega

/-- The headers lie below the break, so mapping pages leaves them alone. -/
theorem MapGrows.represents {ok : Bool} (hg : MapGrows addr h ok h')
    (hr : h.Represents arch bs) : h'.Represents arch bs := by
  refine hr.of_headers hg.list hg.brk (hr.mapped.trans hg.mapped) (hg.paged hr.paged) fun x hx => ?_
  have hhead := hr.header_le hx
  have hmapped := hr.mapped
  simp only [X86.heapHeaderSize] at hhead
  exact ⟨ByteMem.load_congr fun a _ ha => hg.mem a (by omega),
    ByteMem.load_congr fun a _ ha => hg.mem a (by omega)⟩

/-- A used block is added at the break. -/
theorem grow_represents {newBrk : Nat} (hr : h.Represents arch bs) (hneed : 32 ≤ need)
    (halign : arch.heapBlockAlign ∣ need) (hnew : newBrk = h.brk + need)
    (hend : newBrk ≤ arch.heapEnd) (hmapped : newBrk ≤ h.mappedEnd) :
    ((({ h with brk := newBrk }).setSize arch h.brk need).setNext arch h.brk
      arch.heapMagicUsed).Represents arch (bs ++ [(⟨h.brk, need, false⟩ : Block)]) := by
  have hspan := heapEnd_lt arch
  have hapart : ∀ y ∈ bs, Apart arch h.brk y.addr := fun y hy => .inr (hr.header_le hy)
  have htiles : Tiles Block.addr Block.size arch.heapStart newBrk
      (bs ++ [(⟨h.brk, need, false⟩ : Block)]) :=
    tiles_append.mpr ⟨h.brk, hr.tiles, rfl, hnew.symm⟩
  refine
    { tiles := htiles
      sized := fun y hy => ?_
      word := fun y hy => ?_
      magic := fun y hy hused => ?_
      chain := ?_
      mapped := hmapped
      inside := hend
      paged := hr.paged }
  · rcases mem_append.mp hy with hy | hy
    · exact hr.sized y hy
    · obtain rfl := mem_singleton.mp hy
      exact ⟨heapMinBlock_eq arch ▸ hneed, halign⟩
  · rcases mem_append.mp hy with hy | hy
    · rw [(header_kept (hapart y hy) _ _).1]
      exact hr.word y hy
    · obtain rfl := mem_singleton.mp hy
      rw [size_setNext (.inl rfl), size_setSize (by omega)]
      rfl
  · rcases mem_append.mp hy with hy | hy
    · rw [(header_kept (hapart y hy) _ _).2]
      exact hr.magic y hy hused
    · obtain rfl := mem_singleton.mp hy
      exact next_setNext (heapMagicUsed_lt arch)
  · have hsame : freeAddrs (bs ++ [(⟨h.brk, need, false⟩ : Block)]) = freeAddrs bs := by
      rw [freeAddrs_append]
      exact append_nil _
    rw [hsame]
    refine hr.chain.congr fun a ha => ?_
    obtain ⟨y, hy, _, rfl⟩ := mem_freeAddrs.mp ha
    rw [(header_kept (hapart y hy) _ _).2]
    rfl

/-! ## `kmalloc` -/

section

variable (size : UInt32)

theorem heapAlign_toNat : (heapAlign size).toNat = (size.toNat + 15) % 2 ^ 32 / 16 * 16 := by
  exact Nat.mod_eq_of_lt (by simp; omega)

theorem heapNeed_ge : 32 ≤ heapNeed arch size := by
  have hmin := heapMinBlock_eq arch
  unfold heapNeed
  dsimp only
  split <;> omega

theorem heapNeed_lt : heapNeed arch size < arch.wordSpan := by
  have hmin := heapMinBlock_eq arch
  have hspan := heapEnd_lt arch
  unfold heapNeed
  dsimp only
  split
  · omega
  · exact Nat.mod_lt _ (by omega)

theorem heapNeed_dvd : arch.heapBlockAlign ∣ heapNeed arch size := by
  have h16 : arch.heapBlockAlign ∣ 16 := by cases arch <;> decide
  have hspan : arch.heapBlockAlign ∣ arch.wordSpan := by cases arch <;> decide
  unfold heapNeed
  dsimp only
  split
  · exact heapBlockAlign_dvd_minBlock arch
  · refine (Nat.dvd_mod_iff hspan).mpr (Nat.dvd_add (heapBlockAlign_dvd_header arch) ?_)
    rw [heapAlign_toNat]
    exact h16.trans (Nat.dvd_mul_left _ _)

end

/-- The request fits behind the header, unless rounding it up leaves 32 bits. -/
theorem heapNeed_fits {size : UInt32} (hsize : size.toNat + 15 < 2 ^ 32) :
    arch.heapHeaderSize + size.toNat ≤ heapNeed arch size := by
  have hsum : arch.heapHeaderSize + (heapAlign size).toNat < arch.wordSpan := by
    rw [heapAlign_toNat]
    cases arch <;> simp only [X86.heapHeaderSize, X86.wordSpan, X86.wordBytes] <;> omega
  have hround : size.toNat ≤ (heapAlign size).toNat := by
    rw [heapAlign_toNat]
    omega
  unfold heapNeed
  rw [add_eq hsum]
  dsimp only
  split <;> omega

/-- The checks of `kmalloc` on the new break, which may have wrapped around. -/
theorem newBrk_iff {brk : Nat} (hbrk : brk < arch.wordSpan) (hneed : need < arch.wordSpan)
    (hend : arch.heapEnd < arch.wordSpan) :
    ¬ (arch.add brk need < brk ∨ arch.add brk need > arch.heapEnd) ↔
      brk + need ≤ arch.heapEnd ∧ arch.add brk need = brk + need := by
  rcases Nat.lt_or_ge (brk + need) arch.wordSpan with hlt | hge
  · rw [add_eq hlt]
    omega
  · have hmod : arch.add brk need = brk + need - arch.wordSpan := by
      rw [X86.add, Nat.mod_eq_sub_mod hge]
      exact Nat.mod_eq_of_lt (by omega)
    omega

/-- What a successful allocation hands out. -/
structure HandsOut (arch : X86) (bs : List Block) (need ptr : Nat) (bs' : List Block) : Prop where
  block : ∃ x ∈ bs', x.free = false ∧ ptr = x.addr + arch.heapHeaderSize ∧ need ≤ x.size
  used : (usedPtrs arch bs').Perm (ptr :: usedPtrs arch bs)

/-- `kmalloc` on a represented heap: a null pointer and the same blocks, or the pointer
to one more used block. -/
theorem kmalloc_represents (hr : h.Represents arch bs) (hs : Settled bs) (size : UInt32)
    (answers : Nat → PageAnswer) : ∃ bs', (kmalloc arch h size answers).2.Represents arch bs' ∧
      Settled bs' ∧ ((kmalloc arch h size answers).1 = 0 ∧ bs' = bs ∨
        HandsOut arch bs (heapNeed arch size) (kmalloc arch h size answers).1 bs') := by
  by_cases hzero : size = 0
  · rw [kmalloc, if_pos hzero]
    exact ⟨bs, hr, hs, .inl ⟨rfl, rfl⟩⟩
  have hneed : 32 ≤ heapNeed arch size := heapNeed_ge size
  have hneedSpan : heapNeed arch size < arch.wordSpan := heapNeed_lt size
  have halign : arch.heapBlockAlign ∣ heapNeed arch size := heapNeed_dvd size
  have hspan := hr.brk_lt
  have hhead := heapHeaderSize_le arch
  have hwalk := @kmallocWalk_finds arch h bs (heapNeed arch size) hr heapMaxWalk [] bs rfl
    hr.length_le
  rw [show lastCell (freeAddrs []) = 0 from rfl, ← hr.chain.head_eq] at hwalk
  rw [kmalloc, if_neg hzero]
  dsimp only
  rcases hwalk with hnone | ⟨pre, x, post, rfl, hx, hfits, hsome⟩
  · rw [hnone]
    dsimp only
    split
    · exact ⟨bs, hr, hs, .inl ⟨rfl, rfl⟩⟩
    rename_i hroom
    obtain ⟨hfits, hnew⟩ := (newBrk_iff (by omega) hneedSpan (by have := heapEnd_lt arch; omega)).mp
      hroom
    have hgrows := heapMapUntil_grows (arch.add h.brk (heapNeed arch size)) answers h
    rcases hmap : heapMapUntil (arch.add h.brk (heapNeed arch size)) answers h with ⟨ok, h'⟩
    rw [hmap] at hgrows
    have hr' := hgrows.represents hr
    cases ok with
    | false => exact ⟨bs, hr', hs, .inl ⟨rfl, rfl⟩⟩
    | true =>
      refine ⟨bs ++ [⟨h.brk, heapNeed arch size, false⟩], ?_, hs.grow rfl, .inr ⟨?_, ?_⟩⟩
      · have := grow_represents hr' hneed halign (hgrows.brk ▸ hnew) (by omega) (hgrows.reached rfl)
        rw [show h'.brk = h.brk from hgrows.brk] at this
        exact this
      · exact ⟨_, mem_append_right _ (mem_singleton_self _), rfl,
          add_eq (by omega), le_rfl⟩
      · rw [add_eq (by omega)]
        simp [usedPtrs]
  · rw [hsome]
    have hmem : x ∈ pre ++ x :: post := by simp
    have hbound := hr.header_le hmem
    have hptr : arch.add x.addr arch.heapHeaderSize = x.addr + arch.heapHeaderSize :=
      add_eq (by omega)
    refine ⟨_, heapTake_represents hr hx hneed halign hfits, hs.take hx, .inr ⟨?_, ?_⟩⟩
    · dsimp only
      rw [hptr]
      unfold Block.take
      split
      · exact ⟨⟨x.addr, heapNeed arch size, false⟩, by simp, rfl, rfl, le_rfl⟩
      · exact ⟨⟨x.addr, x.size, false⟩, by simp, rfl, rfl, hfits⟩
    · dsimp only
      rw [hptr]
      rw [usedPtrs_append pre, usedPtrs_cons_free hx, ← usedPtrs_append]
      exact usedPtrs_take

end ArcKernel.Heap
