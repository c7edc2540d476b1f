import ArcKernel.Heap.Alloc

/-!
# Release

On a represented heap `kfree` of a used block finds the free blocks around it, links
it between them, merges it with the block behind and the block in front when they are
free, and drops a free block at the break.  What is left is a represented heap with
one used block less, in which no two free blocks are neighbours and the last block is
used.
-/

namespace ArcKernel.Heap

open ArcKernel.Foundation List HeapState

variable {arch : X86} {h h' : HeapState} {bs pre post : List Block} {x : Block}

/-! ## The place in the free list -/

/-- The walk of `kfree` stops between the free blocks before and behind the block. -/
theorem kfreeWalk_between (hr : h.Represents arch (pre ++ x :: post)) (hx : x.free = false)
    {steps : Nat} : ∀ {before rest : List Block}, pre = before ++ rest →
      (rest.filter (·.free)).length ≤ steps →
      kfreeWalk arch h x.addr steps (lastCell (freeAddrs before))
        (headCell (freeAddrs (rest ++ x :: post))) =
      .between (lastCell (freeAddrs pre)) (headCell (freeAddrs post)) := by
  induction steps with
  | zero =>
    intro before rest hpre hsteps
    have hnone : freeAddrs rest = [] := by
      rw [freeAddrs, length_eq_zero_iff.mp (Nat.le_zero.mp hsteps), map_nil]
    rw [hpre, freeAddrs_append, freeAddrs_append, hnone, freeAddrs_cons_used hx, append_nil]
    rfl
  | succ steps ih =>
    intro before rest hpre hsteps
    rcases hfree : rest.filter (·.free) with _ | ⟨y, others⟩
    · have hnone : freeAddrs rest = [] := by rw [freeAddrs, hfree, map_nil]
      rw [hpre, freeAddrs_append, freeAddrs_append, hnone, freeAddrs_cons_used hx,
        append_nil, nil_append, kfreeWalk]
      -- the first free block behind is past the block
      cases hl : freeAddrs post with
      | nil => exact if_pos rfl
      | cons a as =>
        obtain ⟨z, hz, _, rfl⟩ := mem_freeAddrs.mp (hl ▸ mem_cons_self : a ∈ freeAddrs post)
        have hmem : z ∈ pre ++ x :: post := by simp [hz]
        have hafter := hr.after hz
        have hsize := hr.size_ge (by simp : x ∈ pre ++ x :: post)
        rw [show headCell (z.addr :: as) = z.addr from rfl, if_neg (hr.addr_pos hmem).ne',
          hr.addrSane hmem, if_neg (by decide), if_neg (by omega), if_pos (by omega)]
    obtain ⟨used, rest', rfl, hnone, hy, hrest⟩ := first_free hfree
    have hpre' : pre = (before ++ used ++ [y]) ++ rest' := by simp [hpre]
    have hbs : pre ++ x :: post = (before ++ used) ++ y :: (rest' ++ x :: post) := by simp [hpre]
    have hr' := hbs ▸ hr
    have hmem : y ∈ before ++ used ++ y :: (rest' ++ x :: post) := by simp
    have hbefore : y.addr + y.size ≤ x.addr := hr.before (by simp [hpre])
    have hsize := hr'.size_ge hmem
    rw [append_assoc, cons_append, headCell_first hnone hy, kfreeWalk,
      if_neg (hr'.addr_pos hmem).ne', hr'.addrSane hmem, if_neg (by decide), if_neg (by omega),
      if_neg (by omega), (hr'.next_free hy).2, ← lastCell_concat (before ++ used) hy]
    refine ih hpre' ?_
    rw [hfree, length_cons, ← hrest] at hsteps
    omega

/-! ## Linking the block -/

theorem heapFree_represents (hr : h.Represents arch (pre ++ x :: post)) (hx : x.free = false) :
    (((h.setSize arch x.addr (markFree x.size)).setNext arch x.addr
      (headCell (freeAddrs post))).link arch (lastCell (freeAddrs pre)) x.addr).Represents arch
      (pre ++ { x with free := true } :: post) := by
  have hmem : x ∈ pre ++ x :: post := by simp
  have hhead := heapHeaderSize_le arch
  have hsize := hr.size_ge hmem
  have hbound := (hr.bounds hmem).2
  have hspan := hr.brk_lt
  have heven := hr.even_size hmem
  have hother := hr.apart_within le_rfl (by omega)
  have hcells : ∀ a ∈ freeAddrs pre, Apart arch a x.addr := fun a ha => by
    obtain ⟨y, hy, _, rfl⟩ := mem_freeAddrs.mp ha
    exact hr.apart_before hy le_rfl
  have hchain := hr.chain
  rw [freeAddrs_append, freeAddrs_cons_used hx] at hchain
  obtain ⟨q, hl, hm⟩ := segment_append.mp hchain
  rw [hm.head_eq] at hl hm
  have hr' : h.Represents arch (pre ++ [x] ++ post) := by simpa using hr
  -- the two writes to the block's own header are seen nowhere else
  have hkept (y : Block) (hy : y ∈ pre ++ post) := @header_kept arch h _ _ (hother y hy)
  have hnew : (((h.setSize arch x.addr (markFree x.size)).setNext arch x.addr
      (headCell (freeAddrs post))).link arch (lastCell (freeAddrs pre)) x.addr).Represents arch
      (pre ++ [{ x with free := true }] ++ post) := by
    refine hr'.replace (by simp [setSize, setNext]) (by simp [setSize, setNext]) ?_ ?_ ?_ ?_ ?_ ?_
    · rintro lo hi ⟨hlo, hhi⟩
      exact ⟨hlo, hhi⟩
    · intro y hy
      obtain rfl := mem_singleton.mp hy
      exact hr.sized x hmem
    · intro y hy
      exact ⟨(size_link fun a ha => (hr.link_apart hy ha).1).trans (hkept y hy _ _).1, fun hused =>
        (next_link fun a ha => (hr.link_apart hy ha).2 hused).trans (hkept y hy _ _).2⟩
    · intro y hy
      obtain rfl := mem_singleton.mp hy
      have hmark : markFree x.size = x.size + 1 := by unfold markFree; omega
      rw [size_link fun a ha => .inr (hcells a ha), size_setNext (.inl rfl), hmark,
        size_setSize (by omega)]
      rfl
    · intro y hy hused
      obtain rfl := mem_singleton.mp hy
      cases hused
    · rw [freeAddrs_append, freeAddrs_append, append_assoc]
      refine segment_around.mpr ⟨link_segment (q := headCell (freeAddrs post)) ?_
        hr.front_apart (by omega),
        (hr.addr_pos hmem).ne', ?_⟩
      · refine hl.congr fun a ha => ?_
        obtain ⟨y, hy, _, rfl⟩ := mem_freeAddrs.mp ha
        exact (hkept y (mem_append_left _ hy) _ _).2
      rw [next_link hcells, next_setNext (headCell_lt hr fun y hy => by simp [hy])]
      refine hm.congr fun a ha => ?_
      obtain ⟨y, hy, _, rfl⟩ := mem_freeAddrs.mp ha
      refine (next_link fun c hc => ?_).trans (hkept y (mem_append_right _ hy) _ _).2
      obtain ⟨z, hz, _, rfl⟩ := mem_freeAddrs.mp hc
      have := hr.after hy
      exact hr.apart_before hz (by omega)
  simpa using hnew

/-! ## Merging -/

section

variable {y : Block} (hr : h.Represents arch (pre ++ x :: y :: post))
include hr

/-- The block behind `x` starts where `x` ends. -/
theorem HeapState.Represents.next_addr : y.addr = x.addr + x.size := (tiles_around.mp hr.tiles).2.1

/-- A free block followed by a free block absorbs it. -/
theorem heapCoalesce_merges (hx : x.free = true) (hy : y.free = true) :
    (heapCoalesce arch h x.addr).Represents arch
      (pre ++ ⟨x.addr, x.size + y.size, true⟩ :: post) := by
  have hxmem : x ∈ pre ++ x :: y :: post := by simp
  have hymem : y ∈ pre ++ x :: y :: post := by simp
  have hhead := heapHeaderSize_le arch
  have hxsize := hr.size_ge hxmem
  have hysize := hr.size_ge hymem
  have hybound := (hr.bounds hymem).2
  have hspan := hr.brk_lt
  have hyaddr := hr.next_addr
  have heven : 2 ∣ x.size + y.size := Nat.dvd_add (hr.even_size hxmem) (hr.even_size hymem)
  have hr₂ : h.Represents arch ((pre ++ [x]) ++ y :: post) := by simpa using hr
  have hnext : h.next arch x.addr = y.addr := by
    rw [(hr.next_free hx).2, freeAddrs_cons_free hy]
    rfl
  have hkept (z : Block) (hz : z ∈ pre ++ post) := @header_kept arch h _ _
    (hr.apart_within le_rfl (by omega) z (perm_middle.symm.subset (mem_cons_of_mem y hz)))
  -- all checks of the function succeed
  have hmerge : heapCoalesce arch h x.addr = (h.setSize arch x.addr (x.size + y.size + 1)).setNext
      arch x.addr (headCell (freeAddrs post)) := by
    have hsum : arch.add x.addr x.size = y.addr := by rw [add_eq (by omega), hyaddr]
    have hend : arch.add y.addr arch.heapHeaderSize = y.addr + arch.heapHeaderSize :=
      add_eq (by omega)
    have hsizes : markFree (arch.add x.size y.size) = x.size + y.size + 1 := by
      rw [add_eq (by omega)]
      unfold markFree
      omega
    rw [heapCoalesce]
    dsimp only
    rw [hr.sizeMask hxmem, hsum, if_neg (by simp [hnext]), if_neg (by rw [hend]; omega),
      if_neg (by simp [Nat.mod_eq_zero_of_dvd (hr.dvd_addr hymem)]), hr.isFree hymem, hy,
      if_neg (by decide), hr.sizeSane hymem, if_neg (by decide), hr.sizeMask hymem, hsizes,
      (hr₂.next_free hy).2]
  have hnew : (heapCoalesce arch h x.addr).Represents arch
      (pre ++ [⟨x.addr, x.size + y.size, true⟩] ++ post) := by
    have hr' : h.Represents arch (pre ++ [x, y] ++ post) := by simpa using hr
    rw [hmerge]
    refine hr'.replace rfl rfl ?_ ?_ ?_ ?_ ?_ ?_
    · rintro lo hi ⟨hlo, _, hhi⟩
      exact ⟨hlo, by rw [← hhi]; exact (Nat.add_assoc ..).symm⟩
    · intro z hz
      obtain rfl := mem_singleton.mp hz
      exact ⟨(hr.sized x hxmem).1.trans (Nat.le_add_right _ _),
        Nat.dvd_add (hr.sized x hxmem).2 (hr.sized y hymem).2⟩
    · exact fun z hz => (hkept z hz _ _).imp_right fun hnext _ => hnext
    · intro z hz
      obtain rfl := mem_singleton.mp hz
      rw [size_setNext (.inl rfl), size_setSize (by omega)]
      rfl
    · intro z hz hused
      obtain rfl := mem_singleton.mp hz
      cases hused
    · rw [freeAddrs_append, freeAddrs_append, append_assoc]
      refine segment_around.mpr ⟨?_, (hr.addr_pos hxmem).ne', ?_⟩
      · refine (hr.chain_around hx).1.congr fun a ha => ?_
        obtain ⟨z, hz, _, rfl⟩ := mem_freeAddrs.mp ha
        exact (hkept z (mem_append_left _ hz) _ _).2
      · rw [next_setNext (headCell_lt hr fun z hz => by simp [hz])]
        refine (hr₂.chain_around hy).2.congr fun a ha => ?_
        obtain ⟨z, hz, _, rfl⟩ := mem_freeAddrs.mp ha
        exact (hkept z (mem_append_right _ hz) _ _).2
  simpa using hnew

end

/-- A free block followed by a used block, or the last one, stays as it is: the next
free block is not the one behind it. -/
theorem heapCoalesce_stays (hr : h.Represents arch (pre ++ x :: post)) (hx : x.free = true)
    (hused : ∀ y ∈ post.head?, y.free = false) : heapCoalesce arch h x.addr = h := by
  have hmem : x ∈ pre ++ x :: post := by simp
  have hbound := (hr.bounds hmem).2
  have hspan := hr.brk_lt
  have hpos := hr.addr_pos hmem
  have hne : arch.add x.addr x.size ≠ h.next arch x.addr := by
    rw [add_eq (by omega), (hr.next_free hx).2]
    cases post with
    | nil => exact (by show x.addr + x.size ≠ 0; omega)
    | cons y rest =>
      rw [freeAddrs_cons_used (hused y rfl)]
      have hr₂ : h.Represents arch ((pre ++ [x]) ++ y :: rest) := by simpa using hr
      have hyaddr := hr.next_addr
      have hysize := hr.size_ge (by simp : y ∈ pre ++ x :: y :: rest)
      cases hl : freeAddrs rest with
      | nil => exact (by show x.addr + x.size ≠ 0; omega)
      | cons a as =>
        obtain ⟨z, hz, _, rfl⟩ := mem_freeAddrs.mp (hl ▸ mem_cons_self : a ∈ freeAddrs rest)
        have hafter := hr₂.after hz
        show x.addr + x.size ≠ z.addr
        omega
  rw [heapCoalesce]
  rw [hr.sizeMask hmem, if_pos hne]

/-! ## Shrinking -/

/-- What the search for a free block at the break answers. -/
def TailFinds (h : HeapState) (bs rest : List Block)
    (result : Option (Nat × Nat)) : Prop :=
  (result = none ∧ ∀ z ∈ rest, z.free = true → z.addr + z.size ≠ h.brk) ∨
    ∃ pre z post, bs = pre ++ z :: post ∧ z.free = true ∧ z.addr + z.size = h.brk ∧
      result = some (z.addr, lastCell (freeAddrs pre))

theorem heapTail_finds (hr : h.Represents arch bs) {steps : Nat} :
    ∀ {before rest : List Block}, bs = before ++ rest → (rest.filter (·.free)).length ≤ steps →
      TailFinds h bs rest (heapTail arch h steps (lastCell (freeAddrs before))
        (headCell (freeAddrs rest))) := by
  induction steps with
  | zero =>
    intro before rest _ hsteps
    refine .inl ⟨rfl, fun z hz hzf => ?_⟩
    have hnil := length_eq_zero_iff.mp (Nat.le_zero.mp hsteps)
    exact absurd (mem_filter.mpr ⟨hz, hzf⟩) (by rw [hnil]; exact not_mem_nil)
  | succ steps ih =>
    intro before rest hbs hsteps
    rcases hfree : rest.filter (·.free) with _ | ⟨y, others⟩
    · refine .inl ⟨by simp [heapTail, freeAddrs, hfree, headCell], fun z hz hzf => ?_⟩
      exact absurd (mem_filter.mpr ⟨hz, hzf⟩) (by rw [hfree]; exact not_mem_nil)
    obtain ⟨used, rest', rfl, hnone, hy, hrest⟩ := first_free hfree
    have hbs' : bs = (before ++ used) ++ y :: rest' := by rw [hbs, append_assoc]
    have hr' := hbs' ▸ hr
    have hmem : y ∈ before ++ used ++ y :: rest' := by simp
    have hbound := (hr'.bounds hmem).2
    have hspan := hr.brk_lt
    have hend : arch.add y.addr y.size = y.addr + y.size := add_eq (by omega)
    have hlast : freeAddrs (before ++ used) = freeAddrs before := by
      rw [freeAddrs_append, hnone, append_nil]
    rw [headCell_first hnone hy, heapTail, if_neg (hr'.addr_pos hmem).ne', hr'.addrSane hmem,
      hr'.isFree hmem, hy, if_neg (by decide), hr'.sizeSane hmem, if_neg (by decide),
      hr'.sizeMask hmem, hend, (hr'.next_free hy).2]
    by_cases hbrk : y.addr + y.size = h.brk
    · rw [if_pos hbrk, ← hlast]
      exact .inr ⟨_, y, rest', hbs', hy, hbrk, rfl⟩
    rw [if_neg hbrk, ← lastCell_concat (before ++ used) hy]
    have hsteps' : (rest'.filter (·.free)).length ≤ steps := by
      rw [hfree, length_cons, ← hrest] at hsteps
      omega
    rcases ih (by rw [hbs', append_assoc _ [y]]; rfl) hsteps' with ⟨hres, hnot⟩ | hfound
    · refine .inl ⟨hres, fun z hz hzf => ?_⟩
      rcases mem_append.mp hz with hz | hz
      · exact absurd (mem_freeAddrs.mpr ⟨z, hz, hzf, rfl⟩) (by rw [hnone]; exact not_mem_nil)
      · rcases mem_cons.mp hz with rfl | hz
        · exact hbrk
        · exact hnot z hz hzf
    · exact .inr hfound

/-- Dropping the free block at the break. -/
theorem retract_represents (hr : h.Represents arch (pre ++ [x])) (hx : x.free = true) :
    ({ h with brk := x.addr }.link arch (lastCell (freeAddrs pre))
      (h.next arch x.addr)).Represents arch pre := by
  have hmem : x ∈ pre ++ [x] := by simp
  have hbound := (hr.bounds hmem).2
  have hspan := hr.brk_lt
  have hin {y : Block} (hy : y ∈ pre) : y ∈ pre ++ [] := mem_append_left _ hy
  have hnull : h.next arch x.addr = 0 := (hr.next_free hx).2
  have hseg : Segment (h.next arch) h.freeList (freeAddrs pre) x.addr := (hr.chain_around hx).1
  rw [hnull]
  refine
    { tiles := by rw [link_brk]; exact (tiles_around.mp hr.tiles).1
      sized := fun y hy => hr.sized y (mem_append_left _ hy)
      word := fun y hy => (size_link fun a ha => (hr.link_apart (hin hy) ha).1).trans
        (hr.word y (mem_append_left _ hy))
      magic := fun y hy hused => (next_link fun a ha => (hr.link_apart (hin hy) ha).2 hused).trans
        (hr.magic y (mem_append_left _ hy) hused)
      chain := link_segment hseg hr.front_apart (by omega)
      mapped := by
        rw [link_brk, link_mappedEnd]
        have := hr.mapped
        show x.addr ≤ h.mappedEnd
        omega
      inside := by
        rw [link_brk]
        have := hr.inside
        show x.addr ≤ arch.heapEnd
        omega
      paged := by rw [link_mappedEnd]; exact hr.paged }

/-- A free block that ends at the break is the last block. -/
theorem HeapState.Represents.last_of_brk (hr : h.Represents arch (pre ++ x :: post))
    (hend : x.addr + x.size = h.brk) : post = [] := by
  cases post with
  | nil => rfl
  | cons y rest =>
    have hy : y ∈ pre ++ x :: y :: rest := by simp
    have := hr.next_addr
    have := (hr.bounds hy).2
    have := hr.size_ge hy
    omega

theorem heapTail_none (hr : h.Represents arch bs) (hlast : ∀ x ∈ bs.getLast?, x.free = false) :
    heapTail arch h heapMaxWalk 0 h.freeList = none := by
  have hfinds := @heapTail_finds arch h bs hr heapMaxWalk [] bs rfl hr.length_le
  rw [← hr.chain.head_eq] at hfinds
  rcases hfinds with ⟨hnone, _⟩ | ⟨pre, z, post, rfl, hz, hend, _⟩
  · exact hnone
  · obtain rfl := hr.last_of_brk hend
    have := hlast z (by simp)
    rw [hz] at this
    cases this

theorem heapTail_last (hr : h.Represents arch (pre ++ [x])) (hx : x.free = true) :
    heapTail arch h heapMaxWalk 0 h.freeList = some (x.addr, lastCell (freeAddrs pre)) := by
  have hfinds := @heapTail_finds arch h _ hr heapMaxWalk [] (pre ++ [x]) rfl hr.length_le
  rw [← hr.chain.head_eq] at hfinds
  rcases hfinds with ⟨_, hnot⟩ | ⟨pre', z, post, hbs, hz, hend, hsome⟩
  · have hend : x.addr + x.size = h.brk := (tiles_around.mp hr.tiles).2
    exact absurd hend (hnot x (by simp) hx)
  · obtain rfl := (hbs ▸ hr).last_of_brk hend
    obtain ⟨rfl, hxz⟩ := append_inj' hbs rfl
    obtain rfl := singleton_inj.mp hxz
    exact hsome

/-- The first loop of `heap_shrink` settles a heap without neighbouring free blocks:
one round drops the last block if it is free, and the block before it is used. -/
theorem heapRetract_settles {n : Nat} (hr : h.Represents arch bs) (halt : Alternates bs) :
    ∃ bs', (heapRetract arch (n + 2) h).Represents arch bs' ∧ Settled bs' ∧
      usedPtrs arch bs' = usedPtrs arch bs := by
  by_cases hlast : ∀ x ∈ bs.getLast?, x.free = false
  · refine ⟨bs, ?_, ⟨halt, hlast⟩, rfl⟩
    rw [heapRetract, heapTail_none hr hlast]
    exact hr
  push Not at hlast
  obtain ⟨x, hx, hfree⟩ := hlast
  rw [ne_eq, Bool.not_eq_false] at hfree
  obtain ⟨pre, rfl⟩ := List.getLast?_eq_some_iff.mp hx
  obtain ⟨hpre, _, hseam⟩ := isChain_append.mp halt
  have hlast' : ∀ y ∈ pre.getLast?, y.free = false := fun y hy => by
    have := hseam y hy x rfl
    simpa [hfree] using this
  have hr' := retract_represents hr hfree
  refine ⟨pre, ?_, ⟨hpre, hlast'⟩, ?_⟩
  · rw [heapRetract, heapTail_last hr hfree]
    dsimp only
    rw [heapRetract, heapTail_none hr' hlast']
    exact hr'
  · rw [usedPtrs_append, usedPtrs_cons_free hfree]
    exact (append_nil _).symm

/-- Giving pages back leaves the heap below the break alone. -/
theorem heapUnmapLoop_represents {keep n : Nat} (hr : h.Represents arch bs) (hkeep : h.brk ≤ keep)
    (hpaged : pageSize ∣ keep) : (heapUnmapLoop keep n h).Represents arch bs := by
  induction n generalizing h with
  | zero => exact hr
  | succ n ih =>
    rw [heapUnmapLoop]
    split
    · rename_i hmore
      refine ih ?_ hkeep
      refine hr.of_headers rfl rfl ?_ ?_ fun y _ => ?_
      · -- both ends are page boundaries, so a whole page lies between them
        have hstep : keep + pageSize ≤ h.mappedEnd := by
          obtain ⟨k, rfl⟩ := hpaged
          obtain ⟨m, hm⟩ := hr.paged
          rw [hm] at hmore ⊢
          have : k + 1 ≤ m := Nat.lt_of_mul_lt_mul_left hmore
          calc pageSize * k + pageSize = pageSize * (k + 1) := by ring
            _ ≤ pageSize * m := Nat.mul_le_mul_left _ this
        show h.brk ≤ h.mappedEnd - pageSize
        omega
      · exact Nat.dvd_sub hr.paged dvd_rfl
      · simp only [HeapState.size, HeapState.next, and_self]
    · exact hr

theorem heapShrink_settles (hr : h.Represents arch bs) (halt : Alternates bs) :
    ∃ bs', (heapShrink arch h).Represents arch bs' ∧ Settled bs' ∧
      usedPtrs arch bs' = usedPtrs arch bs := by
  obtain ⟨n, hn⟩ : ∃ n, h.brk + 1 = n + 2 := by
    have := heapStart_pos arch
    have := hr.tiles.le
    exact ⟨h.brk - 1, by omega⟩
  obtain ⟨bs', hr', hs', hused⟩ := @heapRetract_settles arch h bs n hr halt
  refine ⟨bs', ?_, hs', hused⟩
  rw [heapShrink, hn]
  have hround : (heapRetract arch (n + 2) h).brk ≤
      ((heapRetract arch (n + 2) h).brk + pageSize - 1) / pageSize * pageSize := by
    simp only [pageSize]
    omega
  split
  · exact heapUnmapLoop_represents hr' (by omega)
      (Nat.dvd_add (pageSize_dvd_start arch) (Nat.dvd_mul_left _ _))
  · exact heapUnmapLoop_represents hr' hround (Nat.dvd_mul_left _ _)

/-! ## `kfree` -/

/-- Free blocks do not meet around a block whose neighbours are used. -/
theorem alternate_around (hpre : Alternates pre) (hpost : Alternates post)
    (hlast : ∀ y ∈ pre.getLast?, y.free = false) (hhead : ∀ y ∈ post.head?, y.free = false) :
    Alternates (pre ++ x :: post) := by
  refine isChain_append.mpr ⟨hpre, ?_, fun y hy _ _ => by simp [hlast y hy]⟩
  exact isChain_cons.mpr ⟨fun y hy => by simp [hhead y hy], hpost⟩

section

variable (hr : h.Represents arch (pre ++ x :: post))
include hr

/-- The merge with the block behind, whether or not that is free. -/
theorem coalesce_behind (hx : x.free = true) (halt : Alternates post) :
    ∃ size rest,
      (heapCoalesce arch h x.addr).Represents arch (pre ++ ⟨x.addr, size, true⟩ :: rest) ∧
      Alternates rest ∧
      (∀ y ∈ rest.head?, y.free = false) ∧ usedPtrs arch rest = usedPtrs arch post := by
  have hsame : x = ⟨x.addr, x.size, true⟩ := by rw [← hx]
  cases post with
  | nil =>
    have hused : ∀ y ∈ ([] : List Block).head?, y.free = false := nofun
    refine ⟨x.size, [], ?_, halt, hused, rfl⟩
    rw [heapCoalesce_stays hr hx hused, ← hsame]
    exact hr
  | cons y rest =>
    cases hy : y.free with
    | true =>
      obtain ⟨hhead, hrest⟩ := isChain_cons.mp halt
      refine ⟨x.size + y.size, rest, heapCoalesce_merges hr hx hy, hrest, fun z hz => ?_, ?_⟩
      · simpa [hy] using hhead z hz
      · rw [usedPtrs_cons_free hy]
    | false =>
      have hused : ∀ z ∈ (y :: rest).head?, z.free = false := fun z hz => Option.some.inj hz ▸ hy
      refine ⟨x.size, y :: rest, ?_, halt, hused, rfl⟩
      rw [heapCoalesce_stays hr hx hused, ← hsame]
      exact hr

/-- The merge with the block in front: `kfree` makes it exactly when that block is free,
because the last free block before it ends earlier otherwise. -/
theorem coalesce_front (hx : x.free = true) (hpre : Alternates pre) (hpost : Alternates post)
    (hhead : ∀ y ∈ post.head?, y.free = false) :
    ∃ bs, (if lastCell (freeAddrs pre) ≠ 0 ∧ arch.add (lastCell (freeAddrs pre))
          (heapSizeMask (h.size arch (lastCell (freeAddrs pre)))) = x.addr then
        heapCoalesce arch h (lastCell (freeAddrs pre)) else h).Represents arch bs ∧
      Alternates bs ∧
      usedPtrs arch bs = usedPtrs arch (pre ++ post) := by
  have hspan := hr.brk_lt
  by_cases hlast : ∀ y ∈ pre.getLast?, y.free = false
  · refine ⟨pre ++ x :: post, ?_, alternate_around hpre hpost hlast hhead, ?_⟩
    · rw [if_neg]
      · exact hr
      rintro ⟨hne, hsum⟩
      -- the last free block in front lies before the used block next to `x`
      obtain ⟨y, hy, hyf, hyaddr⟩ := mem_freeAddrs.mp (lastCell_mem hne)
      have hymem : y ∈ pre ++ x :: post := mem_append_left _ hy
      have hbound := (hr.bounds hymem).2
      rw [← hyaddr, hr.sizeMask hymem, add_eq (by omega)] at hsum
      rcases eq_nil_or_concat' pre with rfl | ⟨front, w, rfl⟩
      · cases hy
      have hw := hlast w (by simp)
      rcases mem_append.mp hy with hy | hy
      · have hr' : h.Represents arch (front ++ w :: x :: post) := by simpa using hr
        have := hr'.before hy
        have := hr'.next_addr
        have := hr'.size_ge (by simp : w ∈ front ++ w :: x :: post)
        omega
      · obtain rfl := mem_singleton.mp hy
        rw [hw] at hyf
        cases hyf
    · rw [usedPtrs_append, usedPtrs_append, usedPtrs_cons_free hx]
  · push Not at hlast
    obtain ⟨w, hw, hwf⟩ := hlast
    rw [ne_eq, Bool.not_eq_false] at hwf
    obtain ⟨front, rfl⟩ := List.getLast?_eq_some_iff.mp hw
    have hr' : h.Represents arch (front ++ w :: x :: post) := by simpa using hr
    have hmem : w ∈ front ++ w :: x :: post := by simp
    have hbound := (hr'.bounds hmem).2
    obtain ⟨hfront, _, hseam⟩ := isChain_append.mp hpre
    have hfrontLast : ∀ y ∈ front.getLast?, y.free = false := fun y hy => by
      simpa [hwf] using hseam y hy w rfl
    refine ⟨front ++ ⟨w.addr, w.size + x.size, true⟩ :: post, ?_,
      alternate_around hfront hpost hfrontLast hhead, ?_⟩
    · rw [lastCell_concat _ hwf, if_pos]
      · exact heapCoalesce_merges hr' hwf hx
      · rw [hr'.sizeMask hmem, add_eq (by omega), hr'.next_addr]
        exact ⟨(hr'.addr_pos hmem).ne', rfl⟩
    · simp only [usedPtrs_append, usedPtrs_cons_free hwf, usedPtrs_cons_free (rfl :
        (⟨w.addr, w.size + x.size, true⟩ : Block).free = true)]
      simp [usedPtrs]

theorem heapRelease_settles (hx : x.free = false) (hs : Settled (pre ++ x :: post)) :
    ∃ bs, (heapRelease arch h x.addr x.size (lastCell (freeAddrs pre))
        (headCell (freeAddrs post))).Represents arch bs ∧ Settled bs ∧
      usedPtrs arch bs = usedPtrs arch (pre ++ post) := by
  obtain ⟨hpre, hrest, _⟩ := isChain_append.mp hs.alternate
  have hpost := (isChain_cons.mp hrest).2
  obtain ⟨size, rest, hr₁, halt₁, hhead₁, hused₁⟩ :=
    coalesce_behind (heapFree_represents hr hx) rfl hpost
  obtain ⟨bs₂, hr₂, halt₂, hused₂⟩ := coalesce_front hr₁ rfl hpre halt₁ hhead₁
  obtain ⟨bs₃, hr₃, hs₃, hused₃⟩ := heapShrink_settles hr₂ halt₂
  refine ⟨bs₃, hr₃, hs₃, ?_⟩
  rw [hused₃, hused₂, usedPtrs_append, usedPtrs_append, hused₁]

/-- Every check of `kfree` accepts a used block, and the walk finds its place. -/
theorem kfree_eq_release (hused : x.free = false) :
    kfree arch h (x.addr + arch.heapHeaderSize) = heapRelease arch h x.addr x.size
      (lastCell (freeAddrs pre)) (headCell (freeAddrs post)) := by
  have hx : x ∈ pre ++ x :: post := by simp
  have hbounds := hr.bounds hx
  have hsize := hr.size_ge hx
  have hspan := hr.brk_lt
  have hhead := heapHeaderSize_le arch
  have hpos := heapStart_pos arch
  have hsub : arch.sub (x.addr + arch.heapHeaderSize) arch.heapHeaderSize = x.addr := by
    rw [sub_eq (by omega) (by omega)]
    omega
  have halign : (x.addr + arch.heapHeaderSize) % arch.heapBlockAlign =
      arch.heapHeaderSize % arch.heapBlockAlign := by
    rw [Nat.add_mod, Nat.mod_eq_zero_of_dvd (hr.dvd_addr hx), Nat.zero_add, Nat.mod_mod]
  have hmagic := hr.magic x hx hused
  have hwalk := @kfreeWalk_between arch h pre post x hr hused heapMaxWalk [] pre rfl (by
    have := hr.length_le
    rw [filter_append, length_append] at this
    omega)
  rw [show lastCell (freeAddrs []) = 0 from rfl, ← hr.chain.head_eq] at hwalk
  rw [kfree, if_neg (by omega), if_neg (by simp only [halign]; omega)]
  dsimp only
  rw [hsub, hr.addrSane hx, if_neg (by decide), hr.isFree hx, hused, hmagic,
    if_neg (by simp), hr.sizeSane hx, if_neg (by decide), hwalk, hr.sizeMask hx]

end

/-- `kfree` of a used block of a represented heap. -/
theorem kfree_represents (hr : h.Represents arch bs) (hs : Settled bs) (hx : x ∈ bs)
    (hused : x.free = false) :
    ∃ bs', (kfree arch h (x.addr + arch.heapHeaderSize)).Represents arch bs' ∧ Settled bs' ∧
      (usedPtrs arch bs).Perm ((x.addr + arch.heapHeaderSize) :: usedPtrs arch bs') := by
  obtain ⟨pre, post, rfl⟩ := append_of_mem hx
  obtain ⟨bs', hr', hs', hptrs⟩ := heapRelease_settles hr hused hs
  refine ⟨bs', kfree_eq_release hr hused ▸ hr', hs', ?_⟩
  rw [hptrs, usedPtrs_append, usedPtrs_append, usedPtrs_cons_used hused]
  exact perm_middle

end ArcKernel.Heap
