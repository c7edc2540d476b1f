import ArcKernel.Pmm.Init

/-!
# The page allocator from boot on

After `pmm_init` the free pages are those that lie whole inside an available entry of
the memory map and touch neither the kernel image nor the bitmap, a module or the boot
information, and `free_pages` is their number.  Allocating and freeing keep the count,
and no page is handed out twice.

Three things can spoil it.  Sizes and addresses that do not fit the page numbers are
truncated.  The pages below the kernel image are reserved with it.  And the size of the
bitmap is rounded down to whole bytes before it is rounded up to pages: with one to seven
pages more than a multiple of 32768, the last bits lie behind the bitmap, in memory that
`pmm_init` neither sets nor reserves.
-/

namespace ArcKernel.Pmm

open ArcKernel.Foundation ArcKernel.Heap List Function PmmState

/-! ## The property -/

/-- Some byte of the page lies in `[lo, hi)`. -/
def Touches (lo hi j : Nat) : Prop := ∃ a, j * 4096 ≤ a ∧ a < (j + 1) * 4096 ∧ lo ≤ a ∧ a < hi

/-- What makes a page free. -/
structure BootInfo.MayUse (arch : X86) (b : BootInfo) (kernelStart j : Nat) : Prop where
  inside : ∃ e ∈ b.available, e.addr.toNat ≤ j * 4096 ∧ (j + 1) * 4096 ≤ e.addr.toNat + e.len.toNat
  kernel : ¬ Touches kernelStart b.kernelEnd j
  bitmap : ¬ Touches ((pmmLayout arch b).bstart * 4096)
    ((pmmLayout arch b).bstart * 4096 + (pmmLayout arch b).bitmapPages * 4096) j
  modules : ∀ m ∈ b.modules, ¬ Touches m.1.toNat m.2.toNat j
  info : ¬ Touches b.addr (b.addr + b.totalSize.toNat) j

structure InitCorrect (arch : X86) (b : BootInfo) (kernelStart : Nat) (p : PmmState) : Prop where
  free : ∀ j < p.totalPages, p.bitmapTest j = false ↔ b.MayUse arch kernelStart j
  count : p.freePages.toNat = p.free.card

/-- The count is right, and no page is handed out twice or while it is free. -/
structure PmmSys.Consistent (s : PmmSys) : Prop where
  count : s.pmm.freePages.toNat = s.pmm.free.card
  distinct : s.out.Nodup
  taken : ∀ j ∈ s.out, j < s.pmm.totalPages ∧ s.pmm.bitmapTest j = true

/-! ## The conditions -/

/-- One past the largest address whose page number and pointer are exact. -/
def addrSpan (arch : X86) : Nat := min (2 ^ 44) arch.wordSpan

/-- No address is truncated, and no module and no boot information is empty. -/
structure BootInfo.Fits (arch : X86) (b : BootInfo) (kernelStart : Nat) : Prop where
  entries : ∀ e ∈ b.available, e.addr.toNat + e.len.toNat + 4095 < addrSpan arch
  modules : ∀ m ∈ b.modules, m.1.toNat < m.2.toNat ∧ m.2.toNat + 4095 < 2 ^ 32
  kernel : kernelStart < b.kernelEnd ∧ b.kernelEnd + 4095 < addrSpan arch
  info : 0 < b.totalSize.toNat ∧ b.addr + b.totalSize.toNat + 4095 < addrSpan arch

/-- No page below the kernel image may be used. -/
def BootInfo.NothingBelow (arch : X86) (b : BootInfo) (kernelStart : Nat) : Prop :=
  ∀ j < (pmmLayout arch b).totalPages, (j + 1) * 4096 ≤ kernelStart → ¬ b.MayUse arch kernelStart j

variable {arch : X86} {b : BootInfo} {kernelStart i j addr : Nat} {p p' : PmmState} {s t : PmmSys}
    {count : UInt32}

/-! ## Page numbers -/

theorem touches_iff {lo hi : Nat} (h : lo < hi) :
    Touches lo hi j ↔ lo / 4096 ≤ j ∧ j < (hi + 4095) / 4096 := by
  constructor
  · rintro ⟨a, hlo, hhi, hal, hah⟩
    omega
  · rintro ⟨hlo, hhi⟩
    exact ⟨max lo (j * 4096), by omega, by omega, by omega, by omega⟩

theorem addrSpan_le (arch : X86) : addrSpan arch ≤ 2 ^ 44 ∧ addrSpan arch ≤ arch.wordSpan :=
  ⟨min_le_left _ _, min_le_right _ _⟩

section

variable {e : MmapEntry} (h : e.addr.toNat + e.len.toNat + 4095 < 2 ^ 44)
include h

theorem startPage_eq : e.startPage = (e.addr.toNat + 4095) / 4096 := by
  rw [MmapEntry.startPage, UInt64.toNat_toUInt32, UInt64.toNat_div, UInt64.toNat_add]
  simp only [UInt64.reduceToNat]
  omega

theorem endPage_eq : e.endPage = (e.addr.toNat + e.len.toNat) / 4096 := by
  rw [MmapEntry.endPage, UInt64.toNat_toUInt32, UInt64.toNat_div, MmapEntry.top, UInt64.toNat_add]
  simp only [UInt64.reduceToNat]
  omega

end

theorem modPages_eq {m : UInt32 × UInt32} (h : m.2.toNat + 4095 < 2 ^ 32) :
    modStartPage m = m.1.toNat / 4096 ∧ modEndPage m = (m.2.toNat + 4095) / 4096 := by
  constructor
  · rw [modStartPage, UInt32.toNat_div]
    rfl
  · rw [modEndPage, UInt32.toNat_div, UInt32.toNat_add]
    simp only [UInt32.reduceToNat]
    omega

theorem pageAfter_eq {a : Nat} (h : a + 4095 < arch.wordSpan) :
    pageAfter arch a = (a + 4095) / 4096 := by
  rw [pageAfter, Nat.mod_eq_of_lt h]

theorem bitmapPages_pos (arch : X86) (b : BootInfo) : 0 < (pmmLayout arch b).bitmapPages := by
  unfold pmmLayout
  dsimp only
  split
  all_goals exact bitmapPagesFor_pos _

/-- The loops list exactly the pages inside an available entry. -/
theorem listed_iff (hfits : b.Fits arch kernelStart) :
    b.Listed j ↔ ∃ e ∈ b.available, e.addr.toNat ≤ j * 4096 ∧
      (j + 1) * 4096 ≤ e.addr.toNat + e.len.toNat := by
  refine exists_congr fun e => and_congr_right fun he => ?_
  have hspan := (hfits.entries e he).trans_le (addrSpan_le arch).1
  rw [startPage_eq hspan, endPage_eq hspan]
  omega

/-- The loops reserve the pages that are touched, and those below the kernel image. -/
theorem reserved_iff (hfits : b.Fits arch kernelStart) :
    b.Reserved arch j ↔ (j + 1) * 4096 ≤ kernelStart ∨ Touches kernelStart b.kernelEnd j ∨
      Touches ((pmmLayout arch b).bstart * 4096)
        ((pmmLayout arch b).bstart * 4096 + (pmmLayout arch b).bitmapPages * 4096) j ∨
      (∃ m ∈ b.modules, Touches m.1.toNat m.2.toNat j) ∨
      Touches b.addr (b.addr + b.totalSize.toNat) j := by
  obtain ⟨hlow, hhigh⟩ := addrSpan_le arch
  have hkernel : j < b.kernelEndPage arch ↔
      (j + 1) * 4096 ≤ kernelStart ∨ Touches kernelStart b.kernelEnd j := by
    rw [touches_iff hfits.kernel.1, BootInfo.kernelEndPage,
      pageAfter_eq (hfits.kernel.2.trans_le hhigh),
      Nat.mod_eq_of_lt (by have := hfits.kernel.2; omega)]
    have := hfits.kernel.1
    omega
  have hbitmap := bitmapPages_pos arch b
  have hmodules : (∃ m ∈ b.modules, modStartPage m ≤ j ∧ j < modEndPage m) ↔
      ∃ m ∈ b.modules, Touches m.1.toNat m.2.toNat j := by
    refine exists_congr fun m => and_congr_right fun hm => ?_
    obtain ⟨hstart, hend⟩ := modPages_eq (hfits.modules m hm).2
    rw [touches_iff (hfits.modules m hm).1, hstart, hend]
  have hinfo : (b.mbootStartPage ≤ j ∧ j < b.mbootEndPage arch) ↔
      Touches b.addr (b.addr + b.totalSize.toNat) j := by
    have := hfits.info.1
    rw [touches_iff (by omega), BootInfo.mbootStartPage, BootInfo.mbootEndPage,
      pageAfter_eq (hfits.info.2.trans_le hhigh)]
  rw [BootInfo.Reserved, hkernel, hmodules, hinfo, touches_iff (by omega : _ * 4096 < _), or_assoc]
  refine or_congr_right (or_congr_right (or_congr_left ?_))
  omega

/-! ## The number of tracked pages -/

theorem memEnd_lt {bound : Nat} (es : List MmapEntry)
    (hes : ∀ e ∈ es, e.top.toNat < bound) (start : UInt64) (hstart : start.toNat < bound) :
    (es.foldl (fun memEnd e => if e.top > memEnd then e.top else memEnd) start).toNat < bound := by
  induction es generalizing start with
  | nil => exact hstart
  | cons e es ih =>
    rw [foldl_cons]
    refine ih (fun e' he' => hes e' (mem_cons_of_mem _ he')) _ ?_
    split
    · exact hes e mem_cons_self
    · exact hstart

theorem totalPages_lt (arch : X86) (b : BootInfo) : (pmmLayout arch b).totalPages < 2 ^ 32 := by
  unfold pmmLayout
  dsimp only
  split
  · exact Nat.mod_lt _ (by decide)
  · exact UInt32.toNat_lt _

/-- The addresses of the tracked pages are exact. -/
theorem totalPages_le (hfits : b.Fits arch kernelStart) :
    (pmmLayout arch b).totalPages * 4096 ≤ arch.wordSpan := by
  obtain ⟨hlow, hhigh⟩ := addrSpan_le arch
  have hword : 2 ^ 32 ≤ arch.wordSpan := by cases arch <;> decide
  unfold pmmLayout
  dsimp only
  split
  · have := maxRun_le (bootstrapBitmap arch b)
    unfold bootstrapPages at this
    dsimp only
    omega
  have hend : b.memEnd.toNat < addrSpan arch := by
    refine memEnd_lt _ (fun e he => ?_) 0 (by cases arch <;> decide)
    have := hfits.entries e he
    rw [MmapEntry.top, UInt64.toNat_add]
    omega
  rw [UInt64.toNat_toUInt32, UInt64.toNat_div]
  simp only [UInt64.reduceToNat]
  omega

theorem pageAddr_eq (hfits : b.Fits arch kernelStart) (hj : j < (pmmLayout arch b).totalPages) :
    pageAddr arch j = j * 4096 := by
  have := totalPages_le hfits
  exact Nat.mod_eq_of_lt (by omega)

/-! ## After `pmm_init` -/

theorem PmmState.card_free_le (p : PmmState) : p.free.card ≤ p.totalPages := by
  refine (Finset.card_filter_le _ _).trans ?_
  rw [Finset.card_range]

theorem PmmState.Owes.toNat (h : p.Owes 0) (htotal : p.totalPages < 2 ^ 32) :
    p.freePages.toNat = p.free.card := by
  have hcard := p.card_free_le
  have hfree : p.freePages = UInt32.ofNat p.free.card := by
    have : p.freePages + 0 = UInt32.ofNat p.free.card := h
    rwa [UInt32.add_zero] at this
  rw [hfree, UInt32.toNat_ofNat']
  exact Nat.mod_eq_of_lt (by omega)

theorem pmmInit_correct (hfits : b.Fits arch kernelStart) (hcover : (pmmLayout arch b).Covers)
    (hbelow : b.NothingBelow arch kernelStart) (mem : ByteMem) :
    InitCorrect arch b kernelStart (pmmInit arch b mem) := by
  refine ⟨fun j hj => ?_, ?_⟩
  · rw [pmmInit_total] at hj
    have hfree := pmmInit_free_iff arch b mem j
    rw [mem_free, pmmInit_total, allUsed_test mem hcover hj, listed_iff hfits,
      reserved_iff hfits] at hfree
    simp only [hj, true_and, Bool.true_eq_false, or_false, not_or, not_exists, not_and] at hfree
    rw [hfree]
    constructor
    · rintro ⟨hin, -, hkernel, hbitmap, hmodules, hinfo⟩
      exact ⟨hin, hkernel, hbitmap, hmodules, hinfo⟩
    · intro huse
      exact ⟨huse.inside, fun hlow => hbelow j hj hlow huse, huse.kernel, huse.bitmap,
        huse.modules, huse.info⟩
  · have howes := pmmInit_owes arch b mem
    rw [allUsed_free mem hcover, Finset.card_empty] at howes
    exact howes.toNat (by rw [pmmInit_total]; exact totalPages_lt arch b)

/-- Bits behind the bitmap are counted wrongly when they start out clear. -/
theorem covers_of_correct
    (hcorrect :
      (pmmInit arch b fun _ => 0).freePages.toNat = (pmmInit arch b fun _ => 0).free.card) :
    (pmmLayout arch b).Covers := by
  by_contra hshort
  have howes := pmmInit_owes arch b fun _ => 0
  have hpos : 0 < (allUsed arch b fun _ => 0).free.card :=
    Finset.card_pos.mpr ⟨_, allUsed_misses hshort⟩
  have hle : (allUsed arch b fun _ => 0).free.card ≤ (pmmLayout arch b).totalPages := card_free_le _
  have htotal := totalPages_lt arch b
  -- the count and the number of clear bits differ by the bits that were missed
  have hmod :
    (pmmInit arch b fun _ => 0).freePages + UInt32.ofNat (allUsed arch b fun _ => 0).free.card =
      (pmmInit arch b fun _ => 0).freePages := by
    rw [howes, ← hcorrect, UInt32.ofNat_toNat]
  have hzero : UInt32.ofNat (allUsed arch b fun _ => 0).free.card = 0 := by grind
  have := congrArg UInt32.toNat hzero
  rw [UInt32.toNat_ofNat', Nat.mod_eq_of_lt (by omega), UInt32.toNat_zero] at this
  omega

theorem nothingBelow_of_correct (hfits : b.Fits arch kernelStart)
    (hcorrect : InitCorrect arch b kernelStart (pmmInit arch b fun _ => 0)) :
    b.NothingBelow arch kernelStart := by
  intro j hj hlow huse
  have hbit := (hcorrect.free j (by rwa [pmmInit_total])).mpr huse
  have hmem : j ∈ (pmmInit arch b fun _ => 0).free := mem_free.mpr ⟨by rwa [pmmInit_total], hbit⟩
  exact ((pmmInit_free_iff arch b _ j).mp hmem).2.2 ((reserved_iff hfits).mpr (.inl hlow))

/-! ## Allocation -/

/-- `pmm_alloc_page` finds nothing, or takes a free page. -/
theorem allocLoop_takes {n : Nat} :
    allocLoop arch n i p = (0, p) ∨ ∃ k, i ≤ k ∧ k < i + n ∧ p.bitmapTest k = false ∧
      allocLoop arch n i p = (pageAddr arch k,
        { p.bitmapSet k with freePages := p.freePages - 1 }) := by
  induction n generalizing i with
  | zero => exact .inl rfl
  | succ n ih =>
    unfold allocLoop
    split
    · rename_i hfree
      have hset : (p.bitmapSet i).bitmapTest i = true := by simp [test_bitmapSet]
      refine .inr ⟨i, le_rfl, by omega, by simpa using hfree, ?_⟩
      dsimp only
      rw [hset]
      rfl
    · rcases ih (i := i + 1) with hnone | ⟨k, hlo, hhi, hbit, heq⟩
      · exact .inl hnone
      · exact .inr ⟨k, by omega, by omega, hbit, heq⟩

/-- Taking free pages one after the other reserves them. -/
theorem foldl_takes {l : List Nat} (hl : l.Nodup) (hfree : ∀ k ∈ l, p.bitmapTest k = false) :
    l.foldl (fun p k => { p.bitmapSet k with freePages := p.freePages - 1 }) p =
      l.foldl reserveOne p := by
  induction l generalizing p with
  | nil => rfl
  | cons k l ih =>
    obtain ⟨hk, hl⟩ := nodup_cons.mp hl
    have hone : p.reserveOne k = { p.bitmapSet k with freePages := p.freePages - 1 } := by
      rw [reserveOne, hfree k mem_cons_self]
      rfl
    rw [foldl_cons, foldl_cons, hone]
    refine ih hl fun j hj => ?_
    have hne : j ≠ k := fun h => hk (h ▸ hj)
    refine (test_bitmapSet p k j).trans ?_
    rw [hfree j (mem_cons_of_mem _ hj)]
    simp [hne]

/-- `pmm_alloc_pages` finds nothing, or takes a run of free pages. -/
theorem pmmAllocPages_takes (count : UInt32) (hcount : p.freePages.toNat ≤ p.totalPages)
    (htotal : p.totalPages < 2 ^ 32) :
    pmmAllocPages arch p count = (0, p) ∨ ∃ i p', 0 < count.toNat ∧ i + count.toNat ≤ p.totalPages ∧
      (∀ j, i ≤ j ∧ j < i + count.toNat → p.bitmapTest j = false) ∧
      p.Marks true (fun j => i ≤ j ∧ j < i + count.toNat) p' ∧
      pmmAllocPages arch p count = (pageAddr arch i, p') := by
  unfold pmmAllocPages
  split
  · exact .inl rfl
  rename_i hask
  have hfew : count.toNat ≤ p.totalPages := by
    have hle : count ≤ p.freePages := UInt32.not_lt.mp fun h => hask (.inr h)
    exact (UInt32.le_iff_toNat_le.mp hle).trans hcount
  have hpos : 0 < count.toNat := Nat.pos_of_ne_zero fun h => hask (.inl (UInt32.toNat_inj.mp h))
  dsimp only
  split
  · exact .inl rfl
  rename_i i hfind
  have hlast : i + count.toNat ≤ p.totalPages := by
    have hmem := mem_range.mp (mem_of_find?_eq_some hfind)
    omega
  have hrun := List.find?_some hfind
  simp only [runFree, all_eq_true, mem_range, Bool.not_eq_true'] at hrun
  have hclear : ∀ j, i ≤ j ∧ j < i + count.toNat → p.bitmapTest j = false := fun j hj => by
    have := hrun (j - i) (by omega)
    rwa [Nat.add_sub_cancel' hj.1] at this
  refine .inr ⟨i, _, hpos, hlast, hclear, ?_, rfl⟩
  rw [forPages, foldl_takes nodup_range' fun k hk => hclear k (mem_pages.mp hk)]
  exact forPages_marks (fun _ _ h => reserveOne_marks h) hlast

/-! ## Runs -/

/-- The bitmap is in place and counted, the pages handed out are used and distinct, and
the pages of the bitmap are neither free nor handed out. -/
structure PmmSys.Inv (l : Layout) (s : PmmSys) : Prop where
  bitmap : s.pmm.bitmap = l.bstart * 4096
  total : s.pmm.totalPages = l.totalPages
  owes : s.pmm.Owes 0
  distinct : s.out.Nodup
  taken : ∀ j ∈ s.out, j < l.totalPages ∧ s.pmm.bitmapTest j = true
  own : ∀ j < l.totalPages, l.bstart ≤ j → j < l.bstart + l.bitmapPages →
    s.pmm.bitmapTest j = true ∧ j ∉ s.out

variable {l : Layout} {S : Nat → Prop} {out : List Nat}

theorem PmmSys.Inv.consistent (hi : s.Inv l) (hl : l.totalPages < 2 ^ 32) : s.Consistent where
  count := hi.owes.toNat (by rw [hi.total]; exact hl)
  distinct := hi.distinct
  taken j hj := by
    rw [hi.total]
    exact hi.taken j hj

theorem pmmInit_inv (b : BootInfo) (mem : ByteMem) (hcover : (pmmLayout arch b).Covers) :
    (⟨pmmInit arch b mem, []⟩ : PmmSys).Inv (pmmLayout arch b) where
  bitmap := pmmInit_bitmap arch b mem
  total := pmmInit_total arch b mem
  owes := by
    have howes := pmmInit_owes arch b mem
    rwa [allUsed_free mem hcover, Finset.card_empty] at howes
  distinct := nodup_nil
  taken j hj := nomatch hj
  own j hj hlo hhi := by
    refine ⟨?_, not_mem_nil⟩
    by_contra hbit
    have hmem : j ∈ (pmmInit arch b mem).free :=
      mem_free.mpr ⟨by rwa [pmmInit_total], by simpa using hbit⟩
    exact ((pmmInit_free_iff arch b mem j).mp hmem).2.2 (.inr (.inl ⟨hlo, hhi⟩))

section

variable (hi : s.Inv l)
include hi

/-- Free pages are taken, and some of them handed out. -/
theorem PmmSys.Inv.take (out : List Nat) (hm : s.pmm.Marks true S p')
    (hfree : ∀ j, S j → j < l.totalPages ∧ s.pmm.bitmapTest j = false) (hnew : out.Nodup)
    (hout : ∀ j ∈ out, S j) : (⟨p', out ++ s.out⟩ : PmmSys).Inv l where
  bitmap := hm.bitmap.trans hi.bitmap
  total := hm.total.trans hi.total
  owes := hm.owes 0 hi.owes
  distinct := by
    refine nodup_append.mpr ⟨hnew, hi.distinct, fun j hj k hk hjk => ?_⟩
    have hused := (hi.taken k hk).2
    rw [← hjk, (hfree j (hout j hj)).2] at hused
    cases hused
  taken j hj := by
    rcases mem_append.mp hj with hj | hj
    · exact ⟨(hfree j (hout j hj)).1, hm.inside j (hout j hj)⟩
    refine ⟨(hi.taken j hj).1, ?_⟩
    have hnot : ¬ S j := fun hS => by
      have hused := (hi.taken j hj).2
      rw [(hfree j hS).2] at hused
      cases hused
    rw [hm.outside j hnot]
    exact (hi.taken j hj).2
  own j hj hlo hhi := by
    obtain ⟨hused, hown⟩ := hi.own j hj hlo hhi
    have hnot : ¬ S j := fun hS => by
      rw [(hfree j hS).2] at hused
      cases hused
    refine ⟨(hm.outside j hnot).trans hused, fun hmem => ?_⟩
    rcases mem_append.mp hmem with hmem | hmem
    · exact hnot (hout j hmem)
    · exact hown hmem

/-- Pages that were handed out are given back. -/
theorem PmmSys.Inv.give (hm : s.pmm.Marks false S p') (hS : ∀ j, S j → j ∈ s.out)
    (hsub : out.Sublist s.out) (hout : ∀ j ∈ out, ¬ S j) : (⟨p', out⟩ : PmmSys).Inv l where
  bitmap := hm.bitmap.trans hi.bitmap
  total := hm.total.trans hi.total
  owes := hm.owes 0 hi.owes
  distinct := hi.distinct.sublist hsub
  taken j hj := ⟨(hi.taken j (hsub.subset hj)).1,
    (hm.outside j (hout j hj)).trans (hi.taken j (hsub.subset hj)).2⟩
  own j hj hlo hhi := by
    obtain ⟨hused, hown⟩ := hi.own j hj hlo hhi
    exact ⟨(hm.outside j fun h => hown (hS j h)).trans hused, fun h => hown (hsub.subset h)⟩

theorem allocPage_inv (haddr : ∀ k < l.totalPages, pageAddr arch k = k * 4096)
    (hstep : pmmStep arch s .allocPage = some t) : t.Inv l := by
  simp only [pmmStep] at hstep
  cases hstep
  have hnone : (⟨s.pmm, s.out⟩ : PmmSys).Inv l := hi
  unfold pmmAllocPage
  split
  · exact hnone
  rcases @allocLoop_takes arch 0 s.pmm s.pmm.totalPages with heq | ⟨k, -, hk, hbit, heq⟩
  · rw [heq]
    exact hnone
  rw [heq]
  rw [Nat.zero_add, hi.total] at hk
  have hm :
    s.pmm.Marks true (· = k) { s.pmm.bitmapSet k with freePages := s.pmm.freePages - 1 } := by
    have hone := reserveOne_marks (p := s.pmm) (i := k) (by rw [hi.total]; exact hk)
    rwa [reserveOne, hbit] at hone
  have hfree : ∀ j, j = k → j < l.totalPages ∧ s.pmm.bitmapTest j = false := by
    rintro j rfl
    exact ⟨hk, hbit⟩
  dsimp only
  rw [haddr k hk]
  split
  · exact hi.take [] hm hfree nodup_nil nofun
  · have hpage : k * 4096 / 4096 = k := Nat.mul_div_cancel _ (by decide)
    rw [hpage]
    exact hi.take [k] hm hfree (nodup_singleton k) fun j hj => mem_singleton.mp hj

theorem allocPages_inv (hl : l.totalPages < 2 ^ 32)
    (haddr : ∀ k < l.totalPages, pageAddr arch k = k * 4096)
    (hstep : pmmStep arch s (.allocPages count) = some t) : t.Inv l := by
  simp only [pmmStep] at hstep
  cases hstep
  have htotal := hi.total
  have hcount : s.pmm.freePages.toNat ≤ s.pmm.totalPages := by
    rw [hi.owes.toNat (by omega)]
    exact s.pmm.card_free_le
  rcases @pmmAllocPages_takes arch s.pmm count hcount (by omega) with
    heq | ⟨i, p', hpos, hlast, hclear, hm, heq⟩
  · rw [heq]
    exact hi
  rw [heq]
  have hfree : ∀ j, i ≤ j ∧ j < i + count.toNat →
      j < l.totalPages ∧ s.pmm.bitmapTest j = false := fun j hj => ⟨by omega, hclear j hj⟩
  dsimp only
  rw [haddr i (by omega)]
  split
  · exact hi.take [] hm hfree nodup_nil nofun
  · rw [Nat.mul_div_cancel _ (by decide)]
    exact hi.take _ hm hfree nodup_range' fun j hj => mem_range'_1.mp hj

theorem freePage_inv (hstep : pmmStep arch s (.freePage addr) = some t) : t.Inv l := by
  obtain ⟨hmem, rfl⟩ := of_guard hstep
  have hlt : addr / 4096 < s.pmm.totalPages := by
    rw [hi.total]
    exact (hi.taken _ hmem).1
  rw [pmmFreePage, if_pos hlt]
  refine hi.give (freeOne_marks hlt) ?_ erase_sublist fun j hj => ?_
  · rintro j rfl
    exact hmem
  · rintro rfl
    exact hi.distinct.not_mem_erase hj

theorem freePages_inv (hstep : pmmStep arch s (.freePages addr count) = some t) : t.Inv l := by
  obtain ⟨hmem, rfl⟩ := of_guard hstep
  have hm : s.pmm.Marks false (fun j => addr / 4096 ≤ j ∧ j < addr / 4096 + count.toNat)
      (pmmFreePages s.pmm addr count) := by
    rcases Nat.eq_zero_or_pos count.toNat with hzero | hpos
    · rw [pmmFreePages, forPages, hzero, Nat.add_zero, Nat.sub_self]
      exact (PmmState.Marks.nothing false s.pmm).congr fun j => ⟨False.elim, fun hj => by omega⟩
    · have hlast := (hi.taken _ (hmem (addr / 4096 + count.toNat - 1)
        (mem_range'_1.mpr (by omega)))).1
      refine forPages_marks (fun q i hq => ?_) (by rw [hi.total]; omega)
      rw [if_pos hq]
      exact freeOne_marks hq
  refine hi.give hm (fun j hj => hmem j (mem_range'_1.mpr hj)) filter_sublist fun j hj => ?_
  have := (mem_filter.mp hj).2
  rw [decide_eq_true_eq, mem_range'_1] at this
  exact this

end

/-- Owners do not reach the bitmap. -/
theorem write_inv {v : UInt8} (hcover : l.Covers) (hi : s.Inv l)
    (hstep : pmmStep arch s (.write addr v) = some t) : t.Inv l := by
  obtain ⟨hmem, rfl⟩ := of_guard hstep
  unfold Layout.Covers at hcover
  have hsame : ∀ j < l.totalPages,
      BitArray.test (update s.pmm.mem addr v) s.pmm.bitmap j = s.pmm.bitmapTest j := by
    intro j hj
    refine BitArray.test_congr (update_of_ne ?_ ..)
    rw [hi.bitmap]
    rintro rfl
    have hpage := (hi.taken _ hmem).1
    exact (hi.own _ hpage (by omega) (by omega)).2 hmem
  refine ⟨hi.bitmap, hi.total, ?_, hi.distinct, fun j hj => ?_, fun j hj hlo hhi => ?_⟩
  · have hfree : ({ s.pmm with mem := update s.pmm.mem addr v } : PmmState).free =
        s.pmm.free := BitArray.clears_congr fun j hj => hsame j (by rwa [hi.total] at hj)
    show s.pmm.freePages + _ = UInt32.ofNat (Finset.card _)
    rw [hfree]
    exact hi.owes
  · exact ⟨(hi.taken j hj).1, (hsame j (hi.taken j hj).1).trans (hi.taken j hj).2⟩
  · exact ⟨(hsame j hj).trans (hi.own j hj hlo hhi).1, (hi.own j hj hlo hhi).2⟩

theorem pmmStep_inv (hcover : l.Covers) (hl : l.totalPages < 2 ^ 32)
    (haddr : ∀ k < l.totalPages, pageAddr arch k = k * 4096) (s : PmmSys) (c : PmmCall) (t : PmmSys)
    (hi : s.Inv l) (hstep : pmmStep arch s c = some t) : t.Inv l := by
  cases c with
  | allocPage => exact allocPage_inv hi haddr hstep
  | allocPages count => exact allocPages_inv hi hl haddr hstep
  | freePage addr => exact freePage_inv hi hstep
  | freePages addr count => exact freePages_inv hi hstep
  | write addr v => exact write_inv hcover hi hstep

/-- **The page allocator accounts for every page.**  When no address is truncated, the free
pages after `pmm_init` are the usable ones and stay counted and disjoint over every run,
whatever the memory held before, exactly when the bitmap covers all tracked pages and no
usable page lies below the kernel image. -/
theorem pmm_accounts_iff (arch : X86) (b : BootInfo) (kernelStart : Nat)
    (fits : b.Fits arch kernelStart) :
    (∀ mem, InitCorrect arch b kernelStart (pmmInit arch b mem) ∧
      ∀ calls s, exec (pmmStep arch) ⟨pmmInit arch b mem, []⟩ calls = some s → s.Consistent) ↔
    (pmmLayout arch b).Covers ∧ b.NothingBelow arch kernelStart := by
  constructor
  · intro hall
    have hzero := (hall fun _ => 0).1
    exact ⟨covers_of_correct hzero.count, nothingBelow_of_correct fits hzero⟩
  · rintro ⟨hcover, hbelow⟩ mem
    refine ⟨pmmInit_correct fits hcover hbelow mem, fun calls s run => ?_⟩
    have hl := totalPages_lt arch b
    exact (exec_invariant_all (pmmStep_inv hcover hl fun k hk => pageAddr_eq fits hk)
      (pmmInit_inv b mem hcover) run).consistent hl

/-- Three pages of memory behind the kernel and the boot information. -/
def smallMachine : BootInfo where
  tags := [.other, .mmap [⟨0x3000, 0x3000, 1⟩, ⟨0x6000, 0x2000, 2⟩]]
  addr := 0x2000
  totalSize := 64
  kernelEnd := 0x1000

theorem smallMachine_fits : smallMachine.Fits .amd64 0 :=
  ⟨by decide, (fun _ hm => absurd hm not_mem_nil), by decide, by decide⟩

/-- The bitmap takes the first of the pages, and the others are handed out. -/
theorem pmm_accounts_iff_small :
    ∃ s, exec (pmmStep .amd64) ⟨pmmInit .amd64 smallMachine fun _ => 0xA5, []⟩
        [.allocPages 2, .freePage 0x4000, .allocPage, .write 0x5678 1, .allocPage] = some s ∧
      s.out = [4, 5] ∧ s.pmm.freePages = 0 ∧
      InitCorrect .amd64 smallMachine 0 (pmmInit .amd64 smallMachine fun _ => 0xA5) ∧
      s.Consistent := by
  refine exists_run (A := fun s => s.out = [4, 5] ∧ s.pmm.freePages = 0) (by decide +kernel) ?_
  rintro s hrun ⟨hout, hfree⟩
  have hcover : (pmmLayout .amd64 smallMachine).Covers := by decide +kernel
  have hbelow : smallMachine.NothingBelow .amd64 0 := fun j _ hlow => by omega
  have hall := (pmm_accounts_iff .amd64 smallMachine 0 smallMachine_fits).mpr ⟨hcover, hbelow⟩
  exact ⟨hout, hfree, (hall _).1, (hall _).2 _ s hrun⟩

/-- Memory up to one page above 128 MiB. -/
def oddMachine : BootInfo where
  tags := [.mmap [⟨0x3000, 0x3000, 1⟩, ⟨0x7FFF000, 0x2000, 1⟩]]
  addr := 0x2000
  totalSize := 64
  kernelEnd := 0x1000

/-- The bit of page 32768 is the first one behind the bitmap. -/
theorem bitmap_misses_last_page :
    oddMachine.Fits .amd64 0 ∧ pmmLayout .amd64 oddMachine = ⟨32769, 1, 3⟩ ∧
      ¬ InitCorrect .amd64 oddMachine 0 (pmmInit .amd64 oddMachine fun _ => 0) := by
  have hlayout : pmmLayout .amd64 oddMachine = ⟨32769, 1, 3⟩ := by decide +kernel
  refine ⟨⟨by decide, (fun _ hm => absurd hm not_mem_nil), by decide, by decide⟩, hlayout,
    fun hcorrect => ?_⟩
  have hcover := covers_of_correct hcorrect.count
  rw [hlayout] at hcover
  exact absurd hcover (by decide)

end ArcKernel.Pmm
