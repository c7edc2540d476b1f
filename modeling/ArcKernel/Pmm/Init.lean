import ArcKernel.Pmm.Model

/-!
# What `pmm_init` leaves in the bitmap

Every loop of `pmm_init` gives the bits of some pages one value and counts the bits that
change, so that `free_pages` differs from the number of clear bits by a constant.  The
loops compose, and the bit of each tracked page after `pmm_init` is read off from the
last loop that touches it.
-/

namespace ArcKernel.Pmm

open ArcKernel.Foundation ArcKernel.Heap BitArray PmmState

variable {arch : X86} {p p' q : PmmState} {used : Bool} {S T : Nat → Prop} {i j n start stop : Nat}
    {b : BootInfo}

/-! ## Loops over pages -/

theorem mem_pages : i ∈ List.range' start (stop - start) ↔ start ≤ i ∧ i < stop := by
  rw [List.mem_range'_1]
  omega

/-- The tracked pages that are free. -/
def PmmState.free (p : PmmState) : Finset Nat := clears p.mem p.bitmap p.totalPages

theorem PmmState.mem_free : i ∈ p.free ↔ i < p.totalPages ∧ p.bitmapTest i = false := mem_clears

/-- `free_pages` is `c` less than the number of free pages. -/
def PmmState.Owes (c : Nat) (p : PmmState) : Prop :=
  p.freePages + UInt32.ofNat c = UInt32.ofNat p.free.card

/-- The bits of the pages of `S` are `used` after, the others as before, and the pages
that change are counted. -/
structure PmmState.Marks (used : Bool) (S : Nat → Prop) (p p' : PmmState) : Prop where
  bitmap : p'.bitmap = p.bitmap
  total : p'.totalPages = p.totalPages
  inside : ∀ j, S j → p'.bitmapTest j = used
  outside : ∀ j, ¬ S j → p'.bitmapTest j = p.bitmapTest j
  owes : ∀ c, p.Owes c → p'.Owes c

theorem PmmState.Marks.congr (h : p.Marks used S p') (hST : ∀ j, S j ↔ T j) :
    p.Marks used T p' where
  bitmap := h.bitmap
  total := h.total
  inside j hj := h.inside j ((hST j).mpr hj)
  outside j hj := h.outside j fun hS => hj ((hST j).mp hS)
  owes := h.owes

theorem PmmState.Marks.nothing (used : Bool) (p : PmmState) : p.Marks used (fun _ => False) p :=
  ⟨rfl, rfl, fun _ hj => hj.elim, fun _ _ => rfl, fun _ hc => hc⟩

theorem PmmState.Marks.trans (h : p.Marks used S q) (h' : q.Marks used T p') :
    p.Marks used (fun j => S j ∨ T j) p' where
  bitmap := h'.bitmap.trans h.bitmap
  total := h'.total.trans h.total
  inside j hj := by
    rcases Classical.em (T j) with hT | hT
    · exact h'.inside j hT
    · rw [h'.outside j hT]
      exact h.inside j (hj.resolve_right hT)
  outside j hj := by
    rw [h'.outside j fun hT => hj (.inr hT)]
    exact h.outside j fun hS => hj (.inl hS)
  owes c hc := h'.owes c (h.owes c hc)

/-- A loop whose body marks pages. -/
theorem PmmState.Marks.foldl {α : Type} {body : PmmState → α → PmmState} {S : α → Nat → Prop}
    {l : List α}
    (hbody : ∀ (p : PmmState) (x : α), x ∈ l → p.totalPages = n → p.Marks used (S x) (body p x))
    (hn : p.totalPages = n) : p.Marks used (fun j => ∃ x ∈ l, S x j) (l.foldl body p) := by
  induction l generalizing p with
  | nil => exact (Marks.nothing used p).congr fun j => by simp
  | cons x l ih =>
    have hx := hbody p x List.mem_cons_self hn
    have hrest := ih (fun p y hy => hbody p y (List.mem_cons_of_mem _ hy)) (hx.total.trans hn)
    exact (hx.trans hrest).congr fun j => by simp

theorem free_bitmapSet (p : PmmState) (i : Nat) : (p.bitmapSet i).free = p.free.erase i :=
  clears_set p.mem p.bitmap i p.totalPages

theorem free_bitmapClear (hi : i < p.totalPages) : (p.bitmapClear i).free = insert i p.free :=
  clears_clear p.mem p.bitmap hi

theorem test_bitmapSet (p : PmmState) (i j : Nat) :
    (p.bitmapSet i).bitmapTest j = (p.bitmapTest j || decide (j = i)) :=
  test_set p.mem p.bitmap i j

theorem test_bitmapClear (p : PmmState) (i j : Nat) :
    (p.bitmapClear i).bitmapTest j = (p.bitmapTest j && decide (j ≠ i)) :=
  test_clear p.mem p.bitmap i j

theorem freeOne_marks (hi : i < p.totalPages) : p.Marks false (· = i) (p.freeOne i) := by
  unfold freeOne
  split
  · rename_i hused
    refine ⟨rfl, rfl, fun j hj => ?_, fun j hj => ?_, fun c hc => ?_⟩
    · exact (test_bitmapClear p i j).trans (by simp [hj])
    · exact (test_bitmapClear p i j).trans (by simp [hj])
    have hnot : i ∉ p.free := fun hfree => by
      rw [mem_free, hused] at hfree
      cases hfree.2
    have hcard : (p.bitmapClear i).free.card = p.free.card + 1 := by
      rw [free_bitmapClear hi, Finset.card_insert_of_notMem hnot]
    show p.freePages + 1 + UInt32.ofNat c = UInt32.ofNat (p.bitmapClear i).free.card
    rw [hcard, UInt32.ofNat_add, ← hc]
    ac_rfl
  · rename_i hfree
    refine ⟨rfl, rfl, fun j hj => ?_, fun _ _ => rfl, fun _ hc => hc⟩
    rw [hj]
    simpa using hfree

theorem reserve_owes {c : Nat} (hi : i ∈ p.free) (hc : p.Owes c) :
    ({ p.bitmapSet i with freePages := p.freePages - 1 } : PmmState).Owes c := by
  have hcard : (p.bitmapSet i).free.card + 1 = p.free.card := by
    rw [free_bitmapSet, Finset.card_erase_add_one hi]
  have hsum : p.freePages + UInt32.ofNat c = UInt32.ofNat (p.bitmapSet i).free.card + 1 := by
    rw [hc, ← hcard, UInt32.ofNat_add]
    rfl
  calc p.freePages - 1 + UInt32.ofNat c = p.freePages + UInt32.ofNat c - 1 := by grind
    _ = UInt32.ofNat (p.bitmapSet i).free.card + 1 - 1 := by rw [hsum]
    _ = UInt32.ofNat (p.bitmapSet i).free.card := by grind

theorem reserveOne_marks (hi : i < p.totalPages) : p.Marks true (· = i) (p.reserveOne i) := by
  unfold reserveOne
  split
  · rename_i hfree
    have hmem : i ∈ p.free := mem_free.mpr ⟨hi, by simpa using hfree⟩
    refine ⟨rfl, rfl, fun j hj => ?_, fun j hj => ?_, fun c hc => reserve_owes hmem hc⟩
    all_goals exact (test_bitmapSet p i j).trans (by simp [hj])
  · rename_i hused
    refine ⟨rfl, rfl, fun j hj => ?_, fun _ _ => rfl, fun _ hc => hc⟩
    rw [hj]
    simpa using hused

/-- A loop over a range of tracked pages. -/
theorem forPages_marks {body : PmmState → Nat → PmmState}
    (hbody : ∀ (p : PmmState) (i : Nat), i < p.totalPages → p.Marks used (· = i) (body p i))
    (hstop : stop ≤ p.totalPages) :
    p.Marks used (fun j => start ≤ j ∧ j < stop) (forPages start stop body p) := by
  have hloop : p.Marks used (fun j => ∃ i ∈ List.range' start (stop - start), j = i)
      (forPages start stop body p) :=
    PmmState.Marks.foldl (n := p.totalPages)
      (fun q i hi hq => hbody q i (by rw [hq]; have := (mem_pages.mp hi).2; omega)) rfl
  refine hloop.congr fun j => ⟨?_, fun hj => ⟨j, mem_pages.mpr hj, rfl⟩⟩
  rintro ⟨i, hi, rfl⟩
  exact mem_pages.mp hi

theorem reserveRange_marks (start stop : Nat) (p : PmmState) :
    p.Marks true (fun j => start ≤ j ∧ j < stop ∧ j < p.totalPages) (p.reserveRange start stop) :=
  (forPages_marks (fun _ _ hi => reserveOne_marks hi) (min_le_right _ _)).congr fun j => by
    rw [lt_min_iff]

theorem freeEntry_marks (p : PmmState) (e : MmapEntry) :
    p.Marks false (fun j => e.startPage ≤ j ∧ j < e.endPage ∧ j < p.totalPages)
      (p.freeEntry e) := by
  unfold freeEntry
  split
  · refine (PmmState.Marks.nothing false p).congr fun j => ⟨False.elim, fun hj => ?_⟩
    omega
  · refine (forPages_marks (fun _ _ hi => freeOne_marks hi) ?_).congr fun j => ?_
    all_goals split <;> omega

/-! ## The bits after `pmm_init` -/

/-- The state after the `memset`. -/
def allUsed (arch : X86) (b : BootInfo) (mem : ByteMem) : PmmState :=
  let l := pmmLayout arch b
  ⟨mem.fill (l.bstart * 4096) (l.bstart * 4096 + l.bitmapPages * 4096) 0xFF, l.bstart * 4096,
    l.totalPages, 0⟩

/-- Some available entry covers the page, in the page numbers of the loops. -/
def BootInfo.Listed (b : BootInfo) (j : Nat) : Prop :=
  ∃ e ∈ b.available, e.startPage ≤ j ∧ j < e.endPage

/-- Some reservation covers the page. -/
def BootInfo.Reserved (arch : X86) (b : BootInfo) (j : Nat) : Prop :=
  j < b.kernelEndPage arch ∨
  ((pmmLayout arch b).bstart ≤ j ∧ j < (pmmLayout arch b).bstart + (pmmLayout arch b).bitmapPages) ∨
  (∃ m ∈ b.modules, modStartPage m ≤ j ∧ j < modEndPage m) ∨
  (b.mbootStartPage ≤ j ∧ j < b.mbootEndPage arch)

section

variable (arch : X86) (b : BootInfo) (mem : ByteMem)

/-- First the available pages are freed, then the reserved ones are taken. -/
theorem pmmInit_marks : ∃ p, (allUsed arch b mem).Marks false
      (fun j => b.Listed j ∧ j < (pmmLayout arch b).totalPages) p ∧
    p.Marks true (fun j => b.Reserved arch j ∧ j < (pmmLayout arch b).totalPages)
      (pmmInit arch b mem) := by
  obtain ⟨total, htotal⟩ : ∃ total, (pmmLayout arch b).totalPages = total := ⟨_, rfl⟩
  have h₁ := PmmState.Marks.foldl (l := b.available) (p := allUsed arch b mem) (n := total)
    (fun q e _ hq => (freeEntry_marks q e).congr fun j => by rw [hq]) htotal
  generalize hp₁ : b.available.foldl freeEntry (allUsed arch b mem) = p₁ at h₁
  have ht₁ : p₁.totalPages = total := h₁.total.trans htotal
  have h₂ := reserveRange_marks 0 (b.kernelEndPage arch) p₁
  generalize hp₂ : p₁.reserveRange 0 (b.kernelEndPage arch) = p₂ at h₂
  have ht₂ : p₂.totalPages = total := h₂.total.trans ht₁
  have h₃ := reserveRange_marks (pmmLayout arch b).bstart
    ((pmmLayout arch b).bstart + (pmmLayout arch b).bitmapPages) p₂
  generalize hp₃ : p₂.reserveRange (pmmLayout arch b).bstart
    ((pmmLayout arch b).bstart + (pmmLayout arch b).bitmapPages) = p₃ at h₃
  have ht₃ : p₃.totalPages = total := h₃.total.trans ht₂
  have h₄ := PmmState.Marks.foldl (l := b.modules) (p := p₃) (n := total)
    (fun q m _ hq => (reserveRange_marks (modStartPage m) (modEndPage m) q).congr
      fun j => by rw [hq]) ht₃
  generalize hp₄ : b.modules.foldl
    (fun p m => p.reserveRange (modStartPage m) (modEndPage m)) p₃ = p₄ at h₄
  have ht₄ : p₄.totalPages = total := h₄.total.trans ht₃
  have h₅ := reserveRange_marks b.mbootStartPage (b.mbootEndPage arch) p₄
  have hinit : pmmInit arch b mem = p₄.reserveRange b.mbootStartPage (b.mbootEndPage arch) := by
    unfold pmmInit
    simp only [Nat.mul_div_cancel _ (show 0 < 4096 by decide)]
    rw [← hp₄, ← hp₃, ← hp₂, ← hp₁]
    rfl
  rw [hinit]
  refine ⟨p₁, h₁.congr fun j => ?_, (((h₂.trans h₃).trans h₄).trans h₅).congr fun j => ?_⟩
  · rw [htotal]
    constructor
    · rintro ⟨e, he, hlo, hhi, hj⟩
      exact ⟨⟨e, he, hlo, hhi⟩, hj⟩
    · rintro ⟨⟨e, he, hlo, hhi⟩, hj⟩
      exact ⟨e, he, hlo, hhi, hj⟩
  rw [ht₁, ht₂, ht₄, htotal]
  constructor
  · rintro (((⟨-, hk, hj⟩ | ⟨hlo, hhi, hj⟩) | ⟨m, hm, hlo, hhi, hj⟩) | ⟨hlo, hhi, hj⟩)
    · exact ⟨.inl hk, hj⟩
    · exact ⟨.inr (.inl ⟨hlo, hhi⟩), hj⟩
    · exact ⟨.inr (.inr (.inl ⟨m, hm, hlo, hhi⟩)), hj⟩
    · exact ⟨.inr (.inr (.inr ⟨hlo, hhi⟩)), hj⟩
  · rintro ⟨hk | ⟨hlo, hhi⟩ | ⟨m, hm, hlo, hhi⟩ | ⟨hlo, hhi⟩, hj⟩
    · exact .inl (.inl (.inl ⟨Nat.zero_le j, hk, hj⟩))
    · exact .inl (.inl (.inr ⟨hlo, hhi, hj⟩))
    · exact .inl (.inr ⟨m, hm, hlo, hhi, hj⟩)
    · exact .inr ⟨hlo, hhi, hj⟩

theorem pmmInit_total : (pmmInit arch b mem).totalPages = (pmmLayout arch b).totalPages := by
  obtain ⟨p, hfree, hres⟩ := pmmInit_marks arch b mem
  exact hres.total.trans hfree.total

theorem pmmInit_bitmap : (pmmInit arch b mem).bitmap = (pmmLayout arch b).bstart * 4096 := by
  obtain ⟨p, hfree, hres⟩ := pmmInit_marks arch b mem
  exact hres.bitmap.trans hfree.bitmap

/-- The bit of every tracked page. -/
theorem pmmInit_free_iff (j : Nat) :
    j ∈ (pmmInit arch b mem).free ↔ j < (pmmLayout arch b).totalPages ∧
      (b.Listed j ∨ (allUsed arch b mem).bitmapTest j = false) ∧ ¬ b.Reserved arch j := by
  obtain ⟨p, hfree, hres⟩ := pmmInit_marks arch b mem
  rw [mem_free, pmmInit_total]
  refine and_congr_right fun hj => ?_
  rcases Classical.em (b.Reserved arch j) with hr | hr
  · rw [hres.inside j ⟨hr, hj⟩]
    simp [hr]
  rw [hres.outside j fun h => hr h.1]
  rcases Classical.em (b.Listed j) with hl | hl
  · rw [hfree.inside j ⟨hl, hj⟩]
    simp [hl, hr]
  · rw [hfree.outside j fun h => hl h.1]
    simp [hl, hr]

/-- `free_pages` misses the pages whose bits were clear before the first loop. -/
theorem pmmInit_owes : (pmmInit arch b mem).Owes (allUsed arch b mem).free.card := by
  obtain ⟨p, hfree, hres⟩ := pmmInit_marks arch b mem
  refine hres.owes _ (hfree.owes _ ?_)
  show (0 : UInt32) + _ = _
  rw [UInt32.zero_add]

end

/-! ## Which bits the `memset` reaches -/

/-- The bitmap has a bit for every tracked page. -/
def Layout.Covers (l : Layout) : Prop := l.totalPages ≤ l.bitmapPages * 32768

instance (l : Layout) : Decidable l.Covers := inferInstanceAs (Decidable (_ ≤ _))

section

variable (mem : ByteMem) (hcover : (pmmLayout arch b).Covers)
include hcover

theorem allUsed_test (hj : j < (pmmLayout arch b).totalPages) :
    (allUsed arch b mem).bitmapTest j = true := by
  unfold Layout.Covers at hcover
  have hbyte : (allUsed arch b mem).mem ((allUsed arch b mem).bitmap + j / 8) = 0xFF :=
    if_pos ⟨Nat.le_add_right _ _, by simp only [allUsed]; omega⟩
  rw [bitmapTest, test_eq, hbyte]
  have hlt : j % 8 < 8 := Nat.mod_lt _ (by decide)
  generalize j % 8 = k at hlt
  revert k
  decide

theorem allUsed_free : (allUsed arch b mem).free = ∅ := by
  refine Finset.eq_empty_of_forall_notMem fun j hj => ?_
  obtain ⟨hlt, hbit⟩ := mem_free.mp hj
  rw [allUsed_test mem hcover hlt] at hbit
  cases hbit

end

/-- On cleared memory, the bits that the `memset` misses are clear. -/
theorem allUsed_misses (hshort : ¬ (pmmLayout arch b).Covers) :
    (pmmLayout arch b).bitmapPages * 32768 ∈ (allUsed arch b fun _ => 0).free := by
  refine mem_free.mpr ⟨not_le.mp hshort, ?_⟩
  have hbyte : (allUsed arch b fun _ => 0).mem ((allUsed arch b fun _ => 0).bitmap +
      (pmmLayout arch b).bitmapPages * 32768 / 8) = 0 :=
    if_neg (by simp only [allUsed]; omega)
  rw [bitmapTest, test_eq, hbyte]
  exact BitVec.getLsbD_zero

/-! ## The place of the bitmap -/

theorem bitmapPagesFor_pos (n : Nat) : 0 < bitmapPagesFor n := by
  unfold bitmapPagesFor
  dsimp only
  split <;> omega

theorem maxRun_le (bmap : ByteMem) : maxRun bmap ≤ bootstrapPages := by
  have hfold : ∀ (l : List Nat) (r m : Nat), (l.foldl (fun (x : Nat × Nat) i =>
      if !bmapTest bmap i then (x.1 + 1, if x.1 + 1 > x.2 then x.1 + 1 else x.2) else (0, x.2))
      (r, m)).2 ≤ max m (r + l.length) := fun l => by
    induction l with
    | nil => exact fun r m => le_max_left _ _
    | cons i l ih =>
      intro r m
      rw [List.foldl_cons, List.length_cons]
      split
      · refine (ih _ _).trans ?_
        split <;> omega
      · refine (ih _ _).trans ?_
        omega
  refine (hfold (List.range' 0 (bootstrapPages - 0)) 0 0).trans ?_
  simp

end ArcKernel.Pmm
