import ArcKernel.Foundation.Linked
import ArcKernel.Foundation.Tiling
import ArcKernel.Heap.X86

/-!
# Blocks of the heap

The abstract heap is a list of blocks in address order.  `Represents` ties it to the
memory: the blocks tile `[HEAP_START, heap_brk)`, every header holds its block's size
and free bit, the second word of a used block holds the magic number, and the second
words of the free blocks link them in address order.

Header words are handled by address.  Two block addresses are equal or at least a
header apart, so a write to one header reads as a point update of the others.
-/

namespace ArcKernel.Heap

open ArcKernel.Foundation List ByteMem HeapState

structure Block where
  addr : Nat
  size : Nat
  free : Bool
  deriving DecidableEq

/-- The addresses of the free blocks. -/
def freeAddrs (bs : List Block) : List Nat := (bs.filter (·.free)).map (·.addr)

/-- The pointers to the used blocks, behind their headers. -/
def usedPtrs (arch : X86) (bs : List Block) : List Nat :=
  (bs.filter (!·.free)).map (·.addr + arch.heapHeaderSize)

/-- The size word of a block's header. -/
def Block.word (x : Block) : Nat := if x.free then x.size + 1 else x.size

structure HeapState.Represents (arch : X86) (h : HeapState) (bs : List Block) : Prop where
  tiles : Tiles Block.addr Block.size arch.heapStart h.brk bs
  sized : ∀ x ∈ bs, arch.heapMinBlock ≤ x.size ∧ arch.heapBlockAlign ∣ x.size
  word : ∀ x ∈ bs, h.size arch x.addr = x.word
  magic : ∀ x ∈ bs, x.free = false → h.next arch x.addr = arch.heapMagicUsed
  chain : Segment (h.next arch) h.freeList (freeAddrs bs) 0
  mapped : h.brk ≤ h.mappedEnd
  inside : h.brk ≤ arch.heapEnd
  paged : pageSize ∣ h.mappedEnd

/-! ## The constants -/

section Constants

variable (arch : X86)

theorem heapMinBlock_eq : arch.heapMinBlock = 32 := by cases arch <;> rfl

theorem heapHeaderSize_pos : 0 < arch.heapHeaderSize := by cases arch <;> decide

theorem heapHeaderSize_le : arch.heapHeaderSize ≤ 16 := by cases arch <;> decide

theorem heapStart_pos : 0 < arch.heapStart := by cases arch <;> decide

theorem heapEnd_eq : arch.heapEnd = arch.heapStart + 2 ^ 28 := by cases arch <;> rfl

theorem heapEnd_lt : arch.heapEnd + 2 ^ 28 < arch.wordSpan := by cases arch <;> decide

theorem heapMagicUsed_lt : arch.heapMagicUsed < arch.wordSpan := by cases arch <;> decide

theorem heapBlockAlign_dvd_start : arch.heapBlockAlign ∣ arch.heapStart := by cases arch <;> decide

theorem heapBlockAlign_dvd_minBlock : arch.heapBlockAlign ∣ arch.heapMinBlock := by
  cases arch <;> decide

theorem heapBlockAlign_dvd_header : arch.heapBlockAlign ∣ arch.heapHeaderSize := by
  cases arch <;> decide

theorem heapBlockAlign_even : 2 ∣ arch.heapBlockAlign := by cases arch <;> decide

theorem pageSize_dvd_start : pageSize ∣ arch.heapStart := by cases arch <;> decide

end Constants

variable {arch : X86} {h h' : HeapState} {a b c v : Nat}

theorem add_eq (hab : a + b < arch.wordSpan) : arch.add a b = a + b := Nat.mod_eq_of_lt hab

theorem sub_eq (hb : b ≤ a) (ha : a < arch.wordSpan) : arch.sub a b = a - b := by
  have hswap : a + arch.wordSpan - b = a - b + arch.wordSpan := by omega
  rw [X86.sub, hswap, Nat.add_mod_right]
  exact Nat.mod_eq_of_lt (by omega)

/-! ## Header words -/

/-- Two headers do not overlap. -/
def Apart (arch : X86) (a b : Nat) : Prop :=
  a + arch.heapHeaderSize ≤ b ∨ b + arch.heapHeaderSize ≤ a

theorem Apart.symm (hab : Apart arch a b) : Apart arch b a := Or.symm hab

theorem Apart.ne (hab : Apart arch a b) : a ≠ b := by
  rintro rfl
  have := heapHeaderSize_pos arch
  rcases hab with hab | hab <;> omega

theorem Apart.words (hab : Apart arch a b) :
    a + 2 * arch.wordBytes ≤ b ∨ b + 2 * arch.wordBytes ≤ a := hab

theorem size_setSize (hv : v < arch.wordSpan) : (h.setSize arch b v).size arch b = v :=
  load_store _ _ hv

theorem next_setNext (hv : v < arch.wordSpan) : (h.setNext arch b v).next arch b = v :=
  load_store _ _ hv

theorem next_setSize (hbc : b = c ∨ Apart arch b c) :
    (h.setSize arch b v).next arch c = h.next arch c := by
  refine load_store_of_disjoint _ _ ?_
  rcases hbc with rfl | hbc
  · exact .inr le_rfl
  rcases hbc.words with hbc | hbc
  · exact .inr (by omega)
  · exact .inl (by omega)

theorem size_setNext (hbc : b = c ∨ Apart arch b c) :
    (h.setNext arch b v).size arch c = h.size arch c := by
  refine load_store_of_disjoint _ _ ?_
  rcases hbc with rfl | hbc
  · exact .inl le_rfl
  rcases hbc.words with hbc | hbc
  · exact .inr (by omega)
  · exact .inl (by omega)

theorem size_setSize_of_apart (hbc : Apart arch b c) :
    (h.setSize arch b v).size arch c = h.size arch c := by
  refine load_store_of_disjoint _ _ ?_
  rcases hbc.words with hbc | hbc
  · exact .inr (by omega)
  · exact .inl (by omega)

theorem next_setNext_of_apart (hbc : Apart arch b c) :
    (h.setNext arch b v).next arch c = h.next arch c := by
  refine load_store_of_disjoint _ _ ?_
  rcases hbc.words with hbc | hbc
  · exact .inr (by omega)
  · exact .inl (by omega)

/-! ## Linking -/

section Link

variable {l : List Nat} {q x : Nat}

/-- After `link` the cells of `l` lead to `x`. -/
theorem link_segment (hl : Segment (h.next arch) h.freeList l q)
    (hapart : l.Pairwise (Apart arch)) (hx : x < arch.wordSpan) :
    Segment ((h.link arch (lastCell l) x).next arch) (h.link arch (lastCell l) x).freeList l x := by
  rcases eq_nil_or_concat' l with rfl | ⟨m, a, rfl⟩
  · rfl
  have ha : a ≠ 0 := hl.ne_zero a (by simp)
  rw [lastCell, getLastD_concat, link, if_neg ha]
  obtain ⟨_, _, hpair⟩ := pairwise_append.mp hapart
  have hcell : ∀ b ∈ m, Apart arch b a := fun b hb => hpair b hb a (mem_singleton_self a)
  exact hl.relink (fun hmem => (hcell a hmem).ne rfl)
    (fun b _ hb => next_setNext_of_apart (hcell b hb).symm) (next_setNext hx)

/-- `link` changes no size word at a cell or apart from all cells. -/
theorem size_link (hc : ∀ b ∈ l, b = c ∨ Apart arch b c) :
    (h.link arch (lastCell l) x).size arch c = h.size arch c := by
  rw [link]
  split
  · rfl
  · rename_i hlast
    rcases eq_nil_or_concat' l with rfl | ⟨m, a, rfl⟩
    · exact absurd rfl hlast
    · rw [lastCell, getLastD_concat]
      exact size_setNext (hc a (by simp))

/-- `link` changes no link word apart from the cells. -/
theorem next_link (hc : ∀ b ∈ l, Apart arch b c) :
    (h.link arch (lastCell l) x).next arch c = h.next arch c := by
  rw [link]
  split
  · rfl
  · rename_i hlast
    rcases eq_nil_or_concat' l with rfl | ⟨m, a, rfl⟩
    · exact absurd rfl hlast
    · rw [lastCell, getLastD_concat]
      exact next_setNext_of_apart (hc a (by simp))

variable {prev : Nat}

@[simp] theorem link_brk : (h.link arch prev x).brk = h.brk := by
  unfold link
  split <;> rfl

@[simp] theorem link_mappedEnd : (h.link arch prev x).mappedEnd = h.mappedEnd := by
  unfold link
  split <;> rfl

end Link

/-! ## Free and used blocks of a list -/

theorem freeAddrs_append (xs ys : List Block) :
    freeAddrs (xs ++ ys) = freeAddrs xs ++ freeAddrs ys := by
  simp [freeAddrs]

variable {x : Block}

theorem freeAddrs_cons_free (hx : x.free = true) (xs : List Block) :
    freeAddrs (x :: xs) = x.addr :: freeAddrs xs := by
  simp [freeAddrs, hx]

theorem freeAddrs_cons_used (hx : x.free = false) (xs : List Block) :
    freeAddrs (x :: xs) = freeAddrs xs := by
  simp [freeAddrs, hx]

theorem mem_freeAddrs {bs : List Block} {a : Nat} :
    a ∈ freeAddrs bs ↔ ∃ x ∈ bs, x.free = true ∧ x.addr = a := by
  simp [freeAddrs, and_assoc]

theorem usedPtrs_append (xs ys : List Block) :
    usedPtrs arch (xs ++ ys) = usedPtrs arch xs ++ usedPtrs arch ys := by
  simp [usedPtrs]

theorem usedPtrs_cons_free (hx : x.free = true) (xs : List Block) :
    usedPtrs arch (x :: xs) = usedPtrs arch xs := by
  simp [usedPtrs, hx]

theorem usedPtrs_cons_used (hx : x.free = false) (xs : List Block) :
    usedPtrs arch (x :: xs) = (x.addr + arch.heapHeaderSize) :: usedPtrs arch xs := by
  simp [usedPtrs, hx]

/-! ## What a represented heap says about its blocks -/

theorem heapSizeMask_word (heven : 2 ∣ x.size) : heapSizeMask x.word = x.size := by
  unfold heapSizeMask Block.word
  split <;> omega

theorem isFree_word (heven : 2 ∣ x.size) : isFree x.word = x.free := by
  unfold isFree Block.word
  cases hfree : x.free <;> simp <;> omega

section Represented

variable {bs pre post : List Block} {y : Block}

section

variable (hr : h.Represents arch bs)
include hr

theorem HeapState.Represents.bounds (hx : x ∈ bs) :
    arch.heapStart ≤ x.addr ∧ x.addr + x.size ≤ h.brk :=
  hr.tiles.bounds hx

theorem HeapState.Represents.size_ge (hx : x ∈ bs) : 32 ≤ x.size :=
  heapMinBlock_eq arch ▸ (hr.sized x hx).1

theorem HeapState.Represents.brk_lt : h.brk + 2 ^ 28 < arch.wordSpan :=
  (Nat.add_le_add_right hr.inside _).trans_lt (heapEnd_lt arch)

theorem HeapState.Represents.addr_pos (hx : x ∈ bs) : 0 < x.addr :=
  (heapStart_pos arch).trans_le (hr.bounds hx).1

end

section

variable (hr : h.Represents arch bs) (hx : x ∈ bs)
include hr hx

theorem HeapState.Represents.dvd_addr : arch.heapBlockAlign ∣ x.addr :=
  hr.tiles.dvd_start (heapBlockAlign_dvd_start arch) (fun y hy => (hr.sized y hy).2) x hx

theorem HeapState.Represents.even_size : 2 ∣ x.size :=
  (heapBlockAlign_even arch).trans (hr.sized x hx).2

theorem HeapState.Represents.header_le : x.addr + arch.heapHeaderSize ≤ h.brk := by
  have := (hr.bounds hx).2
  have := hr.size_ge hx
  have := heapHeaderSize_le arch
  omega

theorem HeapState.Represents.sizeMask : heapSizeMask (h.size arch x.addr) = x.size := by
  rw [hr.word x hx, heapSizeMask_word (hr.even_size hx)]

theorem HeapState.Represents.isFree : isFree (h.size arch x.addr) = x.free := by
  rw [hr.word x hx, isFree_word (hr.even_size hx)]

/-- Every block passes the checks of the walks. -/
theorem HeapState.Represents.addrSane : h.addrSane arch x.addr = true := by
  have hlow := (hr.bounds hx).1
  have hhigh := hr.header_le hx
  have hsum : arch.add x.addr arch.heapHeaderSize = x.addr + arch.heapHeaderSize :=
    add_eq (by have := hr.brk_lt; omega)
  have halign := Nat.mod_eq_zero_of_dvd (hr.dvd_addr hx)
  simp [HeapState.addrSane, hsum, halign, hlow, hhigh]

theorem HeapState.Represents.sizeSane : heapSizeSane arch h (h.size arch x.addr) x.addr = true := by
  have hbound := (hr.bounds hx).2
  have hrest : arch.sub h.brk x.addr = h.brk - x.addr :=
    sub_eq (by omega) (by have := hr.brk_lt; omega)
  have halign := Nat.mod_eq_zero_of_dvd (hr.sized x hx).2
  have hfits : x.size ≤ h.brk - x.addr := by omega
  simp [heapSizeSane, hr.sizeMask hx, hrest, halign, hfits, (hr.sized x hx).1]

/-- The headers of two blocks are the same or do not overlap. -/
theorem HeapState.Represents.apart (hy : y ∈ bs) : x.addr = y.addr ∨ Apart arch x.addr y.addr := by
  by_cases hxy : x = y
  · exact .inl (hxy ▸ rfl)
  have hpair := hr.tiles.pairwise
  have hsize : ∀ z ∈ bs, arch.heapHeaderSize ≤ z.size := fun z hz =>
    (heapHeaderSize_le arch).trans ((by decide : 16 ≤ 32).trans (hr.size_ge hz))
  refine .inr ?_
  obtain ⟨left, right, rfl⟩ := append_of_mem hx
  obtain ⟨_, hright, hcross⟩ := pairwise_append.mp hpair
  rcases mem_append.mp hy with hy' | hy'
  · have := hcross y hy' x mem_cons_self
    have := hsize y hy
    exact .inr (by omega)
  · rcases mem_cons.mp hy' with rfl | hy'
    · exact absurd rfl hxy
    · have := (pairwise_cons.mp hright).1 y hy'
      have := hsize x hx
      exact .inl (by omega)

end

theorem HeapState.Represents.before (hr : h.Represents arch (pre ++ x :: post)) (hy : y ∈ pre) :
    y.addr + y.size ≤ x.addr := by
  obtain ⟨hpre, _⟩ := tiles_around.mp hr.tiles
  exact (hpre.bounds hy).2

theorem HeapState.Represents.after (hr : h.Represents arch (pre ++ x :: post)) (hy : y ∈ post) :
    x.addr + x.size ≤ y.addr := by
  obtain ⟨_, hpost⟩ := tiles_around.mp hr.tiles
  exact (hpost.bounds hy).1

theorem HeapState.Represents.freeAddrs_apart (hr : h.Represents arch bs) :
    (freeAddrs bs).Pairwise (Apart arch) := by
  have hpair : bs.Pairwise fun x y => x ∈ bs ∧ x.addr + x.size ≤ y.addr :=
    List.Pairwise.and_mem.mp hr.tiles.pairwise |>.imp fun hxy => ⟨hxy.1, hxy.2.2⟩
  refine pairwise_map.mpr ((hpair.filter _).imp fun hxy => .inl ?_)
  have := hr.size_ge hxy.1
  have := heapHeaderSize_le arch
  omega

/-- The walks never run out of steps: the heap has no room for that many blocks. -/
theorem HeapState.Represents.length_le (hr : h.Represents arch bs) :
    (bs.filter (·.free)).length ≤ heapMaxWalk := by
  have hall := hr.tiles.length_mul_le fun x hx => hr.size_ge hx
  have hfilter := length_filter_le (·.free) bs
  have hinside := hr.inside
  rw [heapEnd_eq] at hinside
  have : heapMaxWalk = 2 ^ 23 := by decide
  omega

/-- The pointer out of a free block is the next free block. -/
theorem HeapState.Represents.next_free (hr : h.Represents arch (pre ++ x :: post))
    (hx : x.free = true) : Segment (h.next arch) (h.next arch x.addr) (freeAddrs post) 0 ∧
      h.next arch x.addr = headCell (freeAddrs post) := by
  have hchain := hr.chain
  rw [freeAddrs_append, freeAddrs_cons_free hx] at hchain
  obtain ⟨_, _, hpost⟩ := segment_around.mp hchain
  exact ⟨hpost, hpost.head_eq⟩

end Represented

/-! ## Local edits -/

/-- Replace a part of the block list by another one that covers the same addresses:
the headers outside are untouched, those inside are right, and so is the free list. -/
theorem HeapState.Represents.replace {pre old new post : List Block}
    (hr : h.Represents arch (pre ++ old ++ post)) (hbrk : h'.brk = h.brk)
    (hmapped : h'.mappedEnd = h.mappedEnd)
    (htiles :
      ∀ lo hi, Tiles Block.addr Block.size lo hi old → Tiles Block.addr Block.size lo hi new)
    (hsized : ∀ x ∈ new, arch.heapMinBlock ≤ x.size ∧ arch.heapBlockAlign ∣ x.size)
    (hkeep : ∀ x ∈ pre ++ post, h'.size arch x.addr = h.size arch x.addr ∧
      (x.free = false → h'.next arch x.addr = h.next arch x.addr))
    (hword : ∀ x ∈ new, h'.size arch x.addr = x.word)
    (hmagic : ∀ x ∈ new, x.free = false → h'.next arch x.addr = arch.heapMagicUsed)
    (hchain : Segment (h'.next arch) h'.freeList (freeAddrs (pre ++ new ++ post)) 0) :
    h'.Represents arch (pre ++ new ++ post) := by
  have hold : ∀ x ∈ pre ++ post, x ∈ pre ++ old ++ post := fun x hx => by
    simp only [mem_append] at hx ⊢
    tauto
  have hsplit : ∀ x ∈ pre ++ new ++ post, x ∈ new ∨ x ∈ pre ++ post := fun x hx => by
    simp only [mem_append] at hx ⊢
    tauto
  refine
    { tiles := ?_
      sized := fun x hx => (hsplit x hx).elim (hsized x) fun hx => hr.sized x (hold x hx)
      word := fun x hx => (hsplit x hx).elim (hword x) fun hx =>
        (hkeep x hx).1.trans (hr.word x (hold x hx))
      magic := fun x hx hused => (hsplit x hx).elim (fun hx => hmagic x hx hused) fun hx =>
        ((hkeep x hx).2 hused).trans (hr.magic x (hold x hx) hused)
      chain := hchain
      mapped := by rw [hbrk, hmapped]; exact hr.mapped
      inside := by rw [hbrk]; exact hr.inside
      paged := by rw [hmapped]; exact hr.paged }
  have htiled := hr.tiles
  rw [append_assoc, tiles_append] at htiled ⊢
  obtain ⟨lo, hpre, hrest⟩ := htiled
  obtain ⟨hi, hmid, hpost⟩ := tiles_append.mp hrest
  exact ⟨lo, hpre, tiles_append.mpr ⟨hi, htiles lo hi hmid, hbrk.symm ▸ hpost⟩⟩

/-- A change of memory that leaves all headers alone. -/
theorem HeapState.Represents.of_headers {bs : List Block} (hr : h.Represents arch bs)
    (hlist : h'.freeList = h.freeList) (hbrk : h'.brk = h.brk)
    (hmapped : h.brk ≤ h'.mappedEnd) (hpaged : pageSize ∣ h'.mappedEnd)
    (hsame : ∀ x ∈ bs, h'.size arch x.addr = h.size arch x.addr ∧
      h'.next arch x.addr = h.next arch x.addr) : h'.Represents arch bs where
  tiles := hbrk ▸ hr.tiles
  sized := hr.sized
  word := fun x hx => (hsame x hx).1.trans (hr.word x hx)
  magic := fun x hx hused => (hsame x hx).2.trans (hr.magic x hx hused)
  chain := by
    rw [hlist]
    refine hr.chain.congr fun a ha => ?_
    obtain ⟨x, hx, _, rfl⟩ := mem_freeAddrs.mp ha
    exact (hsame x hx).2
  mapped := hbrk ▸ hmapped
  inside := hbrk ▸ hr.inside
  paged := hpaged

/-- Two memories that agree outside the body of a block have the same headers. -/
theorem HeapState.Represents.headers_of_body {bs : List Block} (hr : h.Represents arch bs)
    (hx : x ∈ bs)
    (hmem : ∀ a, (a < x.addr + arch.heapHeaderSize ∨ x.addr + x.size ≤ a) → h'.mem a = h.mem a) :
    ∀ y ∈ bs, h'.size arch y.addr = h.size arch y.addr ∧
      h'.next arch y.addr = h.next arch y.addr := by
  intro y hy
  have hout : ∀ a, y.addr ≤ a → a < y.addr + arch.heapHeaderSize → h'.mem a = h.mem a := by
    intro a hlow hhigh
    refine hmem a ?_
    by_cases hxy : x = y
    · subst hxy
      exact .inl hhigh
    obtain ⟨left, right, rfl⟩ := append_of_mem hx
    rcases mem_append.mp hy with hy' | hy'
    · have := hr.before hy'
      exact .inl (by omega)
    · rcases mem_cons.mp hy' with rfl | hy'
      · exact absurd rfl hxy
      · have := hr.after hy'
        exact .inr (by omega)
  constructor
  · exact load_congr fun a hlow hhigh => hout a hlow (by
      simp only [X86.heapHeaderSize]
      omega)
  · exact load_congr fun a hlow hhigh => hout a (by omega) (by
      simp only [X86.heapHeaderSize]
      omega)

end ArcKernel.Heap
