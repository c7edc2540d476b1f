import ArcKernel.Heap.Release

/-!
# The heap over whole runs

Runs of `kmalloc`, `kcalloc`, `kfree` of live pointers and writes of the callers into
their own blocks.  The state after every call is that of a list of blocks that tiles
the heap.

`kcalloc` is the exception.  It rejects a product above 32 bits, but the rounding in
`kmalloc` wraps for the last 15 products below that: the block is the smallest one
there is, and the zeroing loop runs over everything behind it.
-/

namespace ArcKernel.Heap

open ArcKernel.Foundation List

variable {answers : Nat → PageAnswer} {count size : UInt32}

/-! ## The property -/

/-- The end of the block of `ptr`, as its header has it. -/
def HeapState.blockEnd (arch : X86) (h : HeapState) (ptr : Nat) : Nat :=
  ptr - arch.heapHeaderSize + heapSizeMask (h.size arch (ptr - arch.heapHeaderSize))

/-- The heap is the list of blocks `bs`. -/
structure HeapSys.IsTiledBy (arch : X86) (s : HeapSys) (bs : List Block) : Prop where
  tiles : Tiles Block.addr Block.size arch.heapStart s.heap.brk bs
  word : ∀ x ∈ bs, s.heap.size arch x.addr = x.word
  magic : ∀ x ∈ bs, x.free = false → s.heap.next arch x.addr = arch.heapMagicUsed
  mapped : s.heap.brk ≤ s.heap.mappedEnd
  freeList : Segment (s.heap.next arch) s.heap.freeList (freeAddrs bs) 0
  increasing : (freeAddrs bs).Pairwise (· < ·)
  notAdjacent : ∀ x ∈ bs, ∀ y ∈ bs, x.free = true → y.free = true → x.addr + x.size ≠ y.addr
  notLast : ∀ x ∈ bs, x.free = true → x.addr + x.size ≠ s.heap.brk
  live : s.live.Perm (usedPtrs arch bs)
  disjoint : s.live.Pairwise fun p q =>
    s.heap.blockEnd arch p ≤ q - arch.heapHeaderSize ∨
      s.heap.blockEnd arch q ≤ p - arch.heapHeaderSize

def HeapSys.WellFormed (arch : X86) (s : HeapSys) : Prop := ∃ bs, s.IsTiledBy arch bs

/-- The rounded size of a `kcalloc` request fits 32 bits, unless the product is rejected
in the first place. -/
def HeapCall.Rounds : HeapCall → Prop
  | .kcalloc count size _ =>
      ¬ (2 ^ 32 - 15 ≤ count.toNat * size.toNat ∧ count.toNat * size.toNat < 2 ^ 32)
  | _ => True

instance (c : HeapCall) : Decidable c.Rounds :=
  match c with
  | .kmalloc _ _ => isTrue trivial
  | .kcalloc count size _ => inferInstanceAs (Decidable (¬ (2 ^ 32 - 15 ≤ count.toNat * size.toNat ∧
      count.toNat * size.toNat < 2 ^ 32)))
  | .kfree _ => isTrue trivial
  | .write _ _ _ => isTrue trivial

/-! ## The invariant -/

structure HeapSys.Inv (arch : X86) (s : HeapSys) (bs : List Block) : Prop where
  represents : s.heap.Represents arch bs
  settled : Settled bs
  live : s.live.Perm (usedPtrs arch bs)

variable {arch : X86} {h h' : HeapState} {bs : List Block} {s t : HeapSys} {x : Block}

theorem mem_usedPtrs {p : Nat} : p ∈ usedPtrs arch bs ↔
    ∃ x ∈ bs, x.free = false ∧ p = x.addr + arch.heapHeaderSize := by
  simp only [usedPtrs, mem_map, mem_filter, Bool.not_eq_true', and_assoc]
  constructor
  all_goals
    rintro ⟨x, hx, hu, hp⟩
    exact ⟨x, hx, hu, hp.symm⟩

theorem blockEnd_eq (hr : h.Represents arch bs) (hx : x ∈ bs) :
    h.blockEnd arch (x.addr + arch.heapHeaderSize) = x.addr + x.size := by
  rw [HeapState.blockEnd, Nat.add_sub_cancel, hr.sizeMask hx]

/-- Neighbouring free blocks would follow each other in the list. -/
theorem not_adjacent (hr : h.Represents arch bs)
    (halt : Alternates bs) {y : Block} (hx : x ∈ bs)
    (hy : y ∈ bs) (hxf : x.free = true) (hyf : y.free = true) : x.addr + x.size ≠ y.addr := by
  intro hadj
  have hxsize := hr.size_ge hx
  obtain ⟨pre, post, rfl⟩ := append_of_mem hx
  rcases mem_append.mp hy with hy' | hy'
  · have := hr.before hy'
    have := hr.size_ge hy
    omega
  rcases mem_cons.mp hy' with rfl | hy'
  · omega
  cases post with
  | nil => cases hy'
  | cons z rest =>
    have hzaddr := hr.next_addr
    rcases mem_cons.mp hy' with rfl | hy'
    · exact (isChain_append_cons_cons.mp halt).2.1 ⟨hxf, hyf⟩
    · have hr' : h.Represents arch ((pre ++ [x]) ++ z :: rest) := by simpa using hr
      have := hr'.after hy'
      have := hr'.size_ge (by simp : z ∈ pre ++ [x] ++ z :: rest)
      omega

theorem HeapSys.Inv.wellFormed (hi : s.Inv arch bs) : s.WellFormed arch := by
  have hr := hi.represents
  have hsize : ∀ x ∈ bs, 0 < x.size := fun x hx => by have := hr.size_ge hx; omega
  have hpair : bs.Pairwise fun x y => x ∈ bs ∧ y ∈ bs ∧ x.addr + x.size ≤ y.addr :=
    List.Pairwise.and_mem.mp hr.tiles.pairwise |>.imp fun hxy => ⟨hxy.1, hxy.2.1, hxy.2.2⟩
  refine ⟨bs,
    { tiles := hr.tiles
      word := hr.word
      magic := hr.magic
      mapped := hr.mapped
      freeList := hr.chain
      increasing := ?_
      notAdjacent := fun x hx y hy hxf hyf => not_adjacent hr hi.settled.alternate hx hy hxf hyf
      notLast := fun x hx hxf hend => ?_
      live := hi.live
      disjoint := ?_ }⟩
  · refine pairwise_map.mpr ((hpair.filter _).imp fun hxy => ?_)
    have := hsize _ hxy.1
    omega
  · obtain ⟨pre, post, rfl⟩ := append_of_mem hx
    obtain rfl := hr.last_of_brk hend
    have := hi.settled.last x (by simp)
    rw [hxf] at this
    cases this
  · refine hi.live.symm.pairwise ?_ fun hpq => Or.symm hpq
    refine pairwise_map.mpr ((hpair.filter _).imp fun hxy => .inl ?_)
    rw [blockEnd_eq hr hxy.1, Nat.add_sub_cancel]
    exact hxy.2.2

theorem heapInit_inv (mem : ByteMem) (answers : Nat → PageAnswer) :
    (⟨heapInit arch mem answers, []⟩ : HeapSys).Inv arch [] := by
  refine ⟨MapGrows.represents (heapMapUntil_grows _ _ _)
    { tiles := rfl
      sized := nofun
      word := nofun
      magic := nofun
      chain := rfl
      mapped := le_rfl
      inside := by rw [heapEnd_eq]; exact Nat.le_add_right _ _
      paged := pageSize_dvd_start arch }, ⟨isChain_nil, nofun⟩, List.Perm.nil⟩

/-! ## The calls -/

theorem handOut_perm {need ptr : Nat} {bs' : List Block} {live : List Nat}
    (hlive : live.Perm (usedPtrs arch bs))
    (hptr : ptr = 0 ∧ bs' = bs ∨ HandsOut arch bs need ptr bs') :
    (handOut live ptr).Perm (usedPtrs arch bs') := by
  rcases hptr with ⟨rfl, rfl⟩ | hout
  · exact hlive
  · obtain ⟨x, _, _, rfl, _⟩ := hout.block
    have hpos := heapHeaderSize_pos arch
    rw [handOut, if_neg (by omega)]
    exact (perm_append_comm.trans (hlive.cons _)).trans hout.used.symm

theorem heapStep_kmalloc (s : HeapSys) (size : UInt32) (answers : Nat → PageAnswer) :
    heapStep arch s (.kmalloc size answers) =
      some ⟨(kmalloc arch s.heap size answers).2,
        handOut s.live (kmalloc arch s.heap size answers).1⟩ :=
  rfl

theorem kmalloc_inv (hi : s.Inv arch bs)
    (hstep : heapStep arch s (.kmalloc size answers) = some t) : ∃ bs', t.Inv arch bs' := by
  obtain ⟨bs', hr', hs', hptr⟩ := kmalloc_represents hi.represents hi.settled size answers
  cases hstep
  exact ⟨bs', hr', hs', handOut_perm hi.live hptr⟩

/-- A product that fits 32 bits is what the multiplication gives. -/
theorem mul_toNat (hfits : count.toNat * size.toNat < 2 ^ 32) :
    (count * size).toNat = count.toNat * size.toNat := by
  rw [UInt32.toNat_mul]
  exact Nat.mod_eq_of_lt hfits

/-- The check of `kcalloc` rejects exactly the products above 32 bits. -/
theorem product_fits_iff :
    ¬ (count ≠ 0 ∧ size ≠ 0 ∧ size > 0xFFFFFFFF / count) ↔ count.toNat * size.toNat < 2 ^ 32 := by
  rcases eq_or_ne count 0 with rfl | hcount
  · simp
  rcases eq_or_ne size 0 with rfl | hsize
  · simp
  have hpos : 0 < count.toNat := Nat.pos_of_ne_zero fun h0 => hcount (UInt32.toNat_inj.mp h0)
  have hdiv : size > 0xFFFFFFFF / count ↔ 0xFFFFFFFF < size.toNat * count.toNat := by
    rw [gt_iff_lt, UInt32.lt_iff_toNat_lt]
    exact Nat.div_lt_iff_lt_mul hpos
  rw [hdiv, Nat.mul_comm count.toNat]
  simp only [hcount, hsize, ne_eq, not_false_eq_true, true_and]
  omega

/-- The zeroing stays in the block, so the call ends and the headers are kept. -/
theorem kcalloc_represents (hr : h.Represents arch bs) (hs : Settled bs)
    (hround : (HeapCall.kcalloc count size answers).Rounds) :
    ∃ ptr bs', (kcalloc arch h count size answers).1 = some ptr ∧
      (kcalloc arch h count size answers).2.Represents arch bs' ∧ Settled bs' ∧
      (ptr = 0 ∧ bs' = bs ∨ HandsOut arch bs (heapNeed arch (count * size)) ptr bs') := by
  unfold kcalloc
  split
  · exact ⟨0, bs, rfl, hr, hs, .inl ⟨rfl, rfl⟩⟩
  rename_i hok
  obtain ⟨bs', hr', hs', hptr⟩ := kmalloc_represents hr hs (count * size) answers
  rcases hcall : kmalloc arch h (count * size) answers with ⟨ptr, h'⟩
  rw [hcall] at hr' hptr
  simp only [hcall] at hr' hptr ⊢
  by_cases hzero : ptr = 0
  · subst hzero
    exact ⟨0, bs', rfl, hr', hs', hptr⟩
  rw [if_neg hzero]
  have hout := hptr.resolve_left fun hnull => hzero hnull.1
  obtain ⟨x, hx, hused, hptrx, hneed⟩ := hout.block
  have hproduct := product_fits_iff.mp hok
  have htotal : (count * size).toNat + 15 < 2 ^ 32 := by
    rw [mul_toNat hproduct]
    unfold HeapCall.Rounds at hround
    omega
  have hfits := @heapNeed_fits arch _ htotal
  have hbound := (hr'.bounds hx).2
  have hmapped := hr'.mapped
  rw [if_pos (by omega)]
  refine ⟨ptr, bs', rfl, ?_, hs', hptr⟩
  refine hr'.of_headers rfl rfl hr'.mapped hr'.paged (hr'.headers_of_body hx fun a ha => ?_)
  exact if_neg (by omega)

theorem kcalloc_inv (hi : s.Inv arch bs) (hround : (HeapCall.kcalloc count size answers).Rounds)
    (hstep : heapStep arch s (.kcalloc count size answers) = some t) : ∃ bs', t.Inv arch bs' := by
  obtain ⟨ptr, bs', hret, hr', hs', hptr⟩ := kcalloc_represents hi.represents hi.settled hround
  rcases hcall : kcalloc arch s.heap count size answers with ⟨ret, h'⟩
  rw [hcall] at hret hr'
  dsimp only at hret hr'
  subst hret
  simp only [heapStep, hcall] at hstep
  cases hstep
  exact ⟨bs', hr', hs', handOut_perm hi.live hptr⟩

theorem kfree_inv {addr : Nat} (hi : s.Inv arch bs)
    (hstep : heapStep arch s (.kfree addr) = some t) : ∃ bs', t.Inv arch bs' := by
  obtain ⟨hlive, rfl⟩ := of_guard hstep
  have hmemUsed : ∀ p ∈ s.live, ∃ x ∈ bs, x.free = false ∧ p = x.addr + arch.heapHeaderSize :=
    fun p hp => mem_usedPtrs.mp (hi.live.mem_iff.mp hp)
  rcases hlive with rfl | hmem
  · -- the null pointer is nobody's block
    have hnull : (0 : Nat) ∉ s.live := fun hmem => by
      obtain ⟨x, _, _, hp⟩ := hmemUsed 0 hmem
      have := heapHeaderSize_pos arch
      omega
    refine ⟨bs, hi.represents, hi.settled, ?_⟩
    rw [erase_of_not_mem hnull]
    exact hi.live
  · obtain ⟨x, hx, hused, rfl⟩ := hmemUsed addr hmem
    obtain ⟨bs', hr', hs', hperm⟩ := kfree_represents hi.represents hi.settled hx hused
    refine ⟨bs', hr', hs', ?_⟩
    have := (hi.live.trans hperm).erase (x.addr + arch.heapHeaderSize)
    rwa [erase_cons_head] at this

theorem write_inv {ptr offset : Nat} {v : UInt8} (hi : s.Inv arch bs)
    (hstep : heapStep arch s (.write ptr offset v) = some t) : ∃ bs', t.Inv arch bs' := by
  simp only [heapStep] at hstep
  split at hstep
  on_goal 2 => cases hstep
  rename_i hown
  obtain ⟨hmem, hoffset⟩ := hown
  cases hstep
  obtain ⟨x, hx, hused, rfl⟩ := mem_usedPtrs.mp (hi.live.mem_iff.mp hmem)
  rw [HeapState.usable, Nat.add_sub_cancel, hi.represents.sizeMask hx] at hoffset
  refine ⟨bs, hi.represents.of_headers rfl rfl hi.represents.mapped hi.represents.paged
    (hi.represents.headers_of_body hx fun a ha => ?_), hi.settled, hi.live⟩
  exact Function.update_of_ne (by omega) ..

theorem heapStep_inv (s : HeapSys) (c : HeapCall) (t : HeapSys) (hi : ∃ bs, s.Inv arch bs)
    (hround : c.Rounds) (hstep : heapStep arch s c = some t) : ∃ bs, t.Inv arch bs := by
  obtain ⟨bs, hi⟩ := hi
  cases c with
  | kmalloc size answers => exact kmalloc_inv hi hstep
  | kcalloc count size answers => exact kcalloc_inv hi hround hstep
  | kfree addr => exact kfree_inv hi hstep
  | write ptr offset v => exact write_inv hi hstep

/-- **The heap stays tiled.**  After every call of a run in which no `kcalloc` asks for
one of the 15 largest products of 32 bits, the blocks tile the heap, the free list holds
exactly the free blocks in address order, free blocks touch neither each other nor the
break, and live blocks are disjoint. -/
theorem heap_run_tiled (arch : X86) (mem : ByteMem) (answers : Nat → PageAnswer)
    (calls : List HeapCall) (s : HeapSys)
    (rounds : AllSteps (heapStep arch) (fun _ c => c.Rounds) ⟨heapInit arch mem answers, []⟩ calls)
    (run : exec (heapStep arch) ⟨heapInit arch mem answers, []⟩ calls = some s) :
    s.WellFormed arch := by
  obtain ⟨bs, hi⟩ := exec_invariant heapStep_inv ⟨[], heapInit_inv mem answers⟩ rounds run
  exact hi.wellFormed

/-- A page allocator that never refuses; its pages hold old bytes. -/
def plenty : Nat → PageAnswer := fun k => ⟨(k + 1) * pageSize, true, fun _ => 0xAA⟩

/-- Three blocks, of which the second and the first are freed and merge; the hole is
split for a cleared block. -/
def splitAndMerge : List HeapCall :=
  [.kmalloc 100 plenty, .kmalloc 40 plenty, .kmalloc 8 plenty, .write 0xFFFFFFFF90000010 3 7,
    .kfree 0xFFFFFFFF90000090, .kfree 0xFFFFFFFF90000010, .kcalloc 4 10 plenty]

theorem heap_run_tiled_merge :
    ∃ s, exec (heapStep .amd64) ⟨heapInit .amd64 (fun _ => 0) plenty, []⟩ splitAndMerge = some s ∧
      s.live = [0xFFFFFFFF900000D0, 0xFFFFFFFF90000010] ∧
      s.heap.freeList = 0xFFFFFFFF90000040 ∧ s.WellFormed .amd64 := by
  have hrounds : ∀ c ∈ splitAndMerge, c.Rounds := by decide
  refine exists_run (A := fun s => s.live = [0xFFFFFFFF900000D0, 0xFFFFFFFF90000010] ∧
    s.heap.freeList = 0xFFFFFFFF90000040) (by decide +kernel) ?_
  rintro s hrun ⟨hlive, hfree⟩
  exact ⟨hlive, hfree, heap_run_tiled .amd64 _ plenty splitAndMerge s
    (AllSteps.of_forall fun c hc _ => hrounds c hc) hrun⟩

/-- `kcalloc(1, 0xFFFFFFFF)` is given the 32 bytes of the freed first block, and zeroes
the header of the second one and all that is mapped behind it. -/
def clearTooMuch : List HeapCall :=
  [.kmalloc 16 plenty, .kmalloc 16 plenty, .kfree 0xFFFFFFFF90000010, .kcalloc 1 0xFFFFFFFF plenty]

theorem kcalloc_clears_headers :
    ∃ s, exec (heapStep .amd64) ⟨heapInit .amd64 (fun _ => 0) plenty, []⟩ clearTooMuch = some s ∧
      ¬ s.WellFormed .amd64 := by
  refine exists_run (A := fun s => s.heap.brk = 0xFFFFFFFF90000040 ∧ s.heap.freeList = 0 ∧
    s.heap.size .amd64 0xFFFFFFFF90000000 = 32 ∧ s.heap.next .amd64 0xFFFFFFFF90000020 = 0)
    (by decide +kernel) ?_
  rintro s - ⟨hbrk, hfree, hsize, hnext'⟩ ⟨bs, hbs⟩
  have hchain := hbs.freeList
  rw [hfree] at hchain
  have hused : ∀ x ∈ bs, x.free = false := fun x hx => by
    by_contra hx'
    have hmem : x.addr ∈ freeAddrs bs := mem_map_of_mem (mem_filter.mpr ⟨hx, by simpa using hx'⟩)
    obtain ⟨a, l, hl⟩ := exists_cons_of_ne_nil (ne_nil_of_mem hmem)
    rw [hl] at hchain
    exact hchain.2.1 hchain.1.symm
  have hword : ∀ x ∈ bs, s.heap.size .amd64 x.addr = x.size := fun x hx => by
    rw [hbs.word x hx, Block.word, hused x hx, if_neg Bool.false_ne_true]
  have htiles := hbs.tiles
  rw [hbrk] at htiles
  -- The first block is the one of `kcalloc`; the second header is gone.
  cases bs with
  | nil => exact absurd (show X86.amd64.heapStart = 0xFFFFFFFF90000040 from htiles) (by decide)
  | cons x rest =>
    have hx := hword x mem_cons_self
    rw [htiles.1] at hx
    have hx' : x.size = 32 := hx.symm.trans hsize
    have hrest := htiles.2
    rw [hx'] at hrest
    cases rest with
    | nil =>
      exact absurd (show X86.amd64.heapStart + 32 = 0xFFFFFFFF90000040 from hrest) (by decide)
    | cons y rest =>
      have hy := hbs.magic y (by simp) (hused y (by simp))
      rw [hrest.1] at hy
      exact absurd (hnext'.symm.trans hy) (by decide)

/-! ## Requests -/

/-- `ptr` is the start of a used block with `n` usable bytes. -/
def HeapState.Serves (arch : X86) (h : HeapState) (ptr n : Nat) : Prop :=
  (∃ bs, h.Represents arch bs ∧ ptr ∈ usedPtrs arch bs) ∧ n ≤ h.usable arch ptr

theorem HeapState.Represents.usable_eq (hr : h.Represents arch bs) (hx : x ∈ bs) :
    h.usable arch (x.addr + arch.heapHeaderSize) = x.size - arch.heapHeaderSize := by
  rw [HeapState.usable, Nat.add_sub_cancel, hr.sizeMask hx]

/-- A request that rounds up within 32 bits is given a block with room. -/
theorem HandsOut.serves {ptr : Nat} {bs' : List Block} (hr : h.Represents arch bs')
    (hout : HandsOut arch bs (heapNeed arch size) ptr bs') (hsize : size.toNat + 15 < 2 ^ 32) :
    h.Serves arch ptr size.toNat := by
  obtain ⟨x, hx, hused, rfl, hneed⟩ := hout.block
  refine ⟨⟨bs', hr, mem_usedPtrs.mpr ⟨x, hx, hused, rfl⟩⟩, ?_⟩
  have hfits := @heapNeed_fits arch size hsize
  rw [hr.usable_eq hx]
  omega

/-- No block is larger than the heap. -/
theorem HeapState.Serves.le {ptr n : Nat} (hs : h.Serves arch ptr n) : n ≤ 2 ^ 28 := by
  obtain ⟨⟨bs, hr, hmem⟩, hn⟩ := hs
  obtain ⟨x, hx, -, rfl⟩ := mem_usedPtrs.mp hmem
  have hbounds := hr.bounds hx
  have hinside := hr.inside
  rw [heapEnd_eq] at hinside
  rw [hr.usable_eq hx] at hn
  omega

theorem kcalloc_zeroes {ptr : Nat} (hret : (kcalloc arch h count size answers).1 = some ptr)
    (hptr : ptr ≠ 0) : count.toNat * size.toNat < 2 ^ 32 ∧ ∀ i < count.toNat * size.toNat,
      (kcalloc arch h count size answers).2.mem (ptr + i) = 0 := by
  unfold kcalloc at hret ⊢
  split at hret
  · exact absurd (Option.some.inj hret).symm hptr
  rename_i hok
  have hproduct := product_fits_iff.mp hok
  refine ⟨hproduct, fun i hi => ?_⟩
  rw [if_neg hok]
  rcases hcall : kmalloc arch h (count * size) answers with ⟨ptr', h'⟩
  simp only [hcall] at hret ⊢
  split at hret
  · exact absurd (Option.some.inj hret).symm hptr
  rename_i hnull
  split at hret
  · rename_i hmapped
    cases hret
    rw [if_neg hnull, if_pos hmapped]
    refine if_pos ⟨Nat.le_add_right _ _, ?_⟩
    rw [mul_toNat hproduct]
    omega
  · cases hret

/-- **Requests that round are served.**  After every run in which no `kcalloc` asks for one
of the 15 largest products of 32 bits, a pointer from `kmalloc` is the start of a block with
the requested room exactly when the size is not one of the 15 largest, and a pointer from
`kcalloc`, asked for no such product, has the room of the product, all of it zero. -/
theorem requests_served_iff (arch : X86) (mem : ByteMem) (answers : Nat → PageAnswer)
    (calls : List HeapCall) (s : HeapSys)
    (rounds : AllSteps (heapStep arch) (fun _ c => c.Rounds) ⟨heapInit arch mem answers, []⟩ calls)
    (run : exec (heapStep arch) ⟨heapInit arch mem answers, []⟩ calls = some s) :
    (∀ size pages, (kmalloc arch s.heap size pages).1 ≠ 0 →
      ((kmalloc arch s.heap size pages).2.Serves arch (kmalloc arch s.heap size pages).1
        size.toNat ↔
        size.toNat + 15 < 2 ^ 32)) ∧
    ∀ count size pages ptr, (HeapCall.kcalloc count size pages).Rounds →
      (kcalloc arch s.heap count size pages).1 = some ptr → ptr ≠ 0 →
      (kcalloc arch s.heap count size pages).2.Serves arch ptr (count.toNat * size.toNat) ∧
        ∀ i < count.toNat * size.toNat,
          (kcalloc arch s.heap count size pages).2.mem (ptr + i) = 0 := by
  obtain ⟨bs, hi⟩ := exec_invariant heapStep_inv ⟨[], heapInit_inv mem answers⟩ rounds run
  refine ⟨fun size pages hptr => ?_, fun count size pages ptr hround hret hptr => ?_⟩
  · obtain ⟨bs', hr', -, hout⟩ := kmalloc_represents hi.represents hi.settled size pages
    refine ⟨fun hs => ?_, (hout.resolve_left fun hnull => hptr hnull.1).serves hr'⟩
    have := hs.le
    omega
  · obtain ⟨ptr', bs', hret', hr', -, hout⟩ := kcalloc_represents hi.represents hi.settled hround
    obtain rfl := Option.some.inj (hret'.symm.trans hret)
    obtain ⟨hproduct, hzero⟩ := kcalloc_zeroes hret hptr
    refine ⟨?_, hzero⟩
    have hserves := (hout.resolve_left fun hnull => hptr hnull.1).serves hr'
    rw [mul_toNat hproduct] at hserves
    unfold HeapCall.Rounds at hround
    exact hserves (by omega)

/-- A block and a zeroed array, and then a third block. -/
def threeRequests : List HeapCall := [.kmalloc 100 plenty, .kcalloc 3 8 plenty]

theorem requests_served_fresh :
    ∃ s, exec (heapStep .amd64) ⟨heapInit .amd64 (fun _ => 0) plenty, []⟩ threeRequests = some s ∧
      s.live = [0xFFFFFFFF90000010, 0xFFFFFFFF90000090] ∧
      (kmalloc .amd64 s.heap 200 plenty).2.Serves .amd64 0xFFFFFFFF900000C0 200 := by
  have hrounds : ∀ c ∈ threeRequests, c.Rounds := by decide
  refine exists_run (A := fun s => s.live = [0xFFFFFFFF90000010, 0xFFFFFFFF90000090] ∧
    (kmalloc .amd64 s.heap 200 plenty).1 = 0xFFFFFFFF900000C0) (by decide +kernel) ?_
  rintro s hrun ⟨hlive, hptr⟩
  have hserved := ((requests_served_iff .amd64 (fun _ => 0) plenty threeRequests s
    (AllSteps.of_forall fun c hc _ => hrounds c hc) hrun).1 200 plenty
    (by rw [hptr]; decide)).mpr (by decide)
  rw [hptr] at hserved
  exact ⟨hlive, hserved⟩

/-- `kmalloc(0xFFFFFFFF)` on a fresh heap returns a block of 32 bytes, 16 of them usable. -/
theorem kmalloc_top_size_too_small :
    (kmalloc .amd64 (heapInit .amd64 (fun _ => 0) plenty) 0xFFFFFFFF plenty).1 =
        0xFFFFFFFF90000010 ∧
      (kmalloc .amd64 (heapInit .amd64 (fun _ => 0) plenty) 0xFFFFFFFF plenty).2.usable .amd64
        0xFFFFFFFF90000010 = 16 := by
  decide +kernel

end ArcKernel.Heap
