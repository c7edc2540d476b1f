import ArcKernel.Heap.Arm64

/-!
# The arm64 heap over whole runs

Every block that was split off in front keeps the free mark in its header and has left
the free list, so `kfree` ignores it.  What is left of the region is one block at its
end, which is either the whole free list or handed out whole.  The invariant says just
that; live blocks are disjoint in every run, and a free is honoured exactly when the
block was not split off.
-/

namespace ArcKernel.Heap.Arm64

open ArcKernel.Foundation List Option

variable {addr blockSize len : Nat}

/-! ## The properties -/

/-- The block is on the free list, marked free, with its full size. -/
structure StaticHeap.HasBack (h : StaticHeap) (e : Handed) : Prop where
  listed : ∃ l, Segment (h.get .next) h.freeList l 0 ∧ e.ptr - headerSize ∈ l
  marked : h.get .magic (e.ptr - headerSize) = heapMagicFree
  sized : heapSizeMask (h.get .size (e.ptr - headerSize)) = e.len

/-- Freeing a live block puts it back, and when all are freed a request as large as any
block handed out before succeeds. -/
structure ArmSys.HonoursFrees (r : HeapRegion) (s : ArmSys) : Prop where
  back : ∀ e ∈ s.live, (kfree s.heap e.ptr).HasBack e
  again : s.live = [] → ∀ e ∈ s.handed, ∀ size : UInt32, 0 < size.toNat → size.toNat ≤ e.len →
    ∃ ptr h, kmalloc r s.heap size = some (ptr, h) ∧ ptr ≠ 0

/-- Two blocks, with their headers, do not overlap. -/
def Handed.DisjointFrom (e f : Handed) : Prop :=
  e.ptr + e.len ≤ f.ptr - headerSize ∨ f.ptr + f.len ≤ e.ptr - headerSize

/-! ## Header fields -/

section Fields

variable {h : StaticHeap} {f g : Field} {b c v lo : Nat}

theorem Field.fits (f : Field) : f.offset + f.width ≤ headerSize := by cases f <;> decide

theorem Field.separate (hfg : f ≠ g) :
    f.offset + f.width ≤ g.offset ∨ g.offset + g.width ≤ f.offset := by
  cases f <;> cases g <;> first | exact absurd rfl hfg | decide

theorem get_set_self (hv : v < 256 ^ f.width) : (h.set f b v).get f b = v :=
  ByteMem.load_store _ _ hv

theorem get_set_other (hfg : f ≠ g) : (h.set f b v).get g b = h.get g b := by
  refine ByteMem.load_store_of_disjoint _ _ ?_
  rcases Field.separate hfg with hlt | hlt <;> omega

theorem get_set_apart (hbc : b + headerSize ≤ c ∨ c + headerSize ≤ b) :
    (h.set f b v).get g c = h.get g c := by
  refine ByteMem.load_store_of_disjoint _ _ ?_
  have := f.fits
  have := g.fits
  omega

theorem get_clear (hb : b + headerSize ≤ lo ∨ lo + len ≤ b) :
    (h.clear lo len).get f b = h.get f b := by
  refine ByteMem.load_fill_of_disjoint _ _ ?_
  have := f.fits
  omega

theorem get_congr {h' : StaticHeap}
    (hsame : ∀ x, b ≤ x → x < b + headerSize → h'.mem x = h.mem x) : h'.get f b = h.get f b := by
  refine ByteMem.load_congr fun x hlo hhi => hsame x (by omega) ?_
  have := f.fits
  omega

end Fields

/-! ## The last block -/

variable {r : HeapRegion} {h : StaticHeap} {s t : ArmSys} {a : Nat}

/-- The block that reaches to the end of the region. -/
structure Tail (r : HeapRegion) (h : StaticHeap) (a : Nat) : Prop where
  low : r.start ≤ a
  aligned : 4 ∣ a
  room : a + headerSize + 16 ≤ r.stop
  size : h.get .size a = r.stop - a - headerSize
  next : h.get .next a = 0

theorem Tail.sizeMask (ht : Tail r h a) :
    heapSizeMask (h.get .size a) = r.stop - a - headerSize := by
  rw [ht.size]
  refine Nat.mod_eq_of_lt ?_
  have := ht.low
  simp only [HeapRegion.stop, heapBytes]
  omega

theorem Tail.ne_zero (ht : Tail r h a) : a ≠ 0 := by
  have := ht.low
  have := r.start_pos
  omega

theorem heapDoInit_tail (r : HeapRegion) (h : StaticHeap) :
    Tail r (heapDoInit r h) r.start ∧ (heapDoInit r h).get .magic r.start = heapMagicFree := by
  have hstop : r.stop - r.start - headerSize = 8388592 := by
    simp only [HeapRegion.stop, heapBytes, headerSize]
    omega
  have hgets : ∀ f, (heapDoInit r h).get f r.start = ((((h.clear r.start headerSize).set .magic
      r.start heapMagicFree).set .size r.start (r.stop - r.start - headerSize)).set .next
        r.start 0).get f r.start := fun _ => rfl
  refine ⟨⟨le_rfl, (by decide : 4 ∣ 16).trans r.aligned, ?_, ?_, ?_⟩, ?_⟩
  · simp only [HeapRegion.stop, heapBytes, headerSize]
    omega
  · rw [hgets, get_set_other (by decide), get_set_self (by rw [hstop]; decide)]
  · rw [hgets, get_set_self (by decide)]
  · rw [hgets, get_set_other (by decide), get_set_other (by decide), get_set_self (by decide)]

/-- The walk over a list of one block. -/
theorem kmallocWalk_tail (ht : Tail r h a) (hmagic : h.get .magic a = heapMagicFree)
    (size n : Nat) : kmallocWalk size (n + 2) h 0 a =
      some (if r.stop - a - headerSize ≥ size then
        (a + headerSize, heapTake h size 0 a (r.stop - a - headerSize)) else (0, h)) := by
  rw [kmallocWalk, if_neg ht.ne_zero, if_neg (not_not.mpr hmagic), ht.sizeMask]
  dsimp only
  split
  · rfl
  · rw [ht.next, kmallocWalk, if_pos rfl]

theorem kmallocWalk_null (size n prev : Nat) : kmallocWalk size (n + 1) h prev 0 = some (0, h) := by
  rw [kmallocWalk, if_pos rfl]

/-- The last block is handed out whole. -/
theorem heapTake_whole {size : Nat} (hsplit : splits size blockSize = false)
    (hnext : h.get .next a = 0) :
    (heapTake h size 0 a blockSize).freeList = 0 ∧
      (heapTake h size 0 a blockSize).initialized = h.initialized ∧
      (heapTake h size 0 a blockSize).get .magic a = heapMagicUsed ∧
      (heapTake h size 0 a blockSize).get .size a = h.get .size a ∧
      (heapTake h size 0 a blockSize).get .next a = 0 ∧
      ∀ f b, b + headerSize ≤ a → (heapTake h size 0 a blockSize).get f b = h.get f b := by
  have hlist : (h.set .magic a heapMagicUsed).get .next a = 0 := by
    rw [get_set_other (by decide), hnext]
  have htake : heapTake h size 0 a blockSize =
      ({ h.set .magic a heapMagicUsed with freeList := 0 }).clear (a + headerSize) size := by
    simp only [heapTake, hsplit, Bool.false_eq_true, if_false, ne_eq, not_true_eq_false, hlist]
  have hget : ∀ f b, b ≤ a → (heapTake h size 0 a blockSize).get f b =
      (h.set .magic a heapMagicUsed).get f b := fun f b hb => by
    rw [htake, get_clear (.inl (by omega))]
    rfl
  refine ⟨by rw [htake]; rfl, by rw [htake]; rfl, ?_, ?_, ?_, fun f b hb => ?_⟩
  · rw [hget _ _ le_rfl, get_set_self (by decide)]
  · rw [hget _ _ le_rfl, get_set_other (by decide)]
  · rw [hget _ _ le_rfl, hlist]
  · rw [hget _ _ (by omega), get_set_apart (.inr hb)]

/-- The headers that splitting the last block for a request writes. -/
def carve (h : StaticHeap) (size a blockSize : Nat) : StaticHeap :=
  ((((h.set .magic (a + headerSize + size) heapMagicFree).set .size (a + headerSize + size)
    (blockSize - size - headerSize)).set .next (a + headerSize + size) 0).set .size a
      (size ||| heapMagicUsed)).set .next a (a + headerSize + size)

section

variable {size : Nat} (hsplit : splits size blockSize = true)
include hsplit

theorem heapTake_carves (hnext : h.get .next a = 0) (hnew : a + headerSize + size < 2 ^ 64) :
    heapTake h size 0 a blockSize =
      ({ carve h size a blockSize with freeList := a + headerSize + size }).clear
        (a + headerSize) size := by
  have hapart : a + headerSize + size + headerSize ≤ a ∨ a + headerSize ≤ a + headerSize + size :=
    .inr (Nat.le_add_right _ _)
  have hread : ((h.set .magic (a + headerSize + size) heapMagicFree).set .size
      (a + headerSize + size) (blockSize - size - headerSize)).get .next a = 0 := by
    rw [get_set_apart hapart, get_set_apart hapart, hnext]
  have hlist : (carve h size a blockSize).get .next a = a + headerSize + size :=
    get_set_self (by simpa [Field.width] using hnew)
  simp only [heapTake, hsplit, if_true, ne_eq, not_true_eq_false, if_false, hread]
  rw [← carve, hlist]

/-- The front of the last block is handed out, still marked free. -/
theorem heapTake_split (hbound : blockSize < 2 ^ 31) (hnext : h.get .next a = 0)
    (hnew : a + headerSize + size < 2 ^ 64) :
    (heapTake h size 0 a blockSize).freeList = a + headerSize + size ∧
      (heapTake h size 0 a blockSize).initialized = h.initialized ∧
      (heapTake h size 0 a blockSize).get .magic (a + headerSize + size) = heapMagicFree ∧
      (heapTake h size 0 a blockSize).get .size (a + headerSize + size) =
        blockSize - size - headerSize ∧
      (heapTake h size 0 a blockSize).get .next (a + headerSize + size) = 0 ∧
      (heapTake h size 0 a blockSize).get .magic a = h.get .magic a ∧
      ∀ f b, b + headerSize ≤ a → (heapTake h size 0 a blockSize).get f b = h.get f b := by
  have hget : ∀ f b, b ≤ a ∨ a + headerSize + size ≤ b →
      (heapTake h size 0 a blockSize).get f b = (carve h size a blockSize).get f b :=
        fun f b hb => by
    rw [heapTake_carves hsplit hnext hnew, get_clear (by omega)]
    rfl
  have hapart : a + headerSize + size + headerSize ≤ a ∨ a + headerSize ≤ a + headerSize + size :=
    .inr (Nat.le_add_right _ _)
  -- the two last writes are to the header in front of the new one
  have htail : ∀ f, (carve h size a blockSize).get f (a + headerSize + size) =
      (((h.set .magic (a + headerSize + size) heapMagicFree).set .size (a + headerSize + size)
        (blockSize - size - headerSize)).set .next (a + headerSize + size) 0).get f
          (a + headerSize + size) := fun f => by
    rw [carve, get_set_apart hapart.symm, get_set_apart hapart.symm]
  refine ⟨by rw [heapTake_carves hsplit hnext hnew]; rfl,
    by rw [heapTake_carves hsplit hnext hnew]; rfl, ?_, ?_, ?_, ?_, fun f b hb => ?_⟩
  · rw [hget _ _ (.inr le_rfl), htail, get_set_other (by decide), get_set_other (by decide),
      get_set_self (by decide)]
  · rw [hget _ _ (.inr le_rfl), htail, get_set_other (by decide),
      get_set_self (by simp only [Field.width]; omega)]
  · rw [hget _ _ (.inr le_rfl), htail, get_set_self (by decide)]
  · rw [hget _ _ (.inl le_rfl), carve, get_set_other (by decide), get_set_other (by decide),
      get_set_apart hapart, get_set_apart hapart, get_set_apart hapart]
  · have hfar :
      a + headerSize + size + headerSize ≤ b ∨ b + headerSize ≤ a + headerSize + size := by
      omega
    rw [hget _ _ (by omega), carve, get_set_apart (.inr hb), get_set_apart (.inr hb),
      get_set_apart hfar, get_set_apart hfar, get_set_apart hfar]

end

/-! ## The invariant -/

/-- An initialised heap: the blocks `old` were split off and lie before the last block
`a`, which is handed out when `busy` and the free list otherwise. -/
structure ArmSys.Inv (r : HeapRegion) (s : ArmSys) (a : Nat) (busy : Bool) (old : List Handed) :
    Prop where
  ready : s.heap.initialized = true
  tail : Tail r s.heap a
  magic : s.heap.get .magic a = if busy then heapMagicUsed else heapMagicFree
  list : s.heap.freeList = if busy then 0 else a
  live : s.live = old ++ if busy then [⟨a + headerSize, r.stop - a - headerSize⟩] else []
  before : ∀ e ∈ old, r.start + headerSize ≤ e.ptr ∧ e.ptr + e.len ≤ a ∧
    s.heap.get .magic (e.ptr - headerSize) = heapMagicFree
  apart : old.Pairwise fun e f => e.ptr + e.len + headerSize ≤ f.ptr
  bound : ∀ e ∈ s.handed, e.len ≤ heapBytes - headerSize

/-- The same before the first call, when the last block is the whole region. -/
def ArmSys.At (r : HeapRegion) (s : ArmSys) (a : Nat) (old : List Handed) : Prop :=
  (s.heap.initialized = false ∧ s.live = [] ∧ s.handed = []) ∧ a = r.start ∧ old = [] ∨
    ∃ busy, s.Inv r a busy old

variable {busy : Bool} {old : List Handed}

theorem ArmSys.Inv.disjoint (hi : s.Inv r a busy old) : s.live.Pairwise Handed.DisjointFrom := by
  have hold : old.Pairwise Handed.DisjointFrom := hi.apart.imp fun hef => .inl (by omega)
  rw [hi.live]
  refine pairwise_append.mpr ⟨hold, ?_, fun e he f hf => ?_⟩
  · cases busy with
    | true => exact pairwise_singleton _ _
    | false => exact List.Pairwise.nil
  cases busy with
  | true =>
    obtain rfl := mem_singleton.mp hf
    refine .inl ?_
    show e.ptr + e.len ≤ a + headerSize - headerSize
    have := (hi.before e he).2.1
    omega
  | false => cases hf

/-- What the invariant asks of the memory are the headers up to the last one. -/
theorem ArmSys.Inv.of_headers (hi : s.Inv r a busy old) (hready : t.heap.initialized = true)
    (hlist : t.heap.freeList = s.heap.freeList) (hlive : t.live = s.live)
    (hhanded : t.handed = s.handed) (htail : ∀ f, t.heap.get f a = s.heap.get f a)
    (hold : ∀ e ∈ old, t.heap.get .magic (e.ptr - headerSize) =
      s.heap.get .magic (e.ptr - headerSize)) : t.Inv r a busy old where
  ready := hready
  tail := { hi.tail with
    size := (htail .size).trans hi.tail.size
    next := (htail .next).trans hi.tail.next }
  magic := (htail .magic).trans hi.magic
  list := hlist.trans hi.list
  live := hlive.trans hi.live
  before e he := ⟨(hi.before e he).1, (hi.before e he).2.1, (hold e he).trans (hi.before e he).2.2⟩
  apart := hi.apart
  bound := hhanded ▸ hi.bound

theorem ArmSys.At.heapInit (hs : s.At r a old) :
    ∃ busy, ({ s with heap := heapInit r s.heap } : ArmSys).Inv r a busy old := by
  rcases hs with ⟨⟨hboot, hlive, hhanded⟩, rfl, rfl⟩ | ⟨busy, hi⟩
  · obtain ⟨htail, hmagic⟩ := heapDoInit_tail r s.heap
    refine ⟨false, ?_⟩
    rw [Arm64.heapInit, hboot, if_neg Bool.false_ne_true]
    have hlist : (heapDoInit r s.heap).freeList = r.start := rfl
    exact
      { ready := rfl
        tail := htail
        magic := by simpa using hmagic
        list := by simpa using hlist
        live := by simpa using hlive
        before := nofun
        apart := List.Pairwise.nil
        bound := fun e he => by simp [hhanded] at he }
  · refine ⟨busy, ?_⟩
    rw [Arm64.heapInit, if_pos hi.ready]
    exact hi

/-! ## Requests -/

theorem heapRound_dvd (size : UInt32) : 4 ∣ heapRound size := by
  unfold heapRound
  dsimp only
  split
  · decide
  · refine (Nat.dvd_mod_iff (by decide)).mpr ?_
    exact Nat.dvd_mul_left _ _

variable {size : UInt32}

/-- A request that fits a block whose size is a multiple of 4 fits after rounding. -/
theorem heapRound_le (hsize : size.toNat ≤ len) (hlen : 16 ≤ len) (hdvd : 4 ∣ len)
    (hbound : len < 2 ^ 31) : heapRound size ≤ len := by
  unfold heapRound
  dsimp only
  split
  · exact hlen
  · rw [UInt32.toNat_mul, UInt32.toNat_div, UInt32.toNat_add]
    simp only [UInt32.reduceToNat]
    omega

/-- What a request finds in an initialised heap. -/
theorem ArmSys.Inv.kmalloc_eq (hi : s.Inv r a busy old) (size : UInt32) :
    kmalloc r s.heap size = some (
      if size ≠ 0 ∧ busy = false ∧ heapRound size ≤ r.stop - a - headerSize then
        (a + headerSize, heapTake s.heap (heapRound size) 0 a (r.stop - a - headerSize))
      else (0, s.heap)) := by
  have hbytes : heapBytes = 8388606 + 2 := rfl
  unfold kmalloc
  split
  · rename_i hzero
    rw [if_neg fun hsize => hsize.1 hzero]
  rename_i hsize
  dsimp only
  rw [heapInit, if_pos hi.ready, hbytes, hi.list]
  cases busy with
  | true =>
    simp only [if_true, kmallocWalk_null, Bool.true_eq_false, false_and, and_false, if_false]
  | false =>
    have hmagic : s.heap.get .magic a = heapMagicFree := hi.magic
    simp only [Bool.false_eq_true, if_false, kmallocWalk_tail hi.tail hmagic, hsize, ne_eq,
      not_false_eq_true, true_and, ge_iff_le]

theorem heapInit_twice (r : HeapRegion) (h : StaticHeap) :
    heapInit r (heapInit r h) = heapInit r h := by
  unfold heapInit
  split <;> rfl

/-- The first request initialises the heap. -/
theorem kmalloc_heapInit (r : HeapRegion) (h : StaticHeap) (hsize : size ≠ 0) :
    kmalloc r (heapInit r h) size = kmalloc r h size := by
  simp only [kmalloc, if_neg hsize, heapInit_twice]

theorem armStep_heapInit (r : HeapRegion) (s : ArmSys) (hsize : size ≠ 0) :
    armStep r { s with heap := heapInit r s.heap } (.kmalloc size) = armStep r s (.kmalloc size) ∧
      (({ s with heap := heapInit r s.heap } : ArmSys).Splits r (.kmalloc size) ↔
        s.Splits r (.kmalloc size)) := by
  constructor
  · simp only [armStep, handedBlock, sizeBefore, kmalloc_heapInit r s.heap hsize, heapInit_twice]
    rcases kmalloc r s.heap size with _ | ⟨ptr, h⟩
    · rfl
    · rfl
  · simp only [ArmSys.Splits, heapInit_twice]

theorem ArmSys.Inv.sizeBefore_eq (hi : s.Inv r a busy old) :
    sizeBefore r s.heap (a + headerSize) = r.stop - a - headerSize := by
  rw [sizeBefore, heapInit, if_pos hi.ready, Nat.add_sub_cancel, hi.tail.sizeMask]

/-- A request finds the last block, unless it is handed out. -/
theorem ArmSys.Inv.splits_iff (hi : s.Inv r a busy old) (size : UInt32) :
    s.Splits r (.kmalloc size) ↔
      size ≠ 0 ∧ busy = false ∧ splits (heapRound size) (r.stop - a - headerSize) = true := by
  have hbytes : heapBytes = 8388606 + 2 := rfl
  rw [ArmSys.Splits, heapInit, if_pos hi.ready, hbytes, hi.list]
  refine and_congr_right fun _ => ?_
  cases busy with
  | true => simp [StaticHeap.firstFit]
  | false =>
    have hmagic : s.heap.get .magic a = heapMagicFree := hi.magic
    simp only [Bool.false_eq_true, if_false, true_and]
    rw [StaticHeap.firstFit, if_neg hi.tail.ne_zero, hi.tail.sizeMask, hi.tail.next, hmagic]
    by_cases hfit : heapRound size ≤ r.stop - a - headerSize
    · simp [hfit]
    · have hno : splits (heapRound size) (r.stop - a - headerSize) = false :=
        decide_eq_false (by omega)
      simp [hfit, hno, StaticHeap.firstFit]

/-- A request hands out the last block whole or its front, or nothing. -/
theorem kmalloc_inv (hi : s.Inv r a busy old) (hstep : armStep r s (.kmalloc size) = some t) :
    (¬ s.Splits r (.kmalloc size) ∧ ∃ busy', t.Inv r a busy' old) ∨
      s.Splits r (.kmalloc size) ∧ ∃ a' e, t.Inv r a' false (old ++ [e]) := by
  have heq := hi.kmalloc_eq size
  split at heq
  on_goal 2 =>
    simp only [armStep, heq, if_true] at hstep
    cases hstep
    rename_i hfits
    refine .inl ⟨fun hsplits => hfits ?_, busy, hi⟩
    obtain ⟨hsize, hbusy, hcut⟩ := (hi.splits_iff size).mp hsplits
    have := of_decide_eq_true hcut
    exact ⟨hsize, hbusy, by omega⟩
  rename_i hfits
  obtain ⟨hsize, rfl, hround⟩ := hfits
  have hlow := hi.tail.low
  have hroom := hi.tail.room
  have hstop : r.stop = r.start + heapBytes := rfl
  have hinside := r.inside
  have hptr : a + headerSize ≠ 0 := by have := hi.tail.ne_zero; omega
  simp only [armStep, heq, if_neg hptr, handedBlock, hi.sizeBefore_eq] at hstep
  obtain rfl := some.inj hstep
  have hlive : s.live = old := by
    rw [hi.live]
    exact append_nil old
  have hheaders : ∀ e ∈ old, e.ptr - headerSize + headerSize ≤ a := fun e he => by
    have := hi.before e he
    omega
  have hlen : (if splits (heapRound size) (r.stop - a - headerSize) = true then heapRound size
      else r.stop - a - headerSize) ≤ heapBytes - headerSize := by
    split <;> omega
  have hbound : ∀ e ∈ s.handed ++ [(⟨a + headerSize, if splits (heapRound size)
      (r.stop - a - headerSize) = true then heapRound size else r.stop - a - headerSize⟩ : Handed)],
      e.len ≤ heapBytes - headerSize := by
    intro e he
    rcases mem_append.mp he with he | he
    · exact hi.bound e he
    · obtain rfl := mem_singleton.mp he
      exact hlen
  cases hsplit : splits (heapRound size) (r.stop - a - headerSize) with
  | false =>
    obtain ⟨hlist, hready, hmagic, hsizeWord, hnext, hothers⟩ := heapTake_whole hsplit hi.tail.next
    refine .inl ⟨?_, true,
      { ready := hready.trans hi.ready
        tail := ⟨hlow, hi.tail.aligned, hroom, hsizeWord.trans hi.tail.size, hnext⟩
        magic := hmagic
        list := hlist
        live := by simp [hlive]
        before := fun e he => ⟨(hi.before e he).1, (hi.before e he).2.1,
          (hothers _ _ (hheaders e he)).trans (hi.before e he).2.2⟩
        apart := hi.apart
        bound := by rw [hsplit] at hbound; exact hbound }⟩
    intro hsplits
    have hyes := ((hi.splits_iff size).mp hsplits).2.2
    rw [hsplit] at hyes
    cases hyes
  | true =>
    have hcut : r.stop - a - headerSize ≥ heapRound size + headerSize + 16 :=
      of_decide_eq_true hsplit
    have hsmall : r.stop - a - headerSize < 2 ^ 31 := by
      simp only [hstop, heapBytes]
      omega
    obtain ⟨hlist, hready, hmagic, hsizeWord, hnext, hfront, hothers⟩ :=
      heapTake_split hsplit hsmall hi.tail.next (by omega)
    have hold : ∀ e ∈ old, e.ptr + e.len ≤ a := fun e he => (hi.before e he).2.1
    have hyes : s.Splits r (.kmalloc size) := (hi.splits_iff size).mpr ⟨hsize, rfl, hsplit⟩
    refine .inr ⟨hyes, a + headerSize + heapRound size, ⟨a + headerSize, heapRound size⟩,
      { ready := hready.trans hi.ready
        tail := ⟨by omega, ?_, by omega, hsizeWord.trans (by omega), hnext⟩
        magic := hmagic
        list := hlist
        live := by rw [hlive]; simp
        before := ?_
        apart := ?_
        bound := by rw [hsplit] at hbound; exact hbound }⟩
    · exact Nat.dvd_add (Nat.dvd_add hi.tail.aligned (by decide)) (heapRound_dvd size)
    · intro e he
      rcases mem_append.mp he with he | he
      · refine ⟨(hi.before e he).1, by have := hold e he; omega, ?_⟩
        exact (hothers _ _ (hheaders e he)).trans (hi.before e he).2.2
      · obtain rfl := mem_singleton.mp he
        refine ⟨Nat.add_le_add_right hlow _, le_rfl, ?_⟩
        exact hfront.trans hi.magic
    · refine pairwise_append.mpr ⟨hi.apart, pairwise_singleton _ _, fun e he f hf => ?_⟩
      obtain rfl := mem_singleton.mp hf
      exact Nat.add_le_add_right (hold e he) _

/-! ## Frees and writes -/

theorem kfree_ignored
    (hmark : addr = 0 ∨ h.get .magic (addr - headerSize) = heapMagicFree) : kfree h addr = h := by
  rcases eq_or_ne addr 0 with rfl | hne
  · rw [kfree, if_pos rfl]
  · have hfree := hmark.resolve_left hne
    simp only [kfree, if_neg hne, hfree]
    exact if_pos (by decide)

/-- A block that was split off is not put back. -/
theorem ArmSys.Inv.not_back (hi : s.Inv r a busy old) {e : Handed} (he : e ∈ old) :
    ¬ (kfree s.heap e.ptr).HasBack e := by
  rw [kfree_ignored (.inr (hi.before e he).2.2)]
  rintro ⟨⟨l, hl, hmem⟩, -, -⟩
  have hbefore := hi.before e he
  rw [hi.list] at hl
  cases l with
  | nil => cases hmem
  | cons b l =>
    obtain ⟨hb, hb0, hrest⟩ := hl
    cases busy with
    | true => exact hb0 hb.symm
    | false =>
      have hba : a = b := hb
      subst hba
      rw [hi.tail.next] at hrest
      cases l with
      | nil =>
        have := mem_singleton.mp hmem
        have : 0 < headerSize := by decide
        omega
      | cons c l => exact hrest.2.1 hrest.1.symm

/-- Freeing the last block puts it back. -/
theorem kfree_tail (hi : s.Inv r a true old) :
    (kfree s.heap (a + headerSize)).freeList = a ∧
      (kfree s.heap (a + headerSize)).initialized = true ∧
      (kfree s.heap (a + headerSize)).get .magic a = heapMagicFree ∧
      (kfree s.heap (a + headerSize)).get .size a = s.heap.get .size a ∧
      (kfree s.heap (a + headerSize)).get .next a = 0 ∧
      ∀ f b, b + headerSize ≤ a → (kfree s.heap (a + headerSize)).get f b = s.heap.get f b := by
  have hmagic : s.heap.get .magic a = heapMagicUsed := hi.magic
  have hlist : s.heap.freeList = 0 := hi.list
  have hfree : kfree s.heap (a + headerSize) =
      { (s.heap.set .magic a heapMagicFree).set .next a 0 with freeList := a } := by
    have hne : a + headerSize ≠ 0 := by have := hi.tail.ne_zero; omega
    simp only [kfree, if_neg hne, Nat.add_sub_cancel, hmagic, ne_eq, not_true_eq_false, if_false]
    rw [show (s.heap.set .magic a heapMagicFree).freeList = 0 from hlist]
  have hget : ∀ f b, (kfree s.heap (a + headerSize)).get f b =
      ((s.heap.set .magic a heapMagicFree).set .next a 0).get f b := fun f b => by
    rw [hfree]
    rfl
  refine ⟨by rw [hfree], by rw [hfree]; exact hi.ready, ?_, ?_, ?_, fun f b hb => ?_⟩
  · rw [hget, get_set_other (by decide), get_set_self (by decide)]
  · rw [hget, get_set_other (by decide), get_set_other (by decide)]
  · rw [hget, get_set_self (by decide)]
  · rw [hget, get_set_apart (.inr hb), get_set_apart (.inr hb)]

theorem kfree_inv (hi : s.Inv r a busy old)
    (hstep : armStep r s (.kfree addr) = some t) :
    ∃ busy', t.Inv r a busy' (old.filter (·.ptr ≠ addr)) := by
  simp only [armStep] at hstep
  split at hstep
  on_goal 2 => cases hstep
  rename_i hlive
  cases hstep
  have hsub : ∀ e ∈ old.filter (·.ptr ≠ addr), e ∈ old := fun e he => (mem_filter.mp he).1
  have hheaders : ∀ e ∈ old, e.ptr - headerSize + headerSize ≤ a := fun e he => by
    have := hi.before e he
    omega
  rcases Classical.em (busy = true ∧ addr = a + headerSize) with ⟨rfl, rfl⟩ | hother
  · obtain ⟨hlist, hready, hmagic, hsizeWord, hnext, hothers⟩ := kfree_tail hi
    refine ⟨false,
      { ready := hready
        tail := { hi.tail with size := hsizeWord.trans hi.tail.size, next := hnext }
        magic := hmagic
        list := hlist
        live := by simp [hi.live]
        before := fun e he => ⟨(hi.before e (hsub e he)).1, (hi.before e (hsub e he)).2.1,
          (hothers _ _ (hheaders e (hsub e he))).trans (hi.before e (hsub e he)).2.2⟩
        apart := hi.apart.filter _
        bound := hi.bound }⟩
  -- the block was split off, or it is the null pointer
  have htail : ∀ e ∈ (if busy then [(⟨a + headerSize, r.stop - a - headerSize⟩ : Handed)] else []),
      e.ptr ≠ addr := fun e he haddr => by
    cases busy with
    | true =>
      obtain rfl := mem_singleton.mp he
      exact hother ⟨rfl, haddr.symm⟩
    | false => cases he
  have hmark : addr = 0 ∨ s.heap.get .magic (addr - headerSize) = heapMagicFree := by
    refine hlive.imp_right ?_
    rintro ⟨e, he, rfl⟩
    rw [hi.live] at he
    rcases mem_append.mp he with he | he
    · exact (hi.before e he).2.2
    · exact absurd rfl (htail e he)
  refine ⟨busy,
    { ready := by rw [kfree_ignored hmark]; exact hi.ready
      tail := by rw [kfree_ignored hmark]; exact hi.tail
      magic := by rw [kfree_ignored hmark]; exact hi.magic
      list := by rw [kfree_ignored hmark]; exact hi.list
      live := ?_
      before := fun e he => by rw [kfree_ignored hmark]; exact hi.before e (hsub e he)
      apart := hi.apart.filter _
      bound := hi.bound }⟩
  dsimp only
  rw [hi.live, filter_append]
  congr 1
  exact filter_eq_self.mpr fun e he => by simpa using htail e he

theorem write_inv {ptr offset : Nat} {v : UInt8} (hi : s.Inv r a busy old)
    (hstep : armStep r s (.write ptr offset v) = some t) : t.Inv r a busy old := by
  simp only [armStep] at hstep
  split at hstep
  on_goal 2 => cases hstep
  rename_i hown
  obtain ⟨e, he, rfl, hoffset⟩ := hown
  cases hstep
  -- the byte lies outside every header
  have hsame : ∀ f b, (e.ptr + offset < b ∨ b + headerSize ≤ e.ptr + offset) →
      ({ s.heap with mem := Function.update s.heap.mem (e.ptr + offset) v } : StaticHeap).get f b =
        s.heap.get f b := fun f b hb =>
    get_congr fun x hlo hhi => Function.update_of_ne (by omega) ..
  rw [hi.live] at he
  rcases mem_append.mp he with he | he
  · refine hi.of_headers hi.ready rfl rfl rfl (fun f => hsame f a ?_) fun g hg => hsame .magic _ ?_
    · have := (hi.before e he).2.1
      omega
    · have : Std.Symm fun e f : Handed =>
          e.ptr + e.len + headerSize ≤ f.ptr ∨ f.ptr + f.len + headerSize ≤ e.ptr :=
        ⟨fun _ _ => Or.symm⟩
      have hord : old.Pairwise fun e f =>
          e.ptr + e.len + headerSize ≤ f.ptr ∨ f.ptr + f.len + headerSize ≤ e.ptr :=
        hi.apart.imp .inl
      have := hi.before g hg
      rcases eq_or_ne e g with rfl | hne
      · omega
      · rcases hord.forall he hg hne with hlt | hlt <;> omega
  · cases busy with
    | true =>
      obtain rfl := mem_singleton.mp he
      refine hi.of_headers hi.ready rfl rfl rfl (fun f => hsame f a ?_) fun g hg =>
        hsame .magic _ ?_
      · exact .inr (Nat.le_add_right _ _)
      · have := hi.before g hg
        have hlow : g.ptr - headerSize + headerSize ≤ a + headerSize + offset := by omega
        exact .inr hlow
    | false => cases he

/-! ## Runs -/

/-- One call: the last block shrinks exactly when the call splits it. -/
theorem armStep_at {c : ArmCall} (hs : s.At r a old) (hstep : armStep r s c = some t) :
    (¬ s.Splits r c ∧ ∃ old', old'.Sublist old ∧ t.At r a old') ∨
      s.Splits r c ∧ ∃ a' e, t.Inv r a' false (old ++ [e]) := by
  cases c with
  | heapInit =>
    cases hstep
    exact .inl ⟨id, old, List.Sublist.refl old, .inr hs.heapInit⟩
  | kmalloc size =>
    rcases eq_or_ne size 0 with rfl | hsize
    · cases hstep
      exact .inl ⟨fun hsplits => hsplits.1 rfl, old, List.Sublist.refl old, hs⟩
    obtain ⟨busy, hi⟩ := hs.heapInit
    obtain ⟨hsame, hsplits⟩ := armStep_heapInit r s hsize
    rw [← hsame] at hstep
    rw [← hsplits]
    exact (kmalloc_inv hi hstep).imp_left fun ⟨hno, busy', hi'⟩ =>
      ⟨hno, old, List.Sublist.refl old, .inr ⟨busy', hi'⟩⟩
  | kfree addr =>
    rcases hs with ⟨⟨hboot, hlive, hhanded⟩, rfl, rfl⟩ | ⟨busy, hi⟩
    · simp only [armStep, hlive] at hstep
      split at hstep
      on_goal 2 => cases hstep
      rename_i haddr
      obtain rfl := haddr.resolve_right (by simp)
      cases hstep
      exact .inl ⟨id, [], List.Sublist.refl [], .inl ⟨⟨hboot, rfl, hhanded⟩, rfl, rfl⟩⟩
    · obtain ⟨busy', hi'⟩ := kfree_inv hi hstep
      exact .inl ⟨id, _, filter_sublist, .inr ⟨busy', hi'⟩⟩
  | write ptr offset v =>
    rcases hs with ⟨⟨-, hlive, -⟩, rfl, rfl⟩ | ⟨busy, hi⟩
    · simp [armStep, hlive] at hstep
    · exact .inl ⟨id, old, List.Sublist.refl old, .inr ⟨busy, write_inv hi hstep⟩⟩

theorem armStep_some_at (s : ArmSys) (c : ArmCall) (t : ArmSys) (hs : ∃ a old, s.At r a old)
    (hstep : armStep r s c = some t) : ∃ a old, t.At r a old := by
  obtain ⟨a, old, hs⟩ := hs
  rcases armStep_at hs hstep with ⟨-, old', -, ht⟩ | ⟨-, a', e, ht⟩
  · exact ⟨a, old', ht⟩
  · exact ⟨a', old ++ [e], .inr ⟨false, ht⟩⟩

/-- Without splits the region stays one block. -/
theorem armStep_whole (s : ArmSys) (c : ArmCall) (t : ArmSys) (hs : s.At r r.start [])
    (hwhole : ¬ s.Splits r c) (hstep : armStep r s c = some t) : t.At r r.start [] := by
  rcases armStep_at hs hstep with ⟨-, old', hsub, ht⟩ | ⟨hyes, -⟩
  · rwa [sublist_nil.mp hsub] at ht
  · exact absurd hyes hwhole

theorem atBoot_at (r : HeapRegion) (mem : ByteMem) : (atBoot mem).At r r.start [] :=
  .inl ⟨⟨rfl, rfl, rfl⟩, rfl, rfl⟩

/-- The loop of `kmalloc` ends in every state that is reached. -/
theorem kmalloc_returns (hs : s.At r a old) (size : UInt32) :
    ∃ ptr h, kmalloc r s.heap size = some (ptr, h) := by
  rcases eq_or_ne size 0 with rfl | hsize
  · exact ⟨0, s.heap, rfl⟩
  · obtain ⟨busy, hi⟩ := hs.heapInit
    rw [← kmalloc_heapInit r s.heap hsize]
    exact ⟨_, _, hi.kmalloc_eq size⟩

theorem ArmSys.At.disjoint (hs : s.At r a old) : s.live.Pairwise Handed.DisjointFrom := by
  rcases hs with ⟨⟨-, hlive, -⟩, -, -⟩ | ⟨busy, hi⟩
  · rw [hlive]
    exact List.Pairwise.nil
  · exact hi.disjoint

/-- The one block is put back with its full size, and can be had again. -/
theorem ArmSys.At.honoursFrees (hs : s.At r r.start []) : s.HonoursFrees r := by
  rcases hs with ⟨⟨-, hlive, hhanded⟩, -, -⟩ | ⟨busy, hi⟩
  · exact ⟨fun e he => by simp [hlive] at he, fun _ e he => by simp [hhanded] at he⟩
  cases busy with
  | true =>
    have hlive : s.live = [⟨r.start + headerSize, r.stop - r.start - headerSize⟩] := hi.live
    refine ⟨fun e he => ?_, fun hnone => absurd (hlive.symm.trans hnone) (cons_ne_nil _ _)⟩
    rw [hlive] at he
    obtain rfl := mem_singleton.mp he
    obtain ⟨hlist, -, hmagic, hsize, hnext, -⟩ := kfree_tail hi
    have hblock : r.start + headerSize - headerSize = r.start := Nat.add_sub_cancel _ _
    refine ⟨⟨[r.start], ⟨hlist, hi.tail.ne_zero, hnext⟩, ?_⟩, ?_, ?_⟩
    · exact mem_singleton_self _
    · rw [hblock, hmagic]
    · rw [hblock, hsize, hi.tail.sizeMask]
  | false =>
    have hlive : s.live = [] := hi.live
    refine ⟨fun e he => by simp [hlive] at he, fun _ e he size hpos hsize => ?_⟩
    have hbound := hi.bound e he
    have hstop : r.stop - r.start - headerSize = 8388592 := by
      simp only [HeapRegion.stop, heapBytes, headerSize]
      omega
    have hround : heapRound size ≤ r.stop - r.start - headerSize := by
      rw [hstop]
      refine heapRound_le (hsize.trans (hbound.trans ?_)) (by decide) (by decide) (by decide)
      decide
    have hne : size ≠ 0 := fun hzero => by simp [hzero] at hpos
    have heq := hi.kmalloc_eq size
    rw [if_pos ⟨hne, rfl, hround⟩] at heq
    exact ⟨_, _, heq, by have := hi.tail.ne_zero; omega⟩

/-- **Frees on arm64.**  Live blocks are disjoint in every run.  Frees are honoured, and the
memory can be had again, in all states of a run exactly when no request of the run meets a first
free block much larger than it. -/
theorem heap_frees_honoured_iff (r : HeapRegion) (mem : ByteMem) (calls : List ArmCall) :
    (∀ pre post t, calls = pre ++ post → exec (armStep r) (atBoot mem) pre = some t →
      t.live.Pairwise Handed.DisjointFrom) ∧
    (AllSteps (armStep r) (fun s c => ¬ s.Splits r c) (atBoot mem) calls ↔
      ∀ pre post t, calls = pre ++ post → exec (armStep r) (atBoot mem) pre = some t →
        t.HonoursFrees r) := by
  have hreach : ∀ pre t, exec (armStep r) (atBoot mem) pre = some t → ∃ a old, t.At r a old :=
    fun pre t run => exec_invariant_all armStep_some_at ⟨_, _, atBoot_at r mem⟩ run
  refine ⟨fun pre post t _ run => ?_, ?_, fun hall => ?_⟩
  · obtain ⟨a, old, hs⟩ := hreach pre t run
    exact hs.disjoint
  · rintro hwhole pre post t rfl run
    exact (exec_invariant armStep_whole (atBoot_at r mem) hwhole.left run).honoursFrees
  refine allSteps_iff.mpr fun pre c post t hcalls run hsplits => ?_
  obtain ⟨a, old, hs⟩ := hreach pre t run
  -- the request that splits has a step, and its block is not put back
  obtain ⟨u, hstep⟩ : ∃ u, armStep r t c = some u := by
    cases c with
    | kmalloc size =>
      obtain ⟨ptr, h, hcall⟩ := kmalloc_returns hs size
      simp only [armStep, hcall]
      split <;> exact ⟨_, rfl⟩
    | heapInit => exact hsplits.elim
    | kfree addr => exact hsplits.elim
    | write ptr offset v => exact hsplits.elim
  rcases armStep_at hs hstep with ⟨hno, -⟩ | ⟨-, a', e, hi⟩
  · exact hno hsplits
  · have hlive : e ∈ u.live := by rw [hi.live]; simp
    refine hi.not_back (mem_append_right old (mem_singleton_self e)) ?_
    exact (hall (pre ++ [c]) post u (by rw [hcalls, append_assoc]; rfl)
      (exec_append_eq_some.mpr ⟨t, run, exec_cons_eq_some.mpr ⟨u, hstep, rfl⟩⟩)).back e hlive

/-- A region at 1 GiB and 2 MiB. -/
def sampleRegion : HeapRegion where
  start := 0x40200000
  start_pos := by decide
  aligned := by decide
  inside := by decide

/-- The whole region is handed out and freed. -/
def wholeRegion : List ArmCall := [.kmalloc 8388592, .kfree 0x40200010]

theorem heap_frees_honoured_iff_whole :
    ∃ t, exec (armStep sampleRegion) (atBoot fun _ => 7) wholeRegion = some t ∧
      t.live = [] ∧ t.handed.map Handed.len = [8388592] ∧ t.HonoursFrees sampleRegion := by
  refine exists_run (A := fun t => t.live = [] ∧ t.handed.map Handed.len = [8388592])
    (by decide +kernel) ?_
  rintro t hrun ⟨hlive, hhanded⟩
  refine ⟨hlive, hhanded, ?_⟩
  exact (heap_frees_honoured_iff sampleRegion (fun _ => 7) wholeRegion).2.mp (by decide +kernel)
    wholeRegion [] t rfl hrun

/-- Two blocks are split off and freed. -/
def splitTwice : List ArmCall :=
  [.kmalloc 4000000, .kmalloc 4000000, .kfree 0x40200010, .kfree 0x405D0920]

theorem freed_blocks_are_lost :
    ∃ t, exec (armStep sampleRegion) (atBoot fun _ => 7) splitTwice = some t ∧
      t.live = [] ∧ t.handed = [⟨0x40200010, 4000000⟩, ⟨0x405D0920, 4000000⟩] ∧
      (kmalloc sampleRegion t.heap 4000000).map Prod.fst = some 0 ∧
      ¬ t.HonoursFrees sampleRegion := by
  refine exists_run (A := fun t => t.live = [] ∧
    t.handed = [⟨0x40200010, 4000000⟩, ⟨0x405D0920, 4000000⟩] ∧
    (kmalloc sampleRegion t.heap 4000000).map Prod.fst = some 0) (by decide +kernel) ?_
  rintro t - ⟨hlive, hhanded, hagain⟩
  refine ⟨hlive, hhanded, hagain, fun hhonours => ?_⟩
  have hfirst : (⟨0x40200010, 4000000⟩ : Handed) ∈ t.handed := by simp [hhanded]
  obtain ⟨ptr, h, hcall, hptr⟩ := hhonours.again hlive _ hfirst 4000000 (by simp) (by simp)
  rw [hcall] at hagain
  exact hptr (some.inj hagain)

end ArcKernel.Heap.Arm64
