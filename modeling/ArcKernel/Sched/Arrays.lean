import ArcKernel.Foundation.Bitmap
import ArcKernel.Foundation.Circular

/-!
# Priority arrays

Model of `prio_array_enqueue`, `prio_array_dequeue`, `prio_array_find_top` and of the part of
`context_switch` that takes the next thread (`mk/arch/amd64/thread/scheduler.c`).

A thread is known by a number, null is 0.  The links of all threads and the arrays of all CPUs
are one record, since the operations follow the links wherever they lead: they are told the
priority of the thread and trust it.  `Rings` is what the links mean when the priority is the
one the thread was queued with.
-/

namespace ArcKernel.Sched

open ArcKernel.Foundation ArcKernel.Foundation.Circular Function List Bitmap

/-- `PRIO_ARRAY_BITS` -/
def prioBits : Nat := 140

/-- `BITMAP_SIZE` -/
def bitmapSize : Nat := 5

/-- One of the two arrays of a CPU. -/
structure ArrayRef where
  cpu : Nat
  slot : Bool
  deriving DecidableEq

structure PrioArray where
  nrActive : Int
  queue : Nat → Nat
  bitmap : List (BitVec 32)

def PrioArray.empty : PrioArray := ⟨0, fun _ => 0, List.replicate bitmapSize 0⟩

structure Links where
  next : Nat → Nat
  prev : Nat → Nat
  array : Nat → Option ArrayRef
  arrays : ArrayRef → PrioArray

def prioArrayEnqueue (k : Links) (pa : ArrayRef) (t prio : Nat) : Links :=
  let a := k.arrays pa
  let head := a.queue prio
  if head ≠ 0 then
    let tail := k.prev head
    { next := update (update k.next t head) tail t
      prev := update (update k.prev t tail) head t
      array := update k.array t (some pa)
      arrays := update k.arrays pa { a with nrActive := a.nrActive + 1 } }
  else
    { next := update k.next t t
      prev := update k.prev t t
      array := update k.array t (some pa)
      arrays := update k.arrays pa ⟨a.nrActive + 1, update a.queue prio t, set a.bitmap prio⟩ }

def prioArrayDequeue (k : Links) (pa : ArrayRef) (t prio : Nat) : Links :=
  let a := k.arrays pa
  if k.next t = t then
    { next := update k.next t 0
      prev := update k.prev t 0
      array := update k.array t none
      arrays := update k.arrays pa ⟨a.nrActive - 1, update a.queue prio 0, clear a.bitmap prio⟩ }
  else
    { next := update (update k.next (k.prev t) (k.next t)) t 0
      prev := update (update k.prev (k.next t) (k.prev t)) t 0
      array := update k.array t none
      arrays := update k.arrays pa { a with
        nrActive := a.nrActive - 1
        queue := if a.queue prio = t then update a.queue prio (k.next t) else a.queue } }

def prioArrayFindTop (a : PrioArray) : Option Nat := firstSet a.bitmap

/-- `context_switch` takes the first thread of a ring: a single one is removed, one of several
is relinked behind the others. -/
def takeNext (k : Links) (pa : ArrayRef) (top : Nat) : Links :=
  let a := k.arrays pa
  let t := a.queue top
  if k.next t = t then
    { k with
      array := update k.array t none
      arrays := update k.arrays pa ⟨a.nrActive - 1, update a.queue top 0, clear a.bitmap top⟩ }
  else
    let n := k.next t
    let next := update k.next (k.prev t) n
    let prev := update k.prev n (k.prev t)
    let tail := prev n
    { next := update next tail t
      prev := update (update prev t tail) n t
      array := update k.array t (some pa)
      arrays := update k.arrays pa { a with queue := update a.queue top n } }

/-! ## What the links mean -/

/-- The threads of an array, ring by ring. -/
def total (rings : Nat → List Nat) : Nat := ∑ p ∈ Finset.range prioBits, (rings p).length

/-- The links are those of the rings `R`: each head, bitmap bit and count is that of its ring,
and a thread's recorded array is the one whose ring it is in. -/
structure Rings (k : Links) (R : ArrayRef → Nat → List Nat) : Prop where
  ring : ∀ a p, Ring k.next k.prev (R a p)
  nodup : ∀ a p, (R a p).Nodup
  head : ∀ a p, (k.arrays a).queue p = (R a p).headD 0
  nonzero : ∀ a p, 0 ∉ R a p
  unique : ∀ a p b q t, t ∈ R a p → t ∈ R b q → a = b ∧ p = q
  array : ∀ a t, k.array t = some a ↔ ∃ p, t ∈ R a p
  bounded : ∀ a p, R a p ≠ [] → p < prioBits
  size : ∀ a, (k.arrays a).bitmap.length = bitmapSize
  bit : ∀ a p, test (k.arrays a).bitmap p = true ↔ R a p ≠ []
  count : ∀ a, (k.arrays a).nrActive = total (R a)

/-- The rings with one of them changed. -/
def setRing (R : ArrayRef → Nat → List Nat) (a : ArrayRef) (p : Nat) (l : List Nat) :
    ArrayRef → Nat → List Nat :=
  fun b q => if b = a ∧ q = p then l else R b q

section

variable {k : Links} {R : ArrayRef → Nat → List Nat} {a b : ArrayRef} {p q t : Nat} {l : List Nat}

@[simp] theorem setRing_self : setRing R a p l a p = l := if_pos ⟨rfl, rfl⟩

theorem setRing_of_ne (h : ¬ (b = a ∧ q = p)) : setRing R a p l b q = R b q := if_neg h

theorem forall_setRing {P : ArrayRef → Nat → List Nat → Prop} (hl : P a p l)
    (h : ∀ b q, ¬ (b = a ∧ q = p) → P b q (R b q)) (b : ArrayRef) (q : Nat) :
    P b q (setRing R a p l b q) := by
  by_cases hbq : b = a ∧ q = p
  · obtain ⟨rfl, rfl⟩ := hbq
    rwa [setRing_self]
  · rw [setRing_of_ne hbq]
    exact h b q hbq

theorem total_setRing (hp : p < prioBits) :
    total (setRing R a p l a) + (R a p).length = total (R a) + l.length := by
  have hmem : p ∈ Finset.range prioBits := Finset.mem_range.mpr hp
  rw [total, total, ← Finset.add_sum_erase _ _ hmem, ← Finset.add_sum_erase _ _ hmem, setRing_self]
  have hrest : ∑ x ∈ (Finset.range prioBits).erase p, (setRing R a p l a x).length =
      ∑ x ∈ (Finset.range prioBits).erase p, (R a x).length :=
    Finset.sum_congr rfl fun x hx => by rw [setRing_of_ne fun h => (Finset.mem_erase.mp hx).1 h.2]
  omega

theorem total_setRing_of_ne (h : b ≠ a) : total (setRing R a p l b) = total (R b) :=
  Finset.sum_congr rfl fun _ _ => by rw [setRing_of_ne fun hb => h hb.1]

theorem Rings.mem_array (h : Rings k R) (ht : t ∈ R a p) : k.array t = some a :=
  (h.array a t).mpr ⟨p, ht⟩

theorem Rings.notMem_of_array (h : Rings k R) (ht : k.array t = none) : t ∉ R a p :=
  fun hmem => nomatch ht.symm.trans (h.mem_array hmem)

/-- The first thread of the ring of a set bit. -/
theorem Rings.top_mem (h : Rings k R) (htop : prioArrayFindTop (k.arrays a) = some p) :
    (k.arrays a).queue p ∈ R a p := by
  have hne := (h.bit a p).mp (firstSet_eq_some (by decide) htop)
  obtain ⟨t, l, hl⟩ := exists_cons_of_ne_nil hne
  rw [h.head a p, hl]
  exact mem_cons_self

/-- The ring that is found is that of the thread, or one before it. -/
theorem Rings.exists_top (h : Rings k R) (ht : t ∈ R a p) :
    ∃ top ≤ p, prioArrayFindTop (k.arrays a) = some top :=
  exists_firstSet (by decide) ((h.bit a p).mpr (ne_nil_of_mem ht))

/-- The rings of the array that are in use keep their first threads. -/
def KeepsHeads (a : ArrayRef) (k k' : Links) : Prop :=
  ∀ p, (k.arrays a).queue p ≠ 0 → (k'.arrays a).queue p = (k.arrays a).queue p

theorem KeepsHeads.trans {k' k'' : Links} (h : KeepsHeads a k k') (h' : KeepsHeads a k' k'') :
    KeepsHeads a k k'' :=
  fun p hp => (h' p (h p hp ▸ hp)).trans (h p hp)

/-- What becomes of an array when its ring `p` goes from `old` to `l`. -/
structure Refilled (A B : PrioArray) (p : Nat) (old l : List Nat) : Prop where
  queue : B.queue = update A.queue p (l.headD 0)
  size : B.bitmap.length = A.bitmap.length
  bit : ∀ q, test B.bitmap q = if q = p then decide (l ≠ []) else test A.bitmap q
  count : B.nrActive + old.length = A.nrActive + l.length

/-- The only thread of a ring has left it. -/
theorem Refilled.emptied (A : PrioArray) (p t : Nat) :
    Refilled A ⟨A.nrActive - 1, update A.queue p 0, clear A.bitmap p⟩ p [t] [] := by
  refine ⟨rfl, length_clear .., fun q => ?_, by simp⟩
  rw [test_clear (by decide)]
  by_cases hq : q = p
  · simp [hq]
  · simp [hq]

/-- A ring that was not empty and is not now keeps its bit. -/
theorem Refilled.kept {A : PrioArray} {old : List Nat} {queue : Nat → Nat} {n : Int}
    (hbit : test A.bitmap p = true) (hl : l ≠ [])
    (hqueue : queue = update A.queue p (l.headD 0))
    (hcount : n + old.length = A.nrActive + l.length) :
    Refilled A ⟨n, queue, A.bitmap⟩ p old l := by
  refine ⟨hqueue, rfl, fun q => ?_, hcount⟩
  by_cases hq : q = p
  · rw [if_pos hq, hq, hbit, decide_eq_true hl]
  · rw [if_neg hq]

/-- One ring is replaced, and one thread at most enters or leaves it. -/
theorem Rings.replace (h : Rings k R) (k' : Links) (A : PrioArray) (hp : p < prioBits)
    (hone : ∀ b q, t ∈ R b q → b = a ∧ q = p) (hothers : ∀ u, u ≠ t → (u ∈ l ↔ u ∈ R a p))
    (hring : Ring k'.next k'.prev l) (hnodup : l.Nodup) (hzero : 0 ∉ l)
    (hlinks : ∀ u, u ∉ R a p → u ≠ t → k'.next u = k.next u ∧ k'.prev u = k.prev u)
    (harray : k'.array = update k.array t (if t ∈ l then some a else none))
    (harrays : k'.arrays = update k.arrays a A) (hA : Refilled (k.arrays a) A p (R a p) l) :
    Rings k' (setRing R a p l) := by
  have hat : k'.arrays a = A := by rw [harrays, update_self]
  have hoff : ∀ b, b ≠ a → k'.arrays b = k.arrays b := fun b hb => by rw [harrays, update_of_ne hb]
  -- away from the ring, its array is the old one
  have hcell : ∀ b q, ¬ (b = a ∧ q = p) → (k'.arrays b).queue q = (k.arrays b).queue q ∧
      test (k'.arrays b).bitmap q = test (k.arrays b).bitmap q := by
    intro b q hbq
    by_cases hb : b = a
    · subst hb
      have hq : q ≠ p := fun hq => hbq ⟨rfl, hq⟩
      rw [hat, hA.queue, update_of_ne hq, hA.bit, if_neg hq]
      exact ⟨rfl, rfl⟩
    · rw [hoff b hb]
      exact ⟨rfl, rfl⟩
  have hkept :
    ∀ b q, ¬ (b = a ∧ q = p) → ∀ u ∈ R b q, k'.next u = k.next u ∧ k'.prev u = k.prev u :=
    fun b q hbq u hu => hlinks u (fun hmem => hbq (h.unique b q a p u hu hmem))
      fun heq => hbq (hone b q (heq ▸ hu))
  -- away from the thread that moves, membership is the old one
  have hmem : ∀ u, u ≠ t → ∀ b q, u ∈ setRing R a p l b q ↔ u ∈ R b q := fun u hu =>
    forall_setRing (P := fun b q l => u ∈ l ↔ u ∈ R b q) (hothers u hu) fun _ _ _ => Iff.rfl
  have hthread : ∀ b q, t ∈ setRing R a p l b q → (b = a ∧ q = p) ∧ t ∈ l :=
    forall_setRing (P := fun b q r => t ∈ r → (b = a ∧ q = p) ∧ t ∈ l) (fun ht => ⟨⟨rfl, rfl⟩, ht⟩)
      fun b q hbq ht => absurd (hone b q ht) hbq
  constructor
  case ring =>
    exact forall_setRing hring fun b q hbq =>
      (h.ring b q).congr (fun u hu => (hkept b q hbq u hu).1) fun u hu => (hkept b q hbq u hu).2
  case nodup => exact forall_setRing hnodup fun b q _ => h.nodup b q
  case head =>
    refine forall_setRing (P := fun b q l => (k'.arrays b).queue q = l.headD 0) ?_ fun b q hbq => ?_
    · rw [hat, hA.queue, update_self]
    · exact (hcell b q hbq).1.trans (h.head b q)
  case nonzero => exact forall_setRing (P := fun _ _ l => 0 ∉ l) hzero fun b q _ => h.nonzero b q
  case unique =>
    intro b q b' q' u hu hu'
    by_cases hut : u = t
    · subst hut
      obtain ⟨⟨rfl, rfl⟩, -⟩ := hthread b q hu
      obtain ⟨⟨rfl, rfl⟩, -⟩ := hthread b' q' hu'
      exact ⟨rfl, rfl⟩
    · exact h.unique b q b' q' u ((hmem u hut b q).mp hu) ((hmem u hut b' q').mp hu')
  case array =>
    intro b u
    by_cases hut : u = t
    · subst hut
      rw [harray, update_self]
      constructor
      · intro hb
        split at hb
        · cases hb
          exact ⟨p, by rwa [setRing_self]⟩
        · cases hb
      · rintro ⟨q, hq⟩
        obtain ⟨⟨rfl, rfl⟩, hl⟩ := hthread b q hq
        exact if_pos hl
    · rw [harray, update_of_ne hut, h.array b u]
      exact exists_congr fun q => (hmem u hut b q).symm
  case bounded =>
    exact forall_setRing (P := fun _ q l => l ≠ [] → q < prioBits) (fun _ => hp)
      fun b q _ => h.bounded b q
  case size =>
    intro b
    by_cases hb : b = a
    · rw [hb, hat, hA.size, h.size]
    · rw [hoff b hb, h.size]
  case bit =>
    refine forall_setRing (P := fun b q l => test (k'.arrays b).bitmap q = true ↔ l ≠ [])
      ?_ fun b q hbq => ?_
    · rw [hat, hA.bit, if_pos rfl, decide_eq_true_iff]
    · rw [(hcell b q hbq).2]
      exact h.bit b q
  case count =>
    intro b
    by_cases hb : b = a
    · subst hb
      have htotal := total_setRing (R := R) (a := b) (l := l) hp
      have hold := h.count b
      have hnew := hA.count
      rw [hat]
      omega
    · rw [hoff b hb, total_setRing_of_ne hb, h.count]

/-- A thread in no ring joins the end of one. -/
theorem Rings.enqueue (h : Rings k R) (hzero : t ≠ 0) (hfree : k.array t = none) (hp : p < prioBits)
    : Rings (prioArrayEnqueue k a t p) (setRing R a p (R a p ++ [t])) := by
  have hnot : ∀ b q, t ∉ R b q := fun b q => h.notMem_of_array hfree
  have hnodup : (R a p ++ [t]).Nodup :=
    nodup_append.mpr ⟨h.nodup a p, nodup_singleton t, fun u hu v hv huv =>
      hnot a p (mem_singleton.mp hv ▸ huv ▸ hu)⟩
  have hzero' : 0 ∉ R a p ++ [t] := by
    intro hmem
    rcases mem_append.mp hmem with hmem | hmem
    · exact h.nonzero a p hmem
    · exact hzero (mem_singleton.mp hmem).symm
  have hothers : ∀ u, u ≠ t → (u ∈ R a p ++ [t] ↔ u ∈ R a p) := by
    intro u hu
    rw [mem_append, mem_singleton]
    exact or_iff_left hu
  have hself : (if t ∈ R a p ++ [t] then some a else none) = some a :=
    if_pos (mem_append_right _ (mem_singleton_self t))
  have hword : p / 32 < (k.arrays a).bitmap.length := by
    rw [h.size a, bitmapSize]
    rw [prioBits] at hp
    omega
  unfold prioArrayEnqueue
  dsimp only
  rcases eq_or_ne (R a p) [] with hring | hsome
  · have hhead : (k.arrays a).queue p = 0 := by rw [h.head a p, hring]; rfl
    rw [if_neg (not_not.mpr hhead)]
    refine h.replace (t := t) _ _ hp (fun b q ht => absurd ht (hnot b q)) hothers ?_ hnodup hzero'
      (fun u _ hu => ⟨update_of_ne hu .., update_of_ne hu ..⟩) (by rw [hself]) rfl ?_
    · rw [hring]
      exact ring_singleton.mpr ⟨update_self .., update_self ..⟩
    · rw [hring]
      refine ⟨rfl, length_set .., fun q => ?_, by simp⟩
      rw [test_set (by decide) hword]
      by_cases hq : q = p
      · simp [hq]
      · simp [hq]
  obtain ⟨head, rest, hring⟩ := exists_cons_of_ne_nil hsome
  have hhead : (k.arrays a).queue p = head := by rw [h.head a p, hring]; rfl
  have hmem : head ∈ R a p := by rw [hring]; exact mem_cons_self
  have hhead0 : head ≠ 0 := fun heq => h.nonzero a p (heq ▸ hmem)
  obtain ⟨-, htail, -, -⟩ := (h.ring a p).around hmem
  rw [hhead, if_pos hhead0]
  refine h.replace (t := t) _ _ hp (fun b q ht => absurd ht (hnot b q)) hothers ?_ hnodup hzero'
    (fun u hout hu => ?_) (by rw [hself]) rfl (.kept ((h.bit a p).mpr hsome) (by simp) ?_ ?_)
  · have hconcat := (hring ▸ h.ring a p).concat (hring ▸ h.nodup a p) (hring ▸ hnot a p)
    rw [hring]
    exact hconcat
  · dsimp only
    rw [update_of_ne (ne_of_mem_of_not_mem htail hout).symm, update_of_ne hu,
      update_of_ne (ne_of_mem_of_not_mem hmem hout).symm, update_of_ne hu]
    exact ⟨rfl, rfl⟩
  · rw [hring, cons_append, headD_cons, ← hhead, update_eq_self]
  · simp
    ring

/-- A thread leaves its ring, when the priority is that of the ring. -/
theorem Rings.dequeue (h : Rings k R) (ht : t ∈ R a p) :
    Rings (prioArrayDequeue k a t p) (setRing R a p ((R a p).erase t)) := by
  have hp : p < prioBits := h.bounded a p (ne_nil_of_mem ht)
  have hring := h.ring a p
  have hnodup := h.nodup a p
  have hone : ∀ b q, t ∈ R b q → b = a ∧ q = p := fun b q hq => h.unique b q a p t hq ht
  have hothers : ∀ u, u ≠ t → (u ∈ (R a p).erase t ↔ u ∈ R a p) := fun u hu => mem_erase_of_ne hu
  have hgone : t ∉ (R a p).erase t := hnodup.not_mem_erase
  have hzero : 0 ∉ (R a p).erase t := fun hmem => h.nonzero a p (mem_of_mem_erase hmem)
  obtain ⟨hnextmem, hprevmem, -, -⟩ := hring.around ht
  unfold prioArrayDequeue
  by_cases hself : k.next t = t
  · have halone := (hring.next_eq_self_iff hnodup ht).mp hself
    have hnil : (R a p).erase t = [] := by rw [halone, erase_cons_head]
    rw [if_pos hself]
    refine h.replace (t := t) _ _ hp hone hothers ?_ (hnodup.erase t) hzero
      (fun u _ hu => ⟨update_of_ne hu .., update_of_ne hu ..⟩) (by rw [if_neg hgone]) rfl ?_
    · rw [hnil]
      trivial
    · rw [hnil, halone]
      exact .emptied ..
  obtain ⟨l, r, hsplit⟩ := append_of_mem ht
  have hmoved : (R a p).erase t = l ++ r := by
    have htl : t ∉ l := fun hmem =>
      (nodup_middle.mp (hsplit ▸ hnodup)).notMem (mem_append_left _ hmem)
    rw [hsplit, erase_append_right _ htl, erase_cons_head]
  have hrest : l ++ r ≠ [] := by
    intro hnil
    obtain ⟨rfl, rfl⟩ := append_eq_nil_iff.mp hnil
    exact hself ((hring.next_eq_self_iff hnodup ht).mpr hsplit)
  rw [if_neg hself]
  refine h.replace (t := t) _ _ hp hone hothers ?_ (hnodup.erase t) hzero
    (fun u hout hu => ?_) (by rw [if_neg hgone]) rfl
    (.kept ((h.bit a p).mpr (ne_nil_of_mem ht)) (hmoved ▸ hrest) ?_ ?_)
  · rw [hmoved]
    refine ((hsplit ▸ hring).remove (hsplit ▸ hnodup) hrest).congr (fun u hu => ?_) (fun u hu => ?_)
    all_goals exact update_of_ne (ne_of_mem_of_not_mem hu (hmoved ▸ hgone)) ..
  · dsimp only
    rw [update_of_ne hu, update_of_ne (ne_of_mem_of_not_mem hprevmem hout).symm,
      update_of_ne hu, update_of_ne (ne_of_mem_of_not_mem hnextmem hout).symm]
    exact ⟨rfl, rfl⟩
  · have hhead := h.head a p
    rw [hsplit] at hhead
    rw [hmoved]
    -- the head moves on exactly when it is the thread that leaves
    cases l with
    | nil =>
      obtain ⟨y, m, rfl⟩ := exists_cons_of_ne_nil hrest
      have hnext : k.next t = y := (isChain_cons_cons.mp (hsplit ▸ hring)).1.1
      have hleaves : (k.arrays a).queue p = t := hhead
      rw [if_pos hleaves, hnext]
      rfl
    | cons x l =>
      have hxt : x ≠ t := fun heq => hgone (hmoved ▸ heq ▸ mem_cons_self)
      have hkeep : (k.arrays a).queue p = x := hhead
      rw [if_neg (hkeep ▸ hxt), cons_append, headD_cons, ← hkeep, update_eq_self]
  · have hpos := length_pos_of_mem ht
    rw [length_erase_of_mem ht]
    omega

/-- `context_switch` takes the first thread out of a ring of one, and goes on to the next
thread of a longer ring. -/
theorem Rings.take (h : Rings k R) {rest : List Nat} (hring : R a p = t :: rest) :
    Rings (takeNext k a p) (setRing R a p (if rest = [] then [] else rest ++ [t])) := by
  have ht : t ∈ R a p := hring ▸ mem_cons_self
  have hp : p < prioBits := h.bounded a p (ne_nil_of_mem ht)
  have hnodup := h.nodup a p
  have hhead : (k.arrays a).queue p = t := by rw [h.head a p, hring]; rfl
  have hone : ∀ b q, t ∈ R b q → b = a ∧ q = p := fun b q hq => h.unique b q a p t hq ht
  unfold takeNext
  dsimp only
  rw [hhead]
  by_cases hself : k.next t = t
  · have halone := ((h.ring a p).next_eq_self_iff hnodup ht).mp hself
    obtain rfl : rest = [] := (List.cons.inj (hring.symm.trans halone)).2
    rw [if_pos hself, if_pos rfl]
    refine h.replace (t := t) _ _ hp hone (fun u hu => ?_) trivial nodup_nil not_mem_nil
      (fun _ _ _ => ⟨rfl, rfl⟩) (by rw [if_neg not_mem_nil]) rfl (halone ▸ .emptied ..)
    rw [halone, mem_singleton]
    exact iff_of_false not_mem_nil hu
  have hsome : rest ≠ [] := by
    rintro rfl
    exact hself (((h.ring a p).next_eq_self_iff hnodup ht).mpr hring)
  obtain ⟨y, m, rfl⟩ := exists_cons_of_ne_nil hsome
  have hy : k.next t = y := (isChain_cons_cons.mp (hring ▸ h.ring a p)).1.1
  obtain ⟨-, -, hback, hforth⟩ := (h.ring a p).around ht
  -- the thread is put back between the two it was taken from
  have hnext : update (update k.next (k.prev t) (k.next t)) (k.prev t) t = k.next := by
    rw [update_idem]
    nth_rewrite 2 [← hforth]
    exact update_eq_self ..
  have hprev : update (update (update k.prev (k.next t) (k.prev t)) t
      (k.prev t)) (k.next t) t = k.prev := by
    funext u
    by_cases hu : u = k.next t
    · rw [hu, update_self, hback]
    · rw [update_of_ne hu]
      by_cases hut : u = t
      · rw [hut, update_self]
      · rw [update_of_ne hut, update_of_ne hu]
  rw [if_neg hself, if_neg hsome, update_self, hnext, hprev]
  have hperm : (y :: m ++ [t]).Perm (R a p) := hring ▸ perm_append_comm
  refine h.replace (t := t) _ _ hp hone (fun u _ => hperm.mem_iff) (hring ▸ h.ring a p).rotate
    (hperm.nodup_iff.mpr hnodup) (fun hmem => h.nonzero a p (hperm.mem_iff.mp hmem))
    (fun _ _ _ => ⟨rfl, rfl⟩) (by rw [if_pos (hperm.mem_iff.mpr ht)]) rfl
    (.kept ((h.bit a p).mpr (ne_nil_of_mem ht)) (by simp) (by rw [hy]; rfl) ?_)
  rw [hperm.length_eq]

end

end ArcKernel.Sched
