import ArcKernel.Heap.Runs

/-!
# The pages of the heap

Which physical pages the heap holds, and that it gives them back.  A run that starts
from an initialised heap and has freed all its blocks is back at the initial state: no
free block, the break at `HEAP_START`, the initial pages mapped, and every page taken
since returned once.

There is one way to miss it.  `heap_map_until` keeps the pages it has mapped when a
later one is refused, and `kmalloc` then returns without shrinking.  The pages stay
until some block is freed, so a request that is refused in the middle while no block is
live leaves them behind.
-/

namespace ArcKernel.Heap

open ArcKernel.Foundation Function List

/-! ## The property -/

/-- The heap `h` is as `heap_init` left it in `init`. -/
structure HeapState.AtRest (arch : X86) (h init : HeapState) : Prop where
  freeList : h.freeList = 0
  brk : h.brk = arch.heapStart
  mapped : h.mappedEnd = arch.heapStart + heapInitialPages * pageSize
  pages : h.pages = init.pages
  returned : ∃ beyond, h.taken = init.taken ++ beyond ∧ h.given.Perm beyond

/-- A page was allocated and mapped. -/
def PageAnswer.Granted (a : PageAnswer) : Prop := a.phys ≠ 0 ∧ a.mapped = true

instance (a : PageAnswer) : Decidable a.Granted := inferInstanceAs (Decidable (_ ∧ _))

/-- A request that moves the break needs several new pages, and is granted the first
but not all of them. -/
structure RefusedMidway (arch : X86) (h : HeapState) (size : UInt32)
    (answers : Nat → PageAnswer) : Prop where
  asked : size ≠ 0
  room : h.brk + heapNeed arch size ≤ arch.heapEnd
  first : (answers 0).Granted
  later : ∃ k, h.mappedEnd + k * pageSize < h.brk + heapNeed arch size ∧ ¬ (answers k).Granted

/-- A request is refused in the middle while no block is live. -/
def HeapSys.Strands (arch : X86) (s : HeapSys) : HeapCall → Prop
  | .kmalloc size answers => s.live = [] ∧ RefusedMidway arch s.heap size answers
  | .kcalloc count size answers => s.live = [] ∧ count.toNat * size.toNat < 2 ^ 32 ∧
      RefusedMidway arch s.heap (count * size) answers
  | _ => False

/-! ## The stock of pages -/

/-- The part of the heap's state that is about pages. -/
structure PageStock where
  mappedEnd : Nat
  pages : Nat → Nat
  taken : List Nat
  given : List Nat

def HeapState.stock (h : HeapState) : PageStock := { h with }

variable {arch : X86} {h h' : HeapState} {p p' : PageStock} {n m addr rounds : Nat}
    {answers : Nat → PageAnswer} {bs : List Block}

/-- The address of the heap's `k`th page. -/
def X86.heapPage (arch : X86) (k : Nat) : Nat := arch.heapStart + k * pageSize

theorem heapPage_inj {j k : Nat} : arch.heapPage j = arch.heapPage k ↔ j = k := by
  simp only [X86.heapPage, pageSize]
  omega

/-- Exactly the first `n` pages are mapped, and every page taken is among them or was
given back. -/
structure PageStock.Holds (arch : X86) (p : PageStock) (n : Nat) : Prop where
  ends : p.mappedEnd = arch.heapPage n
  held : ∀ k < n, p.pages (arch.heapPage k) ≠ 0
  clear : ∀ a, (∀ k < n, a ≠ arch.heapPage k) → p.pages a = 0
  ledger : p.taken.Perm (p.given ++ (List.range n).map fun k => p.pages (arch.heapPage k))

/-- The first `m` pages are kept, and the record of the pages taken goes on. -/
structure PageStock.Keeps (arch : X86) (m : Nat) (p p' : PageStock) : Prop where
  pages : ∀ k < m, p'.pages (arch.heapPage k) = p.pages (arch.heapPage k)
  taken : p.taken <+: p'.taken

theorem PageStock.Keeps.refl (m : Nat) (p : PageStock) : p.Keeps arch m p :=
  ⟨fun _ _ => rfl, prefix_rfl⟩

theorem PageStock.Keeps.trans {q : PageStock} (hpq : p.Keeps arch m q) (hq : q.Keeps arch m p') :
    p.Keeps arch m p' :=
  ⟨fun k hk => (hq.pages k hk).trans (hpq.pages k hk), hpq.taken.trans hq.taken⟩

theorem PageStock.Keeps.mono (hp : p.Keeps arch n p') (hmn : m ≤ n) : p.Keeps arch m p' :=
  ⟨fun k hk => hp.pages k (hk.trans_le hmn), hp.taken⟩

/-! ## Mapping and unmapping -/

/-- The next page is mapped. -/
def PageStock.push (p : PageStock) (phys : Nat) : PageStock where
  mappedEnd := p.mappedEnd + pageSize
  pages := update p.pages p.mappedEnd phys
  taken := p.taken ++ [phys]
  given := p.given

/-- A page is taken, cannot be mapped, and is returned at once. -/
def PageStock.bounce (p : PageStock) (phys : Nat) : PageStock :=
  { p with taken := p.taken ++ [phys], given := p.given ++ [phys] }

/-- The last page, at `addr`, is unmapped. -/
def PageStock.pop (p : PageStock) (addr : Nat) : PageStock where
  mappedEnd := addr
  pages := update p.pages addr 0
  taken := p.taken
  given := if p.pages addr = 0 then p.given else p.given ++ [p.pages addr]

theorem PageStock.push_keeps (hp : p.Holds arch n) (phys : Nat) : p.Keeps arch n (p.push phys) := by
  refine ⟨fun k hk => update_of_ne ?_ .., prefix_append _ _⟩
  rw [hp.ends, ne_eq, heapPage_inj]
  omega

theorem PageStock.Holds.push (hp : p.Holds arch n) {phys : Nat} (hphys : phys ≠ 0) :
    (p.push phys).Holds arch (n + 1) := by
  have hkeep := (push_keeps hp phys).pages
  have hnew : (p.push phys).pages (arch.heapPage n) = phys := by
    rw [← hp.ends]
    exact update_self ..
  refine ⟨?_, fun k hk => ?_, fun a ha => ?_, ?_⟩
  · show p.mappedEnd + pageSize = _
    rw [hp.ends, X86.heapPage, X86.heapPage, Nat.succ_mul, Nat.add_assoc]
  · rcases Nat.lt_succ_iff_lt_or_eq.mp hk with hk | rfl
    · rw [hkeep k hk]
      exact hp.held k hk
    · rwa [hnew]
  · have hother : (p.push phys).pages a = p.pages a := by
      refine update_of_ne ?_ ..
      rw [hp.ends]
      exact ha n (Nat.lt_succ_self n)
    rw [hother]
    exact hp.clear a fun k hk => ha k (Nat.lt_succ_of_lt hk)
  · have hmap : (List.range n).map (fun k => (p.push phys).pages (arch.heapPage k)) =
        (List.range n).map fun k => p.pages (arch.heapPage k) :=
      map_congr_left fun k hk => hkeep k (mem_range.mp hk)
    rw [range_succ, map_append, hmap, map_singleton, hnew, ← append_assoc]
    exact hp.ledger.append_right [phys]

theorem PageStock.Holds.bounce (hp : p.Holds arch n) (phys : Nat) :
    (p.bounce phys).Holds arch n := by
  refine { hp with ledger := ?_ }
  show (p.taken ++ [phys]).Perm (p.given ++ [phys] ++ _)
  rw [append_assoc]
  refine (hp.ledger.append_right [phys]).trans ?_
  rw [append_assoc]
  exact perm_append_comm.append_left p.given

theorem PageStock.pop_keeps (p : PageStock) (n : Nat) :
    p.Keeps arch n (p.pop (arch.heapPage n)) := by
  refine ⟨fun k hk => ?_, prefix_rfl⟩
  have hne : arch.heapPage k ≠ arch.heapPage n := by
    rw [ne_eq, heapPage_inj]
    omega
  simp only [PageStock.pop, update_of_ne hne]

theorem PageStock.Holds.pop (hp : p.Holds arch (n + 1)) :
    (p.pop (arch.heapPage n)).Holds arch n := by
  have hkeep := (@pop_keeps arch p n).pages
  refine ⟨rfl, fun k hk => ?_, fun a ha => ?_, ?_⟩
  · rw [hkeep k hk]
    exact hp.held k (Nat.lt_succ_of_lt hk)
  · show update p.pages (arch.heapPage n) 0 a = 0
    rcases eq_or_ne a (arch.heapPage n) with rfl | hne
    · exact update_self ..
    · rw [update_of_ne hne]
      refine hp.clear a fun k hk => ?_
      rcases Nat.lt_succ_iff_lt_or_eq.mp hk with hk | rfl
      · exact ha k hk
      · exact hne
  have hmap : (List.range n).map (fun k => (p.pop (arch.heapPage n)).pages (arch.heapPage k)) =
      (List.range n).map fun k => p.pages (arch.heapPage k) :=
    map_congr_left fun k hk => hkeep k (mem_range.mp hk)
  have hgiven : (p.pop (arch.heapPage n)).given = p.given ++ [p.pages (arch.heapPage n)] := by
    rw [PageStock.pop, if_neg (hp.held n (Nat.lt_succ_self n))]
  have hledger := hp.ledger
  rw [range_succ, map_append] at hledger
  rw [hmap, hgiven, append_assoc]
  exact hledger.trans (perm_append_comm.append_left p.given)

/-- Mapping pages adds to the stock. -/
theorem heapMapLoop_holds (hp : h.stock.Holds arch n) :
    ∃ n', n ≤ n' ∧ (heapMapLoop addr rounds answers h).2.stock.Holds arch n' ∧
      h.stock.Keeps arch n (heapMapLoop addr rounds answers h).2.stock := by
  induction rounds generalizing h n answers with
  | zero => exact ⟨n, le_rfl, hp, PageStock.Keeps.refl n _⟩
  | succ rounds ih =>
    unfold heapMapLoop
    split
    · dsimp only
      split
      · exact ⟨n, le_rfl, hp, PageStock.Keeps.refl n _⟩
      rename_i hphys
      split
      · obtain ⟨n', hle, hp', hkeep⟩ := @ih { h with
            mappedEnd := h.mappedEnd + pageSize
            mem := fun x => if h.mappedEnd ≤ x ∧ x < h.mappedEnd + pageSize then
              (answers 0).contents (x - h.mappedEnd) else h.mem x
            pages := update h.pages h.mappedEnd (answers 0).phys
            taken := h.taken ++ [(answers 0).phys] } (n + 1) (fun k => answers (k + 1))
          (hp.push hphys)
        exact ⟨n', by omega, hp', (PageStock.push_keeps hp _).trans (hkeep.mono (Nat.le_succ n))⟩
      · exact ⟨n, le_rfl, hp.bounce _, fun _ _ => rfl, prefix_append _ _⟩
    · exact ⟨n, le_rfl, hp, PageStock.Keeps.refl n _⟩

/-- Unmapping down to the `m`th page, with enough rounds. -/
theorem heapUnmapLoop_holds (hp : h.stock.Holds arch n) (hfuel : n ≤ m + rounds) :
    (heapUnmapLoop (arch.heapPage m) rounds h).stock.Holds arch (min m n) ∧
      h.stock.Keeps arch (min m n) (heapUnmapLoop (arch.heapPage m) rounds h).stock := by
  induction rounds generalizing h n with
  | zero =>
    rw [min_eq_right (by simpa using hfuel)]
    exact ⟨hp, PageStock.Keeps.refl n _⟩
  | succ rounds ih =>
    unfold heapUnmapLoop
    have hends : h.mappedEnd = arch.heapPage n := hp.ends
    split
    · rename_i hmore
      have hmn : m < n := by
        rw [hends] at hmore
        simp only [X86.heapPage, pageSize] at hmore
        omega
      obtain ⟨n, rfl⟩ := Nat.exists_eq_succ_of_ne_zero (Nat.ne_zero_of_lt hmn)
      have hmin : min m (n + 1) = min m n := by omega
      have hlast : h.mappedEnd - pageSize = arch.heapPage n := by
        rw [hends]
        simp only [X86.heapPage, pageSize]
        omega
      rw [hmin, hlast]
      obtain ⟨hp', hkeep⟩ := @ih { h with
            mappedEnd := arch.heapPage n
            pages := update h.pages (arch.heapPage n) 0
            given := if h.pages (arch.heapPage n) = 0 then h.given
              else h.given ++ [h.pages (arch.heapPage n)] } n hp.pop (by omega)
      exact ⟨hp', ((PageStock.pop_keeps h.stock n).mono (min_le_right m n)).trans hkeep⟩
    · rename_i hdone
      have hnm : n ≤ m := by
        rw [hends] at hdone
        simp only [X86.heapPage, pageSize] at hdone
        omega
      rw [min_eq_right hnm]
      exact ⟨hp, PageStock.Keeps.refl n _⟩

/-! ## What leaves the stock alone -/

section Frame

variable (arch)

section

variable (h : HeapState)

@[simp] theorem stock_setSize (b v : Nat) : (h.setSize arch b v).stock = h.stock := rfl

@[simp] theorem stock_setNext (b v : Nat) : (h.setNext arch b v).stock = h.stock := rfl

@[simp] theorem stock_link (prev x : Nat) : (h.link arch prev x).stock = h.stock := by
  unfold HeapState.link
  split <;> rfl

@[simp] theorem stock_heapTake (need prev b blockSize bnext : Nat) :
    (heapTake arch h need prev b blockSize bnext).stock = h.stock := by
  unfold heapTake
  dsimp only
  split <;> simp

end

theorem stock_kmallocWalk {need steps prev b c : Nat}
    (hwalk : kmallocWalk arch h need steps prev b = some (c, h')) : h'.stock = h.stock := by
  induction steps generalizing prev b with
  | zero => cases hwalk
  | succ steps ih =>
    simp only [kmallocWalk] at hwalk
    split_ifs at hwalk
    · cases hwalk
      exact stock_heapTake ..
    · exact ih hwalk

@[simp] theorem stock_heapCoalesce (h : HeapState) (b : Nat) :
    (heapCoalesce arch h b).stock = h.stock := by
  unfold heapCoalesce
  dsimp only
  split_ifs <;> simp

@[simp] theorem stock_heapRetract (n : Nat) (h : HeapState) :
    (heapRetract arch n h).stock = h.stock := by
  induction n generalizing h with
  | zero => rfl
  | succ n ih =>
    unfold heapRetract
    split
    · rfl
    · rw [ih, stock_link]
      rfl

end Frame

theorem brk_heapUnmapLoop (keep rounds : Nat) (h : HeapState) :
    (heapUnmapLoop keep rounds h).brk = h.brk := by
  induction rounds generalizing h with
  | zero => rfl
  | succ rounds ih =>
    unfold heapUnmapLoop
    split
    · exact ih _
    · rfl

/-! ## The calls -/

theorem kmalloc_holds (hp : h.stock.Holds arch n) (size : UInt32) (answers : Nat → PageAnswer) :
    ∃ n', n ≤ n' ∧ (kmalloc arch h size answers).2.stock.Holds arch n' ∧
      h.stock.Keeps arch n (kmalloc arch h size answers).2.stock := by
  have hsame : ∃ n', n ≤ n' ∧ h.stock.Holds arch n' ∧ h.stock.Keeps arch n h.stock :=
    ⟨n, le_rfl, hp, PageStock.Keeps.refl n _⟩
  unfold kmalloc
  split
  · exact hsame
  dsimp only
  split
  · rename_i b h' hwalk
    rw [stock_kmallocWalk arch hwalk]
    exact hsame
  split
  · exact hsame
  have hgrown := @heapMapLoop_holds arch h n (arch.add h.brk (heapNeed arch size))
    ((arch.add h.brk (heapNeed arch size) - h.mappedEnd + (pageSize - 1)) / pageSize) answers hp
  split
  all_goals
    rename_i h' hmap
    rw [heapMapUntil] at hmap
    rwa [hmap] at hgrown

theorem kcalloc_holds (hp : h.stock.Holds arch n) (count size : UInt32)
    (answers : Nat → PageAnswer) :
    ∃ n', n ≤ n' ∧ (kcalloc arch h count size answers).2.stock.Holds arch n' ∧
      h.stock.Keeps arch n (kcalloc arch h count size answers).2.stock := by
  unfold kcalloc
  split
  · exact ⟨n, le_rfl, hp, PageStock.Keeps.refl n _⟩
  dsimp only
  split_ifs <;> exact kmalloc_holds hp (count * size) answers

/-- The pages that `heap_shrink` keeps, counted from the start of the heap. -/
theorem keep_eq_heapPage (arch : X86) (brk : Nat) : ∃ m, heapInitialPages ≤ m ∧
    (if (brk + pageSize - 1) / pageSize * pageSize < arch.heapStart + heapInitialPages * pageSize
      then arch.heapStart + heapInitialPages * pageSize
      else (brk + pageSize - 1) / pageSize * pageSize) = arch.heapPage m ∧
    (brk ≤ arch.heapPage heapInitialPages → m = heapInitialPages) := by
  obtain ⟨c, hc⟩ := pageSize_dvd_start arch
  simp only [X86.heapPage, hc, pageSize, heapInitialPages]
  split
  · exact ⟨4, le_rfl, rfl, fun _ => rfl⟩
  · exact ⟨(brk + 4095) / 4096 - c, by omega, by omega, by omega⟩

/-- Shrinking keeps the initial pages, and no others once the break is among them. -/
theorem heapShrink_holds (hp : h.stock.Holds arch n) (hn : heapInitialPages ≤ n) :
    ∃ n', heapInitialPages ≤ n' ∧ (heapShrink arch h).stock.Holds arch n' ∧
      h.stock.Keeps arch heapInitialPages (heapShrink arch h).stock ∧
      ((heapShrink arch h).brk ≤ arch.heapPage heapInitialPages → n' = heapInitialPages) := by
  unfold heapShrink
  dsimp only
  rw [brk_heapUnmapLoop]
  have hp' : (heapRetract arch (h.brk + 1) h).stock.Holds arch n := by rwa [stock_heapRetract]
  have hends : (heapRetract arch (h.brk + 1) h).mappedEnd = arch.heapPage n := hp'.ends
  rw [← stock_heapRetract arch (h.brk + 1) h]
  generalize heapRetract arch (h.brk + 1) h = g at hp' hends ⊢
  obtain ⟨m, hm, hkeep, hlow⟩ := keep_eq_heapPage arch g.brk
  rw [hkeep, hends]
  obtain ⟨hleft, hkept⟩ := @heapUnmapLoop_holds arch g n m
    ((arch.heapPage n - arch.heapPage m + (pageSize - 1)) / pageSize) hp' (by
      simp only [X86.heapPage, pageSize]
      omega)
  have hmin : heapInitialPages ≤ min m n := le_min hm hn
  exact ⟨min m n, hmin, hleft, hkept.mono hmin, fun hbrk => by rw [hlow hbrk, min_eq_left hn]⟩

/-- Freeing a used block shrinks the heap. -/
theorem kfree_holds {x : Block} (hr : h.Represents arch bs) (hx : x ∈ bs)
    (hused : x.free = false) (hp : h.stock.Holds arch n) (hn : heapInitialPages ≤ n) :
    ∃ n', heapInitialPages ≤ n' ∧
      (kfree arch h (x.addr + arch.heapHeaderSize)).stock.Holds arch n' ∧
      h.stock.Keeps arch heapInitialPages (kfree arch h (x.addr + arch.heapHeaderSize)).stock ∧
      ((kfree arch h (x.addr + arch.heapHeaderSize)).brk ≤ arch.heapPage heapInitialPages →
        n' = heapInitialPages) := by
  obtain ⟨pre, post, rfl⟩ := append_of_mem hx
  rw [kfree_eq_release hr hused]
  have hsame : ∀ g : HeapState, g.stock = h.stock → ∃ n', heapInitialPages ≤ n' ∧
      (heapShrink arch g).stock.Holds arch n' ∧
      h.stock.Keeps arch heapInitialPages (heapShrink arch g).stock ∧
      ((heapShrink arch g).brk ≤ arch.heapPage heapInitialPages → n' = heapInitialPages) :=
    fun g hg => hg ▸ heapShrink_holds (hg ▸ hp) hn
  apply hsame
  split <;> simp

/-! ## Refused requests -/

/-- All pages are mapped exactly when each one is granted. -/
theorem heapMapLoop_ok (hfuel : addr ≤ h.mappedEnd + rounds * pageSize) :
    (heapMapLoop addr rounds answers h).1 = true ↔
      ∀ k, h.mappedEnd + k * pageSize < addr → (answers k).Granted := by
  induction rounds generalizing h answers with
  | zero => exact ⟨fun _ k hk => by omega, fun _ => rfl⟩
  | succ rounds ih =>
    unfold heapMapLoop
    split
    · dsimp only
      split
      · rename_i hphys
        exact ⟨by rintro ⟨⟩, fun hall => absurd hphys (hall 0 (by omega)).1⟩
      rename_i hphys
      split
      · rename_i hmapped
        rw [ih (by rw [Nat.succ_mul] at hfuel; dsimp only; omega)]
        dsimp only
        constructor
        · intro hall k hk
          cases k with
          | zero => exact ⟨hphys, hmapped⟩
          | succ k => exact hall k (by rw [Nat.succ_mul] at hk; omega)
        · intro hall k hk
          exact hall (k + 1) (by rw [Nat.succ_mul]; omega)
      · rename_i hmapped
        exact ⟨by rintro ⟨⟩, fun hall => absurd (hall 0 (by omega)).2 hmapped⟩
    · exact ⟨fun _ k hk => by omega, fun _ => rfl⟩

/-- Some page is mapped exactly when one is needed and the first is granted. -/
theorem heapMapLoop_some (hfuel : addr ≤ h.mappedEnd + rounds * pageSize) :
    h.mappedEnd < (heapMapLoop addr rounds answers h).2.mappedEnd ↔
      h.mappedEnd < addr ∧ (answers 0).Granted := by
  cases rounds with
  | zero => exact ⟨fun hlt => absurd hlt (lt_irrefl _), fun hlt => by omega⟩
  | succ rounds =>
    unfold heapMapLoop
    split
    · rename_i hmore
      dsimp only
      split
      · rename_i hphys
        exact ⟨fun hlt => absurd hlt (lt_irrefl _), fun hg => absurd hphys hg.2.1⟩
      rename_i hphys
      split
      · rename_i hmapped
        refine ⟨fun _ => ⟨hmore, hphys, hmapped⟩, fun _ => ?_⟩
        refine lt_of_lt_of_le ?_ (heapMapLoop_grows ?_).mapped
        · simp only [pageSize]
          omega
        · rw [Nat.succ_mul] at hfuel
          dsimp only
          omega
      · rename_i hmapped
        exact ⟨fun hlt => absurd hlt (lt_irrefl _), fun hg => absurd hg.2.2 hmapped⟩
    · rename_i hdone
      exact ⟨fun hlt => absurd hlt (lt_irrefl _), fun hg => absurd hg.1 hdone⟩

/-- On a heap without blocks, a request fails with pages mapped exactly when it is
refused in the middle. -/
theorem kmalloc_strands_iff (hr : h.Represents arch []) (size : UInt32)
    (answers : Nat → PageAnswer) :
    (kmalloc arch h size answers).1 = 0 ∧ h.mappedEnd < (kmalloc arch h size answers).2.mappedEnd ↔
      RefusedMidway arch h size answers := by
  have hlist : h.freeList = 0 := hr.chain
  have hwalk : kmallocWalk arch h (heapNeed arch size) heapMaxWalk 0 h.freeList = none := by
    rw [hlist]
    rfl
  have hbrk := hr.brk_lt
  have hhead := heapHeaderSize_le arch
  have hroom := @newBrk_iff arch (heapNeed arch size) h.brk (by omega) (heapNeed_lt size)
    (by have := heapEnd_lt arch; omega)
  unfold kmalloc
  split
  · rename_i hzero
    exact ⟨fun hlt => absurd hlt.2 (lt_irrefl _), fun hm => absurd hzero hm.asked⟩
  rename_i hasked
  dsimp only
  rw [hwalk]
  dsimp only
  split
  · rename_i hno
    refine ⟨fun hlt => absurd hlt.2 (lt_irrefl _), fun hm => absurd hno ?_⟩
    exact hroom.mpr ⟨hm.room, add_eq (by have := hm.room; have := heapEnd_lt arch; omega)⟩
  rename_i hok
  obtain ⟨hfits, hnew⟩ := hroom.mp hok
  have hfuel : h.brk + heapNeed arch size ≤ h.mappedEnd +
      (h.brk + heapNeed arch size - h.mappedEnd + (pageSize - 1)) / pageSize * pageSize := by
    simp only [pageSize]
    omega
  have hall := @heapMapLoop_ok h _ _ answers hfuel
  have hsome := @heapMapLoop_some h _ _ answers hfuel
  rw [hnew, heapMapUntil]
  rcases hloop : heapMapLoop (h.brk + heapNeed arch size)
    ((h.brk + heapNeed arch size - h.mappedEnd + (pageSize - 1)) / pageSize) answers h with ⟨ok, h'⟩
  rw [hloop] at hall hsome
  cases ok with
  | false =>
    rw [hsome]
    constructor
    · rintro ⟨-, -, hfirst⟩
      have hlater : ¬ ∀ k, h.mappedEnd + k * pageSize < h.brk + heapNeed arch size →
          (answers k).Granted := fun hg => Bool.false_ne_true (hall.mpr hg)
      push Not at hlater
      exact ⟨hasked, hfits, hfirst, hlater⟩
    · rintro ⟨-, -, hfirst, k, hk, -⟩
      exact ⟨rfl, by omega, hfirst⟩
  | true =>
    have hptr : arch.add h.brk arch.heapHeaderSize ≠ 0 := by
      rw [add_eq (by omega)]
      have := heapHeaderSize_pos arch
      omega
    refine ⟨fun hnull => absurd hnull.1 hptr, fun hm => ?_⟩
    obtain ⟨k, hk, hno⟩ := hm.later
    exact absurd (hall.mp rfl k hk) hno

theorem kcalloc_strands_iff (hr : h.Represents arch []) (count size : UInt32)
    (answers : Nat → PageAnswer) :
    (kcalloc arch h count size answers).1 = some 0 ∧
        h.mappedEnd < (kcalloc arch h count size answers).2.mappedEnd ↔
      count.toNat * size.toNat < 2 ^ 32 ∧ RefusedMidway arch h (count * size) answers := by
  unfold kcalloc
  split
  · rename_i hbig
    exact ⟨fun hlt => absurd hlt.2 (lt_irrefl _), fun hfits =>
      absurd hbig (product_fits_iff.mpr hfits.1)⟩
  rename_i hok
  rw [← kmalloc_strands_iff hr (count * size) answers]
  simp only [product_fits_iff.mp hok, true_and]
  split
  · rename_i hnull
    simp [hnull]
  · rename_i hptr
    split <;> simp [hptr]

/-! ## Runs -/

variable {init : HeapState} {s t : HeapSys}

/-- The pages of a heap that started from `init`. -/
structure HeapSys.Kept (arch : X86) (init : HeapState) (s : HeapSys) (n : Nat) : Prop where
  holds : s.heap.stock.Holds arch n
  initial : heapInitialPages ≤ n
  since : init.stock.Keeps arch heapInitialPages s.heap.stock
  rest : s.live = [] → n = heapInitialPages

/-- Without used blocks there are none at all: the last block is never free. -/
theorem HeapSys.Inv.nil_of_live (hi : s.Inv arch bs) (hlive : s.live = []) : bs = [] := by
  have hused : usedPtrs arch bs = [] := by
    have hperm := hi.live
    rw [hlive] at hperm
    exact hperm.nil_eq.symm
  rcases eq_nil_or_concat bs with hnil | ⟨pre, x, rfl⟩
  · exact hnil
  · have hx : x.free = false := hi.settled.last x (by simp)
    rw [concat_eq_append, usedPtrs_append, usedPtrs_cons_used hx] at hused
    simp at hused

theorem HeapSys.Inv.no_live (hi : s.Inv arch bs) (hlive : s.live = []) :
    s.heap.Represents arch [] := hi.nil_of_live hlive ▸ hi.represents

theorem HeapSys.Kept.atRest (hk : s.Kept arch init n) (hi : s.Inv arch bs) (hlive : s.live = [])
    (hinit : init.stock.Holds arch heapInitialPages) (hgiven : init.given = []) :
    s.heap.AtRest arch init := by
  have hr := hi.no_live hlive
  have hn := hk.rest hlive
  subst hn
  obtain ⟨beyond, hbeyond⟩ := hk.since.taken
  refine ⟨hr.chain, hr.tiles.symm, hk.holds.ends, ?_, beyond, hbeyond.symm, ?_⟩
  · funext a
    rcases Classical.em (∃ k < heapInitialPages, a = arch.heapPage k) with ⟨k, hk', rfl⟩ | hno
    · exact hk.since.pages k hk'
    · have hclear : ∀ k < heapInitialPages, a ≠ arch.heapPage k := fun k hk' ha => hno ⟨k, hk', ha⟩
      exact (hk.holds.clear a hclear).trans (hinit.clear a hclear).symm
  -- both ledgers list the same initial pages
  have hmap : (List.range heapInitialPages).map (fun k => s.heap.pages (arch.heapPage k)) =
      (List.range heapInitialPages).map fun k => init.pages (arch.heapPage k) :=
    map_congr_left fun k hk' => hk.since.pages k (mem_range.mp hk')
  have hled : (init.taken ++ beyond).Perm (s.heap.given ++
      (List.range heapInitialPages).map fun k => init.pages (arch.heapPage k)) := by
    have := hk.holds.ledger
    rw [← hbeyond] at this
    exact hmap ▸ this
  have hled' : init.taken.Perm
      ((List.range heapInitialPages).map fun k => init.pages (arch.heapPage k)) := by
    have : init.taken.Perm (init.given ++ _) := hinit.ledger
    rwa [hgiven] at this
  have hboth := (hled'.append_right beyond).symm.trans (hled.trans perm_append_comm)
  exact ((perm_append_left_iff _).mp hboth).symm

/-- A request hands out a block, or leaves the pages as they were unless it strands them. -/
theorem Kept.request {ptr : Nat} (hk : s.Kept arch init n) (hle : n ≤ m)
    (hp : h'.stock.Holds arch m) (hkeep : s.heap.stock.Keeps arch n h'.stock)
    (hrest : s.live = [] → ¬ (ptr = 0 ∧ s.heap.mappedEnd < h'.mappedEnd)) :
    (⟨h', handOut s.live ptr⟩ : HeapSys).Kept arch init m := by
  refine ⟨hp, hk.initial.trans hle, hk.since.trans (hkeep.mono hk.initial), fun hlive => ?_⟩
  unfold handOut at hlive
  split at hlive
  · rename_i hnull
    have hsame : ¬ s.heap.mappedEnd < h'.mappedEnd := fun hlt => hrest hlive ⟨hnull, hlt⟩
    have hn := hk.rest hlive
    have hends : s.heap.mappedEnd = arch.heapPage n := hk.holds.ends
    have hends' : h'.mappedEnd = arch.heapPage m := hp.ends
    rw [hends, hends'] at hsame
    simp only [X86.heapPage, pageSize] at hsame
    omega
  · simp at hlive

theorem kfree_kept (hi : s.Inv arch bs) (hk : s.Kept arch init n)
    (hstep : heapStep arch s (.kfree addr) = some t) : ∃ n', t.Kept arch init n' := by
  obtain ⟨bs', hi'⟩ := kfree_inv hi hstep
  obtain ⟨hlive, rfl⟩ := of_guard hstep
  rcases Classical.em (addr ∈ s.live) with hmem | hno
  · obtain ⟨x, hx, hused, rfl⟩ := mem_usedPtrs.mp (hi.live.mem_iff.mp hmem)
    obtain ⟨n', hn', hp', hkeep, hlow⟩ := kfree_holds hi.represents hx hused hk.holds hk.initial
    refine ⟨n', hp', hn', hk.since.trans hkeep, fun hnone => hlow ?_⟩
    have hbrk := (hi'.no_live hnone).tiles
    rw [show (kfree arch s.heap (x.addr + arch.heapHeaderSize)).brk = arch.heapStart from hbrk.symm]
    exact Nat.le_add_right _ _
  · obtain rfl := hlive.resolve_right hno
    rw [erase_of_not_mem hno]
    exact ⟨n, hk⟩

theorem heapStep_kept (s : HeapSys) (c : HeapCall) (t : HeapSys)
    (hinv : (∃ bs, s.Inv arch bs) ∧ ∃ n, s.Kept arch init n) (hok : c.Rounds ∧ ¬ s.Strands arch c)
    (hstep : heapStep arch s c = some t) : (∃ bs, t.Inv arch bs) ∧ ∃ n, t.Kept arch init n := by
  refine ⟨heapStep_inv s c t hinv.1 hok.1 hstep, ?_⟩
  obtain ⟨⟨bs, hi⟩, n, hk⟩ := hinv
  cases c with
  | kmalloc size answers =>
    obtain ⟨m, hle, hp, hkeep⟩ := kmalloc_holds hk.holds size answers
    cases hstep
    refine ⟨m, Kept.request hk hle hp hkeep fun hlive hbad => hok.2 ⟨hlive, ?_⟩⟩
    exact (kmalloc_strands_iff (hi.no_live hlive) size answers).mp hbad
  | kcalloc count size answers =>
    obtain ⟨m, hle, hp, hkeep⟩ := kcalloc_holds hk.holds count size answers
    obtain ⟨ptr, bs', hret, -⟩ := kcalloc_represents hi.represents hi.settled hok.1
    rcases hcall : kcalloc arch s.heap count size answers with ⟨ret, h'⟩
    rw [hcall] at hret hp hkeep
    subst hret
    simp only [heapStep, hcall] at hstep
    cases hstep
    refine ⟨m, Kept.request hk hle hp hkeep fun hlive hbad => hok.2 ⟨hlive, ?_⟩⟩
    refine (kcalloc_strands_iff (hi.no_live hlive) count size answers).mp ?_
    rw [hcall]
    exact ⟨by rw [hbad.1], hbad.2⟩
  | kfree addr => exact kfree_kept hi hk hstep
  | write ptr offset v =>
    obtain ⟨-, rfl⟩ := of_guard hstep
    exact ⟨n, hk.holds, hk.initial, hk.since, hk.rest⟩

/-- An initialisation that mapped its pages returned none. -/
theorem heapMapLoop_given : (heapMapLoop addr rounds answers h).2.given = h.given ∨
      (heapMapLoop addr rounds answers h).2.mappedEnd < addr := by
  induction rounds generalizing h answers with
  | zero => exact .inl rfl
  | succ rounds ih =>
    unfold heapMapLoop
    split
    · rename_i hmore
      dsimp only
      split
      · exact .inl rfl
      split
      · exact ih
      · exact .inr hmore
    · exact .inl rfl

theorem heapInit_kept (mem : ByteMem) (answers : Nat → PageAnswer)
    (initial : (heapInit arch mem answers).mappedEnd = arch.heapPage heapInitialPages) :
    (heapInit arch mem answers).stock.Holds arch heapInitialPages ∧
      (heapInit arch mem answers).given = [] := by
  have hempty : (⟨0, arch.heapStart, arch.heapStart, mem, fun _ => 0, [], []⟩ :
      HeapState).stock.Holds arch 0 := by
    refine ⟨?_, fun k hk => absurd hk (Nat.not_lt_zero k), fun _ _ => rfl, List.Perm.nil⟩
    rfl
  constructor
  · obtain ⟨n, -, hp, -⟩ := heapMapLoop_holds hempty
    have hn : n = heapInitialPages := heapPage_inj.mp (hp.ends.symm.trans initial)
    exact hn ▸ hp
  · rcases heapMapLoop_given with hgiven | hlt
    · exact hgiven
    · exact absurd (initial ▸ hlt) (lt_irrefl _)

/-- **The heap comes to rest.**  After an initialisation that mapped its pages, the heap is
back at its initial state whenever no block is live, exactly when no request is refused
in the middle while none is. -/
theorem heap_at_rest_iff (arch : X86) (mem : ByteMem) (answers : Nat → PageAnswer)
    (calls : List HeapCall)
    (initial : (heapInit arch mem answers).mappedEnd = arch.heapStart + heapInitialPages * pageSize)
    (rounds : AllSteps (heapStep arch) (fun _ c => c.Rounds) ⟨heapInit arch mem answers, []⟩ calls)
    :
    AllSteps (heapStep arch) (fun s c => ¬ s.Strands arch c) ⟨heapInit arch mem answers, []⟩ calls ↔
      ∀ pre post t, calls = pre ++ post →
        exec (heapStep arch) ⟨heapInit arch mem answers, []⟩ pre = some t → t.live = [] →
        t.heap.AtRest arch (heapInit arch mem answers) := by
  obtain ⟨hinit, hgiven⟩ := heapInit_kept mem answers initial
  constructor
  · rintro hcalm pre post t rfl run hlive
    obtain ⟨⟨bs, hi⟩, n, hk⟩ := exec_invariant heapStep_kept
      ⟨⟨[], heapInit_inv mem answers⟩, heapInitialPages, hinit, le_rfl,
        PageStock.Keeps.refl _ _, fun _ => rfl⟩ (rounds.left.and hcalm.left) run
    exact hk.atRest hi hlive hinit hgiven
  intro hrest
  refine allSteps_iff.mpr fun pre c post t hcalls run hstrand => ?_
  have hrounds := rounds
  rw [hcalls] at hrounds
  obtain ⟨bs, hi⟩ := exec_invariant heapStep_inv ⟨[], heapInit_inv mem answers⟩ hrounds.left run
  have hnext : ∀ u, heapStep arch t c = some u → u.live = [] →
      u.heap.mappedEnd = arch.heapStart + heapInitialPages * pageSize := fun u hstep hlive =>
    (hrest (pre ++ [c]) post u (by rw [hcalls, append_assoc]; rfl)
      (exec_append_eq_some.mpr ⟨t, run, exec_cons_eq_some.mpr ⟨u, hstep, rfl⟩⟩) hlive).mapped
  cases c with
  | kmalloc size as =>
    obtain ⟨hlive, hmid⟩ := hstrand
    have hnow := (hrest pre _ t hcalls run hlive).mapped
    obtain ⟨hnull, hgrew⟩ := (kmalloc_strands_iff (hi.no_live hlive) size as).mpr hmid
    have := hnext _ (heapStep_kmalloc t size as) (by rw [hnull]; exact hlive)
    dsimp only at this
    omega
  | kcalloc count size as =>
    obtain ⟨hlive, hfits⟩ := hstrand
    have hnow := (hrest pre _ t hcalls run hlive).mapped
    obtain ⟨hnull, hgrew⟩ := (kcalloc_strands_iff (hi.no_live hlive) count size as).mpr hfits
    rcases hcall : kcalloc arch t.heap count size as with ⟨ret, h'⟩
    rw [hcall] at hnull hgrew
    dsimp only at hnull hgrew
    subst hnull
    have := hnext ⟨h', handOut t.live 0⟩ (by simp only [heapStep, hcall]) hlive
    dsimp only at this
    omega
  | kfree addr => exact hstrand
  | write ptr offset v => exact hstrand

/-- Two more pages, and no third one. -/
def scarce : Nat → PageAnswer := fun k =>
  if k < 2 then ⟨(k + 100) * pageSize, true, fun _ => 0⟩ else ⟨0, false, fun _ => 0⟩

/-- The second request is refused in the middle, with the first block live. -/
def refusedThenFreed : List HeapCall :=
  [.kmalloc 100 plenty, .kmalloc 30000 scarce, .kfree 0xFFFFFFFF90000010]

theorem heap_at_rest_iff_freed :
    ∃ t, exec (heapStep .amd64) ⟨heapInit .amd64 (fun _ => 0) plenty, []⟩ refusedThenFreed =
      some t ∧
      t.live = [] ∧ t.heap.given = [101 * 4096, 100 * 4096] ∧
      t.heap.AtRest .amd64 (heapInit .amd64 (fun _ => 0) plenty) := by
  refine exists_run (A := fun t => t.live = [] ∧ t.heap.given = [101 * 4096, 100 * 4096])
    (by decide +kernel) ?_
  rintro t hrun ⟨hlive, hgiven⟩
  have hrounds : ∀ c ∈ refusedThenFreed, c.Rounds := by decide
  have hplenty : ∀ k, (plenty k).Granted := fun k => ⟨by simp [plenty, pageSize], rfl⟩
  refine ⟨hlive, hgiven, (heap_at_rest_iff .amd64 (fun _ => 0) plenty refusedThenFreed
    (by decide +kernel) (AllSteps.of_forall fun c hc _ => hrounds c hc)).mp ?_
    refusedThenFreed [] t rfl hrun hlive⟩
  refine ⟨?_, fun t₁ ht₁ => ⟨?_, fun t₂ _ => ⟨id, fun _ _ => trivial⟩⟩⟩
  · rintro ⟨_, hm⟩
    obtain ⟨k, _, hno⟩ := hm.later
    exact hno (hplenty k)
  · rintro ⟨hnone, _⟩
    rw [heapStep_kmalloc, Option.some.injEq] at ht₁
    rw [← ht₁] at hnone
    cases hnone

/-- A first request for more than the page allocator has leaves two pages mapped, and no
block whose release would return them. -/
theorem refused_request_strands_pages : (heapInit .amd64 (fun _ => 0) plenty).mappedEnd =
        X86.amd64.heapStart + heapInitialPages * pageSize ∧
      ∃ t, exec (heapStep .amd64) ⟨heapInit .amd64 (fun _ => 0) plenty, []⟩
          [.kmalloc 30000 scarce] = some t ∧ t.live = [] ∧
        ¬ t.heap.AtRest .amd64 (heapInit .amd64 (fun _ => 0) plenty) := by
  refine ⟨by decide +kernel, exists_run (A := fun t => t.live = [] ∧
    t.heap.mappedEnd = X86.amd64.heapStart + 6 * pageSize) (by decide +kernel) ?_⟩
  rintro t - ⟨hlive, hmapped⟩
  exact ⟨hlive, fun hrest => absurd (hmapped.symm.trans hrest.mapped) (by decide)⟩

end ArcKernel.Heap
