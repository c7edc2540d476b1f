import ArcKernel.Foundation.Range
import ArcKernel.Foundation.Run
import ArcKernel.Vm.Map

/-!
# Address maps stay sorted and disjoint

The entries in use are read off the array as a list, `VmMap.live`.  On that list
the array operations are insertion, removal and replacement, and each of the two
loops replaces the entries it passes by pieces of themselves.  That a list of
separated ranges stays separated is then a fact about lists.

The loops do so only while their pointer to the current entry stays valid and the
pieces are put back in order.  `MapCall.Sound` says when that is the case, in
terms of the map before the call.
-/

namespace ArcKernel.Vm

open ArcKernel.Foundation List VmMap

variable {done pieces post pre rest : List VmEntry} {mem mem' : MapMem}
    {addr fuel prot stop i : Nat}
    {e x : VmEntry} {f : VmEntry → List VmEntry} {m m' : VmMap} {events : List RefEvent}

/-! ## The array as a list -/

/-- The block has the recorded size and holds the recorded number of entries. -/
structure VmMap.Shaped (m : VmMap) : Prop where
  block : m.entries.length = m.maxEntries
  fits : m.entryCount ≤ m.maxEntries

theorem VmMap.Shaped.length_live (h : m.Shaped) : m.live.length = m.entryCount := by
  rw [live, length_take, h.block]
  have := h.fits
  omega

theorem VmMap.Shaped.count_eq (h : m.Shaped) (hlive : m.live = done ++ e :: rest) :
    m.entryCount = done.length + rest.length + 1 := by
  rw [← h.length_live, hlive, length_append, length_cons, Nat.add_assoc]

theorem entry_of_live (h : m.Shaped) (hlive : m.live = done ++ e :: rest) :
    m.entry done.length = e := by
  have hlt : done.length < m.entryCount := by
    have := h.count_eq hlive
    omega
  have hcell : m.live[done.length]? = some e := by
    rw [hlive]
    simp
  rw [live, List.getElem?_take_of_lt hlt] at hcell
  rw [entry, getD_eq_getElem?_getD, hcell]
  rfl

theorem VmMap.Shaped.setEntry (h : m.Shaped) (i : Nat) (x : VmEntry) : (m.setEntry i x).Shaped :=
  ⟨by rw [VmMap.setEntry, length_set]; exact h.block, h.fits⟩

theorem live_setEntry (hlive : m.live = done ++ e :: rest) (x : VmEntry) :
    (m.setEntry done.length x).live = done ++ x :: rest := by
  rw [live] at hlive
  rw [live, setEntry, take_set, hlive]
  simp

theorem VmMap.Shaped.shiftLeft (h : m.Shaped) (i : Nat) : (entriesShiftLeft m i).Shaped := by
  refine ⟨?_, ?_⟩
  · rw [entriesShiftLeft, length_shiftLeft]
    exact h.block
  · have := h.fits
    simp only [entriesShiftLeft]
    omega

theorem live_entriesShiftLeft (h : m.Shaped) (hlive : m.live = done ++ e :: rest) :
    (entriesShiftLeft m done.length).live = done ++ rest := by
  refine take_shiftLeft ?_ hlive
  rw [h.block]
  exact h.fits

theorem VmMap.Shaped.insertAt (h : m.Shaped) (hroom : m.entryCount + 1 ≤ m.maxEntries) (i : Nat)
    (x : VmEntry) : (m.insertAt i x).Shaped := by
  refine ⟨?_, hroom⟩
  simp only [VmMap.insertAt, VmMap.setEntry, entriesShiftRight, length_set, length_shiftRight]
  exact h.block

theorem live_insertAt (h : m.Shaped) (hroom : m.entryCount + 1 ≤ m.maxEntries)
    (hlive : m.live = pre ++ post) (x : VmEntry) :
    (m.insertAt pre.length x).live = pre ++ x :: post := by
  refine take_shiftRight_set x ?_ hlive
  rw [h.block]
  exact hroom

/-- Behind the last entry nothing has to move. -/
theorem entriesShiftRight_of_le (m : VmMap) (h : m.entryCount ≤ i) : entriesShiftRight m i = m := by
  have : shiftRight m.entries m.entryCount i = m.entries := by
    cases hcount : m.entryCount with
    | zero => rw [shiftRight]
    | succ n => rw [shiftRight, if_neg (by omega)]
  rw [entriesShiftRight, this]

/-- Behind the last entry the insertion of two is one insertion after the other. -/
theorem insertTwo_eq (hlast : m.entryCount = i) (x y : VmEntry) :
    m.insertTwo i x y = (m.insertAt i x).insertAt (i + 1) y := by
  have hfirst : entriesShiftRight m i = m := entriesShiftRight_of_le m (by omega)
  have hsecond : entriesShiftRight m (i + 1) = m := entriesShiftRight_of_le m (by omega)
  have hthird : entriesShiftRight (m.insertAt i x) (i + 1) = m.insertAt i x := by
    refine entriesShiftRight_of_le _ ?_
    simp only [insertAt]
    omega
  have houter : ∀ m' : VmMap, entriesShiftRight m' (i + 1) = m' →
      m'.insertAt (i + 1) y = { m'.setEntry (i + 1) y with entryCount := m'.entryCount + 1 } := by
    intro m' hm'
    rw [insertAt, hm']
  rw [houter _ hthird, insertTwo, hfirst, hsecond, insertAt, hfirst]
  rfl

/-! ## Capacity -/

/-- A map that has grown: the same entries in a block that may be another one. -/
structure VmMap.SameEntries (m m' : VmMap) : Prop where
  shaped : m'.Shaped
  live : m'.live = m.live
  count : m'.entryCount = m.entryCount

theorem vmMapGrow_sameEntries {block : Option (Nat → VmEntry)} (h : m.Shaped)
    (hgrow : vmMapGrow m block = some m') : m.SameEntries m' := by
  unfold vmMapGrow at hgrow
  dsimp only at hgrow
  have hcap : m.entryCount ≤
      if m.maxEntries < vmMapInitCapacity then vmMapInitCapacity else m.maxEntries * 2 := by
    have := h.fits
    split <;> omega
  generalize (if m.maxEntries < vmMapInitCapacity then vmMapInitCapacity
    else m.maxEntries * 2) = newCap at hgrow hcap
  split at hgrow
  · simp at hgrow
  split at hgrow
  · simp at hgrow
  cases hgrow
  have hlen : m.entryCount ≤ m.entries.length := h.block ▸ h.fits
  refine ⟨⟨length_copyInto hlen hcap, hcap⟩, ?_, rfl⟩
  apply ext_getElem?
  intro j
  by_cases hj : j < m.entryCount
  · rw [live, live, List.getElem?_take_of_lt hj, List.getElem?_take_of_lt hj,
      getElem?_copyInto_lt hlen hj]
  · rw [live, live, List.getElem?_take, List.getElem?_take, if_neg hj, if_neg hj]

/-- What `vm_map_ensure_capacity` leaves behind. -/
structure Capacity.Spec (m : VmMap) (extra : Nat) (c : Capacity) : Prop where
  same : m.SameEntries c.map
  room : c.ok = true → m.entryCount + extra ≤ c.map.maxEntries
  unmoved : c.moved = false → c.map = m

theorem ensureCapacity_spec (h : m.Shaped) (extra : Nat) (mem : MapMem) :
    Capacity.Spec m extra (vmMapEnsureCapacity m extra mem) := by
  induction mem generalizing m with
  | nil => exact ⟨⟨h, rfl, rfl⟩, fun hok => by simpa [vmMapEnsureCapacity] using hok, fun _ => rfl⟩
  | cons block mem ih =>
    rw [vmMapEnsureCapacity]
    split
    · split
      · exact ⟨⟨h, rfl, rfl⟩, by simp, fun _ => rfl⟩
      · rename_i grown hgrow
        have hsame := vmMapGrow_sameEntries h hgrow
        have spec := ih hsame.shaped
        refine ⟨⟨spec.same.shaped, spec.same.live.trans hsame.live,
          spec.same.count.trans hsame.count⟩, ?_, by simp⟩
        intro hok
        have := spec.room hok
        rw [hsame.count] at this
        exact this
    · exact ⟨⟨h, rfl, rfl⟩, fun _ => by dsimp only; omega, fun _ => rfl⟩

/-- The verdict depends on the two sizes only. -/
theorem ensureCapacity_congr (hcount : m'.entryCount = m.entryCount)
    (hmax : m'.maxEntries = m.maxEntries) (extra : Nat) (mem : MapMem) :
    (vmMapEnsureCapacity m' extra mem).ok = (vmMapEnsureCapacity m extra mem).ok ∧
      (vmMapEnsureCapacity m' extra mem).moved = (vmMapEnsureCapacity m extra mem).moved := by
  induction mem generalizing m m' with
  | nil => simp [vmMapEnsureCapacity, hcount, hmax]
  | cons block mem ih =>
    rw [vmMapEnsureCapacity, vmMapEnsureCapacity, hcount, hmax]
    split
    · cases block with
      | none => simp [vmMapGrow, hmax]
      | some fresh =>
        simp only [vmMapGrow, hmax]
        generalize (if m.maxEntries < vmMapInitCapacity then vmMapInitCapacity
          else m.maxEntries * 2) = newCap
        by_cases hcap : newCap > vmMapMaxCapacity
        · simp only [if_pos hcap, and_self]
        · simp only [if_neg hcap, and_true]
          refine (ih ?_ ?_).1
          · exact hcount
          · rfl
    · exact ⟨rfl, rfl⟩

/-! ## Splitting an entry -/

theorem VmMap.Shaped.write (h : m.Shaped) (moved : Bool) (i : Nat) (x : VmEntry) :
    (m.write moved i x).Shaped := by
  rw [VmMap.write]
  split
  · exact h
  · exact h.setEntry i x

section

variable (m : VmMap) (moved : Bool) (i : Nat) (x : VmEntry)

@[simp] theorem write_entryCount : (m.write moved i x).entryCount = m.entryCount := by
  rw [write]
  split <;> rfl

@[simp] theorem write_maxEntries : (m.write moved i x).maxEntries = m.maxEntries := by
  rw [write]
  split <;> rfl

end

/-- What a write through the pointer to the current entry leaves there. -/
theorem live_write (moved : Bool) (hlive : m.live = done ++ e :: rest) (x : VmEntry) :
    (m.write moved done.length x).live = done ++ (if moved then e else x) :: rest := by
  rw [write]
  split
  · exact hlive
  · exact live_setEntry hlive x

/-- After `vm_map_ensure_capacity` found room, the current entry is overwritten, or
not, and another one is inserted behind it. -/
theorem split_entry (h : m.Shaped) (hlive : m.live = done ++ e :: rest)
    (hok : (vmMapEnsureCapacity m 1 mem).ok = true) (x y : VmEntry) :
    let cap := vmMapEnsureCapacity m 1 mem
    let m' := (cap.map.write cap.moved done.length x).insertAt (done.length + 1) y
    m'.Shaped ∧ m'.live = done ++ ([if cap.moved then e else x, y] ++ rest) := by
  intro cap m'
  have spec := ensureCapacity_spec h 1 mem
  have hroom : (cap.map.write cap.moved done.length x).entryCount + 1 ≤
      (cap.map.write cap.moved done.length x).maxEntries := by
    rw [write_entryCount, write_maxEntries, spec.same.count]
    exact spec.room hok
  have hshape := spec.same.shaped.write cap.moved done.length x
  have hview := live_write cap.moved (spec.same.live.trans hlive) x
  rw [← singleton_append, ← append_assoc] at hview
  have hinsert := live_insertAt hshape hroom hview y
  rw [length_append, append_assoc] at hinsert
  exact ⟨hshape.insertAt hroom _ y, hinsert⟩

/-- The same for the two entries of a three-way split of the last entry. -/
theorem split_last_entry (h : m.Shaped) (hlive : m.live = done ++ [e])
    (hok : (vmMapEnsureCapacity m 2 mem).ok = true) (x y z : VmEntry) :
    let cap := vmMapEnsureCapacity m 2 mem
    let m' := (cap.map.write cap.moved done.length x).insertTwo (done.length + 1) y z
    m'.Shaped ∧ m'.live = done ++ ([if cap.moved then e else x, y, z] ++ []) := by
  intro cap m'
  have spec : Capacity.Spec m 2 cap := ensureCapacity_spec h 2 mem
  have hview := live_write cap.moved (spec.same.live.trans hlive) x
  have hshape := spec.same.shaped.write cap.moved done.length x
  have hroom : (cap.map.write cap.moved done.length x).entryCount + 1 + 1 ≤
      (cap.map.write cap.moved done.length x).maxEntries := by
    rw [write_entryCount, write_maxEntries, spec.same.count]
    exact spec.room hok
  rw [show m' = _ from insertTwo_eq (hshape.count_eq hview) y z]
  rw [← append_nil (done ++ _)] at hview
  have hfirst := live_insertAt hshape (Nat.le_of_succ_le hroom) hview y
  have hshape' := hshape.insertAt (Nat.le_of_succ_le hroom) (done.length + 1) y
  rw [length_append, append_assoc, ← append_nil (done ++ _)] at hfirst
  have hsecond := live_insertAt hshape' hroom hfirst z
  rw [length_append, append_assoc] at hsecond
  exact ⟨hshape'.insertAt hroom _ z, hsecond⟩

/-! ## The turns of the loops -/

/-- What a loop over the entries can do at one of them.  A `turn` replaces the
entry by pieces, moves references, and leaves a map and allocation outcomes; the
loop gives up at an entry it is `stuck` at, and displaces the entries behind one
at which it gets `lost`. -/
structure LoopTurns where
  turn : VmMap → MapMem → VmEntry → List VmEntry → List RefEvent → VmMap → MapMem → Prop
  stuck : VmMap → MapMem → VmEntry → Prop
  lost : VmMap → MapMem → VmEntry → Prop

/-- A loop that has made `done` of the entries it passed goes over `post`. -/
inductive Sweep (l : LoopTurns) : List VmEntry → List VmEntry → VmMap → MapMem →
    List RefEvent → MapResult → Prop
  | finish {done : List VmEntry} {m : VmMap} {mem : MapMem} {refs : List RefEvent}
      (h : m.Shaped) (hlive : m.live = done ++ []) : Sweep l done [] m mem refs ⟨0, m, refs⟩
  | fail {done rest : List VmEntry} {e : VmEntry} {m m' : VmMap} {mem : MapMem}
      {refs : List RefEvent} (hsame : m.SameEntries m') (hlive : m.live = done ++ e :: rest)
      (hstuck : l.stuck m mem e) : Sweep l done (e :: rest) m mem refs ⟨-1, m', refs⟩
  | astray {done rest : List VmEntry} {e : VmEntry} {m : VmMap} {mem : MapMem}
      {refs : List RefEvent} {r : MapResult} (hlive : m.live = done ++ e :: rest)
      (hlost : l.lost m mem e) (hrest : rest ≠ []) : Sweep l done (e :: rest) m mem refs r
  | next {done rest pieces : List VmEntry} {e : VmEntry} {m m' : VmMap} {mem mem' : MapMem}
      {refs events : List RefEvent} {r : MapResult} (hlive : m.live = done ++ e :: rest)
      (hturn : l.turn m mem e pieces events m' mem')
      (hlive' : m'.live = done ++ (pieces ++ rest))
      (hnext : Sweep l (done ++ pieces) rest m' mem' (refs ++ events) r) :
      Sweep l done (e :: rest) m mem refs r

/-- The whole loop, once its turns are known. -/
theorem Sweep.of_loop {l : LoopTurns}
    {loop : Nat → Nat → VmMap → MapMem → List RefEvent → MapResult}
    (hzero : ∀ i m mem refs, loop 0 i m mem refs = ⟨0, m, refs⟩)
    (hend : ∀ fuel i m mem refs, ¬ i < m.entryCount → loop (fuel + 1) i m mem refs = ⟨0, m, refs⟩)
    (hstep : ∀ fuel done e rest m mem refs, m.Shaped → m.live = done ++ e :: rest →
      (∀ pieces events m' mem', l.turn m mem e pieces events m' mem' → m'.Shaped →
        m'.live = done ++ (pieces ++ rest) →
        Sweep l done (e :: rest) m mem refs
          (loop fuel (done.length + pieces.length) m' mem' (refs ++ events))) →
      Sweep l done (e :: rest) m mem refs (loop (fuel + 1) done.length m mem refs))
    (done : List VmEntry) (mem : MapMem) (refs : List RefEvent) (h : m.Shaped)
    (hlive : m.live = done ++ post) (hfuel : post.length ≤ fuel) :
    Sweep l done post m mem refs (loop fuel done.length m mem refs) := by
  induction post generalizing fuel m done mem refs with
  | nil =>
    have hcount : ¬ done.length < m.entryCount := by
      rw [← h.length_live, hlive]
      simp
    cases fuel with
    | zero =>
      rw [hzero]
      exact .finish h hlive
    | succ fuel =>
      rw [hend _ _ _ _ _ hcount]
      exact .finish h hlive
  | cons e rest ih =>
    obtain ⟨fuel, rfl⟩ : ∃ k, fuel = k + 1 := ⟨fuel - 1, by rw [length_cons] at hfuel; omega⟩
    refine hstep fuel done e rest m mem refs h hlive ?_
    intro pieces events m' mem' hturn h' hlive'
    have hrest : rest.length ≤ fuel := Nat.le_of_succ_le_succ hfuel
    have hnext := ih (done ++ pieces) mem' (refs ++ events) h' (by rw [hlive', append_assoc]) hrest
    rw [length_append] at hnext
    exact .next hlive hturn hlive' hnext

/-- A turn of `vm_map_unmap`. -/
inductive UnmapTurn (addr stop : Nat) (m : VmMap) (mem : MapMem) (e : VmEntry) :
    List VmEntry → List RefEvent → VmMap → MapMem → Prop
  | skip (hover : ¬ entryOverlaps e addr stop = true) : UnmapTurn addr stop m mem e [e] [] m mem
  | full {m' : VmMap} (hover : entryOverlaps e addr stop = true)
      (h : addr ≤ e.start ∧ stop ≥ e.stop) : UnmapTurn addr stop m mem e [] (releaseOf e) m' mem
  | left {m' : VmMap} (hover : entryOverlaps e addr stop = true)
      (h : addr ≤ e.start ∧ stop < e.stop) :
      UnmapTurn addr stop m mem e [e.fromCut stop] [] m' mem
  | right {m' : VmMap} (hover : entryOverlaps e addr stop = true)
      (h : addr > e.start ∧ stop ≥ e.stop) :
      UnmapTurn addr stop m mem e [{ e with stop := addr }] [] m' mem
  | split {m' : VmMap} (hover : entryOverlaps e addr stop = true)
      (h : addr > e.start ∧ stop < e.stop) :
      UnmapTurn addr stop m mem e
        [if (vmMapEnsureCapacity m 1 mem).moved then e else { e with stop := addr },
          e.fromCut stop] (retainOf e) m' (vmMapEnsureCapacity m 1 mem).mem

/-- The loop of `vm_map_unmap`: it is stuck at an entry there is no room to split. -/
def unmapTurns (addr stop : Nat) : LoopTurns where
  turn := UnmapTurn addr stop
  stuck m mem e := e.start < addr ∧ stop < e.stop ∧ (vmMapEnsureCapacity m 1 mem).ok = false
  lost _ _ _ := False

theorem unmapLoop_sweep (done : List VmEntry) (mem : MapMem) (refs : List RefEvent) (h : m.Shaped)
    (hlive : m.live = done ++ post) (hfuel : post.length ≤ fuel) :
    Sweep (unmapTurns addr stop) done post m mem refs
      (unmapLoop addr stop fuel done.length m mem refs) := by
  refine Sweep.of_loop (fun _ _ _ _ => rfl) (fun _ _ _ _ _ hi => by rw [unmapLoop, if_neg hi]) ?_
    done mem refs h hlive hfuel
  intro fuel done e rest m mem refs h hlive hgo
  have hcount := h.count_eq hlive
  have hstay := hgo [e] [] m mem
  simp only [append_nil] at hstay
  rw [unmapLoop, if_pos (by omega), entry_of_live h hlive]
  dsimp only
  split
  · rename_i hover
    exact hstay (.skip (by simpa using hover)) h hlive
  rename_i hover
  rw [Bool.not_eq_true', Bool.not_eq_false] at hover
  split
  · exact hgo _ _ _ _ (.full hover (by assumption)) (h.shiftLeft _) (live_entriesShiftLeft h hlive)
  split
  · have := hgo _ _ (m.setEntry done.length (e.fromCut stop)) _ (.left hover (by assumption))
      (h.setEntry _ _) (live_setEntry hlive _)
    rwa [append_nil] at this
  split
  · have := hgo _ _ (m.setEntry done.length { e with stop := addr }) _
      (.right hover (by assumption)) (h.setEntry _ _) (live_setEntry hlive _)
    rwa [append_nil] at this
  rw [if_pos (by omega)]
  split
  · rename_i hok
    obtain ⟨hshape, hview⟩ := split_entry h hlive hok { e with stop := addr } (e.fromCut stop)
    exact hgo _ _ _ _ (.split hover (by omega)) hshape hview
  · rename_i hok
    exact .fail (ensureCapacity_spec h 1 mem).same hlive ⟨by omega, by omega, by simpa using hok⟩

/-- A turn of `vm_map_protect`. -/
inductive ProtectTurn (addr stop prot : Nat) (m : VmMap) (mem : MapMem) (e : VmEntry) :
    List VmEntry → List RefEvent → VmMap → MapMem → Prop
  | skip (hover : ¬ entryOverlaps e addr stop = true) :
      ProtectTurn addr stop prot m mem e [e] [] m mem
  | full (hover : entryOverlaps e addr stop = true) (h : addr ≤ e.start ∧ stop ≥ e.stop) (i : Nat) :
      ProtectTurn addr stop prot m mem e [{ e with prot := prot }] []
        (m.setEntry i { e with prot := prot }) mem
  | left {m' : VmMap} (hover : entryOverlaps e addr stop = true)
      (h : addr ≤ e.start ∧ stop < e.stop) :
      ProtectTurn addr stop prot m mem e
        [if (vmMapEnsureCapacity m 1 mem).moved then e else { e with stop := stop, prot := prot },
          e.fromCut stop] (retainOf e) m' (vmMapEnsureCapacity m 1 mem).mem
  | right {m' : VmMap} (hover : entryOverlaps e addr stop = true)
      (h : addr > e.start ∧ stop ≥ e.stop) (hok : (vmMapEnsureCapacity m 1 mem).ok = true) :
      ProtectTurn addr stop prot m mem e
        [if (vmMapEnsureCapacity m 1 mem).moved then e else { e.fromCut addr with prot := prot },
          { e with stop := addr }] (retainOf e) m' (vmMapEnsureCapacity m 1 mem).mem
  | middle {m' : VmMap} (hover : entryOverlaps e addr stop = true)
      (h : addr > e.start ∧ stop < e.stop) :
      ProtectTurn addr stop prot m mem e
        [if (vmMapEnsureCapacity m 2 mem).moved then e else { e with stop := addr },
          { e.fromCut addr with stop := stop, prot := prot }, e.fromCut stop]
        (retainOf e ++ retainOf e) m' (vmMapEnsureCapacity m 2 mem).mem

/-- The loop of `vm_map_protect`.  The second shift of a three-way split runs with
the old count, which does no harm only behind the last entry. -/
def protectTurns (addr stop prot : Nat) : LoopTurns where
  turn := ProtectTurn addr stop prot
  stuck m mem _ :=
    (vmMapEnsureCapacity m 1 mem).ok = false ∨ (vmMapEnsureCapacity m 2 mem).ok = false
  lost m mem e := e.start < addr ∧ stop < e.stop ∧ (vmMapEnsureCapacity m 2 mem).ok = true

theorem protectLoop_sweep (prot : Nat) (done : List VmEntry) (mem : MapMem) (refs : List RefEvent)
    (h : m.Shaped) (hlive : m.live = done ++ post) (hfuel : post.length ≤ fuel) :
    Sweep (protectTurns addr stop prot) done post m mem refs
      (protectLoop addr stop prot fuel done.length m mem refs) := by
  refine Sweep.of_loop (fun _ _ _ _ => rfl) (fun _ _ _ _ _ hi => by rw [protectLoop, if_neg hi]) ?_
    done mem refs h hlive hfuel
  intro fuel done e rest m mem refs h hlive hgo
  have hcount := h.count_eq hlive
  have hstay := hgo [e] [] m mem
  simp only [append_nil] at hstay
  rw [protectLoop, if_pos (by omega), entry_of_live h hlive]
  dsimp only
  split
  · rename_i hover
    exact hstay (.skip (by simpa using hover)) h hlive
  rename_i hover
  rw [Bool.not_eq_true', Bool.not_eq_false] at hover
  split
  · have := hgo _ _ _ _ (.full hover (by assumption) done.length) (h.setEntry _ _)
      (live_setEntry hlive _)
    rwa [append_nil] at this
  have hone := ensureCapacity_spec h 1 mem
  split
  · split
    · rename_i hok
      obtain ⟨hshape, hview⟩ := split_entry h hlive hok { e with stop := stop, prot := prot }
        (e.fromCut stop)
      exact hgo _ _ _ _ (.left hover (by assumption)) hshape hview
    · rename_i hok
      exact .fail hone.same hlive (.inl (by simpa using hok))
  split
  · split
    · rename_i hok
      obtain ⟨hshape, hview⟩ := split_entry h hlive hok { e.fromCut addr with prot := prot }
        { e with stop := addr }
      exact hgo _ _ _ _ (.right hover (by assumption) hok) hshape hview
    · rename_i hok
      exact .fail hone.same hlive (.inl (by simpa using hok))
  rw [if_pos (by omega)]
  split
  · rename_i hok
    by_cases hrest : rest = []
    · subst hrest
      obtain ⟨hshape, hview⟩ := split_last_entry h hlive hok { e with stop := addr }
        { e.fromCut addr with stop := stop, prot := prot } (e.fromCut stop)
      rw [append_assoc]
      exact hgo _ _ _ _ (.middle hover (by omega)) hshape hview
    · exact .astray hlive ⟨by omega, by omega, hok⟩ hrest
  · rename_i hok
    exact .fail (ensureCapacity_spec h 2 mem).same hlive (.inr (by simpa using hok))

/-! ## What the loops do to one entry -/

/-- What unmapping `[addr, stop)` leaves of an entry. -/
def VmEntry.cut (addr stop : Nat) (e : VmEntry) : List VmEntry :=
  if entryOverlaps e addr stop then
    (if e.start < addr then [{ e with stop := addr }] else []) ++
      (if stop < e.stop then [e.fromCut stop] else [])
  else [e]

/-- The part of an entry inside `[addr, stop)`, with its new protection. -/
def VmEntry.inner (addr stop prot : Nat) (e : VmEntry) : VmEntry :=
  { (if e.start < addr then e.fromCut addr else e) with stop := min stop e.stop, prot := prot }

/-- What protecting `[addr, stop)` makes of an entry. -/
def VmEntry.reprotect (addr stop prot : Nat) (e : VmEntry) : List VmEntry :=
  if entryOverlaps e addr stop then
    (if e.start < addr then [{ e with stop := addr }] else []) ++ e.inner addr stop prot ::
        (if stop < e.stop then [e.fromCut stop] else [])
  else [e]

theorem entryOverlaps_iff : entryOverlaps e addr stop = true ↔ e.start < stop ∧ addr < e.stop := by
  simp [entryOverlaps]

/-- The map a loop returns: the entries it passed are replaced by `f` of them, and
on success it passed them all. -/
structure LoopSpec (done post : List VmEntry) (f : VmEntry → List VmEntry) (r : MapResult) :
    Prop where
  shaped : r.map.Shaped
  passed : ∃ pre rest, post = pre ++ rest ∧ r.map.live = done ++ pre.flatMap f ++ rest ∧
    (r.ret = 0 → rest = [])

theorem LoopSpec.finish {r : MapResult}
    (h : r.map.Shaped) (hlive : r.map.live = done ++ []) : LoopSpec done [] f r :=
  ⟨h, [], [], rfl, by simpa using hlive, fun _ => rfl⟩

theorem LoopSpec.fail {r : MapResult} (h : r.map.Shaped) (hlive : r.map.live = done ++ post)
    (hret : r.ret ≠ 0) : LoopSpec done post f r :=
  ⟨h, [], post, rfl, by simpa using hlive, fun hr => absurd hr hret⟩

theorem LoopSpec.step {r : MapResult} (hpieces : f e = pieces)
    (h : LoopSpec (done ++ pieces) rest f r) : LoopSpec done (e :: rest) f r := by
  obtain ⟨pre, rest', hsplit, hlive, hret⟩ := h.passed
  refine ⟨h.shaped, e :: pre, rest', by rw [hsplit, cons_append], ?_, hret⟩
  rw [hlive, flatMap_cons, hpieces]
  simp only [append_assoc]

/-- A loop makes `f e` of each entry `e` it passes when its turns do. -/
theorem Sweep.loopSpec {l : LoopTurns} {I : VmMap → MapMem → List VmEntry → Prop}
    (hturn : ∀ {m mem e rest pieces events m' mem'}, I m mem (e :: rest) →
      l.turn m mem e pieces events m' mem' → f e = pieces ∧ I m' mem' rest)
    (hlost : ∀ {done m mem e rest}, m.live = done ++ e :: rest → I m mem (e :: rest) →
      l.lost m mem e → rest = []) {refs : List RefEvent} {r : MapResult}
    (hsweep : Sweep l done post m mem refs r) (hI : I m mem post) : LoopSpec done post f r := by
  induction hsweep with
  | finish h hlive => exact .finish h hlive
  | fail hsame hlive _ => exact .fail hsame.shaped (hsame.live.trans hlive) (by simp)
  | astray hlive hl hrest => exact absurd (hlost hlive hI hl) hrest
  | next _ ht _ _ ih =>
    obtain ⟨hpieces, hI'⟩ := hturn hI ht
    exact .step hpieces (ih hI')

/-- Entries in order, none of which meets another. -/
abbrev Apart (l : List VmEntry) : Prop := Separated VmEntry.start VmEntry.stop l

/-- Nothing after an entry that overlaps the range begins before the range. -/
theorem begins_inside (hsep : Apart (e :: rest))
    (hover : entryOverlaps e addr stop = true) : ∀ e' ∈ rest, addr < e'.start := by
  intro e' he'
  have h := (pairwise_cons.mp hsep.ordered).1 e' he'
  have := (entryOverlaps_iff.mp hover).2
  omega

/-! ## The loop of `vm_map_unmap` -/

/-- Splitting an entry leaves the array where it is. -/
def SplitStays (m : VmMap) (post : List VmEntry) (addr stop : Nat) (mem : MapMem) : Prop :=
  ∀ e ∈ post, e.start < addr → stop < e.stop → (vmMapEnsureCapacity m 1 mem).moved = false

/-- What the loop makes of an entry: the left part of a split is lost when the
array moves. -/
def VmEntry.unmapped (addr stop : Nat) (moved : Bool) (e : VmEntry) : List VmEntry :=
  if moved ∧ e.start < addr ∧ stop < e.stop then [e, e.fromCut stop] else e.cut addr stop

/-- The entries the loop has ahead.  At most one of them is split, before which
nothing changes: `cap` is what is found out about its room. -/
structure UnmapReady (addr stop : Nat) (cap : Capacity) (m : VmMap) (mem : MapMem)
    (post : List VmEntry) : Prop where
  range : addr < stop
  separated : Separated VmEntry.start VmEntry.stop post
  split : ∀ e ∈ post, e.start < addr → stop < e.stop → vmMapEnsureCapacity m 1 mem = cap

theorem UnmapTurn.unmapped {cap : Capacity} (hready : UnmapReady addr stop cap m mem (e :: rest))
    (hturn : UnmapTurn addr stop m mem e pieces events m' mem') :
    e.unmapped addr stop cap.moved = pieces ∧ UnmapReady addr stop cap m' mem' rest := by
  have hrange := hready.range
  have hlater : entryOverlaps e addr stop = true → UnmapReady addr stop cap m' mem' rest := by
    refine fun hover => ⟨hrange, hready.separated.tail, fun e' he' hlt => ?_⟩
    have := begins_inside hready.separated hover e' he'
    omega
  cases hturn with
  | skip hover =>
    refine ⟨?_, hrange, hready.separated.tail, fun e' he' =>
      hready.split e' (mem_cons_of_mem _ he')⟩
    rw [entryOverlaps_iff] at hover
    rw [VmEntry.unmapped, if_neg (by omega), VmEntry.cut, if_neg (by rwa [entryOverlaps_iff])]
  | full hover h =>
    refine ⟨?_, hlater hover⟩
    rw [VmEntry.unmapped, if_neg (by omega), VmEntry.cut, if_pos hover, if_neg (by omega),
      if_neg (by omega), nil_append]
  | left hover h =>
    refine ⟨?_, hlater hover⟩
    rw [VmEntry.unmapped, if_neg (by omega), VmEntry.cut, if_pos hover, if_neg (by omega),
      if_pos h.2, nil_append]
  | right hover h =>
    refine ⟨?_, hlater hover⟩
    rw [VmEntry.unmapped, if_neg (by omega), VmEntry.cut, if_pos hover, if_pos h.1,
      if_neg (by omega), append_nil]
  | split hover h =>
    refine ⟨?_, hlater hover⟩
    rw [hready.split e mem_cons_self h.1 h.2, VmEntry.unmapped]
    by_cases hmoved : cap.moved = true
    · rw [if_pos ⟨hmoved, h⟩, if_pos hmoved]
    · rw [if_neg (by simp [hmoved]), if_neg hmoved, VmEntry.cut, if_pos hover, if_pos h.1,
        if_pos h.2]
      rfl

/-- `vm_map_unmap` from the first entry on. -/
theorem unmapLoop_spec (hrange : addr < stop) (mem : MapMem) (h : m.Shaped) (hsep : Apart m.live) :
    LoopSpec [] m.live (VmEntry.unmapped addr stop (vmMapEnsureCapacity m 1 mem).moved)
      (unmapLoop addr stop m.entryCount 0 m mem []) :=
  (unmapLoop_sweep [] mem [] h rfl (le_of_eq h.length_live)).loopSpec
    (I := UnmapReady addr stop (vmMapEnsureCapacity m 1 mem)) UnmapTurn.unmapped
    (fun _ _ hlost => False.elim hlost) ⟨hrange, hsep, fun _ _ _ _ => rfl⟩

theorem SplitStays.unmapped_eq {l : List VmEntry} (h : SplitStays m l addr stop mem) (he : e ∈ l) :
    e.unmapped addr stop (vmMapEnsureCapacity m 1 mem).moved = e.cut addr stop := by
  refine if_neg fun hmoved => ?_
  rw [h e he hmoved.2.1 hmoved.2.2] at hmoved
  exact Bool.false_ne_true hmoved.1

/-! ## The loop of `vm_map_protect` -/

/-- The splits of `vm_map_protect` that put the pieces back in order: a left part
is split off without moving the array, no right part is split off, and an entry
cut in three is the last one. -/
structure SplitsInOrder (m : VmMap) (post : List VmEntry) (addr stop : Nat) (mem : MapMem) :
    Prop where
  left : ∀ e ∈ post, addr ≤ e.start → e.start < stop → stop < e.stop →
    (vmMapEnsureCapacity m 1 mem).moved = false
  right : ∀ e ∈ post, e.start < addr → addr < e.stop → e.stop ≤ stop →
    (vmMapEnsureCapacity m 1 mem).ok = false
  middle : ∀ e ∈ post, e.start < addr → stop < e.stop →
    (vmMapEnsureCapacity m 2 mem).moved = false ∧
      ((vmMapEnsureCapacity m 2 mem).ok = true → m.live.getLast? = some e)

/-- After an entry that overlaps the range only left parts can come. -/
theorem SplitsInOrder.of_overlap (horder : SplitsInOrder m (e :: rest) addr stop mem)
    (hsep : Apart (e :: rest))
    (hover : entryOverlaps e addr stop = true) (hcount : m'.entryCount = m.entryCount)
    (hmax : m'.maxEntries = m.maxEntries) : SplitsInOrder m' rest addr stop mem where
  left := by
    intro e' he' h1 h2 h3
    rw [(ensureCapacity_congr hcount hmax 1 mem).2]
    exact horder.left e' (mem_cons_of_mem _ he') h1 h2 h3
  right := by
    intro e' he' hlt
    have := begins_inside hsep hover e' he'
    omega
  middle := by
    intro e' he' hlt
    have := begins_inside hsep hover e' he'
    omega

/-- After an entry that reaches beyond the range nothing is left to do. -/
theorem SplitsInOrder.of_beyond (hrange : addr < stop)
    (hsep : Apart (e :: rest)) (hbeyond : stop < e.stop) :
    SplitsInOrder m' rest addr stop mem := by
  have hafter : ∀ e' ∈ rest, stop < e'.start := by
    intro e' he'
    have := (pairwise_cons.mp hsep.ordered).1 e' he'
    omega
  constructor
  · intro e' he' _ hlt
    have := hafter e' he'
    omega
  all_goals
    intro e' he' hlt
    have := hafter e' he'
    omega

/-- The entry a separated list ends with is not followed by others. -/
theorem last_of_getLast? (hsep : Apart (e :: rest))
    (hlast : (done ++ e :: rest).getLast? = some e) : rest = [] := by
  by_contra hne
  have hmem : e ∈ rest := by
    rw [List.getLast?_append_of_ne_nil _ (by simp), List.getLast?_cons_of_ne_nil hne] at hlast
    exact mem_of_getLast? hlast
  have hafter := (pairwise_cons.mp hsep.ordered).1 e hmem
  have := hsep.nonempty e (by simp)
  omega

theorem ProtectTurn.reprotect (hrange : addr < stop) (hI : Apart (e :: rest) ∧
      SplitsInOrder m (e :: rest) addr stop mem)
    (hturn : ProtectTurn addr stop prot m mem e pieces events m' mem') :
    e.reprotect addr stop prot = pieces ∧ Apart rest ∧ SplitsInOrder m' rest addr stop mem' := by
  obtain ⟨hsep, horder⟩ := hI
  cases hturn with
  | skip hover =>
    exact ⟨if_neg hover, hsep.tail, fun e' he' => horder.left e' (mem_cons_of_mem _ he'),
      fun e' he' => horder.right e' (mem_cons_of_mem _ he'),
      fun e' he' => horder.middle e' (mem_cons_of_mem _ he')⟩
  | full hover h i =>
    refine ⟨?_, hsep.tail, horder.of_overlap hsep hover rfl rfl⟩
    rw [VmEntry.reprotect, if_pos hover, if_neg (by omega), if_neg (by omega),
      VmEntry.inner, if_neg (by omega), Nat.min_eq_right h.2]
    rfl
  | left hover h =>
    refine ⟨?_, hsep.tail, .of_beyond hrange hsep h.2⟩
    rw [VmEntry.reprotect, if_pos hover, if_neg (by omega), if_pos h.2, VmEntry.inner,
      if_neg (by omega), Nat.min_eq_left (by omega),
      horder.left e mem_cons_self h.1 (entryOverlaps_iff.mp hover).1 h.2]
    rfl
  | right hover h hok =>
    have hfull := horder.right e mem_cons_self h.1 (entryOverlaps_iff.mp hover).2 h.2
    exact absurd (hok.symm.trans hfull) Bool.noConfusion
  | middle hover h =>
    refine ⟨?_, hsep.tail, .of_beyond hrange hsep h.2⟩
    rw [VmEntry.reprotect, if_pos hover, if_pos h.1, if_pos h.2, VmEntry.inner,
      if_pos h.1, Nat.min_eq_left (by omega), (horder.middle e mem_cons_self h.1 h.2).1]
    rfl

/-! ## Pieces -/

/-- `x` is a part of `e`: its range lies inside, and it reaches the same object at
the same place. -/
structure VmEntry.PieceOf (x e : VmEntry) : Prop where
  low : e.start ≤ x.start
  high : x.stop ≤ e.stop
  obj : x.obj = e.obj
  inherit : x.inherit = e.inherit
  offset : x.objOffset ≡ e.objOffset + (x.start - e.start) [MOD 2 ^ 64]

theorem VmEntry.PieceOf.refl (e : VmEntry) : e.PieceOf e :=
  ⟨le_refl _, le_refl _, rfl, rfl, by rw [Nat.sub_self]; exact Nat.ModEq.refl _⟩

theorem VmEntry.PieceOf.trans {r : VmEntry} (hx : x.PieceOf e) (he : e.PieceOf r) :
    x.PieceOf r := by
  refine ⟨he.low.trans hx.low, hx.high.trans he.high, hx.obj.trans he.obj,
    hx.inherit.trans he.inherit, ?_⟩
  have hsum : r.objOffset + (x.start - r.start) =
      r.objOffset + (e.start - r.start) + (x.start - e.start) := by
    have := he.low
    have := hx.low
    omega
  rw [hsum]
  exact hx.offset.trans (he.offset.add_right _)

theorem pieceOf_shrunk {cut : Nat} (h : cut ≤ e.stop) (prot : Nat) :
    ({ e with stop := cut, prot := prot } : VmEntry).PieceOf e :=
  ⟨le_refl _, h, rfl, rfl, by rw [Nat.sub_self]; exact Nat.ModEq.refl _⟩

theorem pieceOf_fromCut {cut : Nat} (h : e.start ≤ cut) : (e.fromCut cut).PieceOf e :=
  ⟨h, le_refl _, rfl, rfl, Nat.mod_modEq _ _⟩

theorem inner_pieceOf (addr stop prot : Nat) : (e.inner addr stop prot).PieceOf e := by
  rw [VmEntry.inner]
  split
  · have hcut : (e.fromCut addr).PieceOf e := pieceOf_fromCut (by omega)
    have hhigh : min stop e.stop ≤ (e.fromCut addr).stop := min_le_right _ _
    exact (pieceOf_shrunk hhigh prot).trans hcut
  · exact pieceOf_shrunk (min_le_right stop e.stop) prot

theorem reprotect_pieceOf (hx : x ∈ e.reprotect addr stop prot) : x.PieceOf e := by
  rw [VmEntry.reprotect] at hx
  split at hx
  · rename_i hover
    obtain ⟨hstart, hstop⟩ := entryOverlaps_iff.mp hover
    simp only [mem_append, mem_cons, List.mem_ite_nil_right, not_mem_nil, or_false] at hx
    rcases hx with ⟨-, rfl⟩ | rfl | ⟨-, rfl⟩
    · exact pieceOf_shrunk (by omega) e.prot
    · exact inner_pieceOf addr stop prot
    · exact pieceOf_fromCut (by omega)
  · rw [mem_singleton.mp hx]
    exact .refl e

theorem reprotect_separated (hrange : addr < stop) (he : e.start < e.stop) :
    Apart (e.reprotect addr stop prot) := by
  rw [VmEntry.reprotect]
  split
  · rename_i hover
    obtain ⟨hstart, hstop⟩ := entryOverlaps_iff.mp hover
    have hlow : (e.inner addr stop prot).start = max addr e.start := by
      rw [VmEntry.inner]
      split
      · exact (max_eq_left (le_of_lt (by assumption))).symm
      · exact (max_eq_right (not_lt.mp (by assumption))).symm
    have hhigh : (e.inner addr stop prot).stop = min stop e.stop := rfl
    split <;> split
    · exact ⟨by simp [hlow, hhigh, VmEntry.fromCut]; omega,
        by simp [hlow, hhigh, VmEntry.fromCut]; omega⟩
    · exact ⟨by simp [hlow], by simp [hlow, hhigh]; omega⟩
    · exact ⟨by simp [hhigh, VmEntry.fromCut], by simp [hlow, hhigh, VmEntry.fromCut]; omega⟩
    · exact ⟨by simp, by simp [hlow, hhigh]; omega⟩
  · exact ⟨by simp, by simpa⟩

/-- An unmap leaves what a change of protection leaves outside the range. -/
theorem cut_sublist (addr stop prot : Nat) (e : VmEntry) :
    (e.cut addr stop).Sublist (e.reprotect addr stop prot) := by
  rw [VmEntry.cut, VmEntry.reprotect]
  split
  · exact .append_left (sublist_cons_self ..) _
  · exact .refl _

theorem cut_pieceOf (hx : x ∈ e.cut addr stop) : x.PieceOf e :=
  reprotect_pieceOf ((cut_sublist addr stop 0 e).subset hx)

theorem cut_separated (hrange : addr < stop) (he : e.start < e.stop) : Apart (e.cut addr stop) :=
  (reprotect_separated hrange he).sublist (cut_sublist addr stop 0 e)

theorem subdivides_of_pieces (hsep : Apart pieces)
    (h : ∀ x ∈ pieces, x.PieceOf e) : Subdivides VmEntry.start VmEntry.stop e pieces :=
  ⟨hsep, fun x hx => ⟨(h x hx).low, (h x hx).high⟩⟩

/-! ## Insertion of a new mapping -/

/-- A call of `vm_map_map` either installs the new entry between the entries that
end before it and those that begin after it, or leaves the entries alone. -/
structure InstallSpec (m : VmMap) (new : VmEntry) (r : MapResult) : Prop where
  shaped : r.map.Shaped
  result : r.ret = 0 ∧ new.obj ≠ 0 ∧ new.start < new.stop ∧
      (∃ pre post, m.live = pre ++ post ∧ r.map.live = pre ++ new :: post ∧
        (∀ a ∈ pre, a.stop ≤ new.start) ∧ ∀ b ∈ post, new.stop ≤ b.start) ∨
    r.ret ≠ 0 ∧ r.map.live = m.live

theorem add64_eq {a b : UInt64} (h : ¬ add64 a.toNat b.toNat < a.toNat) :
    add64 a.toNat b.toNat = a.toNat + b.toNat := by
  have hb := b.toNat_lt
  rw [add64] at h ⊢
  by_cases hlt : a.toNat + b.toNat < 2 ^ 64
  · exact Nat.mod_eq_of_lt hlt
  · omega

/-- The place found for a new range that overlaps nothing. -/
theorem insertion_point {l : List VmEntry} {start : Nat} (hrange : start < stop) (hsep : Apart l)
    (hclear : ∀ e ∈ l, entryOverlaps e start stop = false) :
    let index := l.findIdx fun e => decide (e.start > start)
    (∀ a ∈ l.take index, a.stop ≤ start) ∧ ∀ b ∈ l.drop index, stop ≤ b.start := by
  intro index
  have happart : ∀ e ∈ l, stop ≤ e.start ∨ e.stop ≤ start := by
    intro e he
    have := hclear e he
    rw [← Bool.not_eq_true, entryOverlaps_iff] at this
    omega
  constructor
  · intro a ha
    obtain ⟨j, hj, rfl⟩ := mem_iff_getElem.mp ha
    rw [length_take] at hj
    have hbefore := not_of_lt_findIdx (show j < index by omega)
    rw [getElem_take]
    rcases happart l[j] (getElem_mem _) with h | h
    · simp only [gt_iff_lt, decide_eq_false_iff_not] at hbefore
      omega
    · exact h
  · intro b hb
    obtain ⟨j, hj, rfl⟩ := mem_iff_getElem.mp hb
    rw [length_drop] at hj
    have hindex : index < l.length := by omega
    -- the entry at the insertion point begins after `start`, and so do those after it
    have hfirst : l[index].start > start := by simpa using findIdx_getElem (w := hindex)
    have hlater : start < l[index + j].start := by
      rcases Nat.eq_zero_or_pos j with rfl | hpos
      · exact hfirst
      · have hle := pairwise_iff_getElem.mp hsep.ordered index (index + j) hindex (by omega)
        have := hsep.nonempty l[index] (getElem_mem _)
        omega
    rw [getElem_drop]
    rcases happart l[index + j] (getElem_mem _) with h | h
    · exact h
    · have := hsep.nonempty l[index + j] (getElem_mem _)
      omega

theorem vmMapMap_spec (user : UserRange) (h : m.Shaped)
    (hsep : Apart m.live) (addr : UInt64) (obj : Nat)
    (objOffset size : UInt64) (prot inherit : Nat) (mem : MapMem) :
    InstallSpec m ⟨addr.toNat, add64 addr.toNat size.toNat, obj, objOffset.toNat, prot, inherit⟩
      (vmMapMap user m addr obj objOffset size prot inherit mem) := by
  have hfail : InstallSpec m
      ⟨addr.toNat, add64 addr.toNat size.toNat, obj, objOffset.toNat, prot, inherit⟩
      ⟨-1, m, []⟩ := ⟨h, .inr ⟨by simp, rfl⟩⟩
  rw [vmMapMap]
  dsimp only
  split
  · exact hfail
  rename_i hargs
  iterate 3
    split
    · exact hfail
  split
  · exact hfail
  rename_i hwrap
  iterate 2
    split
    · exact hfail
  split
  · exact hfail
  rename_i hclear
  have spec := ensureCapacity_spec h 1 mem
  split
  · rename_i hok
    have hrange : addr.toNat < add64 addr.toNat size.toNat := by
      rw [add64_eq hwrap]
      omega
    have hroom := spec.room hok
    rw [← spec.same.count] at hroom
    rw [spec.same.live]
    simp only [any_eq_true, not_exists, not_and, Bool.not_eq_true] at hclear
    obtain ⟨hpre, hpost⟩ := insertion_point hrange hsep hclear
    have hsplit : (vmMapEnsureCapacity m 1 mem).map.live =
        m.live.take (m.live.findIdx fun e => decide (e.start > addr.toNat)) ++
          m.live.drop (m.live.findIdx fun e => decide (e.start > addr.toNat)) := by
      rw [take_append_drop]
      exact spec.same.live
    have hinsert := live_insertAt spec.same.shaped hroom hsplit
      ⟨addr.toNat, add64 addr.toNat size.toNat, obj, objOffset.toNat, prot, inherit⟩
    rw [length_take, Nat.min_eq_left findIdx_le_length] at hinsert
    refine ⟨spec.same.shaped.insertAt hroom _ _, .inl ⟨rfl, fun hobj => hargs (.inl hobj), hrange,
      _, _, (take_append_drop _ _).symm, hinsert, hpre, hpost⟩⟩
  · exact ⟨spec.same.shaped, .inr ⟨by simp, spec.same.live⟩⟩

/-! ## Runs -/

/-- A map and the entries the successful `vm_map_map` calls installed in it.  No
call reads the record. -/
structure MapRun where
  map : VmMap
  installed : List VmEntry

/-- A call with its arguments and the outcomes of its allocations. -/
inductive MapCall where
  | map (addr : UInt64) (obj : Nat) (objOffset size : UInt64) (prot inherit : Nat) (mem : MapMem)
  | unmap (addr size : UInt64) (mem : MapMem)
  | protect (addr size : UInt64) (prot : Nat) (mem : MapMem)

def mapStep (user : UserRange) (s : MapRun) : MapCall → Option MapRun
  | .map addr obj objOffset size prot inherit mem =>
      let r := vmMapMap user s.map addr obj objOffset size prot inherit mem
      let new : VmEntry :=
        ⟨addr.toNat, add64 addr.toNat size.toNat, obj, objOffset.toNat, prot, inherit⟩
      some ⟨r.map, if r.ret = 0 then new :: s.installed else s.installed⟩
  | .unmap addr size mem => some ⟨(vmMapUnmap s.map addr size mem).map, s.installed⟩
  | .protect addr size prot mem => some ⟨(vmMapProtect s.map addr size prot mem).map, s.installed⟩

/-- A map as `vm_map_init` leaves it. -/
def mapStart : MapRun := ⟨vmMapInit, []⟩

/-- The call keeps its pointer to the entry it splits and puts the pieces back in
order. -/
def MapCall.Sound (s : MapRun) : MapCall → Prop
  | .map _ _ _ _ _ _ _ => True
  | .unmap addr size mem => SplitStays s.map s.map.live addr.toNat (add64 addr.toNat size.toNat) mem
  | .protect addr size _ mem =>
      SplitsInOrder s.map s.map.live addr.toNat (add64 addr.toNat size.toNat) mem

/-- What holds of a map after every call. -/
structure MapRun.WellFormed (s : MapRun) : Prop where
  sorted : s.map.live.Pairwise fun a b => a.start ≤ b.start
  nonempty : ∀ e ∈ s.map.live, e.start < e.stop
  disjoint : s.map.live.Pairwise fun a b => entryOverlaps a b.start b.stop = false
  capacity : s.map.entryCount ≤ s.map.maxEntries
  initialised : s.map.live.length = s.map.entryCount
  installed : ∀ e ∈ s.map.live, e.obj ≠ 0 ∧ ∃ r ∈ s.installed, e.PieceOf r

/-- The invariant behind it. -/
structure MapRun.Inv (s : MapRun) : Prop where
  shaped : s.map.Shaped
  separated : Separated VmEntry.start VmEntry.stop s.map.live
  origin : ∀ e ∈ s.map.live, e.obj ≠ 0 ∧ ∃ r ∈ s.installed, e.PieceOf r

theorem MapRun.Inv.wellFormed {s : MapRun} (h : s.Inv) : s.WellFormed := by
  refine ⟨?_, h.separated.nonempty, ?_, h.shaped.fits, h.shaped.length_live, h.origin⟩
  · refine h.separated.ordered.imp_of_mem ?_
    intro a b ha _ hab
    have := h.separated.nonempty a ha
    omega
  · refine h.separated.ordered.imp ?_
    intro a b hab
    rw [← Bool.not_eq_true, entryOverlaps_iff]
    omega

theorem mapStart_inv : mapStart.Inv := ⟨⟨rfl, Nat.zero_le _⟩, .nil, nofun⟩

/-- A loop that replaces entries by pieces of themselves keeps the invariant. -/
theorem MapRun.Inv.of_loop {s : MapRun} (h : s.Inv) {r : MapResult}
    (hloop : LoopSpec [] s.map.live f r)
    (hsep : ∀ e ∈ s.map.live, Apart (f e))
    (hpieces : ∀ e ∈ s.map.live, ∀ x ∈ f e, x.PieceOf e) : MapRun.Inv ⟨r.map, s.installed⟩ := by
  obtain ⟨pre, rest, hsplit, hlive, -⟩ := hloop.passed
  -- the entries behind the last one passed are pieces of themselves
  have hmem : ∀ x ∈ r.map.live, ∃ e ∈ s.map.live, x.PieceOf e := by
    intro x hx
    rw [hlive] at hx
    rcases mem_append.mp hx with hx | hx
    · obtain ⟨e, he, hxe⟩ := mem_flatMap.mp hx
      have he' : e ∈ s.map.live := by
        rw [hsplit]
        exact mem_append_left _ he
      exact ⟨e, he', hpieces e he' x hxe⟩
    · refine ⟨x, ?_, .refl x⟩
      rw [hsplit]
      exact mem_append_right _ hx
  refine ⟨hloop.shaped, ?_, ?_⟩
  · rw [hlive]
    have hall := h.separated
    rw [hsplit] at hall hsep hpieces
    have hpassed : Apart (pre.flatMap f) := by
      refine (hall.sublist (sublist_append_left pre rest)).flatMap fun e he => ?_
      have he' := mem_append_left rest he
      exact subdivides_of_pieces (hsep e he') (hpieces e he')
    have hrest : Apart rest := hall.sublist (sublist_append_right pre rest)
    refine ⟨pairwise_append.mpr ⟨hpassed.ordered, hrest.ordered, ?_⟩, ?_⟩
    · intro x hx b hb
      obtain ⟨e, he, hxe⟩ := mem_flatMap.mp hx
      have hle := (hpieces e (mem_append_left _ he) x hxe).high
      exact hle.trans ((pairwise_append.mp hall.ordered).2.2 e he b hb)
    · intro x hx
      rcases mem_append.mp hx with hx | hx
      · exact hpassed.nonempty x hx
      · exact hrest.nonempty x hx
  · intro x hx
    obtain ⟨e, he, hxe⟩ := hmem x hx
    obtain ⟨hobj, r', hr', her⟩ := h.origin e he
    exact ⟨hxe.obj ▸ hobj, r', hr', hxe.trans her⟩

section

variable {s : MapRun} (user : UserRange) (h : s.Inv)
include user h

theorem mapStep_map_inv (addr : UInt64) (obj : Nat) (objOffset size : UInt64) (prot inherit : Nat)
    (mem : MapMem) {t : MapRun}
    (hstep : mapStep user s (.map addr obj objOffset size prot inherit mem) = some t) : t.Inv := by
  have spec := vmMapMap_spec user h.shaped h.separated addr obj objOffset size prot inherit mem
  simp only [mapStep, Option.some.injEq] at hstep
  subst hstep
  rcases spec.result with ⟨hret, hobj, hrange, pre, post, hsplit, hlive, hpre, hpost⟩ |
    ⟨hret, hlive⟩
  · rw [if_pos hret]
    refine ⟨spec.shaped, ?_, ?_⟩
    · rw [hlive]
      exact Separated.insert (hsplit ▸ h.separated) hrange hpre hpost
    intro e he
    rcases mem_cons.mp (perm_middle.mem_iff.mp (hlive ▸ he)) with rfl | he
    · exact ⟨hobj, _, mem_cons_self, .refl _⟩
    · obtain ⟨hne, r, hr, her⟩ := h.origin e (hsplit ▸ he)
      exact ⟨hne, r, mem_cons_of_mem _ hr, her⟩
  · rw [if_neg hret]
    refine ⟨spec.shaped, ?_, ?_⟩
    · rw [hlive]
      exact h.separated
    · intro e he
      exact h.origin e (hlive ▸ he)

theorem mapStep_unmap_inv (addr size : UInt64) (mem : MapMem)
    (hsound : MapCall.Sound s (.unmap addr size mem)) {t : MapRun}
    (hstep : mapStep user s (.unmap addr size mem) = some t) : t.Inv := by
  simp only [mapStep, Option.some.injEq] at hstep
  subst hstep
  rw [vmMapUnmap]
  split
  · exact h
  split
  · exact h
  rename_i hwrap
  have hrange : addr.toNat < add64 addr.toNat size.toNat := by
    rw [add64_eq hwrap]
    omega
  have hcut : ∀ e ∈ s.map.live, _ = e.cut _ _ := fun e he => hsound.unmapped_eq he
  exact h.of_loop (unmapLoop_spec hrange mem h.shaped h.separated)
    (fun e he => hcut e he ▸ cut_separated hrange (h.separated.nonempty e he))
    fun e he x hx => cut_pieceOf (hcut e he ▸ hx)

theorem mapStep_protect_inv (addr size : UInt64) (prot : Nat) (mem : MapMem)
    (hsound : MapCall.Sound s (.protect addr size prot mem)) {t : MapRun}
    (hstep : mapStep user s (.protect addr size prot mem) = some t) : t.Inv := by
  simp only [mapStep, Option.some.injEq] at hstep
  subst hstep
  rw [vmMapProtect]
  split
  · exact h
  split
  · exact h
  rename_i hwrap
  have hrange : addr.toNat < add64 addr.toNat size.toNat := by
    rw [add64_eq hwrap]
    omega
  have hloop :=
    (protectLoop_sweep prot [] mem [] h.shaped rfl (le_of_eq h.shaped.length_live)).loopSpec
    (I := fun m mem post => Apart post ∧
      SplitsInOrder m post addr.toNat (add64 addr.toNat size.toNat) mem)
    (ProtectTurn.reprotect hrange)
    (fun hlive hI hlost => last_of_getLast? hI.1
      (hlive ▸ (hI.2.middle _ mem_cons_self hlost.1 hlost.2.1).2 hlost.2.2))
    ⟨h.separated, hsound⟩
  exact h.of_loop hloop (fun e he => reprotect_separated hrange (h.separated.nonempty e he))
    fun e _ x hx => reprotect_pieceOf hx

end

theorem mapStep_inv (user : UserRange) (s : MapRun) (call : MapCall) (t : MapRun) (h : s.Inv)
    (hsound : call.Sound s) (hstep : mapStep user s call = some t) : t.Inv := by
  cases call with
  | map addr obj objOffset size prot inherit mem =>
    exact mapStep_map_inv user h addr obj objOffset size prot inherit mem hstep
  | unmap addr size mem => exact mapStep_unmap_inv user h addr size mem hsound hstep
  | protect addr size prot mem => exact mapStep_protect_inv user h addr size prot mem hsound hstep

/-- **Address maps stay well formed.**  In every run of the three calls on a fresh
map in which the calls that split an entry keep their pointer and the order of the
pieces, the entries are sorted, nonempty, disjoint, within the capacity, and parts
of mappings that were installed. -/
theorem map_run_well_formed (user : UserRange) (calls : List MapCall) (t : MapRun)
    (hsound : AllSteps (mapStep user) (fun s call => call.Sound s) mapStart calls)
    (hrun : exec (mapStep user) mapStart calls = some t) : t.WellFormed :=
  (exec_invariant (fun s call t => mapStep_inv user s call t) mapStart_inv hsound hrun).wellFormed

/-- Three pages are mapped, the middle one is unmapped, and the first one is made
read-only. -/
def punchHole : List MapCall :=
  [.map 0x8000000 1 0 0x3000 3 0 [], .unmap 0x8001000 0x1000 [], .protect 0x8000000 0x1000 1 []]

theorem map_run_well_formed_hole : ∃ t, exec (mapStep amd64User) mapStart punchHole = some t ∧
      t.map.live = [⟨0x8000000, 0x8001000, 1, 0, 1, 0⟩, ⟨0x8002000, 0x8003000, 1, 0x2000, 3, 0⟩] ∧
      t.WellFormed := by
  refine ⟨_, rfl, by decide, map_run_well_formed amd64User punchHole _ ?_ rfl⟩
  refine .cons trivial rfl (.cons (fun e he _ _ => rfl) rfl
    (.cons ⟨fun e he _ _ _ => rfl, ?_, ?_⟩ rfl trivial))
  · decide
  · decide

/-- Two pages are mapped and the second one is made read-only: the part that keeps
its protection is put behind the part that changes. -/
theorem protect_upper_page_unsorts : ∃ t, exec (mapStep amd64User) mapStart
        [.map 0x8000000 1 0 0x2000 3 0 [], .protect 0x8001000 0x1000 1 []] = some t ∧
      t.map.live = [⟨0x8001000, 0x8002000, 1, 0x1000, 1, 0⟩, ⟨0x8000000, 0x8001000, 1, 0, 3, 0⟩] ∧
      ¬ t.WellFormed := by
  refine ⟨_, rfl, by decide, fun h => ?_⟩
  exact absurd h.sorted (by decide)

end ArcKernel.Vm
