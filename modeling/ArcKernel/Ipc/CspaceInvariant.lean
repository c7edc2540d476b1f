import ArcKernel.Foundation.Run
import ArcKernel.Ipc.Cspace

/-!
# What every C-space operation keeps

`CSpace.Coherent` says that the bitmap and the slot table of one space agree.
Each operation of `cspace.c` has one specification lemma against it, and the
runs over any number of spaces are derived from those.

The agreement is *not* unconditional.  `cspace_grow` clears the new bitmap words
but leaves the new slots as `kmalloc` returned them, so a grown table is
coherent only when the new part of the block happens to read as unused.
`GrowMem.ClearFrom` is that condition; the last theorem of the file is a run
that does not meet it.
-/

namespace ArcKernel.Ipc

open ArcKernel.Foundation Function List Option Bool CSpace CSlot Bitmap

variable {cs : CSpace} {mem : GrowMem} {i : Nat} {slots : List CSlot}

/-- The bitmap and the slot table of a space agree. -/
structure CSpace.Coherent (cs : CSpace) : Prop where
  slots_length : cs.slots.length = cs.maxSlots
  bitmap_length : cs.freeBitmap.length = cs.bitmapWords
  words : cs.maxSlots = 32 * cs.bitmapWords
  doubled : ∃ k ≤ 8, cs.maxSlots = cspaceDefaultSlots * 2 ^ k
  used_iff : ∀ i < cs.maxSlots, cs.used i = true ↔ i = 0 ∨ (cs.slot i).inUse = true
  slot_zero : (cs.slot 0).inUse = false

/-- The capabilities a space holds, in slot order. -/
def CSpace.held (cs : CSpace) : List CSlot := cs.slots.filter (·.inUse)

/-- Every slot there can ever be is used. -/
def CSpace.Exhausted (cs : CSpace) : Prop :=
  cs.maxSlots = cspaceMaxSlots ∧ ∀ i < cs.maxSlots, cs.used i = true

/-- One of the two allocations of a growth fails. -/
def GrowMem.Fails (mem : GrowMem) : Prop := mem.slots = none ∨ mem.bitmap = none

/-- The block for a new slot table reads as unused from cell `n` on. -/
def GrowMem.ClearFrom (mem : GrowMem) (n : Nat) : Prop :=
  ∀ fresh, mem.slots = some fresh → ∀ i, n ≤ i → (fresh i).inUse = false

/-! ## Reading a slot table -/

theorem CSpace.slot_of_getElem (h : i < cs.slots.length) : cs.slot i = cs.slots[i] := by
  simp [slot, getD_eq_getElem?_getD, h]

theorem CSpace.slot_of_length_le (h : cs.slots.length ≤ i) : cs.slot i = zero := by
  simp [slot, getD_eq_getElem?_getD, h]

theorem CSpace.lt_of_inUse (h : (cs.slot i).inUse = true) : i < cs.slots.length := by
  by_contra hge
  rw [slot_of_length_le (by omega)] at h
  simp [zero] at h

/-- Overwriting slot `i` changes what slot `i` reads and nothing else. -/
theorem getD_set_eq (slots : List CSlot) (i j : Nat) (cap : CSlot) (hi : i < slots.length) :
    (slots.set i cap).getD j zero =
      if j = i then cap else slots.getD j zero := by
  simp only [getD_eq_getElem?_getD, getElem?_set]
  by_cases hij : i = j
  · subst hij
    simp [hi]
  · simp [hij, Ne.symm hij]

/-- Overwriting an unused slot with a capability adds it to what is held. -/
theorem held_set_perm {i : Nat} {cap : CSlot} (hi : i < slots.length)
    (hfree : slots[i].inUse = false) (hcap : cap.inUse = true) :
    ((slots.set i cap).filter (·.inUse)).Perm (cap :: slots.filter (·.inUse)) := by
  rw [set_eq_take_append_cons_drop, if_pos hi, filter_append, filter_cons_of_pos hcap]
  have hsplit : slots.filter (·.inUse) =
      (slots.take i).filter (·.inUse) ++ (slots.drop (i + 1)).filter (·.inUse) := by
    conv_lhs => rw [← take_append_drop i slots, filter_append,
      drop_eq_getElem_cons hi, filter_cons_of_neg (by simp [hfree])]
  rw [hsplit]
  exact perm_middle

/-- Clearing a used slot removes its capability from what is held. -/
theorem held_clear_perm (hi : i < slots.length) (hused : slots[i].inUse = true) :
    (slots.filter (·.inUse)).Perm (slots[i] :: (slots.set i zero).filter (·.inUse)) := by
  have hlen : i < (slots.set i zero).length := by simpa using hi
  have hback : (slots.set i zero).set i slots[i] = slots := by simp
  have h := @held_set_perm (slots.set i zero) i slots[i] hlen (by simp [zero]) hused
  rwa [hback] at h

/-! ## The initial space -/

theorem cspaceInit_used (i : Nat) : cspaceInit.used i = decide (i = 0) := by
  have hz : ∀ j, test (replicate 8 0#32) j = false := by
    intro j
    have h := test_append_zero ([] : List (BitVec 32)) 8 j
    rw [nil_append] at h
    rw [h]
    simp [test]
  have h := @test_set 32 (replicate 8 0#32) 0 i (by omega) (by simp)
  rw [hz] at h
  exact h

theorem cspaceInit_slot (i : Nat) : cspaceInit.slot i = zero := by
  simp only [slot, cspaceInit, getD_eq_getElem?_getD, getElem?_replicate]
  split <;> rfl

theorem cspaceInit_coherent : cspaceInit.Coherent where
  slots_length := by simp [cspaceInit]
  bitmap_length := by simp [cspaceInit]
  words := by decide
  doubled := ⟨0, by omega, by simp [cspaceInit]⟩
  used_iff := by
    intro i _
    simp [cspaceInit_used, cspaceInit_slot, zero]
  slot_zero := by simp [cspaceInit_slot, zero]

/-! ## Growth -/

/-- A growth fails only at the hard cap or when memory ran out. -/
theorem cspaceGrow_eq_none (hcs : cs.Coherent)
    (h : cspaceGrow cs mem = none) : cs.maxSlots = cspaceMaxSlots ∨ mem.Fails := by
  obtain ⟨k, hk, hmax⟩ := hcs.doubled
  unfold cspaceGrow at h
  simp only at h
  split at h
  · left
    simp only [cspaceMaxSlots, cspaceDefaultSlots] at *
    interval_cases k <;> omega
  right
  split at h
  · exact .inl ‹_›
  · split at h
    · exact .inr ‹_›
    · simp at h

/-- What a growth leaves alone and what it adds. -/
theorem cspaceGrow_eq_some {grown : CSpace} (hcs : cs.Coherent)
    (hclear : mem.ClearFrom cs.maxSlots) (h : cspaceGrow cs mem = some grown) :
    grown.Coherent ∧ cs.maxSlots < grown.maxSlots ∧ grown.held = cs.held ∧
      (∀ i < cs.maxSlots, grown.slot i = cs.slot i) ∧
      (∀ i, cs.maxSlots ≤ i → (grown.slot i).inUse = false) ∧
      (∀ i, grown.used i = cs.used i) := by
  obtain ⟨k, hk, hmax⟩ := hcs.doubled
  have hpos : 0 < cs.maxSlots := by
    rw [hmax]
    exact Nat.mul_pos (by decide) (Nat.two_pow_pos k)
  unfold cspaceGrow at h
  simp only at h
  split at h
  · simp at h
  split at h
  · simp at h
  rename_i fresh hfresh
  split at h
  · simp at h
  rw [some.injEq] at h
  subst h
  have hunused : ∀ i, cs.maxSlots ≤ i → (fresh i).inUse = false := hclear fresh hfresh
  have hcopy : cs.maxSlots ≤ cs.slots.length := hcs.slots_length.ge
  have hslots_lt : ∀ i < cs.maxSlots,
      (copyInto fresh (cs.maxSlots * 2) cs.slots cs.maxSlots).getD i zero = cs.slot i := by
    intro i hi
    rw [getD_eq_getElem?_getD, getElem?_copyInto_lt hcopy hi]
    rfl
  have hslots_ge : ∀ i, cs.maxSlots ≤ i →
      ((copyInto fresh (cs.maxSlots * 2) cs.slots cs.maxSlots).getD i zero).inUse = false := by
    intro i hi
    by_cases hend : i < cs.maxSlots * 2
    · rw [getD_eq_getElem?_getD, getElem?_copyInto_ge hcopy hi hend]
      exact hunused i hi
    · rw [getD_eq_getElem?_getD, getElem?_eq_none]
      · rfl
      · rw [length_copyInto hcopy (by omega)]
        omega
  have hwords : cs.maxSlots * 2 / cspaceWordBits = 2 * cs.bitmapWords := by
    rw [hcs.words, cspaceWordBits]
    omega
  have hused : ∀ i, test (cs.freeBitmap.take cs.bitmapWords ++
      replicate (cs.maxSlots * 2 / cspaceWordBits - cs.bitmapWords) 0#32) i = cs.used i := by
    intro i
    rw [take_of_length_le hcs.bitmap_length.le, test_append_zero]
    rfl
  refine ⟨?_, by simp only; omega, ?_, hslots_lt, hslots_ge, hused⟩
  · constructor
    · exact length_copyInto hcopy (by omega)
    · simp only [length_append, length_take, length_replicate, hcs.bitmap_length, hwords]
      omega
    · show cs.maxSlots * 2 = 32 * (cs.maxSlots * 2 / cspaceWordBits)
      rw [hwords, hcs.words]
      omega
    · refine ⟨k + 1, ?_, by simp only [hmax]; ring⟩
      simp only [cspaceMaxSlots, cspaceDefaultSlots] at *
      interval_cases k <;> omega
    · intro i hi
      rw [used, hused i]
      simp only [slot]
      by_cases hlt : i < cs.maxSlots
      · rw [hslots_lt i hlt]
        exact hcs.used_iff i hlt
      have hoff : cs.used i = false := by
        rw [used, test, getD_eq_getElem?_getD, getElem?_eq_none]
        · simp
        · rw [hcs.bitmap_length]
          have := hcs.words
          omega
      have hne : i ≠ 0 := by omega
      rw [hslots_ge i (by omega), hoff]
      simp [hne]
    · show ((copyInto fresh (cs.maxSlots * 2) cs.slots cs.maxSlots).getD 0 zero).inUse = false
      rw [hslots_lt 0 hpos]
      exact hcs.slot_zero
  · -- the new cells hold nothing, so filtering drops all of them
    simp only [held, copyInto, filter_append, take_of_length_le hcs.slots_length.le]
    have hnone : ((range' cs.maxSlots (cs.maxSlots * 2 - cs.maxSlots)).map fresh).filter
        (·.inUse) = [] := by
      rw [filter_eq_nil_iff]
      intro cap hcap
      obtain ⟨i, hi, rfl⟩ := mem_map.mp hcap
      have := (mem_range'_1.mp hi).1
      simp [hunused i this]
    rw [hnone, append_nil]

/-! ## The search for a slot -/

section

variable (hcs : cs.Coherent)
include hcs

theorem bitmapAlloc_eq_none (h : bitmapAlloc cs = none) : ∀ i < cs.maxSlots, cs.used i = true := by
  unfold bitmapAlloc at h
  split at h
  · rename_i hfirst
    intro i hi
    refine firstClear_eq_none (by omega) hcs.bitmap_length.ge hfirst i ?_
    rw [← hcs.words]
    exact hi
  · simp at h

/-- The slot found is a free slot other than slot 0, and its bit is now set. -/
theorem bitmapAlloc_eq_some {cs' : CSpace} (h : bitmapAlloc cs = some (i, cs')) :
    i < cs.maxSlots ∧ 0 < i ∧ (cs.slot i).inUse = false ∧
      cs' = { cs with freeBitmap := set cs.freeBitmap i } ∧
      ∀ j, cs'.used j = (cs.used j || decide (j = i)) := by
  unfold bitmapAlloc at h
  split at h
  · simp at h
  rename_i n hfirst
  rw [some.injEq, Prod.mk.injEq] at h
  obtain ⟨rfl, rfl⟩ := h
  obtain ⟨hlt, hword, hclear⟩ := firstClear_eq_some (by omega) hfirst
  have hmax : n < cs.maxSlots := by rw [hcs.words]; exact hlt
  have hnot : ¬ (n = 0 ∨ (cs.slot n).inUse = true) := by
    intro hor
    have := (hcs.used_iff n hmax).mpr hor
    rw [used, hclear] at this
    simp at this
  push Not at hnot
  refine ⟨hmax, by omega, by simpa using hnot.2, rfl, ?_⟩
  intro j
  exact test_set (by omega) hword

/-- Writing a capability into the slot just reserved restores coherence. -/
theorem coherent_fill {cap : CSlot} (hi : i < cs.maxSlots) (hpos : 0 < i)
    (hword : i / 32 < cs.freeBitmap.length) (hcap : cap.inUse = true) :
    CSpace.Coherent { cs with
        slots := cs.slots.set i cap
        freeBitmap := set cs.freeBitmap i } := by
  have hlen : i < cs.slots.length := by rw [hcs.slots_length]; exact hi
  constructor
  · simpa using hcs.slots_length
  · simpa using hcs.bitmap_length
  · exact hcs.words
  · exact hcs.doubled
  · intro j hj
    simp only [used, slot, getD_set_eq _ _ _ _ hlen, test_set (w := 32) (by omega) hword]
    by_cases hji : j = i
    · simp [hji, hcap]
    · simp only [hji, decide_false, Bool.or_false, if_false]
      exact hcs.used_iff j hj
  · simp only [slot, getD_set_eq _ _ _ _ hlen, if_neg (Nat.ne_of_lt hpos)]
    exact hcs.slot_zero

/-- Clearing a used slot and its bit keeps coherence. -/
theorem coherent_clear (hused : (cs.slot i).inUse = true) : CSpace.Coherent { cs with
        slots := cs.slots.set i zero
        freeBitmap := clear cs.freeBitmap i } := by
  have hlen : i < cs.slots.length := lt_of_inUse hused
  have hpos : i ≠ 0 := by
    rintro rfl
    rw [hcs.slot_zero] at hused
    simp at hused
  constructor
  · simpa using hcs.slots_length
  · simpa using hcs.bitmap_length
  · exact hcs.words
  · exact hcs.doubled
  · intro j hj
    simp only [used, slot, getD_set_eq _ _ _ _ hlen, test_clear (w := 32) (by omega)]
    by_cases hji : j = i
    · simp [hji, hpos, zero]
    · simp only [hji, ne_eq, not_false_eq_true, decide_true, Bool.and_true, if_false]
      exact hcs.used_iff j hj
  · simp only [slot, getD_set_eq _ _ _ _ hlen, if_neg (Ne.symm hpos)]
    exact hcs.slot_zero

end

/-! ## Specifications of the operations -/

/-- A slot is found unless the space is exhausted or memory ran out, and filling
it makes a coherent space that still holds everything the old one held. -/
theorem allocOrGrow_spec (hcs : cs.Coherent)
    (hclear : bitmapAlloc cs = none → mem.ClearFrom cs.maxSlots) :
    (∃ cs', allocOrGrow cs mem = (none, cs') ∧ cs' = cs ∧ (cs.Exhausted ∨ mem.Fails)) ∨
    (∃ i cs', allocOrGrow cs mem = (some i, cs') ∧ 0 < i ∧ (cs.slot i).inUse = false ∧
      ∀ cap : CSlot, cap.inUse = true →
        let full : CSpace := { cs' with slots := cs'.slots.set i cap }
        full.Coherent ∧ full.held.Perm (cap :: cs.held) ∧ full.slot i = cap ∧
          ∀ j, (cs.slot j).inUse = true → full.slot j = cs.slot j) := by
  -- filling a slot that `bitmapAlloc` reserved in a space `mid` holding what `cs` holds
  have fill : ∀ (mid cs' : CSpace) (i : Nat), mid.Coherent → mid.held = cs.held →
      (∀ j, (cs.slot j).inUse = true → mid.slot j = cs.slot j) →
      bitmapAlloc mid = some (i, cs') →
      0 < i ∧ (mid.slot i).inUse = false ∧
      ∀ cap : CSlot, cap.inUse = true →
        let full : CSpace := { cs' with slots := cs'.slots.set i cap }
        full.Coherent ∧ full.held.Perm (cap :: cs.held) ∧ full.slot i = cap ∧
          ∀ j, (cs.slot j).inUse = true → full.slot j = cs.slot j := by
    intro mid cs' i hmid hheld hsame halloc
    obtain ⟨hi, hpos, hfree, rfl, _⟩ := bitmapAlloc_eq_some hmid halloc
    have hlen : i < mid.slots.length := by rw [hmid.slots_length]; exact hi
    refine ⟨hpos, hfree, fun cap hcap => ⟨?_, ?_, ?_, ?_⟩⟩
    · refine coherent_fill hmid hi hpos ?_ hcap
      rw [hmid.bitmap_length]
      have := hmid.words
      omega
    · rw [← hheld]
      rw [slot_of_getElem hlen] at hfree
      exact held_set_perm hlen hfree hcap
    · simp only [slot, getD_set_eq _ _ _ _ hlen, if_true]
    · intro j hj
      have hji : j ≠ i := by
        rintro rfl
        rw [hsame j hj, hj] at hfree
        simp at hfree
      simp only [slot, getD_set_eq _ _ _ _ hlen, if_neg hji]
      exact hsame j hj
  unfold allocOrGrow
  cases hfirst : bitmapAlloc cs with
  | some found =>
    obtain ⟨i, cs'⟩ := found
    exact .inr ⟨i, cs', rfl, fill cs cs' i hcs rfl (fun _ _ => rfl) hfirst⟩
  | none =>
    have hfull := bitmapAlloc_eq_none hcs hfirst
    cases hgrow : cspaceGrow cs mem with
    | none =>
      refine .inl ⟨cs, rfl, rfl, ?_⟩
      rcases cspaceGrow_eq_none hcs hgrow with hmax | hfail
      · exact .inl ⟨hmax, hfull⟩
      · exact .inr hfail
    | some grown =>
      obtain ⟨hgrown, hlt, hheld, hold, hnew, hused⟩ := cspaceGrow_eq_some hcs (hclear hfirst) hgrow
      have hsame : ∀ j, (cs.slot j).inUse = true → grown.slot j = cs.slot j := by
        intro j hj
        have := lt_of_inUse hj
        exact hold j (by rw [← hcs.slots_length]; exact this)
      cases hsecond : bitmapAlloc grown with
      | some found =>
        obtain ⟨i, cs'⟩ := found
        obtain ⟨hpos, hfree, hfill⟩ := fill grown cs' i hgrown hheld hsame hsecond
        refine .inr ⟨i, cs', by simp [hsecond], hpos, ?_, hfill⟩
        by_contra hne
        rw [hsame i (by simpa using hne)] at hfree
        exact hne hfree
      | none =>
        -- the first new bit is clear, so the second search cannot fail
        exfalso
        have hbit := bitmapAlloc_eq_none hgrown hsecond cs.maxSlots hlt
        have hunused := hnew cs.maxSlots (le_refl _)
        have hzero : cs.maxSlots = 0 := by
          have := (hgrown.used_iff cs.maxSlots hlt).mp hbit
          rw [hunused] at this
          simpa using this
        obtain ⟨k, _, hmax⟩ := hcs.doubled
        have := Nat.two_pow_pos k
        simp only [cspaceDefaultSlots] at hmax
        omega

/-! ## Runs over any number of spaces -/

/-- One call on one or two of the spaces.  A space is named by a number: the
address of its `cspace_t`. -/
inductive CspaceOp where
  | alloc (space type rights objectId : Nat) (mem : GrowMem)
  | free (space : Nat) (slot : Int)
  | move (src dst : Nat) (slot : Int) (mem : GrowMem)

/-- The `int` a call returns for a slot number or for a failure. -/
def slotResult : Option Nat → Int
  | some i => i
  | none => -1

/-- One call: its result and the spaces after it.  `cspace_move` within one space
never returns (the space's lock is taken twice), so it has no step. -/
def cspaceCall (s : Nat → CSpace) : CspaceOp → Option (Int × (Nat → CSpace))
  | .alloc space type rights objectId mem =>
      let (res, cs') := cspaceAllocSlot (s space) type rights objectId mem
      some (slotResult res, update s space cs')
  | .free space slot =>
      match cspaceFreeSlot (s space) slot with
      | (none, cs') => some (-1, update s space cs')
      | (some _, cs') => some (0, update s space cs')
  | .move src dst slot mem =>
      if src = dst then none
      else
        let (res, from', to') := cspaceMove (s src) (s dst) slot mem
        some (slotResult res, update (update s src from') dst to')

/-- The spaces after one call. -/
def cspaceStep (s : Nat → CSpace) (op : CspaceOp) : Option (Nat → CSpace) :=
  (cspaceCall s op).map (·.2)

/-- A call that has to grow a slot table gets a block whose new part reads as
unused. -/
def GrowsClear (s : Nat → CSpace) : CspaceOp → Prop
  | .alloc space _ _ _ mem => bitmapAlloc (s space) = none → mem.ClearFrom (s space).maxSlots
  | .free _ _ => True
  | .move _ dst _ mem => bitmapAlloc (s dst) = none → mem.ClearFrom (s dst).maxSlots

/-- What one call does to the capabilities.

* An allocation that fails found every slot there can be in use, or memory ran
  out; one that succeeds hands out an unused slot other than slot 0.
* Whatever a call does not free or move stays in its slot, also when the table
  grows.
* A move conserves the capabilities of its two spaces, whether it succeeds or
  fails. -/
def CallSpec (s : Nat → CSpace) (res : Int) (t : Nat → CSpace) : CspaceOp → Prop
  | .alloc space type rights objectId mem =>
      (res = -1 → (s space).Exhausted ∨ mem.Fails) ∧
      (res ≠ -1 → ∃ i : Nat, res = i ∧ 0 < i ∧ ((s space).slot i).inUse = false ∧
        (t space).slot i = ⟨objectId, type, rights, true⟩ ∧
        (t space).held.Perm (⟨objectId, type, rights, true⟩ :: (s space).held)) ∧
      ∀ sp j, ((s sp).slot j).inUse = true → (t sp).slot j = (s sp).slot j
  | .free space slot =>
      (res = -1 → t space = s space) ∧
      (res ≠ -1 → (s space).held.Perm ((s space).slot slot.toNat :: (t space).held)) ∧
      ∀ (sp j : Nat), ¬ (sp = space ∧ (j : Int) = slot) → (t sp).slot j = (s sp).slot j
  | .move src dst slot _ =>
      ((t src).held ++ (t dst).held).Perm ((s src).held ++ (s dst).held) ∧
      (res = -1 → t = s) ∧ res ≠ 0 ∧
      ∀ (sp j : Nat), ¬ (sp = src ∧ (j : Int) = slot) → ((s sp).slot j).inUse = true →
        (t sp).slot j = (s sp).slot j

/-! ### Step lemmas -/

theorem cspaceAllocSlot_spec (type rights objectId : Nat)
    (hcs : cs.Coherent) (hclear : bitmapAlloc cs = none → mem.ClearFrom cs.maxSlots) :
    (cspaceAllocSlot cs type rights objectId mem = (none, cs) ∧ (cs.Exhausted ∨ mem.Fails)) ∨
    (∃ i cs', cspaceAllocSlot cs type rights objectId mem = (some i, cs') ∧ 0 < i ∧
      (cs.slot i).inUse = false ∧ cs'.Coherent ∧
      cs'.held.Perm (⟨objectId, type, rights, true⟩ :: cs.held) ∧
      cs'.slot i = ⟨objectId, type, rights, true⟩ ∧
      ∀ j, (cs.slot j).inUse = true → cs'.slot j = cs.slot j) := by
  rcases allocOrGrow_spec hcs hclear with ⟨cs', heq, rfl, hwhy⟩ | ⟨i, cs', heq, hpos, hfree, hfill⟩
  · exact .inl ⟨by simp [cspaceAllocSlot, heq], hwhy⟩
  · obtain ⟨hco, hheld, hslot, hsame⟩ := hfill ⟨objectId, type, rights, true⟩ rfl
    exact .inr ⟨i, _, by simp [cspaceAllocSlot, heq], hpos, hfree, hco, hheld, hslot, hsame⟩

/-- Freeing either changes nothing, or clears one used slot. -/
theorem cspaceFreeSlot_spec (slot : Int) (hcs : cs.Coherent) : cspaceFreeSlot cs slot = (none, cs) ∨
    (∃ cs', cspaceFreeSlot cs slot = (some (cs.slot slot.toNat), cs') ∧ 0 ≤ slot ∧
      (cs.slot slot.toNat).inUse = true ∧ cs'.Coherent ∧
      cs.held.Perm (cs.slot slot.toNat :: cs'.held) ∧
      ∀ j : Nat, (j : Int) ≠ slot → cs'.slot j = cs.slot j) := by
  unfold cspaceFreeSlot clearSlot
  split
  · rename_i hrange
    have hnonneg : 0 ≤ slot := by
      simp only [inRange, and_eq_true, decide_eq_true_eq] at hrange
      exact hrange.1
    by_cases hused : (cs.slot slot.toNat).inUse = true
    · right
      simp only [hused, if_true]
      have hlen := lt_of_inUse hused
      refine ⟨_, rfl, hnonneg, trivial, coherent_clear hcs hused, ?_, ?_⟩
      · rw [slot_of_getElem hlen] at hused ⊢
        exact held_clear_perm hlen hused
      · intro j hj
        have hne : j ≠ slot.toNat := by omega
        simp only [CSpace.slot, getD_set_eq _ _ _ _ hlen, if_neg hne]
    · left
      simp [hused]
  · exact .inl rfl

/-- A move either changes nothing, or takes one capability out of the source and
puts that same capability into an unused slot of the destination. -/
theorem cspaceMove_spec {src dst : CSpace} (slot : Int) (hsrc : src.Coherent) (hdst : dst.Coherent)
    (hclear : bitmapAlloc dst = none → mem.ClearFrom dst.maxSlots) :
    cspaceMove src dst slot mem = (none, src, dst) ∨
    (∃ i src' dst', cspaceMove src dst slot mem = (some i, src', dst') ∧ 0 < i ∧ 0 ≤ slot ∧
      (src.slot slot.toNat).inUse = true ∧ (dst.slot i).inUse = false ∧
      src'.Coherent ∧ dst'.Coherent ∧
      src.held.Perm (src.slot slot.toNat :: src'.held) ∧
      dst'.held.Perm (src.slot slot.toNat :: dst.held) ∧
      dst'.slot i = src.slot slot.toNat ∧
      (∀ j : Nat, (j : Int) ≠ slot → src'.slot j = src.slot j) ∧
      ∀ j, (dst.slot j).inUse = true → dst'.slot j = dst.slot j) := by
  unfold cspaceMove
  split
  · rename_i hrange
    have hnonneg : 0 ≤ slot := by
      simp only [inRange, and_eq_true, decide_eq_true_eq] at hrange
      exact hrange.1
    by_cases hused : (src.slot slot.toNat).inUse = true
    · simp only [hused, if_true]
      rcases allocOrGrow_spec hdst hclear with
        ⟨dst', heq, rfl, _⟩ | ⟨i, dst', heq, hpos, hfree, hfill⟩
      · exact .inl (by simp [heq])
      have hlen := lt_of_inUse hused
      obtain ⟨hco, hheld, hslot, hsame⟩ := hfill (src.slot slot.toNat) hused
      refine .inr ⟨i, _, _, by simp only [heq], hpos, hnonneg, trivial, hfree,
        coherent_clear hsrc hused, hco, ?_, hheld, hslot, ?_, hsame⟩
      · rw [slot_of_getElem hlen] at hused ⊢
        exact held_clear_perm hlen hused
      · intro j hj
        have hne : j ≠ slot.toNat := by omega
        simp only [CSpace.slot, getD_set_eq _ _ _ _ hlen, if_neg hne]
    · exact .inl (by simp [hused])
  · exact .inl rfl

/-- One call on coherent spaces leaves them coherent and does what `CallSpec`
says. -/
theorem cspaceCall_spec {s t : Nat → CSpace} {op : CspaceOp} {res : Int}
    (hs : ∀ sp, (s sp).Coherent) (hclear : GrowsClear s op)
    (hcall : cspaceCall s op = some (res, t)) : (∀ sp, (t sp).Coherent) ∧ CallSpec s res t op := by
  cases op with
  | alloc space type rights objectId mem =>
    simp only [cspaceCall, some.injEq, Prod.mk.injEq] at hcall
    obtain ⟨rfl, rfl⟩ := hcall
    rcases cspaceAllocSlot_spec type rights objectId (hs space) hclear with
        ⟨heq, hwhy⟩ | ⟨i, cs', heq, hpos, hfree, hco, hheld, hslot, hsame⟩
    · rw [heq]
      simp only [slotResult, update_eq_self, CallSpec]
      exact ⟨hs, fun _ => hwhy, fun h => absurd rfl h, fun _ _ _ => trivial⟩
    rw [heq]
    simp only [slotResult, CallSpec, update_self]
    refine ⟨?_, fun h => by omega, fun _ => ⟨i, rfl, hpos, hfree, hslot, hheld⟩, ?_⟩
    · intro sp
      by_cases hsp : sp = space
      · subst hsp; simpa using hco
      · simpa [hsp] using hs sp
    · intro sp j hj
      by_cases hsp : sp = space
      · subst hsp; simpa using hsame j hj
      · simp [hsp]
  | free space slot =>
    simp only [cspaceCall] at hcall
    rcases cspaceFreeSlot_spec slot (hs space) with
      heq | ⟨cs', heq, hnonneg, hused, hco, hheld, hsame⟩
    · simp only [heq, update_eq_self, some.injEq, Prod.mk.injEq] at hcall
      obtain ⟨rfl, rfl⟩ := hcall
      exact ⟨hs, fun _ => rfl, fun h => absurd rfl h, fun _ _ _ => rfl⟩
    simp only [heq, some.injEq, Prod.mk.injEq] at hcall
    obtain ⟨rfl, rfl⟩ := hcall
    simp only [CallSpec, update_self]
    refine ⟨?_, fun h => by omega, fun _ => hheld, ?_⟩
    · intro sp
      by_cases hsp : sp = space
      · subst hsp; simpa using hco
      · simpa [hsp] using hs sp
    · intro sp j hj
      by_cases hsp : sp = space
      · subst hsp
        simpa using hsame j (fun h => hj ⟨rfl, h⟩)
      · simp [hsp]
  | move src dst slot mem =>
    simp only [cspaceCall] at hcall
    split at hcall
    · simp at hcall
    rename_i hne
    cases hcall
    rcases cspaceMove_spec slot (hs src) (hs dst) hclear with
      heq | ⟨i, src', dst', heq, hpos, hnonneg, hused, hfree, hcos, hcod, hout, hin, hslot,
        hkeepS, hkeepD⟩
    · rw [heq]
      have hsame : update (update s src (s src)) dst (s dst) = s := by
        rw [update_eq_self, update_eq_self]
      simp only [slotResult, hsame, CallSpec]
      exact ⟨hs, List.Perm.refl _, fun _ => trivial, by omega, fun _ _ _ _ => trivial⟩
    rw [heq]
    have hsrc : update (update s src src') dst dst' src = src' := by
      rw [update_of_ne hne, update_self]
    have hdst : update (update s src src') dst dst' dst = dst' := by rw [update_self]
    simp only [slotResult, CallSpec, hsrc, hdst]
    refine ⟨?_, ?_, fun h => by omega, by omega, ?_⟩
    · intro sp
      by_cases hsd : sp = dst
      · subst hsd; rw [hdst]; exact hcod
      · by_cases hss : sp = src
        · subst hss; rw [hsrc]; exact hcos
        · rw [update_of_ne hsd, update_of_ne hss]; exact hs sp
    · -- the moved capability changes sides and nothing else does
      calc (src'.held ++ dst'.held).Perm
            (src'.held ++ ((s src).slot slot.toNat :: (s dst).held)) := hin.append_left _
        _ |>.Perm ((s src).slot slot.toNat :: (src'.held ++ (s dst).held)) := perm_middle
        _ |>.Perm ((s src).held ++ (s dst).held) := hout.symm.append_right _
    intro sp j hj hin'
    by_cases hsd : sp = dst
    · subst hsd; rw [hdst]; exact hkeepD j hin'
    · by_cases hss : sp = src
      · subst hss
        rw [hsrc]
        exact hkeepS j (fun h => hj ⟨rfl, h⟩)
      · rw [update_of_ne hsd, update_of_ne hss]

/-- One step keeps every space coherent. -/
theorem cspaceStep_coherent (s : Nat → CSpace) (op : CspaceOp) (t : Nat → CSpace)
    (hs : ∀ sp, (s sp).Coherent) (hclear : GrowsClear s op) (hstep : cspaceStep s op = some t) :
    ∀ sp, (t sp).Coherent := by
  obtain ⟨⟨res, t'⟩, hcall, rfl⟩ := map_eq_some_iff.mp hstep
  exact (cspaceCall_spec hs hclear hcall).1

/-! ### The run theorem -/

/-- Every space starts as `cspace_init` leaves it. -/
def cspacesInit : Nat → CSpace := fun _ => cspaceInit

/-- In every run of allocations, frees and moves in which every growth gets a
block that reads as unused, the bitmap and the table of every space agree after
every call, and every call meets `CallSpec`. -/
theorem cspace_run_coherent (ops : List CspaceOp) (s : Nat → CSpace)
    (meets : AllSteps cspaceStep GrowsClear cspacesInit ops)
    (run : exec cspaceStep cspacesInit ops = some s) :
    (∀ sp, (s sp).Coherent) ∧ ∀ op res t, GrowsClear s op → cspaceCall s op = some (res, t) →
        (∀ sp, (t sp).Coherent) ∧ CallSpec s res t op := by
  have hs : ∀ sp, (s sp).Coherent :=
    exec_invariant cspaceStep_coherent (fun _ => cspaceInit_coherent) meets run
  exact ⟨hs, fun op res t hclear hcall => cspaceCall_spec hs hclear hcall⟩

/-- A block of zeroes for the slot table and for the bitmap. -/
def zeroMem : GrowMem := ⟨some fun _ => zero, some fun _ => 0#32⟩

theorem zeroMem_clearFrom (n : Nat) : zeroMem.ClearFrom n := by
  intro fresh hfresh i _
  cases hfresh
  rfl

/-- An allocation in one space and a move to another, with zeroed blocks. -/
theorem cspace_run_coherent_alloc_move : ∃ s, exec cspaceStep cspacesInit
        [.alloc 0 capPort capSend 0x1000 zeroMem, .move 0 1 1 zeroMem] = some s ∧
      (s 1).Coherent :=
  ⟨_, rfl, (cspace_run_coherent [.alloc 0 capPort capSend 0x1000 zeroMem, .move 0 1 1 zeroMem] _
    ⟨fun _ => zeroMem_clearFrom _, fun _ _ => ⟨fun _ => zeroMem_clearFrom _, fun _ _ => trivial⟩⟩
    rfl).1 1⟩

/-- A recycled block: cell 300 still holds a capability of an earlier owner. -/
def recycledMem : GrowMem :=
  ⟨some fun i => ⟨0x2000, capPort, capSend, i == 300⟩, some fun _ => 0#32⟩

/-- 255 allocations fill the initial table and the 256th grows it into a recycled
block: slot 300 then reads as a held capability although nobody allocated it and
its bit is clear. -/
theorem growth_leaves_stale_slots : ∃ s, exec cspaceStep cspacesInit
        (replicate 256 (.alloc 0 capPort capSend 0x1000 recycledMem)) = some s ∧
      300 < (s 0).maxSlots ∧ ((s 0).slot 300).inUse = true ∧ (s 0).used 300 = false :=
  exists_run (by decide +kernel) fun _ _ h => h

end ArcKernel.Ipc
