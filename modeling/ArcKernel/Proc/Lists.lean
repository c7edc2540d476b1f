import ArcKernel.Proc.Table

/-!
# The lists of the process table

What the operations on slots do to the live list with the pid bitmap (`Books`), to the lists
of children (`Family`) and to the numbering of the forked processes (`Serials`).
-/

namespace ArcKernel.Proc

open ArcKernel.Foundation Function List

variable {s t : ProcTable} {L : List Nat} {K : Nat → List Nat} {p q c : Nat}

/-- The live list is `L`, and the bitmap holds exactly the pids on it. -/
structure Books (s : ProcTable) (L : List Nat) : Prop where
  chain : Chain s.live liveRoot L
  nodup : L.Nodup
  slot : ∀ p ∈ L, p ≤ procMax
  pid : ∀ p ∈ L, 1 ≤ s.pid p ∧ s.pid p < procMax
  inj : ∀ p ∈ L, ∀ q ∈ L, s.pid p = s.pid q → p = q
  used : ∀ k, 1 ≤ k → k < procMax → (s.used k = true ↔ ∃ p ∈ L, s.pid p = k)

/-- The lists of children are `K`.  Parents are live and no zombies, children are live, and every
forked process on the live list is somebody's child. -/
structure Family (s : ProcTable) (L : List Nat) (K : Nat → List Nat) : Prop where
  chains : Chains s.kids K
  parent : ∀ q c, c ∈ K q → q ∈ L ∧ s.zombie q = false ∧ s.ppid c = s.pid q
  child : ∀ q c, c ∈ K q → c ∈ L ∧ s.serial c ≠ none
  linked : ∀ c ∈ L, s.serial c ≠ none → ∃ q, c ∈ K q

/-- The forked processes on the live list are those not reaped, each once. -/
structure Serials (s : ProcTable) (L : List Nat) : Prop where
  fresh : ∀ c ∈ L, ∀ k, s.serial c = some k → k < s.forks ∧ k ∉ s.reaped
  inj : ∀ c ∈ L, ∀ c' ∈ L, ∀ k, s.serial c = some k → s.serial c' = some k → c = c'
  present : ∀ k, k < s.forks → k ∉ s.reaped → ∃ c ∈ L, s.serial c = some k
  reaped : ∀ k ∈ s.reaped, k < s.forks
  nodup : s.reaped.Nodup
  thread : ∀ c ∈ L, s.isThread c = true → s.serial c = none

/-! ## Reading the lists -/

theorem Books.ne_zero (h : Books s L) (hp : p ∈ L) : p ≠ 0 := h.chain.ne_zero p hp

theorem length_le_of_slots (hnodup : L.Nodup) (hslot : ∀ p ∈ L, p ≤ procMax)
    (hzero : ∀ p ∈ L, p ≠ 0) : L.length ≤ procMax := by
  have hsub : L ⊆ List.range' 1 procMax := by
    intro p hp
    have hle := hslot p hp
    have hne := hzero p hp
    exact mem_range'_1.mpr ⟨Nat.pos_of_ne_zero hne, by omega⟩
  have hlen := (hnodup.subperm hsub).length_le
  rwa [length_range'] at hlen

theorem Books.length_le (h : Books s L) : L.length ≤ procMax :=
  length_le_of_slots h.nodup h.slot h.chain.ne_zero

theorem Books.liveList_eq (h : Books s L) : liveList s = L := h.chain.cells_eq h.length_le

section

variable (h : Family s L K)
include h

theorem Family.length_le (hb : Books s L) (q : Nat) : (K q).length ≤ procMax :=
  length_le_of_slots (h.chains.nodup q) (fun c hc => hb.slot c (h.child q c hc).1)
    (h.chains.chain q).ne_zero

theorem Family.children_eq (hb : Books s L) (q : Nat) : children s q = K q :=
  (h.chains.chain q).cells_eq (h.length_le hb q)

/-- Only live processes have children. -/
theorem Family.eq_nil (hq : q ∉ L) : K q = [] :=
  eq_nil_iff_forall_not_mem.mpr fun c hc => hq (h.parent q c hc).1

theorem Family.notMem (hc : c ∉ L) (q : Nat) : c ∉ K q := fun hin => hc (h.child q c hin).1

theorem Family.notMem_of_serial (hc : s.serial c = none) (q : Nat) : c ∉ K q :=
  fun hin => (h.child q c hin).2 hc

end

/-! ## Slots that change -/

/-- Every slot but one is as before. -/
structure Beside (s t : ProcTable) (p : Nat) : Prop where
  pid : ∀ q, q ≠ p → t.pid q = s.pid q
  ppid : ∀ q, q ≠ p → t.ppid q = s.ppid q
  zombie : ∀ q, q ≠ p → t.zombie q = s.zombie q
  isThread : ∀ q, q ≠ p → t.isThread q = s.isThread q
  serial : ∀ q, q ≠ p → t.serial q = s.serial q
  forks : t.forks = s.forks
  reaped : t.reaped = s.reaped

/-- The pointers of a slot have been zeroed. -/
def zeroed (m : Loc Nat → Nat) (p : Nat) : Loc Nat → Nat :=
  update (update m (.root p) 0) (.link p) 0

/-- A change to a slot that is not on the live list. -/
theorem Family.beside (h : Family s L K) (hb : Beside s t p) (hp : p ∉ L)
    (hkids : t.kids = s.kids ∨ t.kids = zeroed s.kids p) : Family t L K := by
  have hne : ∀ {q}, q ∈ L → q ≠ p := fun hq he => hp (he ▸ hq)
  have hchains : Chains t.kids K := by
    rcases hkids with hk | hk
    · exact hk ▸ h.chains
    · have hdrop := h.chains.drop p
      rw [← h.eq_nil hp, update_eq_self] at hdrop
      exact hk ▸ hdrop.update_link (fun q => h.notMem hp q) 0
  refine ⟨hchains, fun q c hc => ?_, fun q c hc => ?_, fun c hc hs => ?_⟩
  · obtain ⟨hq, hz, hpp⟩ := h.parent q c hc
    have hcL := (h.child q c hc).1
    exact ⟨hq, (hb.zombie q (hne hq)).trans hz,
      ((hb.ppid c (hne hcL)).trans hpp).trans (hb.pid q (hne hq)).symm⟩
  · obtain ⟨hcL, hs⟩ := h.child q c hc
    exact ⟨hcL, by rwa [hb.serial c (hne hcL)]⟩
  · exact h.linked c hc (by rwa [← hb.serial c (hne hc)])

theorem Serials.beside (h : Serials s L) (hb : Beside s t p) (hp : p ∉ L) : Serials t L := by
  have hne : ∀ {q}, q ∈ L → q ≠ p := fun hq he => hp (he ▸ hq)
  refine ⟨fun c hc k hk => ?_, fun c hc c' hc' k hk hk' => ?_, fun k hk hr => ?_, ?_, ?_,
    fun c hc ht => ?_⟩
  · rw [hb.forks, hb.reaped]
    exact h.fresh c hc k (hb.serial c (hne hc) ▸ hk)
  · exact h.inj c hc c' hc' k (hb.serial c (hne hc) ▸ hk) (hb.serial c' (hne hc') ▸ hk')
  · obtain ⟨c, hc, hs⟩ := h.present k (hb.forks ▸ hk) (hb.reaped ▸ hr)
    exact ⟨c, hc, (hb.serial c (hne hc)).trans hs⟩
  · rw [hb.forks, hb.reaped]
    exact h.reaped
  · rw [hb.reaped]
    exact h.nodup
  · rw [hb.serial c (hne hc)]
    exact h.thread c hc (hb.isThread c (hne hc) ▸ ht)

/-- A new process that was not forked. -/
theorem Family.cons (h : Family s L K) (hc : s.serial c = none) : Family s (c :: L) K := by
  refine ⟨h.chains, fun q a ha => ?_, fun q a ha => ?_, fun a ha hs => ?_⟩
  · obtain ⟨hq, hrest⟩ := h.parent q a ha
    exact ⟨mem_cons_of_mem _ hq, hrest⟩
  · obtain ⟨haL, hs⟩ := h.child q a ha
    exact ⟨mem_cons_of_mem _ haL, hs⟩
  · rcases mem_cons.mp ha with rfl | ha
    · exact absurd hc hs
    · exact h.linked a ha hs

theorem Serials.cons (h : Serials s L) (hc : s.serial c = none) : Serials s (c :: L) := by
  have hold : ∀ {a}, a ∈ c :: L → ∀ {k}, s.serial a = some k → a ∈ L := by
    intro a ha k hk
    rcases mem_cons.mp ha with rfl | ha
    · cases hc.symm.trans hk
    · exact ha
  refine ⟨fun a ha k hk => h.fresh a (hold ha hk) k hk, fun a ha a' ha' k hk hk' =>
    h.inj a (hold ha hk) a' (hold ha' hk') k hk hk', fun k hk hr => ?_, h.reaped, h.nodup,
    fun a ha ht => ?_⟩
  · obtain ⟨a, ha, hs⟩ := h.present k hk hr
    exact ⟨a, mem_cons_of_mem _ ha, hs⟩
  · rcases mem_cons.mp ha with rfl | ha
    · exact hc
    · exact h.thread a ha ht

/-- A process without children that is on no list leaves. -/
theorem Family.erase (h : Family s L K) (hnodup : L.Nodup) (hempty : K p = [])
    (hp : ∀ q, p ∉ K q) : Family s (L.erase p) K := by
  refine ⟨h.chains, fun q c hc => ?_, fun q c hc => ?_, fun c hc hs => ?_⟩
  · obtain ⟨hq, hrest⟩ := h.parent q c hc
    refine ⟨(hnodup.mem_erase_iff).mpr ⟨?_, hq⟩, hrest⟩
    rintro rfl
    rw [hempty] at hc
    cases hc
  · obtain ⟨hcL, hs⟩ := h.child q c hc
    refine ⟨(hnodup.mem_erase_iff).mpr ⟨?_, hcL⟩, hs⟩
    rintro rfl
    exact hp q hc
  · exact h.linked c (mem_of_mem_erase hc) hs

/-- A process that was not forked leaves. -/
theorem Serials.erase (h : Serials s L) (hnodup : L.Nodup) (hp : s.serial p = none) :
    Serials s (L.erase p) := by
  refine ⟨fun c hc => h.fresh c (mem_of_mem_erase hc), fun c hc c' hc' =>
    h.inj c (mem_of_mem_erase hc) c' (mem_of_mem_erase hc'), fun k hk hr => ?_, h.reaped,
    h.nodup, fun c hc => h.thread c (mem_of_mem_erase hc)⟩
  obtain ⟨c, hc, hs⟩ := h.present k hk hr
  refine ⟨c, (hnodup.mem_erase_iff).mpr ⟨?_, hc⟩, hs⟩
  rintro rfl
  cases hp.symm.trans hs

/-- A forked process is reaped. -/
theorem Serials.reap {k : Nat} (h : Serials s L) (hnodup : L.Nodup) (hp : p ∈ L)
    (hk : s.serial p = some k) : Serials { s with reaped := k :: s.reaped } (L.erase p) := by
  obtain ⟨hlt, hnew⟩ := h.fresh p hp k hk
  refine ⟨fun c hc j hj => ?_, fun c hc c' hc' =>
    h.inj c (mem_of_mem_erase hc) c' (mem_of_mem_erase hc'), fun j hj hr => ?_,
    forall_mem_cons.mpr ⟨hlt, h.reaped⟩, nodup_cons.mpr ⟨hnew, h.nodup⟩,
    fun c hc => h.thread c (mem_of_mem_erase hc)⟩
  · obtain ⟨hne, hcL⟩ := (hnodup.mem_erase_iff).mp hc
    obtain ⟨hj', hr⟩ := h.fresh c hcL j hj
    refine ⟨hj', fun hmem => ?_⟩
    rcases mem_cons.mp hmem with rfl | hmem
    · exact hne (h.inj c hcL p hp j hj hk)
    · exact hr hmem
  · obtain ⟨hjk, hr⟩ := not_or.mp (mt mem_cons.mpr hr)
    obtain ⟨c, hc, hs⟩ := h.present j hj hr
    refine ⟨c, (hnodup.mem_erase_iff).mpr ⟨?_, hc⟩, hs⟩
    rintro rfl
    exact hjk (Option.some.inj (hs.symm.trans hk))

/-! ## Allocation -/

theorem freeSlot_eq_some (h : freeSlot s = some p) : p ≠ 0 ∧ p ≤ procMax ∧ s.pid p = 0 := by
  have hmem := mem_range'_1.mp (mem_of_find?_eq_some h)
  have hpid := List.find?_some h
  exact ⟨by omega, by omega, of_decide_eq_true hpid⟩

theorem freePid_eq_some {k : Nat} (h : freePid s = some k) :
    1 ≤ k ∧ k < procMax ∧ s.used k = false := by
  have hmem := mem_range'_1.mp (mem_of_find?_eq_some h)
  have hlt : k < 1 + (procMax - 1) := hmem.2
  have hfree := List.find?_some h
  rw [Bool.not_eq_true'] at hfree
  refine ⟨hmem.1, ?_, hfree⟩
  omega

theorem Books.beside (h : Books s L) (hb : Beside s t p) (hp : p ∉ L)
    (hchain : Chain t.live liveRoot L) (hused : ∀ k, 1 ≤ k → k < procMax → t.used k = s.used k) :
    Books t L := by
  have hne : ∀ {q}, q ∈ L → q ≠ p := fun hq he => hp (he ▸ hq)
  refine ⟨hchain, h.nodup, h.slot, fun q hq => ?_, fun q hq r hr heq => ?_, fun k hlo hhi => ?_⟩
  · rw [hb.pid q (hne hq)]
    exact h.pid q hq
  · rw [hb.pid q (hne hq), hb.pid r (hne hr)] at heq
    exact h.inj q hq r hr heq
  · rw [hused k hlo hhi, h.used k hlo hhi]
    exact ⟨fun ⟨q, hq, hk⟩ => ⟨q, hq, (hb.pid q (hne hq)).trans hk⟩,
      fun ⟨q, hq, hk⟩ => ⟨q, hq, (hb.pid q (hne hq)).symm.trans hk⟩⟩

theorem beside_clear (s : ProcTable) (p : Nat) : Beside s (clear s p) p :=
  ⟨fun _ hq => update_of_ne hq .., fun _ hq => update_of_ne hq ..,
    fun _ hq => update_of_ne hq .., fun _ hq => update_of_ne hq ..,
    fun _ hq => update_of_ne hq .., rfl, rfl⟩

theorem beside_fill (s : ProcTable) (p pid ppid : Nat) : Beside s (fill s p pid ppid) p := by
  have hb := beside_clear s p
  exact ⟨fun q hq => (update_of_ne hq ..).trans (hb.pid q hq),
    fun q hq => (update_of_ne hq ..).trans (hb.ppid q hq), hb.zombie, hb.isThread, hb.serial,
    rfl, rfl⟩

/-- A slot off the live list has its link to itself. -/
theorem Books.live_update (h : Books s L) (hp : p ∉ L) (v : Nat) :
    Chain (update s.live (.link p) v) liveRoot L := by
  refine h.chain.update v ?_
  rintro (_ | ⟨_, hmem⟩)
  exact hp (link_mem.mp hmem)

/-- What `proc_alloc` has done: nothing to the processes that are there, and a new live process,
if any, that has no family. -/
structure Allocated (s : ProcTable) (L : List Nat) (t : ProcTable) (c : Nat) : Prop where
  slot : c ∉ L
  ne_zero : c ≠ 0
  beside : Beside s t c
  kids : t.kids = zeroed s.kids c
  serial : t.serial c = none
  thread : t.isThread c = false
  zombie : t.zombie c = false

theorem procAlloc_spec (h : Books s L) (granted : Bool) (ppid : Nat) :
    (∃ t, procAlloc granted s ppid = (t, none) ∧ Books t L ∧ (t = s ∨ ∃ c, Allocated s L t c)) ∨
      ∃ t c, procAlloc granted s ppid = (t, some c) ∧ Books t (c :: L) ∧ Allocated s L t c := by
  rw [procAlloc]
  cases hslot : freeSlot s with
  | none => exact .inl ⟨s, rfl, h, .inl rfl⟩
  | some p =>
    obtain ⟨hzero, hmax, hpid⟩ := freeSlot_eq_some hslot
    have hp : p ∉ L := by
      intro hin
      have := (h.pid p hin).1
      omega
    cases hfree : freePid s with
    | none => exact .inl ⟨s, rfl, h, .inl rfl⟩
    | some k =>
      obtain ⟨hlo, hhi, hunused⟩ := freePid_eq_some hfree
      have hbeside := beside_fill s p k ppid
      have hchain : Chain (fill s p k ppid).live liveRoot L := h.live_update hp 0
      have hself : (fill s p k ppid).pid p = k := update_self ..
      have hnew : ∀ q ∈ L, s.pid q ≠ k := by
        rintro q hq rfl
        have hon := (h.used _ hlo hhi).mpr ⟨q, hq, rfl⟩
        exact Bool.false_ne_true (hunused.symm.trans hon)
      have hmarked : ∀ j, (fill s p k ppid).used j = if j = k then true else s.used j :=
        fun j => update_apply ..
      cases granted with
      | false =>
        refine .inl ⟨_, rfl, ?_, .inr ⟨p, hp, hzero, ?_, rfl, update_self ..,
          update_self .., update_self ..⟩⟩
        · refine h.beside { hbeside with forks := rfl, reaped := rfl } hp hchain fun j _ _ => ?_
          show update s.used k false j = s.used j
          rw [update_apply]
          split
          · rename_i hj
            rw [hj, hunused]
          · rfl
        · exact { hbeside with forks := rfl, reaped := rfl }
      | true =>
        refine .inr ⟨_, p, rfl, ?_, hp, hzero, { hbeside with forks := rfl, reaped := rfl }, rfl,
          update_self .., update_self .., update_self ..⟩
        have hne : ∀ {q}, q ∈ L → q ≠ p := fun hq he => hp (he ▸ hq)
        have hold : ∀ q ∈ L, (fill s p k ppid).pid q = s.pid q := fun q hq => hbeside.pid q (hne hq)
        refine ⟨?_, nodup_cons.mpr ⟨hp, h.nodup⟩, forall_mem_cons.mpr ⟨hmax, h.slot⟩,
          forall_mem_cons.mpr ⟨?_, fun q hq => ?_⟩, fun q hq r hr heq => ?_,
          fun j hj hj' => ?_⟩
        · refine hchain.push hzero ?_ (root_notMem_links () L)
          rintro (_ | ⟨_, hmem⟩)
          exact hp (link_mem.mp hmem)
        · exact hself.symm ▸ ⟨hlo, hhi⟩
        · exact (hold q hq).symm ▸ h.pid q hq
        · replace heq : (fill s p k ppid).pid q = (fill s p k ppid).pid r := heq
          rcases mem_cons.mp hq with hqp | hqL <;> rcases mem_cons.mp hr with hrp | hrL
          · exact hqp.trans hrp.symm
          · rw [hqp, hself, hold r hrL] at heq
            exact absurd heq.symm (hnew r hrL)
          · rw [hrp, hself, hold q hqL] at heq
            exact absurd heq (hnew q hqL)
          · rw [hold q hqL, hold r hrL] at heq
            exact h.inj q hqL r hrL heq
        · show (fill s p k ppid).used j = true ↔ ∃ q ∈ p :: L, (fill s p k ppid).pid q = j
          rw [hmarked, exists_mem_cons_iff, hself]
          by_cases hjk : j = k
          · rw [if_pos hjk]
            exact iff_of_true rfl (.inl hjk.symm)
          rw [if_neg hjk, h.used j hj hj']
          constructor
          · rintro ⟨q, hq, hpq⟩
            exact .inr ⟨q, hq, (hold q hq).trans hpq⟩
          · rintro (heq | ⟨q, hq, hpq⟩)
            · exact absurd heq.symm hjk
            · exact ⟨q, hq, (hold q hq).symm.trans hpq⟩

/-! ## Release -/

/-- What the locked part of `proc_free` does. -/
theorem release_spec (h : Books s L) (hp : p ∈ L) :
    Books (release s p) (L.erase p) ∧ Beside s (release s p) p ∧ (release s p).kids = s.kids := by
  obtain ⟨l, r, rfl⟩ := append_of_mem hp
  have hnodup := h.nodup
  obtain ⟨hout, hrest⟩ := nodup_cons.mp (nodup_middle.mp hnodup)
  have hpl : p ∉ l := fun hin => hout (mem_append_left _ hin)
  have herase : (l ++ p :: r).erase p = l ++ r := by rw [erase_append_right _ hpl, erase_cons_head]
  have hlen := h.length_le
  rw [length_append, length_cons] at hlen
  have hlocate : locate s.live p procMax liveRoot = some (endLoc liveRoot l) :=
    h.chain.locate_some hpl (by omega)
  obtain ⟨hlo, hhi⟩ := h.pid p hp
  have hrelease : release s p = { s with
      pid := update s.pid p 0
      used := update s.used (s.pid p) false
      live := update s.live (endLoc liveRoot l) (s.live (.link p)) } := by
    rw [release, unlinkLive]
    rw [hlocate, if_pos ⟨hlo, hhi⟩]
  have hbeside : Beside s (release s p) p := by
    rw [hrelease]
    exact ⟨fun q hq => update_of_ne hq .., fun _ _ => rfl, fun _ _ => rfl, fun _ _ => rfl,
      fun _ _ => rfl, rfl, rfl⟩
  refine ⟨?_, hbeside, by rw [hrelease]⟩
  have hsub : ∀ {q}, q ∈ l ++ r → q ∈ l ++ p :: r ∧ q ≠ p := by
    intro q hq
    refine ⟨?_, fun he => hout (he ▸ hq)⟩
    rcases mem_append.mp hq with hq | hq
    · exact mem_append_left _ hq
    · exact mem_append_right _ (mem_cons_of_mem _ hq)
  rw [herase]
  refine ⟨?_, hrest, fun q hq => h.slot q (hsub hq).1, fun q hq => ?_, fun q hq q' hq' heq => ?_,
    fun k hk hk' => ?_⟩
  · rw [hrelease]
    exact h.chain.unlink (simple_of_nodup () hnodup)
  · rw [hbeside.pid q (hsub hq).2]
    exact h.pid q (hsub hq).1
  · rw [hbeside.pid q (hsub hq).2, hbeside.pid q' (hsub hq').2] at heq
    exact h.inj q (hsub hq).1 q' (hsub hq').1 heq
  · have hused : (release s p).used k = if k = s.pid p then false else s.used k := by
      rw [hrelease]
      exact update_apply ..
    rw [hused]
    by_cases hkp : k = s.pid p
    · rw [if_pos hkp]
      refine iff_of_false Bool.false_ne_true ?_
      rintro ⟨q, hq, hqk⟩
      rw [hbeside.pid q (hsub hq).2, hkp] at hqk
      exact (hsub hq).2 (h.inj q (hsub hq).1 p hp hqk)
    rw [if_neg hkp, h.used k hk hk']
    constructor
    · rintro ⟨q, hq, hqk⟩
      have hne : q ≠ p := by
        rintro rfl
        exact hkp hqk.symm
      have hin : q ∈ l ++ r := by
        rw [← herase]
        exact (hnodup.mem_erase_iff).mpr ⟨hne, hq⟩
      exact ⟨q, hin, (hbeside.pid q hne).trans hqk⟩
    · rintro ⟨q, hq, hqk⟩
      exact ⟨q, (hsub hq).1, (hbeside.pid q (hsub hq).2).symm.trans hqk⟩

/-- `proc_free` of a live process that is on no list of children. -/
theorem procFree_spec (h : Books s L) (hp : p ∈ L) (hf : Family s (L.erase p) K) :
    Books (procFree s p) (L.erase p) ∧ Family (procFree s p) (L.erase p) K ∧
      Beside s (procFree s p) p := by
  obtain ⟨hbooks, hbeside, hkids⟩ := release_spec h hp
  have hout : p ∉ L.erase p := fun hin => ((h.nodup.mem_erase_iff).mp hin).1 rfl
  have hclear := beside_clear (release s p) p
  have hboth : Beside s (procFree s p) p :=
    ⟨fun q hq => (hclear.pid q hq).trans (hbeside.pid q hq),
      fun q hq => (hclear.ppid q hq).trans (hbeside.ppid q hq),
      fun q hq => (hclear.zombie q hq).trans (hbeside.zombie q hq),
      fun q hq => (hclear.isThread q hq).trans (hbeside.isThread q hq),
      fun q hq => (hclear.serial q hq).trans (hbeside.serial q hq),
      hclear.forks.trans hbeside.forks, hclear.reaped.trans hbeside.reaped⟩
  exact ⟨hbooks.beside hclear hout (hbooks.live_update hout 0) fun _ _ _ => rfl,
    hf.beside hboth hout (.inr (hkids ▸ rfl)), hboth⟩

end ArcKernel.Proc
