import ArcKernel.Proc.Lists

/-!
# Runs of the process table

The table stays in order as long as a process with children exits only while another process
with pid 1 can adopt them, and a thread exits only without children.
-/

namespace ArcKernel.Proc

open ArcKernel.Foundation Function List

variable {s t : ProcTable} {L : List Nat} {K : Nat → List Nat} {p q c : Nat}

structure InOrder (s : ProcTable) (L : List Nat) (K : Nat → List Nat) : Prop where
  books : Books s L
  family : Family s L K
  serials : Serials s L

/-! ## Creation -/

theorem InOrder.alloc (h : InOrder s L K) (granted : Bool) (ppid : Nat) :
    (∃ t, procAlloc granted s ppid = (t, none) ∧ InOrder t L K) ∨
      ∃ t c, procAlloc granted s ppid = (t, some c) ∧ InOrder t (c :: L) K ∧ Family t L K ∧
        Serials t L ∧ Allocated s L t c := by
  have hkept : ∀ {t c}, Allocated s L t c → Family t L K ∧ Serials t L := fun ha =>
    ⟨h.family.beside ha.beside ha.slot (.inr ha.kids), h.serials.beside ha.beside ha.slot⟩
  rcases procAlloc_spec h.books granted ppid with
    ⟨t, heq, hbooks, rfl | ⟨c, ha⟩⟩ | ⟨t, c, heq, hbooks, ha⟩
  · exact .inl ⟨t, heq, h⟩
  · obtain ⟨hf, hs⟩ := hkept ha
    exact .inl ⟨t, heq, hbooks, hf, hs⟩
  · obtain ⟨hf, hs⟩ := hkept ha
    exact .inr ⟨t, c, heq, ⟨hbooks, hf.cons ha.serial, hs.cons ha.serial⟩, hf, hs, ha⟩

/-- The new process is released again. -/
theorem InOrder.undo (hbooks : Books t (c :: L)) (hf : Family t L K) (hs : Serials t L)
    (hc : c ∉ L) : InOrder (procFree t c) L K := by
  have herase : (c :: L).erase c = L := erase_cons_head ..
  obtain ⟨hb, hf', hbeside⟩ := procFree_spec hbooks mem_cons_self (herase.symm ▸ hf)
  rw [herase] at hb hf'
  exact ⟨hb, hf', hs.beside hbeside hc⟩

/-- The new process becomes a child. -/
theorem InOrder.adopt (h : InOrder t (c :: L) K) (hp : p ∈ L) (hz : t.zombie p = false)
    (hc : t.serial c = none) (hcL : c ∉ L) (hthread : t.isThread c = false) :
    InOrder (adopt t p c) (c :: L) (update K p (c :: K p)) := by
  have hnone : ∀ q, c ∉ K q := fun q => h.family.notMem_of_serial hc q
  have hpid : (Proc.adopt t p c).pid = t.pid := rfl
  have hppid : ∀ a, a ≠ c → (Proc.adopt t p c).ppid a = t.ppid a := fun a ha => update_of_ne ha ..
  have hserial : ∀ a, a ≠ c → (Proc.adopt t p c).serial a = t.serial a :=
    fun a ha => update_of_ne ha ..
  have hself : (Proc.adopt t p c).serial c = some t.forks := update_self ..
  have hcases : ∀ {q a}, a ∈ update K p (c :: K p) q → (q = p ∧ a = c) ∨ (a ∈ K q ∧ a ≠ c) := by
    intro q a ha
    rcases eq_or_ne q p with rfl | hq
    · rw [update_self] at ha
      rcases mem_cons.mp ha with rfl | ha
      · exact .inl ⟨rfl, rfl⟩
      · exact .inr ⟨ha, fun he => hnone q (he ▸ ha)⟩
    · rw [update_of_ne hq] at ha
      exact .inr ⟨ha, fun he => hnone q (he ▸ ha)⟩
  refine ⟨{ h.books with },
    ⟨h.family.chains.push (h.books.ne_zero mem_cons_self) hnone p, fun q a ha => ?_,
      fun q a ha => ?_, fun a ha hs => ?_⟩,
    ⟨fun a ha k hk => ?_, fun a ha a' ha' k hk hk' => ?_, fun k hk hr => ?_, fun k hk => ?_,
      h.serials.nodup, fun a ha ht => ?_⟩⟩
  · rcases hcases ha with ⟨rfl, rfl⟩ | ⟨ha, hne⟩
    · exact ⟨mem_cons_of_mem _ hp, hz, update_self ..⟩
    · obtain ⟨hq, hz', hpp⟩ := h.family.parent q a ha
      exact ⟨hq, hz', (hppid a hne).trans hpp⟩
  · rcases hcases ha with ⟨rfl, rfl⟩ | ⟨ha, hne⟩
    · exact ⟨mem_cons_self, by rw [hself]; nofun⟩
    · obtain ⟨haL, hs⟩ := h.family.child q a ha
      exact ⟨haL, by rwa [hserial a hne]⟩
  · rcases eq_or_ne a c with rfl | hne
    · exact ⟨p, by rw [update_self]; exact mem_cons_self⟩
    · rw [hserial a hne] at hs
      obtain ⟨q, hq⟩ := h.family.linked a ha hs
      refine ⟨q, ?_⟩
      rcases eq_or_ne q p with rfl | hqp
      · rw [update_self]
        exact mem_cons_of_mem _ hq
      · rwa [update_of_ne hqp]
  · show k < t.forks + 1 ∧ k ∉ t.reaped
    rcases eq_or_ne a c with rfl | hne
    · cases hself.symm.trans hk
      exact ⟨Nat.lt_succ_self _, fun hr => Nat.lt_irrefl _ (h.serials.reaped _ hr)⟩
    · obtain ⟨hlt, hr⟩ := h.serials.fresh a ha k (hserial a hne ▸ hk)
      exact ⟨Nat.lt_succ_of_lt hlt, hr⟩
  · have hnew : ∀ {b}, b ∈ c :: L → (Proc.adopt t p c).serial b = some t.forks → b = c := by
      intro b hb hbk
      by_contra hne
      rw [hserial b hne] at hbk
      exact Nat.lt_irrefl _ (h.serials.fresh b hb _ hbk).1
    rcases eq_or_ne a c with rfl | hne
    · cases hself.symm.trans hk
      exact (hnew ha' hk').symm
    · rcases eq_or_ne a' c with rfl | hne'
      · cases hself.symm.trans hk'
        exact hnew ha hk
      · exact h.serials.inj a ha a' ha' k (hserial a hne ▸ hk) (hserial a' hne' ▸ hk')
  · rcases Nat.lt_succ_iff_lt_or_eq.mp hk with hlt | rfl
    · obtain ⟨a, ha, hs⟩ := h.serials.present k hlt hr
      refine ⟨a, ha, ?_⟩
      rw [hserial a, hs]
      rintro rfl
      cases hc.symm.trans hs
    · exact ⟨c, mem_cons_self, hself⟩
  · exact Nat.lt_succ_of_lt (h.serials.reaped k hk)
  · rcases eq_or_ne a c with rfl | hne
    · exact absurd (hthread.symm.trans ht) Bool.false_ne_true
    · rw [hserial a hne]
      exact h.serials.thread a ha ht

theorem InOrder.fork (h : InOrder s L K) (hp : p ∈ L) (hz : s.zombie p = false)
    (granted ok : Bool) : ∃ L' K', InOrder (procFork s p granted ok) L' K' := by
  rw [procFork]
  rcases h.alloc granted (s.pid p) with ⟨t, heq, ht⟩ | ⟨t, c, heq, ht, hf, hs, ha⟩
  · rw [heq]
    exact ⟨L, K, ht⟩
  rw [heq]
  have hpc : p ≠ c := fun he => ha.slot (he ▸ hp)
  cases ok with
  | true =>
    exact ⟨_, _, ht.adopt hp ((ha.beside.zombie p hpc).trans hz) ha.serial ha.slot ha.thread⟩
  | false => exact ⟨L, K, InOrder.undo ht.books hf hs ha.slot⟩

/-- The fields a clone fills in are its own. -/
theorem InOrder.fields (h : InOrder t (c :: L) K) (hc : t.serial c = none) (ppid pgrp : Nat)
    (thread : Bool) : InOrder { t with
      ppid := update t.ppid c ppid
      pgrp := update t.pgrp c pgrp
      isThread := update t.isThread c thread } (c :: L) K := by
  refine ⟨{ h.books with }, { h.family with parent := fun q a ha => ?_ },
    { h.serials with thread := fun a ha ht => ?_ }⟩
  · obtain ⟨hq, hz, hpp⟩ := h.family.parent q a ha
    refine ⟨hq, hz, (update_of_ne ?_ ..).trans hpp⟩
    rintro rfl
    exact h.family.notMem_of_serial hc q ha
  · rcases eq_or_ne a c with rfl | hne
    · exact hc
    · exact h.serials.thread a ha ((update_of_ne hne ..).symm.trans ht)

theorem InOrder.clone (h : InOrder s L K) (granted ok thread : Bool) :
    ∃ L' K', InOrder (procClone s p granted ok thread) L' K' := by
  rw [procClone]
  rcases h.alloc granted (s.pid p) with ⟨t, heq, ht⟩ | ⟨t, c, heq, ht, hf, hs, ha⟩
  · rw [heq]
    exact ⟨L, K, ht⟩
  · rw [heq]
    cases ok with
    | true => exact ⟨_, _, ht.fields ha.serial _ _ _⟩
    | false => exact ⟨L, K, InOrder.undo ht.books hf hs ha.slot⟩

/-! ## The end of a process -/

theorem procFind_eq_some (h : Books s L) (hp : p ∈ L) : procFind s (s.pid p) = some p := by
  obtain ⟨hlo, hhi⟩ := h.pid p hp
  rw [procFind, if_neg (by omega), h.liveList_eq]
  cases hfind : L.find? fun q => s.pid q = s.pid p with
  | none =>
    have := List.find?_eq_none.mp hfind p hp
    exact absurd (decide_eq_true rfl) this
  | some q =>
    have hq := List.find?_some hfind
    exact congrArg some (h.inj q (mem_of_find?_eq_some hfind) p hp (of_decide_eq_true hq))

theorem InOrder.zombie (h : InOrder s L K) (hempty : K p = []) :
    InOrder { s with zombie := update s.zombie p true } L K := by
  refine ⟨{ h.books with }, { h.family with parent := fun q a ha => ?_ }, { h.serials with }⟩
  obtain ⟨hq, hz, hpp⟩ := h.family.parent q a ha
  refine ⟨hq, (update_of_ne ?_ ..).trans hz, hpp⟩
  rintro rfl
  rw [hempty] at ha
  cases ha

/-- The children of `p` go to the process with pid 1. -/
theorem InOrder.reparent {i : Nat} (h : InOrder s L K) (hi : i ∈ L) (hone : s.pid i = 1)
    (hip : i ≠ p) (hz : s.zombie i = false) :
    ∃ K', InOrder (reparentChildren s p) L K' ∧ K' p = [] := by
  have hkids := h.family.children_eq h.books p
  rw [reparentChildren, hkids]
  cases hlast : (K p).getLast? with
  | none => exact ⟨K, h, List.getLast?_eq_none_iff.mp hlast⟩
  | some last =>
    obtain ⟨l, hsplit⟩ := List.getLast?_eq_some_iff.mp hlast
    have hfind : procFind s 1 = some i := hone ▸ procFind_eq_some h.books hi
    refine ⟨update (update K i (K p ++ K i)) p [], ?_, update_self ..⟩
    have hchains := h.family.chains.splice (Ne.symm hip) hsplit
    have hcases : ∀ {q a}, a ∈ update (update K i (K p ++ K i)) p [] q →
        q ≠ p ∧ ((q = i ∧ a ∈ K p) ∨ a ∈ K q) := by
      intro q a ha
      rcases eq_or_ne q p with rfl | hq
      · rw [update_self] at ha
        cases ha
      rw [update_of_ne hq] at ha
      refine ⟨hq, ?_⟩
      rcases eq_or_ne q i with rfl | hqi
      · rw [update_self] at ha
        exact (mem_append.mp ha).imp_left fun ha => ⟨rfl, ha⟩
      · rw [update_of_ne hqi] at ha
        exact .inr ha
    rw [hfind]
    refine ⟨{ h.books with }, ⟨?_, fun q a ha => ?_, fun q a ha => ?_, fun a ha hs => ?_⟩,
      { h.serials with }⟩
    · have hroot : update s.kids (.link last) (s.kids (.root i)) (.root p) = s.kids (.root p) :=
        update_of_ne (show (Loc.root p : Loc Nat) ≠ .link last from nofun) ..
      show Chains (spliceKids s.kids p i last) _
      exact hchains
    · obtain ⟨hqp, ⟨rfl, hap⟩ | haq⟩ := hcases ha
      · exact ⟨hi, hz, (if_pos hap).trans hone.symm⟩
      · obtain ⟨hq, hzq, hpp⟩ := h.family.parent q a haq
        refine ⟨hq, hzq, (if_neg fun hap => ?_).trans hpp⟩
        exact hqp (h.family.chains.unique _ _ _ haq hap)
    · obtain ⟨-, ⟨-, hap⟩ | haq⟩ := hcases ha
      · exact h.family.child p a hap
      · exact h.family.child q a haq
    · obtain ⟨q, hq⟩ := h.family.linked a ha hs
      rcases eq_or_ne q p with rfl | hqp
      · refine ⟨i, ?_⟩
        rw [update_of_ne hip, update_self]
        exact mem_append_left _ hq
      refine ⟨q, ?_⟩
      rw [update_of_ne hqp]
      rcases eq_or_ne q i with rfl | hqi
      · rw [update_self]
        exact mem_append_right _ hq
      · rwa [update_of_ne hqi]

theorem InOrder.threadExit (h : InOrder s L K) (hp : p ∈ L) (hempty : K p = [])
    (hthread : s.isThread p = true) : InOrder (procThreadExit s p) (L.erase p) K := by
  have hserial := h.serials.thread p hp hthread
  obtain ⟨hbooks, hbeside, hkids⟩ := release_spec h.books hp
  have hout : p ∉ L.erase p := fun hin => ((h.books.nodup.mem_erase_iff).mp hin).1 rfl
  have hfamily := h.family.erase h.books.nodup hempty fun q => h.family.notMem_of_serial hserial q
  exact ⟨hbooks, hfamily.beside hbeside hout (.inl hkids),
    (h.serials.erase h.books.nodup hserial).beside hbeside hout⟩

/-! ## Reaping -/

theorem InOrder.reap {z : Nat} (h : InOrder s L K) (hz : z ∈ K p) (hzombie : s.zombie z = true) :
    ∃ K', InOrder { procFree (childrenUnlink s p z) z with
      reaped := (s.serial z).toList ++ s.reaped } (L.erase z) K' := by
  obtain ⟨hzL, hforked⟩ := h.family.child p z hz
  obtain ⟨k, hk⟩ := Option.ne_none_iff_exists'.mp hforked
  obtain ⟨l, r, hsplit⟩ := append_of_mem hz
  have hnodup := h.family.chains.nodup p
  rw [hsplit] at hnodup
  obtain ⟨hout, -⟩ := nodup_cons.mp (nodup_middle.mp hnodup)
  have hzl : z ∉ l := fun hin => hout (mem_append_left _ hin)
  have hlen := h.family.length_le h.books p
  rw [hsplit, length_append, length_cons] at hlen
  have hlocate : locate s.kids z procMax (.root p) = some (endLoc (.root p) l) := by
    have hchain := h.family.chains.chain p
    rw [hsplit] at hchain
    exact hchain.locate_some hzl (by omega)
  have hunlink : childrenUnlink s p z = { s with
      kids := update (update s.kids (endLoc (.root p) l) (s.kids (.link z))) (.link z) 0 } := by
    rw [childrenUnlink, hlocate]
  have hcases : ∀ {q a}, a ∈ update K p (l ++ r) q → a ∈ K q ∧ a ≠ z := by
    intro q a ha
    rcases eq_or_ne q p with rfl | hq
    · rw [update_self] at ha
      refine ⟨?_, fun he => hout (he ▸ ha)⟩
      rw [hsplit]
      rcases mem_append.mp ha with ha | ha
      · exact mem_append_left _ ha
      · exact mem_append_right _ (mem_cons_of_mem _ ha)
    · rw [update_of_ne hq] at ha
      exact ⟨ha, fun he => hq (h.family.chains.unique _ _ _ (he ▸ ha) hz)⟩
  have hbooks : Books (childrenUnlink s p z) L := by
    rw [hunlink]
    exact { h.books with }
  have hfamily : Family (childrenUnlink s p z) (L.erase z) (update K p (l ++ r)) := by
    rw [hunlink]
    refine ⟨(h.family.chains.unlink hsplit).update_link (fun q hin => (hcases hin).2 rfl) 0,
      fun q a ha => ?_, fun q a ha => ?_, fun a ha hs => ?_⟩
    · obtain ⟨ha, -⟩ := hcases ha
      obtain ⟨hq, hzq, hpp⟩ := h.family.parent q a ha
      refine ⟨(h.books.nodup.mem_erase_iff).mpr ⟨?_, hq⟩, hzq, hpp⟩
      rintro rfl
      exact Bool.false_ne_true (hzq.symm.trans hzombie)
    · obtain ⟨ha, hne⟩ := hcases ha
      obtain ⟨haL, hs⟩ := h.family.child q a ha
      exact ⟨(h.books.nodup.mem_erase_iff).mpr ⟨hne, haL⟩, hs⟩
    obtain ⟨hne, haL⟩ := (h.books.nodup.mem_erase_iff).mp ha
    obtain ⟨q, hq⟩ := h.family.linked a haL hs
    refine ⟨q, ?_⟩
    rcases eq_or_ne q p with rfl | hqp
    · rw [update_self]
      rw [hsplit] at hq
      rcases mem_append.mp hq with hq | hq
      · exact mem_append_left _ hq
      · exact mem_append_right _ ((mem_cons.mp hq).resolve_left hne)
    · rwa [update_of_ne hqp]
  obtain ⟨hb, hf, hbeside⟩ := procFree_spec hbooks hzL hfamily
  have hserials := h.serials.reap h.books.nodup hzL hk
  have hunlinked : Beside s (childrenUnlink s p z) z := by
    rw [hunlink]
    exact ⟨fun _ _ => rfl, fun _ _ => rfl, fun _ _ => rfl, fun _ _ => rfl, fun _ _ => rfl, rfl, rfl⟩
  have hsteps : Beside { s with reaped := k :: s.reaped }
      { procFree (childrenUnlink s p z) z with reaped := k :: s.reaped } z :=
    ⟨fun q hq => (hbeside.pid q hq).trans (hunlinked.pid q hq),
      fun q hq => (hbeside.ppid q hq).trans (hunlinked.ppid q hq),
      fun q hq => (hbeside.zombie q hq).trans (hunlinked.zombie q hq),
      fun q hq => (hbeside.isThread q hq).trans (hunlinked.isThread q hq),
      fun q hq => (hbeside.serial q hq).trans (hunlinked.serial q hq),
      hbeside.forks.trans hunlinked.forks, rfl⟩
  have hgone : z ∉ L.erase z := fun hin => ((h.books.nodup.mem_erase_iff).mp hin).1 rfl
  refine ⟨update K p (l ++ r), ?_⟩
  rw [hk]
  exact ⟨{ hb with }, { hf with }, hserials.beside hsteps hgone⟩

/-! ## Steps -/

/-- A process with children exits only while another process that is no zombie has pid 1, and a
thread that leaves the table has no children. -/
def orderly (s : ProcTable) : Call → Bool
  | .exit p =>
      (children s p).isEmpty || (liveList s).any fun i => s.pid i = 1 && i != p && !s.zombie i
  | .threadExit p => (children s p).isEmpty
  | _ => true

theorem inOrder_step (l : Call) (h : ∃ L K, InOrder s L K) (hok : orderly s l = true)
    (hstep : procStep s l = some t) : ∃ L K, InOrder t L K := by
  obtain ⟨L, K, h⟩ := h
  have hrunning : ∀ {p}, Running s p → p ∈ L ∧ s.zombie p = false :=
    fun hr => ⟨h.books.liveList_eq ▸ hr.1, hr.2⟩
  cases l with
  | boot granted =>
    cases hstep
    rcases h.alloc granted 0 with ⟨t, heq, ht⟩ | ⟨t, c, heq, ht, -⟩
    · exact ⟨L, K, by rw [heq]; exact ht⟩
    · exact ⟨c :: L, K, by rw [heq]; exact ht⟩
  | fork p granted ok =>
    obtain ⟨hr, rfl⟩ := of_guard hstep
    exact h.fork (hrunning hr).1 (hrunning hr).2 granted ok
  | clone p granted ok thread =>
    obtain ⟨-, rfl⟩ := of_guard hstep
    exact h.clone granted ok thread
  | exit p =>
    obtain ⟨-, rfl⟩ := of_guard hstep
    rw [procExit]
    rw [orderly, h.family.children_eq h.books, h.books.liveList_eq, Bool.or_eq_true,
      List.isEmpty_iff, List.any_eq_true] at hok
    rcases hok with hempty | ⟨i, hi, hinit⟩
    · have hsame : reparentChildren s p = s := by
        rw [reparentChildren, h.family.children_eq h.books, hempty]
        rfl
      rw [hsame]
      exact ⟨L, K, h.zombie hempty⟩
    · simp only [Bool.and_eq_true, decide_eq_true_eq, bne_iff_ne, Bool.not_eq_true'] at hinit
      obtain ⟨⟨hone, hip⟩, hz⟩ := hinit
      obtain ⟨K', hK', hempty⟩ := h.reparent hi hone hip hz
      exact ⟨L, K', hK'.zombie hempty⟩
  | threadExit p =>
    obtain ⟨hr, rfl⟩ := of_guard hstep
    rw [orderly, h.family.children_eq h.books, List.isEmpty_iff] at hok
    exact ⟨_, K, h.threadExit (hrunning hr.1).1 hok hr.2⟩
  | waitpid p which =>
    obtain ⟨-, rfl⟩ := of_guard hstep
    rw [procWaitpid, h.family.children_eq h.books]
    split
    · rename_i z hfind
      have hz := List.find?_some hfind
      rw [Bool.and_eq_true] at hz
      obtain ⟨K', hK'⟩ := h.reap (mem_of_find?_eq_some hfind) hz.2
      exact ⟨_, K', hK'⟩
    · exact ⟨L, K, h⟩
  | setpgid p pgrp =>
    cases hstep
    exact ⟨L, K, { h.books with }, { h.family with }, { h.serials with }⟩

theorem inOrder_init : InOrder procInit [] fun _ => [] := by
  have hnone : ∀ {P : Nat → Prop}, ∀ p ∈ ([] : List Nat), P p := fun p hp => absurd hp not_mem_nil
  refine ⟨⟨rfl, nodup_nil, hnone, hnone, hnone, fun k hk _ => ?_⟩,
    ⟨⟨fun _ => rfl, fun _ => nodup_nil, fun _ _ c hc => absurd hc not_mem_nil⟩,
      fun _ => hnone, fun _ => hnone, hnone⟩,
    ⟨hnone, hnone, fun k hk => absurd hk (Nat.not_lt_zero k), hnone, nodup_nil, hnone⟩⟩
  refine iff_of_false (fun hused => ?_) fun ⟨p, hp, _⟩ => not_mem_nil hp
  exact Nat.ne_of_gt hk (of_decide_eq_true hused)

/-! ## What holds throughout -/

/-- The pids in use are those of the live list, one entry each; a forked process that was not
reaped is live, once on the list of children of exactly one live process that is no zombie and
whose pid is its parent's; no process is reaped twice. -/
structure TableExact (s : ProcTable) : Prop where
  pids : ∀ k, 1 ≤ k → k < procMax → (s.used k = true ↔ ∃! p, p ∈ liveList s ∧ s.pid p = k)
  family : ∀ k, k < s.forks → k ∉ s.reaped →
    ∃ c ∈ liveList s, s.serial c = some k ∧ ∃ q ∈ liveList s, s.zombie q = false ∧
      (children s q).count c = 1 ∧ s.ppid c = s.pid q ∧
      ∀ q' ∈ liveList s, c ∈ children s q' → q' = q
  once : s.reaped.Nodup

theorem InOrder.tableExact (h : InOrder s L K) : TableExact s := by
  have hlive := h.books.liveList_eq
  have hkids := h.family.children_eq h.books
  refine ⟨fun k hlo hhi => ?_, fun k hk hr => ?_, h.serials.nodup⟩
  · rw [h.books.used k hlo hhi, hlive]
    constructor
    · rintro ⟨p, hp, hpk⟩
      exact ⟨p, ⟨hp, hpk⟩, fun q hq => h.books.inj q hq.1 p hp (hq.2.trans hpk.symm)⟩
    · rintro ⟨p, hp, -⟩
      exact ⟨p, hp⟩
  obtain ⟨c, hc, hs⟩ := h.serials.present k hk hr
  obtain ⟨q, hq⟩ := h.family.linked c hc (by rw [hs]; nofun)
  obtain ⟨hqL, hz, hpp⟩ := h.family.parent q c hq
  rw [hlive]
  refine ⟨c, hc, hs, q, hqL, hz, ?_, hpp, fun q' _ hq' => ?_⟩
  · rw [hkids]
    exact count_eq_one_of_mem (h.family.chains.nodup q) hq
  · rw [hkids] at hq'
    exact h.family.chains.unique _ _ _ hq' hq

/-- **The process table.**  In every run of boot, fork, clone, exit, thread exit and `waitpid` in
which the exits are orderly, whatever allocations fail, the table is exact. -/
theorem process_table_exact (calls : List Call) (s : ProcTable)
    (meets : AllSteps procStep (fun s l => orderly s l = true) procInit calls)
    (run : exec procStep procInit calls = some s) : TableExact s := by
  obtain ⟨L, K, h⟩ : ∃ L K, InOrder s L K :=
    exec_invariant (fun _ l _ h hok hstep => inOrder_step l h hok hstep)
      ⟨[], _, inOrder_init⟩ meets run
  exact h.tableExact

/-- A child's child is adopted, a fork fails, and both are reaped. -/
def adoptionRun : List Call :=
  [.boot true, .fork 1 true true, .fork 2 true true, .fork 1 true false, .exit 2, .waitpid 1 (-1),
    .fork 1 false true]

theorem process_table_exact_adoption :
    ∃ s, exec procStep procInit adoptionRun = some s ∧ s.forks = 2 ∧ s.reaped = [0] ∧
      TableExact s := by
  refine exists_run (A := fun s => s.forks = 2 ∧ s.reaped = [0]) (by decide +kernel) ?_
  rintro s hrun ⟨hforks, hreaped⟩
  exact ⟨hforks, hreaped, process_table_exact _ s (by decide +kernel) hrun⟩

/-- A thread forks and exits: its child, not reaped, is on no live process's list, and its parent's
pid is in use no more.  And the first process exits: its child is on nobody's list. -/
theorem thread_exit_loses_children :
    (exec procStep procInit [.boot true, .clone 1 true true true, .fork 2 true true,
        .threadExit 2]).map
      (fun s => (s.serial 3, (liveList s).map fun q => (q, children s q), s.used (s.ppid 3))) =
        some (some 0, [(3, []), (1, [])], false) ∧
    (exec procStep procInit [.boot true, .fork 1 true true, .exit 1]).map
      (fun s => (s.serial 2, (liveList s).map fun q => (q, children s q))) =
        some (some 0, [(2, []), (1, [])]) := by
  decide +kernel

end ArcKernel.Proc
