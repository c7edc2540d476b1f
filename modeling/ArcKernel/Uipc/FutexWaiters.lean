import ArcKernel.Uipc.FutexQueues

/-!
# Waiters and wakers

The third part of the invariant says where the processes inside `futex_wait` are.  This
module has what a process does to its own place, and what the loops of `futex_wake` and
`futex_requeue` do to the lists, the books and the places of the waiters they take off.
-/

namespace ArcKernel.Uipc

open ArcKernel.Foundation Function List Option FutexState

variable {l rest : List Nat} {a w p : Nat} {L : Nat → List Nat} {procs : Finset Nat}
    {s u : FutexState}

/-- Where the processes are, with `L q` linked to queue `q`. -/
structure Phases (procs : Finset Nat) (s : FutexState) (L : Nat → List Nat) : Prop where
  active : ∀ p, s.phase p ≠ .idle → p ∈ procs
  idle : ∀ p, s.phase p = .idle → s.futexQ p = none
  bounded : ∀ p q f, s.phase p = .sleeping q f → f = false
  parked : ∀ p a, s.parked p = some a → s.asleep p = true ∧ (∃ q f, s.phase p = .sleeping q f) ∧
    ∃ q, p ∈ L q ∧ (s.queues q).uaddr = a
  found : ∀ p q x, s.phase p = .walking q (some x) →
    ∃ a b, L q = a ++ p :: b ∧ x = endLoc (.root q) a
  missed : ∀ p q, s.phase p = .walking q none → p ∉ L q
  lock : ∀ p r q, (s.phase p).walked = some q → (s.phase r).walked = some q → p = r

def FutexInv (procs : Finset Nat) (s : FutexState) : Prop :=
  ∃ L, Lists s L ∧ Books procs s ∧ Phases procs s L

/-- A process that walks a queue is not parked. -/
theorem Phases.not_parked
    (h : Phases procs s L) (hp : ∀ q f, s.phase p ≠ .sleeping q f) : s.parked p = none := by
  by_contra hparked
  obtain ⟨a, ha⟩ := ne_none_iff_exists'.mp hparked
  obtain ⟨-, ⟨q, f, hsleep⟩, -⟩ := h.parked p a ha
  exact hp q f hsleep

/-- A step of one process: the others keep their places, and no list changes under a process
that has found its link in it. -/
theorem Phases.step {t : FutexState} {L' : Nat → List Nat} {ph : Phase} (p : Nat)
    (h : Phases procs s L) (hp : p ∈ procs) (hself : t.phase p = ph)
    (hphase : ∀ r, r ≠ p → t.phase r = s.phase r) (hparked : ∀ r, r ≠ p → t.parked r = s.parked r)
    (hasleep : ∀ r, r ≠ p → t.asleep r = s.asleep r)
    (hfutexQ : ∀ r, r ≠ p → t.futexQ r = s.futexQ r)
    (huaddr : ∀ q r, r ∈ L q → (t.queues q).uaddr = (s.queues q).uaddr)
    (hL : ∀ q r, r ≠ p → (r ∈ L' q ↔ r ∈ L q))
    (hwalked : ∀ q r x, r ≠ p → s.phase r = .walking q (some x) → L' q = L q)
    (hidle : ph = .idle → t.futexQ p = none) (hbounded : ∀ q f, ph = .sleeping q f → f = false)
    (hpark : ∀ a, t.parked p = some a → t.asleep p = true ∧ (∃ q f, ph = .sleeping q f) ∧
      ∃ q, p ∈ L' q ∧ (t.queues q).uaddr = a)
    (hfound : ∀ q x, ph = .walking q (some x) → ∃ a b, L' q = a ++ p :: b ∧ x = endLoc (.root q) a)
    (hmissed : ∀ q, ph = .walking q none → p ∉ L' q)
    (hlock : ∀ q, ph.walked = some q → ∀ r, r ≠ p → (s.phase r).walked ≠ some q) :
    Phases procs t L' := by
  subst hself
  refine ⟨fun r hr => ?_, fun r hr => ?_, fun r q f hr => ?_, fun r a hr => ?_, fun r q x hr => ?_,
    fun r q hr => ?_, fun r k q hr hk => ?_⟩
  · rcases eq_or_ne r p with rfl | hne
    · exact hp
    · exact h.active r (hphase r hne ▸ hr)
  · rcases eq_or_ne r p with rfl | hne
    · exact hidle hr
    · exact (hfutexQ r hne).trans (h.idle r (hphase r hne ▸ hr))
  · rcases eq_or_ne r p with rfl | hne
    · exact hbounded q f hr
    · exact h.bounded r q f (hphase r hne ▸ hr)
  · rcases eq_or_ne r p with rfl | hne
    · exact hpark a hr
    · obtain ⟨hsleep, hplace, q, hq, haddr⟩ := h.parked r a (hparked r hne ▸ hr)
      exact ⟨(hasleep r hne).trans hsleep, hphase r hne ▸ hplace, q, (hL q r hne).mpr hq,
        (huaddr q r hq).trans haddr⟩
  · rcases eq_or_ne r p with rfl | hne
    · exact hfound q x hr
    · rw [hphase r hne] at hr
      rw [hwalked q r x hne hr]
      exact h.found r q x hr
  · rcases eq_or_ne r p with rfl | hne
    · exact hmissed q hr
    · rw [hphase r hne] at hr
      exact fun hmem => h.missed r q hr ((hL q r hne).mp hmem)
  · rcases eq_or_ne r p with rfl | hr'
    · rcases eq_or_ne k r with rfl | hk'
      · rfl
      · exact absurd (hphase k hk' ▸ hk) (hlock q hr k hk')
    · rcases eq_or_ne k p with rfl | hk'
      · exact absurd (hphase r hr' ▸ hr) (hlock q hk r hr')
      · exact h.lock r k q (hphase r hr' ▸ hr) (hphase k hk' ▸ hk)

/-- Nobody moves on: who walks a queue finds its list as it was, and who is parked has been. -/
theorem Phases.relist {t : FutexState} {L' : Nat → List Nat} (h : Phases procs s L)
    (hphase : t.phase = s.phase) (hfutexQ : ∀ p, s.futexQ p = none → t.futexQ p = none)
    (hparked : ∀ p a, t.parked p = some a → ∃ b, s.parked p = some b ∧ t.asleep p = s.asleep p ∧
      ∃ q, p ∈ L' q ∧ (t.queues q).uaddr = a)
    (hfound : ∀ p q x, s.phase p = .walking q (some x) → p ∈ L q → L' q = L q)
    (hmissed : ∀ p q, s.phase p = .walking q none → p ∈ L' q → p ∈ L q) : Phases procs t L' := by
  refine ⟨hphase ▸ h.active, fun p hp => hfutexQ p (h.idle p (hphase ▸ hp)), hphase ▸ h.bounded,
    fun p a hp => ?_, fun p q x hp => ?_, fun p q hp hmem => ?_, hphase ▸ h.lock⟩
  · obtain ⟨b, hb, hasleep, hlinked⟩ := hparked p a hp
    obtain ⟨hsleeps, hplace, -⟩ := h.parked p b hb
    exact ⟨hasleep.trans hsleeps, hphase ▸ hplace, hlinked⟩
  · rw [hphase] at hp
    obtain ⟨a, b, hab, hx⟩ := h.found p q x hp
    rw [hfound p q x hp (hab ▸ mem_append_right _ mem_cons_self)]
    exact ⟨a, b, hab, hx⟩
  · rw [hphase] at hp
    exact h.missed p q hp (hmissed p q hp hmem)

/-- The processes linked to a queue. -/
def linked (procs : Finset Nat) (s : FutexState) (q : Nat) : List Nat :=
  cells s.ptr procs.card (.root q)

section

variable {t : FutexState} {q r : Nat}

theorem Lists.length_le (h : Lists s L) (hb : Books procs s) (q : Nat) :
    (L q).length ≤ procs.card := by
  rw [← toFinset_card_of_nodup (h.nodup q)]
  refine Finset.card_le_card fun p hp => ?_
  exact hb.member p q (h.owner q p (mem_toFinset.mp hp))

theorem Lists.linked_eq (h : Lists s L) (hb : Books procs s) (q : Nat) :
    linked procs s q = L q := (h.chain q).cells_eq (h.length_le hb q)

theorem Lists.head_eq (h : Lists s L) (q : Nat) : s.ptr (.root q) = (L q).headD 0 := by
  have hchain := h.chain q
  cases hL : L q with
  | nil => exact (hL ▸ hchain : Chain s.ptr (.root q) [])
  | cons w l => exact (hL ▸ hchain : Chain s.ptr (.root q) (w :: l)).1

/-- The first waiter of a queue. -/
theorem Lists.head_cons (h : Lists s L) (hL : L q = w :: l) : s.ptr (.root q) = w ∧ w ≠ 0 :=
  ⟨(h.head_eq q).trans (by rw [hL]; rfl), (h.chain q).ne_zero w (hL ▸ mem_cons_self)⟩

/-! ## Waking -/

/-- The processes `W` have been taken off a queue and made runnable. -/
structure Woken (s t : FutexState) (W : List Nat) : Prop where
  phase : t.phase = s.phase
  buckets : t.buckets = s.buckets
  made : t.made = s.made
  uaddr : ∀ q, (t.queues q).uaddr = (s.queues q).uaddr
  asleep : ∀ p, t.asleep p = if p ∈ W then false else s.asleep p
  stage : ∀ p, t.stage p = if p ∈ W then (s.stage p).unblock else s.stage p
  parked : ∀ p, t.parked p = if p ∈ W then none else s.parked p

theorem Woken.nobody (s : FutexState) : Woken s s [] :=
  ⟨rfl, rfl, rfl, fun _ => rfl, fun _ => rfl, fun _ => rfl, fun _ => rfl⟩

@[simp] theorem SleepStage.unblock_unblock (st : SleepStage) :
    st.unblock.unblock = st.unblock := by
  cases st <;> rfl

theorem Woken.trans {W V : List Nat} (h : Woken s t W) (h' : Woken t u V) : Woken s u (W ++ V) := by
  refine ⟨h'.phase.trans h.phase, h'.buckets.trans h.buckets, h'.made.trans h.made,
    fun q => (h'.uaddr q).trans (h.uaddr q), fun p => ?_, fun p => ?_, fun p => ?_⟩
  · rw [h'.asleep, h.asleep]
    by_cases hV : p ∈ V <;> by_cases hW : p ∈ W <;> simp [hV, hW]
  · rw [h'.stage, h.stage]
    by_cases hV : p ∈ V <;> by_cases hW : p ∈ W <;> simp [hV, hW]
  · rw [h'.parked, h.parked]
    by_cases hV : p ∈ V <;> by_cases hW : p ∈ W <;> simp [hV, hW]

theorem popWake_eq (hw : s.ptr (.root q) = w) : popWake s q = { s with
    ptr := update (update s.ptr (.root q) (s.ptr (.link w))) (.link w) 0
    asleep := update s.asleep w false
    stage := update s.stage w (s.stage w).unblock
    parked := update s.parked w none } := by
  rw [popWake, hw]
  rfl

theorem popWake_woken (hw : s.ptr (.root q) = w) : Woken s (popWake s q) [w] := by
  rw [popWake_eq hw]
  refine ⟨rfl, rfl, rfl, fun _ => rfl, fun p => ?_, fun p => ?_, fun p => ?_⟩
  all_goals simp only [mem_singleton, update_apply]
  split
  · rename_i hp
    rw [hp]
  · rfl

theorem popWake_lists (h : Lists s L) (hL : L q = w :: l) : Lists (popWake s q) (update L q l) := by
  rw [popWake_eq (h.head_cons hL).1]
  exact h.pop hL rfl fun _ _ => rfl

/-- The loop of `futex_wake` wakes the first `n` of the list. -/
theorem wakeLoop_spec (n : Nat) (h : Lists s L) :
    ∃ t, wakeLoop q n s = (t, min n (L q).length) ∧ Woken s t ((L q).take n) ∧
      Lists t (update L q ((L q).drop n)) ∧ t.queues = s.queues ∧ t.futexQ = s.futexQ := by
  induction n generalizing s L with
  | zero =>
    refine ⟨s, ?_, .nobody s, ?_, rfl, rfl⟩
    · rw [wakeLoop, Nat.zero_min]
    · rwa [drop_zero, update_eq_self]
  | succ n ih =>
    rw [wakeLoop]
    cases hL : L q with
    | nil =>
      rw [if_pos ((h.head_eq q).trans (by rw [hL]; rfl))]
      refine ⟨s, rfl, .nobody s, ?_, rfl, rfl⟩
      rwa [drop_nil, ← hL, update_eq_self]
    | cons w l =>
      obtain ⟨hw, hne⟩ := h.head_cons hL
      rw [if_neg (hw ▸ hne)]
      obtain ⟨t, hloop, hwoken, hlists, hqueues, hfutexQ⟩ := ih (popWake_lists h hL)
      rw [update_self, update_idem] at hlists
      rw [update_self] at hloop hwoken
      rw [popWake_eq hw] at hqueues hfutexQ
      refine ⟨t, ?_, (popWake_woken hw).trans hwoken, hlists, hqueues, hfutexQ⟩
      rw [hloop, length_cons, Nat.add_min_add_right]

/-- Waking parked processes keeps the phases. -/
theorem Phases.woken (h : Phases procs s L) {W : List Nat} (hL : L q = W ++ rest)
    (hclean : ∀ p ∈ L q, s.parked p ≠ none) (hwoken : Woken s t W)
    (hfutexQ : ∀ p, s.futexQ p = none → t.futexQ p = none) : Phases procs t (update L q rest) := by
  refine h.relist hwoken.phase hfutexQ (fun p a hp => ?_)
    (fun p r x hp hmem => update_of_ne ?_ ..) fun p r hp hmem => ?_
  · rw [hwoken.parked] at hp
    split at hp
    · cases hp
    rename_i hW
    obtain ⟨-, -, r, hr, haddr⟩ := h.parked p a hp
    refine ⟨a, hp, (hwoken.asleep p).trans (if_neg hW), r, ?_, (hwoken.uaddr r).trans haddr⟩
    rcases eq_or_ne r q with rfl | hne
    · rw [update_self]
      exact (mem_append.mp (hL ▸ hr)).resolve_left hW
    · rw [update_of_ne hne]
      exact hr
  · -- a process that walks the queue is not parked
    rintro rfl
    exact hclean p hmem (h.not_parked (by rw [hp]; nofun))
  · rcases eq_or_ne r q with rfl | hne
    · rw [update_self] at hmem
      exact hL ▸ mem_append_right _ hmem
    · rwa [update_of_ne hne] at hmem

/-! ## Requeueing -/

theorem uncount_eq (hb : Books procs s) (howner : s.futexQ w = some q)
    (hqueues : t.queues = s.queues) :
    uncount t q = t.setWaiters q ((s.queues q).nwaiters - 1) := by
  rw [uncount, hqueues]
  exact if_pos (hb.counted_le howner)

/-- A waiter woken by a requeue is counted no more. -/
theorem requeueWake_spec (h : Lists s L) (hb : Books procs s) (hL : L q = w :: l) :
    let t := uncount ((popWake s q).setFutexQ w none) q
    Lists t (update L q l) ∧ Books procs t ∧ Woken s t [w] ∧
      ∀ p, p ≠ w → t.futexQ p = s.futexQ p := by
  obtain ⟨hw, -⟩ := h.head_cons hL
  have howner := h.owner q w (hL ▸ mem_cons_self)
  have hothers (p : Nat) (hp : p ≠ w) : update s.futexQ w none p = s.futexQ p := update_of_ne hp ..
  have hpop := popWake_woken hw
  rw [popWake_eq hw] at hpop ⊢
  rw [uncount_eq hb howner]
  · exact ⟨h.pop hL rfl hothers, hb.uncount howner rfl rfl rfl rfl, ⟨rfl, rfl, rfl,
      fun r => setWaiters_uaddr .., hpop.asleep, hpop.stage, hpop.parked⟩, hothers⟩
  · rfl

theorem requeueWakes_spec (n : Nat) (h : Lists s L) (hb : Books procs s) :
    ∃ t, requeueWakes q n s = (t, min n (L q).length) ∧ Woken s t ((L q).take n) ∧
      Lists t (update L q ((L q).drop n)) ∧ Books procs t ∧
      ∀ p, p ∉ (L q).take n → t.futexQ p = s.futexQ p := by
  induction n generalizing s L with
  | zero =>
    refine ⟨s, ?_, .nobody s, ?_, hb, fun _ _ => rfl⟩
    · rw [requeueWakes, Nat.zero_min]
    · rwa [drop_zero, update_eq_self]
  | succ n ih =>
    rw [requeueWakes]
    cases hL : L q with
    | nil =>
      rw [if_pos ((h.head_eq q).trans (by rw [hL]; rfl))]
      refine ⟨s, rfl, .nobody s, ?_, hb, fun _ _ => rfl⟩
      rwa [drop_nil, ← hL, update_eq_self]
    | cons w l =>
      obtain ⟨hw, hne⟩ := h.head_cons hL
      rw [if_neg (hw ▸ hne), hw]
      obtain ⟨hlists', hbooks', hwoken', hothers'⟩ := requeueWake_spec h hb hL
      obtain ⟨t, hloop, hwoken, hlists, hbooks, hothers⟩ := ih hlists' hbooks'
      rw [update_self, update_idem] at hlists
      rw [update_self] at hloop hwoken hothers
      refine ⟨t, ?_, hwoken'.trans hwoken, hlists, hbooks, fun p hp => ?_⟩
      · dsimp only
        rw [hloop, length_cons, Nat.add_min_add_right]
      · obtain ⟨hpw, hpl⟩ := not_or.mp (mt mem_cons.mpr hp)
        exact (hothers p hpl).trans (hothers' p hpw)

/-- The processes `M` are parked on another address. -/
structure Moved (s t : FutexState) (a : Nat) (M : List Nat) : Prop where
  phase : t.phase = s.phase
  buckets : t.buckets = s.buckets
  made : t.made = s.made
  uaddr : ∀ q, (t.queues q).uaddr = (s.queues q).uaddr
  asleep : t.asleep = s.asleep
  stage : t.stage = s.stage
  futexQ : ∀ p, p ∉ M → t.futexQ p = s.futexQ p
  parked : ∀ p, t.parked p = if p ∈ M then (s.parked p).map (fun _ => a) else s.parked p

theorem Moved.nobody (s : FutexState) (a : Nat) : Moved s s a [] :=
  ⟨rfl, rfl, rfl, fun _ => rfl, rfl, rfl, fun _ _ => rfl, fun _ => rfl⟩

theorem Moved.trans {M N : List Nat} (h : Moved s t a M)
    (h' : Moved t u a N) : Moved s u a (M ++ N) := by
  refine ⟨h'.phase.trans h.phase, h'.buckets.trans h.buckets, h'.made.trans h.made,
    fun q => (h'.uaddr q).trans (h.uaddr q), h'.asleep.trans h.asleep, h'.stage.trans h.stage,
    fun p hp => ?_, fun p => ?_⟩
  · obtain ⟨hM, hN⟩ := not_or.mp (mt mem_append.mpr hp)
    exact (h'.futexQ p hN).trans (h.futexQ p hM)
  · rw [h'.parked, h.parked]
    by_cases hN : p ∈ N <;> by_cases hM : p ∈ M <;> simp [hN, hM, Option.map_map, Function.comp_def]

/-- The first waiter of `q` goes to the end of the list of `r`. -/
theorem requeueMove_spec (h : Lists s L) (hb : Books procs s) (hne : q ≠ r)
    (hr : r ∈ s.buckets (futexHash (s.queues r).uaddr)) (hL : L q = w :: l) :
    let t := requeueMove q r a (endLoc (.root r) (L r)) s
    Lists t (update (update L q l) r (L r ++ [w])) ∧ Books procs t ∧ Moved s t a [w] := by
  obtain ⟨hw, -⟩ := h.head_cons hL
  have howner := h.owner q w (hL ▸ mem_cons_self)
  have hmove : requeueMove q r a (endLoc (.root r) (L r)) s =
      ((((((s.setPtr (.root q) (s.ptr (.link w))).setPtr (.link w) 0).setPtr
        (endLoc (.root r) (L r)) w).setFutexQ w (some r)).setWaiters q
        ((s.queues q).nwaiters - 1)).setWaiters r ((s.queues r).nwaiters + 1)).setParked w
        ((s.parked w).map fun _ => a) := by
    simp only [requeueMove, hw, if_pos hne.symm]
    rw [uncount_eq hb howner, setWaiters_nwaiters, if_neg hne.symm]
    all_goals rfl
  rw [hmove]
  have hothers (p : Nat) (hp : p ≠ w) : update s.futexQ w (some r) p = s.futexQ p :=
    update_of_ne hp ..
  have haddr (k : Nat) : (((s.setWaiters q ((s.queues q).nwaiters - 1)).setWaiters r
      ((s.queues r).nwaiters + 1)).queues k).uaddr = (s.queues k).uaddr :=
    (setWaiters_uaddr ..).trans (setWaiters_uaddr ..)
  have hone : Books procs ((s.setFutexQ w none).setWaiters q ((s.queues q).nwaiters - 1)) :=
    hb.uncount howner rfl rfl rfl rfl
  refine ⟨h.move hne hL rfl (update_self ..) hothers, hone.count (hb.member w q howner)
    (update_self ..) ?_ (update_idem ..).symm ?_ rfl rfl, ⟨rfl, rfl, rfl, haddr, rfl, rfl,
    fun p hp => hothers p (by simpa using hp), fun p => ?_⟩⟩
  · rw [setWaiters_uaddr]
    exact hr
  · rw [setWaiters_nwaiters, if_neg hne.symm]
    rfl
  · simp only [setParked, setWaiters, update_apply, mem_singleton]
    split
    · rename_i hp
      rw [hp]
    · rfl

theorem setPtr_same {x : Loc Nat} {v : Nat} (h : s.ptr x = v) : s.setPtr x v = s := by
  rw [setPtr, ← h, update_eq_self]

theorem setWaiters_same {n : Int} (h : (s.queues q).nwaiters = n) : s.setWaiters q n = s := by
  rw [setWaiters, ← h, update_eq_self]

/-- The location behind a queue's list holds the null pointer. -/
theorem Lists.end_null (h : Lists s L) (q : Nat) : s.ptr (endLoc (.root q) (L q)) = 0 :=
  (chain_append.mp ((append_nil (L q)).symm ▸ h.chain q : Chain s.ptr _ (L q ++ []))).2

/-- Two entries overwritten a second time. -/
theorem update_twice (L : Nat → List Nat) (hne : q ≠ r) (a b c d : List Nat) :
    update (update (update (update L q a) r b) q c) r d = update (update L q c) r d := by
  rw [update_comm (Ne.symm hne), update_idem, update_idem]

theorem requeueMoves_spec (n : Nat) (h : Lists s L) (hb : Books procs s) (hne : q ≠ r)
    (hr : r ∈ s.buckets (futexHash (s.queues r).uaddr)) :
    ∃ t, requeueMoves q r a n (endLoc (.root r) (L r)) s = (t, min n (L q).length) ∧
      Lists t (update (update L q ((L q).drop n)) r (L r ++ (L q).take n)) ∧
      Books procs t ∧ Moved s t a ((L q).take n) := by
  induction n generalizing s L with
  | zero =>
    refine ⟨s, ?_, ?_, hb, .nobody s a⟩
    · rw [requeueMoves, setPtr_same (h.end_null r), Nat.zero_min]
    · rwa [drop_zero, update_eq_self, take_zero, append_nil, update_eq_self]
  | succ n ih =>
    rw [requeueMoves]
    cases hL : L q with
    | nil =>
      rw [if_pos ((h.head_eq q).trans (by rw [hL]; rfl)), setPtr_same (h.end_null r)]
      refine ⟨s, rfl, ?_, hb, .nobody s a⟩
      rwa [drop_nil, ← hL, update_eq_self, hL, take_nil, append_nil, update_eq_self]
    | cons w l =>
      obtain ⟨hw, hw0⟩ := h.head_cons hL
      rw [if_neg (hw ▸ hw0), hw]
      obtain ⟨hlists', hbooks', hmoved'⟩ := requeueMove_spec (a := a) h hb hne hr hL
      have hr' : r ∈ (requeueMove q r a (endLoc (.root r) (L r)) s).buckets
          (futexHash ((requeueMove q r a (endLoc (.root r) (L r)) s).queues r).uaddr) := by
        rw [hmoved'.buckets, hmoved'.uaddr]
        exact hr
      obtain ⟨t, hloop, hlists, hbooks, hmoved⟩ := ih hlists' hbooks' hr'
      have hL₁ : update (update L q l) r (L r ++ [w]) q = l := by rw [update_of_ne hne, update_self]
      rw [update_self, hL₁, endLoc_append] at hloop
      rw [update_self, hL₁, append_assoc] at hlists
      rw [hL₁] at hmoved
      refine ⟨t, ?_, ?_, hbooks, hmoved'.trans hmoved⟩
      · dsimp only
        rw [show (Loc.link w : Loc Nat) = endLoc (endLoc (.root r) (L r)) [w] from rfl, hloop,
          length_cons, Nat.add_min_add_right]
      · rwa [update_twice L hne] at hlists

/-- Moving parked processes to an empty queue keeps the phases. -/
theorem Phases.moved (h : Phases procs s L) (hne : q ≠ r) {M : List Nat} (hL : L q = M ++ rest)
    (hempty : L r = []) (hclean : ∀ p ∈ L q, s.parked p ≠ none)
    (hmoved : Moved s t (s.queues r).uaddr M) (hfutexQ : ∀ p ∈ M, s.futexQ p ≠ none) :
    Phases procs t (update (update L q rest) r M) := by
  have hfull {p k : Nat} (hp : p ∈ L k) : k ≠ r := by
    rintro rfl
    rw [hempty] at hp
    cases hp
  refine h.relist hmoved.phase (fun p hnone => ?_) (fun p b hp => ?_) (fun p k x hp hmem => ?_)
    fun p k hp hmem => ?_
  · rw [hmoved.futexQ p fun hM => hfutexQ p hM hnone, hnone]
  · rw [hmoved.parked] at hp
    split at hp
    · rename_i hM
      obtain ⟨c, hc, rfl⟩ := map_eq_some_iff.mp hp
      refine ⟨c, hc, congrFun hmoved.asleep p, r, ?_, hmoved.uaddr r⟩
      rw [update_self]
      exact hM
    rename_i hM
    obtain ⟨-, -, k, hk, haddr⟩ := h.parked p b hp
    refine ⟨b, hp, congrFun hmoved.asleep p, k, ?_, (hmoved.uaddr k).trans haddr⟩
    rw [update_of_ne (hfull hk)]
    rcases eq_or_ne k q with rfl | hkq
    · rw [update_self]
      exact (mem_append.mp (hL ▸ hk)).resolve_left hM
    · rw [update_of_ne hkq]
      exact hk
  · -- nobody who walks is on the source
    rw [update_of_ne (hfull hmem)]
    refine update_of_ne ?_ ..
    rintro rfl
    exact hclean p hmem (h.not_parked (by rw [hp]; nofun))
  · rcases eq_or_ne k r with rfl | hkr
    · rw [update_self] at hmem
      exact absurd (h.not_parked (by rw [hp]; nofun)) (hclean p (hL ▸ mem_append_left _ hmem))
    rw [update_of_ne hkr] at hmem
    rcases eq_or_ne k q with rfl | hkq
    · rw [update_self] at hmem
      exact hL ▸ mem_append_right _ hmem
    · rwa [update_of_ne hkq] at hmem

end

end ArcKernel.Uipc
