import ArcKernel.Uipc.FutexWaiters

/-!
# Runs of the futex calls

Every step keeps the invariant, as long as every wait has a timeout, no waker meets a
process that has left its sleep but not yet its queue, and nobody is linked to the target of
a requeue.  From the invariant: a parked process is on one queue, and the wakers wake and
move as many processes as they are asked for and find.
-/

namespace ArcKernel.Uipc

open ArcKernel.Foundation Function List FutexState

variable {uaddr : Nat} {forever granted : Bool} {ph : Phase}

variable {procs : Finset Nat} {s t : FutexState} {L : Nat → List Nat} {p q : Nat}

/-! ## Steps of a process in `futex_wait` -/

section

variable (hl : Lists s L) (hb : Books procs s) (hp : Phases procs s L)
include hl hb hp

/-- A queue that has just been made, or one that was there. -/
theorem create_inv (hcreate : futexCreateQ granted s uaddr = some (t, q)) :
    Lists t L ∧ Books procs t ∧ Phases procs t L ∧ futexFindQ t uaddr = some q ∧
      t.phase = s.phase ∧ t.stage = s.stage ∧ t.parked = s.parked ∧ t.asleep = s.asleep ∧
      (L q = [] ∨ futexFindQ s uaddr = some q) := by
  obtain ⟨hbooks, hfind, hfutexQ, hasleep, hphase, hstage, hparked, hcase, hqueues⟩ :=
    hb.create hcreate
  rcases hcase with rfl | ⟨rfl, hptr, hnone⟩
  · exact ⟨hl, hb, hp, hfind, rfl, rfl, rfl, rfl, .inr hfind⟩
  have hempty : L s.made = [] := by
    refine eq_nil_iff_forall_not_mem.mpr fun r hr => ?_
    exact Nat.lt_irrefl _ (hb.bucket _ _ (hb.registered r _ (hl.owner _ r hr))).1
  have hold : ∀ k r, r ∈ L k → k ≠ s.made := by
    rintro k r hr rfl
    rw [hempty] at hr
    cases hr
  refine ⟨⟨fun k => ?_, hl.nodup, fun k r hr => hfutexQ ▸ hl.owner k r hr⟩, hbooks, ?_, hfind,
    hphase, hstage, hparked, hasleep, .inl hempty⟩
  · rw [hptr]
    rcases eq_or_ne k s.made with rfl | hk
    · rw [hempty]
      exact update_self ..
    · refine (hl.chain k).update 0 ?_
      rintro (_ | ⟨_, hmem⟩)
      · exact hk rfl
      · exact root_notMem_links _ _ hmem
  · refine hp.relist hphase (fun _ hr => hfutexQ ▸ hr) (fun r a hr => ?_) (fun _ _ _ _ _ => rfl)
      fun _ _ _ hr => hr
    rw [hparked] at hr
    obtain ⟨-, -, k, hk, haddr⟩ := hp.parked r a hr
    exact ⟨a, hr, congrFun hasleep r, k, hk, by rw [hqueues k (hold k r hk)]; exact haddr⟩

/-- Taking a queue nobody is counted on out of its bucket. -/
theorem remove_inv (hzero : (s.queues q).nwaiters = 0) :
    Lists (futexRemoveQ s q) L ∧ Books procs (futexRemoveQ s q) ∧
      Phases procs (futexRemoveQ s q) L :=
  ⟨hl.congr rfl rfl, hb.remove fun r hr => by have := hb.counted_le hr; omega, { hp with }⟩

end

theorem futexWait_inv {word : UserWord} (hzero : 0 ∉ procs)
    (h : FutexInv procs s) (hp : p ∈ procs) (hidle : s.phase p = .idle)
    (hunlocked : ∀ q ∈ futexFindQ s uaddr, Unlocked procs s q) (hforever : forever = false) :
    FutexInv procs (futexWait granted s p uaddr word forever) := by
  obtain ⟨L, hl, hb, hph⟩ := h
  unfold futexWait
  split
  · exact ⟨L, hl, hb, hph⟩
  rename_i t q hcreate
  obtain ⟨hl', hb', hph', hfind, hphase, -, -, -, hfresh⟩ :=
    create_inv hl hb hph hcreate
  obtain ⟨hbucket, haddr⟩ := hb'.findQ_eq_some.mp hfind
  cases word with
  | fault | changed =>
    dsimp only
    split
    · rename_i hcount
      exact ⟨L, remove_inv hl' hb' hph' hcount⟩
    · exact ⟨L, hl', hb', hph'⟩
  | expected =>
    have hnone : t.futexQ p = none := hph'.idle p (hphase ▸ hidle)
    have haddr' : ∀ k, (update t.queues q { t.queues q with
        nwaiters := (t.queues q).nwaiters + 1 } k).uaddr = (t.queues k).uaddr :=
      setWaiters_uaddr t q _
    have hne0 : p ≠ 0 := fun h0 => hzero (h0 ▸ hp)
    have hupdate : ∀ r, r ≠ p → update t.futexQ p (some q) r = t.futexQ r := fun r hr =>
      update_of_ne hr ..
    refine ⟨update L q (p :: L q), ?_, ?_, ?_⟩
    · exact hl'.push hne0 hnone rfl (update_self ..) hupdate
    · exact hb'.count hp hnone (haddr ▸ hbucket) rfl rfl rfl rfl
    · refine hph'.step p hp (update_self ..) (fun r hr => update_of_ne hr ..)
        (fun r hr => update_of_ne hr ..) (fun r hr => update_of_ne hr ..) hupdate
        (fun k _ _ => haddr' k) (fun k r hr => ?_) (fun k r x hr hx => ?_) (by rintro ⟨⟩)
        (fun k f hk => (Phase.sleeping.inj hk).2 ▸ hforever) (fun a ha => ?_) (by rintro _ _ ⟨⟩)
        (by rintro _ ⟨⟩) (by rintro _ ⟨⟩)
      · rcases eq_or_ne k q with rfl | hk
        · rw [update_self, mem_cons]
          exact ⟨fun h' => h'.resolve_left hr, .inr⟩
        · rw [update_of_ne hk]
      · -- a queue with a found link is not the one just locked
        refine update_of_ne ?_ ..
        rintro rfl
        rcases hfresh with hempty | hfound
        · obtain ⟨a, b, hab, -⟩ := hph'.found r k x hx
          rw [hempty] at hab
          exact append_ne_nil_of_right_ne_nil a (cons_ne_nil r b) hab.symm
        · refine hunlocked k hfound r (hph'.active r (by rw [hx]; rintro ⟨⟩)) ?_
          rw [← hphase, hx]
          rfl
      · refine ⟨update_self .., ⟨q, forever, rfl⟩, q, ?_, (haddr' q).trans ?_⟩
        · rw [update_self]
          exact mem_cons_self
        · exact haddr.trans (Option.some.inj ((update_self p _ t.parked).symm.trans ha))

/-- A process changes its own phase only. -/
theorem setPhase_inv (hl : Lists s L) (hb : Books procs s) (hph : Phases procs s L)
    (hp : p ∈ procs) (hparked : s.parked p = none) (hidle : ph ≠ .idle)
    (hsleeping : ∀ q f, ph ≠ .sleeping q f)
    (hfound : ∀ q x, ph = .walking q (some x) → ∃ a b, L q = a ++ p :: b ∧ x = endLoc (.root q) a)
    (hmissed : ∀ q, ph = .walking q none → p ∉ L q)
    (hlock : ∀ q, ph.walked = some q → Unlocked procs s q) : FutexInv procs (s.setPhase p ph) := by
  refine ⟨L, hl.congr rfl rfl, hb.congr rfl rfl rfl rfl, ?_⟩
  refine hph.step p hp (update_self ..) (fun r hr => update_of_ne hr ..) (fun _ _ => rfl)
    (fun _ _ => rfl) (fun _ _ => rfl) (fun _ _ _ => rfl) (fun _ _ _ => Iff.rfl)
    (fun _ _ _ _ _ => rfl) (fun h => absurd h hidle) (fun q f h => absurd h (hsleeping q f))
    (fun a ha => nomatch hparked.symm.trans ha) hfound hmissed fun q h r _ => ?_
  by_cases hr : s.phase r = .idle
  · rw [hr]
    nofun
  · exact hlock q h r (hph.active r hr)

/-- One process is no longer parked. -/
theorem Phases.unpark (h : Phases procs s L) (hphase : t.phase = s.phase)
    (hfutexQ : t.futexQ = s.futexQ) (hqueues : t.queues = s.queues)
    (hasleep : ∀ r, r ≠ p → t.asleep r = s.asleep r)
    (hparked : t.parked = update s.parked p none) : Phases procs t L := by
  refine h.relist hphase (fun _ hr => hfutexQ ▸ hr) (fun r a hr => ?_) (fun _ _ _ _ _ => rfl)
    fun _ _ _ hr => hr
  rw [hparked] at hr
  rcases update_cases hr with ⟨-, ⟨⟩⟩ | ⟨hne, hr⟩
  exact ⟨a, hr, hasleep r hne, hqueues ▸ (h.parked r a hr).2.2⟩

/-- A step on the way to the sleep changes the stage of the process, and may write `PRS_SLEEP`. -/
theorem sleepStep_inv {queued : Bool} (h : FutexInv procs s)
    (hstep : sleepStep s p queued = some t) : FutexInv procs t := by
  obtain ⟨L, hl, hb, hph⟩ := h
  have hkeep : ∀ st asleep, (∀ r, s.asleep r = true → asleep r = true) →
      FutexInv procs { s with stage := st, asleep := asleep } := by
    intro st asleep hasleep
    refine ⟨L, hl.congr rfl rfl, hb.congr rfl rfl rfl rfl, { hph with parked := fun r a hr => ?_ }⟩
    obtain ⟨hsleeps, hrest⟩ := hph.parked r a hr
    exact ⟨hasleep r hsleeps, hrest⟩
  unfold sleepStep at hstep
  split at hstep
  · obtain ⟨-, rfl⟩ := of_guard hstep
    exact hkeep _ _ fun _ hr => hr
  · cases hstep
    refine hkeep _ (update s.asleep p true) fun r hr => ?_
    rw [update_apply]
    split
    · rfl
    · exact hr
  · cases hstep
    exact hkeep _ _ fun _ hr => hr
  all_goals cases hstep

/-- A sleep ends, for whatever reason. -/
theorem endSleep_inv {reason : WakeReason} (h : FutexInv procs s)
    (hsleep : s.phase p = .sleeping q forever) (hidle : ph ≠ .idle)
    (hsleeping : ∀ q f, ph ≠ .sleeping q f) (hwalking : ∀ q loc, ph ≠ .walking q loc) :
    FutexInv procs ((endSleep s p forever reason).setPhase p ph) := by
  obtain ⟨L, hl, hb, hph⟩ := h
  have hforever := hph.bounded p q forever hsleep
  have hp := hph.active p (by rw [hsleep]; nofun)
  rw [endSleep, if_neg fun h' => Bool.false_ne_true (hforever.symm.trans h'.2)]
  have hself : (s.setParked p none).parked p = none := update_self ..
  have hph' : Phases procs (s.setParked p none) L :=
    hph.unpark rfl rfl rfl (fun _ _ => rfl) rfl
  refine setPhase_inv (hl.congr rfl rfl) (hb.congr rfl rfl rfl rfl) hph' hp hself hidle hsleeping
    (fun k x h' => absurd h' (hwalking k _)) (fun k h' => absurd h' (hwalking k _)) fun k h' => ?_
  cases ph with
  | walking k' loc => exact absurd rfl (hwalking k' loc)
  | _ => cases h'

/-- The walk over a queue finds the link to a process exactly when it is linked. -/
theorem Lists.locate_spec (hl : Lists s L) (hb : Books procs s) (p q : Nat) :
    (∀ x, locate s.ptr p (procs.card + 1) (.root q) = some x →
      ∃ a b, L q = a ++ p :: b ∧ x = endLoc (.root q) a) ∧
    (locate s.ptr p (procs.card + 1) (.root q) = none → p ∉ L q) := by
  by_cases hmem : p ∈ L q
  · obtain ⟨a, b, hab, hpa⟩ := eq_append_cons_of_mem hmem
    have hlen := hl.length_le hb q
    have hchain := hl.chain q
    rw [hab] at hlen hchain
    have hsome := hchain.locate_some hpa (n := procs.card + 1) (by
      rw [length_append] at hlen
      omega)
    refine ⟨fun x hx => ⟨a, b, hab, Option.some.inj (hx.symm.trans hsome)⟩, fun hnone => ?_⟩
    cases hnone.symm.trans hsome
  · refine ⟨fun x hx => ?_, fun _ => hmem⟩
    cases ((hl.chain q).locate_none hmem _).symm.trans hx

theorem walk_inv (h : FutexInv procs s) (hended : s.phase p = .ended q)
    (hunlocked : Unlocked procs s q) :
    FutexInv procs (s.setPhase p (.walking q (locate s.ptr p (procs.card + 1) (.root q)))) := by
  obtain ⟨L, hl, hb, hph⟩ := h
  have hp := hph.active p (by rw [hended]; nofun)
  have hparked := hph.not_parked (p := p) (by rw [hended]; nofun)
  obtain ⟨hfound, hmissed⟩ := hl.locate_spec hb p q
  refine setPhase_inv hl hb hph hp hparked nofun nofun
    (fun k x hk => ?_) (fun k hk => ?_) fun k hk => Option.some.inj hk ▸ hunlocked
  · obtain ⟨rfl, hloc⟩ := Phase.walking.inj hk
    exact hfound x hloc
  · obtain ⟨rfl, hloc⟩ := Phase.walking.inj hk
    exact hmissed hloc

/-- Only a pointer is written. -/
theorem rewriteLink_eq (s : FutexState) (p : Nat) (loc : Option (Loc Nat)) :
    rewriteLink s p loc = { s with ptr := (rewriteLink s p loc).ptr } := by
  cases loc <;> rfl

/-- A process is taken off the queue, if the walk has found it there. -/
theorem Lists.rewrite {u : FutexState} {loc : Option (Loc Nat)} (hl : Lists s L)
    (hfound : ∀ x, loc = some x → ∃ a b, L q = a ++ p :: b ∧ x = endLoc (.root q) a)
    (hmissed : loc = none → p ∉ L q) (hptr : t.ptr = (rewriteLink u p loc).ptr) (hu : u.ptr = s.ptr)
    (hfutexQ : ∀ r, r ≠ p → t.futexQ r = s.futexQ r)
    (hself : t.futexQ p = s.futexQ p ∨ s.futexQ p = some q) :
    ∃ L', Lists t L' ∧ (∀ k r, r ≠ p → (r ∈ L' k ↔ r ∈ L k)) ∧ ∀ k, k ≠ q → L' k = L k := by
  cases loc with
  | none =>
    refine ⟨L, ⟨fun k => hptr.trans hu ▸ hl.chain k, hl.nodup, fun k r hr => ?_⟩,
      fun _ _ _ => Iff.rfl, fun _ _ => rfl⟩
    have howner := hl.owner k r hr
    rcases eq_or_ne r p with rfl | hne
    · rcases hself with hsame | hq
      · exact hsame.trans howner
      · exact absurd (Option.some.inj (howner.symm.trans hq) ▸ hr) (hmissed rfl)
    · exact (hfutexQ r hne).trans howner
  | some x =>
    obtain ⟨a, b, hab, rfl⟩ := hfound x rfl
    refine ⟨update L q (a ++ b), hl.unlink hab (hu ▸ hptr) hfutexQ, fun k r hr => ?_,
      fun k hk => update_of_ne hk ..⟩
    rcases eq_or_ne k q with rfl | hk
    · rw [hab]
      simp [hr]
    · rw [update_of_ne hk]

theorem unlink_inv {loc : Option (Loc Nat)} (h : FutexInv procs s)
    (hwalking : s.phase p = .walking q loc) :
    FutexInv procs (((rewriteLink s p loc).setAsleep p false).setPhase p .leaving) := by
  obtain ⟨L, hl, hb, hph⟩ := h
  have hp := hph.active p (by rw [hwalking]; nofun)
  have hparked := hph.not_parked (p := p) (by rw [hwalking]; nofun)
  rw [rewriteLink_eq]
  obtain ⟨L', hl', hL, hothers⟩ := hl.rewrite (t := { s with ptr := (rewriteLink s p loc).ptr })
    (fun x hx => hph.found p q x (hx ▸ hwalking)) (fun hx => hph.missed p q (hx ▸ hwalking)) rfl
    rfl (fun _ _ => rfl) (.inl rfl)
  refine ⟨L', hl'.congr rfl rfl, hb.congr rfl rfl rfl rfl, ?_⟩
  refine hph.step p hp (update_self ..) (fun r hr => update_of_ne hr ..) (fun _ _ => rfl)
    (fun r hr => update_of_ne hr ..) (fun _ _ => rfl) (fun _ _ _ => rfl) hL
    (fun k r x hr hx => hothers k ?_) nofun nofun (fun a ha => nomatch hparked.symm.trans ha)
    nofun nofun nofun
  -- nobody else walks the queue
  rintro rfl
  exact hr (hph.lock r p k (by rw [hx]; rfl) (by rw [hwalking]; rfl))

/-- The queue loses one process from its count and is given up with the last. -/
theorem drop_books (hb : Books procs s) (howner : s.futexQ p = some q)
    (hfutexQ : t.futexQ = update s.futexQ p none) (hqueues : t.queues = s.queues)
    (hbuckets : t.buckets = s.buckets) (hmade : t.made = s.made) :
    Books procs (if (t.queues q).nwaiters - 1 ≤ 0 then futexRemoveQ (t.setWaiters q 0) q
      else t.setWaiters q ((t.queues q).nwaiters - 1)) := by
  have hpos := hb.counted_le howner
  have hsettled : Books procs (t.setWaiters q ((t.queues q).nwaiters - 1)) :=
    hb.uncount howner hfutexQ (by rw [setWaiters, setWaiters, hqueues]) hbuckets hmade
  split
  · rename_i hlast
    have hzero : (t.queues q).nwaiters - 1 = 0 := by
      rw [hqueues] at hlast ⊢
      omega
    rw [← hzero]
    refine hsettled.remove fun r hr => ?_
    have hcount := hsettled.counted_le hr
    have hone : ((t.setWaiters q ((t.queues q).nwaiters - 1)).queues q).nwaiters =
        (t.queues q).nwaiters - 1 := (setWaiters_nwaiters ..).trans (if_pos rfl)
    omega
  · exact hsettled

theorem futexAccount_inv (h : FutexInv procs s) (hleaving : s.phase p = .leaving)
    (hunlocked : ∀ q ∈ s.futexQ p, Unlocked procs s q) :
    FutexInv procs (futexAccount (procs.card + 1) s p) := by
  obtain ⟨L, hl, hb, hph⟩ := h
  have hp := hph.active p (by rw [hleaving]; nofun)
  have hparked := hph.not_parked (p := p) (by rw [hleaving]; nofun)
  -- the process settles in a state that differs in its own fields and one list
  have hsettle : ∀ (t : FutexState) (L' : Nat → List Nat), t.phase = update s.phase p .idle →
      t.parked = s.parked → t.asleep = s.asleep → t.futexQ = update s.futexQ p none →
      (∀ k, (t.queues k).uaddr = (s.queues k).uaddr) →
      (∀ k r, r ≠ p → (r ∈ L' k ↔ r ∈ L k)) →
      (∀ k r x, r ≠ p → s.phase r = .walking k (some x) → L' k = L k) → Phases procs t L' := by
    intro t L' hphase hpark hasleep hfutexQ haddr hL hwalked
    exact hph.step p hp ((congrFun hphase p).trans (update_self ..))
      (fun r hr => hphase ▸ update_of_ne hr ..) (fun r _ => congrFun hpark r)
      (fun r _ => congrFun hasleep r) (fun r hr => hfutexQ ▸ update_of_ne hr ..)
      (fun k _ _ => haddr k) hL hwalked (fun _ => hfutexQ ▸ update_self ..) nofun
      (fun a ha => nomatch ((congrFun hpark p).trans hparked).symm.trans ha) nofun nofun nofun
  unfold futexAccount
  dsimp only
  cases howner : s.futexQ p with
  | none =>
    have hsame : (s.setPhase p .idle).futexQ p = none := howner
    rw [hsame]
    have hfutexQ : s.futexQ = update s.futexQ p none := by rw [← howner, update_eq_self]
    exact ⟨L, hl.congr rfl rfl, hb.congr rfl rfl rfl rfl,
      hsettle _ L rfl rfl rfl hfutexQ (fun _ => rfl) (fun _ _ _ => Iff.rfl) fun _ _ _ _ _ => rfl⟩
  | some mq =>
    have hsame : (s.setPhase p .idle).futexQ p = some mq := howner
    rw [hsame]
    dsimp only
    rw [takeOff, rewriteLink_eq]
    generalize hptr : (rewriteLink _ p _).ptr = ptr
    obtain ⟨hfound, hmissed⟩ := hl.locate_spec hb p mq
    obtain ⟨L', hl', hL, hothers⟩ := hl.rewrite
      (t := { (s.setPhase p .idle).setFutexQ p none with ptr := ptr }) hfound hmissed hptr.symm rfl
      (fun r hr => update_of_ne hr ..) (.inr howner)
    have hwalked (k r : Nat) (x : Loc Nat) (_ : r ≠ p) (hx : s.phase r = .walking k (some x)) :
        L' k = L k := by
      refine hothers k ?_
      rintro rfl
      exact hunlocked k howner r (hph.active r (by rw [hx]; nofun)) (by rw [hx]; rfl)
    refine ⟨L', ?_, drop_books hb howner rfl rfl rfl rfl, ?_⟩
    · split <;> exact hl'.congr rfl rfl
    · split <;>
        exact hsettle _ L' rfl rfl rfl rfl (fun k => setWaiters_uaddr ..) hL hwalked

/-! ## Wakers -/

/-- The processes parked on an address. -/
def parkedOn (procs : Finset Nat) (s : FutexState) (uaddr : Nat) : Finset Nat :=
  procs.filter fun p => s.parked p = some uaddr

/-- Everybody linked to the queue is parked. -/
def Clean (procs : Finset Nat) (s : FutexState) (q : Nat) : Prop :=
  ∀ p ∈ linked procs s q, s.parked p ≠ none

instance (procs : Finset Nat) (s : FutexState) (q : Nat) : Decidable (Clean procs s q) :=
  inferInstanceAs (Decidable (∀ p ∈ linked procs s q, _))

/-- Nobody linked to the queue is between the test of its state and its block, or polls. -/
def Settled (procs : Finset Nat) (s : FutexState) (q : Nat) : Prop :=
  ∀ p ∈ linked procs s q, s.stage p = .entering ∨ s.stage p = .blocked

instance (procs : Finset Nat) (s : FutexState) (q : Nat) : Decidable (Settled procs s q) :=
  inferInstanceAs (Decidable (∀ p ∈ linked procs s q, _))

/-- The process has been woken: it is parked no more, and it will not sleep, since its thread has
been made ready or the test of its state is still to come. -/
def Roused (t : FutexState) (p : Nat) : Prop :=
  t.parked p = none ∧ t.asleep p = false ∧ (t.stage p = .entering ∨ t.stage p = .running)

/-- The process sleeps, or not, as before. -/
def Undisturbed (s t : FutexState) (p : Nat) : Prop :=
  t.asleep p = s.asleep p ∧ t.stage p = s.stage p

/-- `woken` of the processes parked on the address have been woken, as many as asked for if
there are so many; the others are as before. -/
def WakesExactly (procs : Finset Nat) (s : FutexState) (uaddr n : Nat) (t : FutexState)
    (woken : Nat) : Prop :=
  ∃ W ⊆ parkedOn procs s uaddr, W.card = woken ∧ woken = min n (parkedOn procs s uaddr).card ∧
    (∀ p ∈ W, Roused t p) ∧ ∀ p, p ∉ W → Undisturbed s t p ∧ t.parked p = s.parked p

/-- `woken` and `moved` of the processes parked on the first address have been woken and
moved to the second, as many as asked for if there are so many; the others are as before. -/
def RequeuesExactly (procs : Finset Nat) (s : FutexState) (uaddr1 uaddr2 nwake nmove : Nat)
    (t : FutexState) (woken moved : Nat) : Prop :=
  ∃ W ⊆ parkedOn procs s uaddr1, ∃ M ⊆ parkedOn procs s uaddr1 \ W,
    W.card = woken ∧ woken = min nwake (parkedOn procs s uaddr1).card ∧
    M.card = moved ∧ moved = min nmove ((parkedOn procs s uaddr1).card - woken) ∧
    (∀ p ∈ W, Roused t p) ∧
    (∀ p ∈ M, Undisturbed s t p ∧ t.parked p = some uaddr2) ∧
    ∀ p, p ∉ W → p ∉ M → Undisturbed s t p ∧ t.parked p = s.parked p

/-- Nobody is parked there. -/
theorem RequeuesExactly.nobody {a : Nat} (hnone : parkedOn procs s a = ∅) (b nwake nmove : Nat) :
    RequeuesExactly procs s a b nwake nmove s 0 0 := by
  refine ⟨∅, Finset.empty_subset _, ∅, Finset.empty_subset _, rfl, ?_, rfl, ?_, fun p hp => ?_,
    fun p hp => ?_, fun p _ _ => ⟨⟨rfl, rfl⟩, rfl⟩⟩
  · rw [hnone]
    exact (Nat.min_zero _).symm
  · rw [hnone]
    exact (Nat.min_zero _).symm
  all_goals exact absurd hp (Finset.notMem_empty p)

/-- A wake is a requeue of nobody. -/
theorem RequeuesExactly.wakes {a b n woken moved : Nat}
    (h : RequeuesExactly procs s a b n 0 t woken moved) : WakesExactly procs s a n t woken := by
  obtain ⟨W, hW, M, -, hcard, hn, hM, hm, hroused, -, hothers⟩ := h
  rw [Nat.zero_min] at hm
  have hnone := Finset.card_eq_zero.mp (hM.trans hm)
  exact ⟨W, hW, hcard, hn, hroused, fun p hp => hothers p hp (hnone ▸ Finset.notMem_empty p)⟩

/-- Only who is parked, who sleeps and how far matters. -/
theorem RequeuesExactly.congr {s' t' : FutexState} {a b nwake nmove woken moved : Nat}
    (h : RequeuesExactly procs s' a b nwake nmove t' woken moved)
    (hs : s'.asleep = s.asleep ∧ s'.stage = s.stage ∧ s'.parked = s.parked)
    (ht : t.asleep = t'.asleep ∧ t.stage = t'.stage ∧ t.parked = t'.parked) :
    RequeuesExactly procs s a b nwake nmove t woken moved := by
  simpa only [RequeuesExactly, parkedOn, Roused, Undisturbed, hs, ht] using h

section

variable {W : List Nat} (h : Woken s t W)
include h

/-- Who is woken before its test or while its thread is blocked does not sleep on. -/
theorem Woken.roused (hp : p ∈ W) (hstage : s.stage p = .entering ∨ s.stage p = .blocked) :
    Roused t p := by
  refine ⟨(h.parked p).trans (if_pos hp), (h.asleep p).trans (if_pos hp), ?_⟩
  rw [h.stage, if_pos hp]
  rcases hstage with hst | hst
  · rw [hst]
    exact .inl rfl
  · rw [hst]
    exact .inr rfl

theorem Woken.undisturbed (hp : p ∉ W) : Undisturbed s t p ∧ t.parked p = s.parked p :=
  ⟨⟨(h.asleep p).trans (if_neg hp), (h.stage p).trans (if_neg hp)⟩,
    (h.parked p).trans (if_neg hp)⟩

end

/-- The loops of a requeue wake the first of the list and move the next. -/
theorem RequeuesExactly.of_loops {l : List Nat} {a b : Nat} (nwake nmove : Nat)
    (heq : parkedOn procs s a = l.toFinset) (hnodup : l.Nodup)
    (hwoken : Woken s t (l.take nwake)) (hmoved : Moved t u b ((l.drop nwake).take nmove))
    (hclean : ∀ p ∈ l, s.parked p ≠ none)
    (hstage : ∀ p ∈ l, s.stage p = .entering ∨ s.stage p = .blocked) :
    RequeuesExactly procs s a b nwake nmove u (min nwake l.length)
      (min nmove (l.drop nwake).length) := by
  have hparts := hnodup
  rw [← take_append_drop nwake l] at hparts
  obtain ⟨htake, hdrop, hdisjoint⟩ := nodup_append.mp hparts
  refine ⟨(l.take nwake).toFinset, ?_, ((l.drop nwake).take nmove).toFinset, ?_, ?_, ?_, ?_, ?_,
    fun p hp => ?_, fun p hp => ?_, fun p hp hp' => ?_⟩
  · rw [heq]
    exact fun p hp => mem_toFinset.mpr (mem_of_mem_take (mem_toFinset.mp hp))
  · intro p hp
    have hmem := mem_of_mem_take (mem_toFinset.mp hp)
    rw [heq, Finset.mem_sdiff, mem_toFinset, mem_toFinset]
    exact ⟨mem_of_mem_drop hmem, fun h' => hdisjoint p h' p hmem rfl⟩
  · rw [toFinset_card_of_nodup htake, length_take]
  · rw [heq, toFinset_card_of_nodup hnodup]
  · rw [toFinset_card_of_nodup (hdrop.sublist (take_sublist _ _)), length_take]
  · rw [heq, toFinset_card_of_nodup hnodup, length_drop]
    omega
  · have hW := mem_toFinset.mp hp
    have hM : p ∉ (l.drop nwake).take nmove := fun h' =>
      hdisjoint p hW p (mem_of_mem_take h') rfl
    unfold Roused
    rw [hmoved.asleep, hmoved.stage, hmoved.parked, if_neg hM]
    exact hwoken.roused hW (hstage p (mem_of_mem_take hW))
  · have hM := mem_toFinset.mp hp
    have hW : p ∉ l.take nwake := fun h' => hdisjoint p h' p (mem_of_mem_take hM) rfl
    have hmem := mem_of_mem_drop (mem_of_mem_take hM)
    obtain ⟨a, ha⟩ := Option.ne_none_iff_exists'.mp (hclean p hmem)
    obtain ⟨hsame, hpark⟩ := hwoken.undisturbed hW
    unfold Undisturbed
    rw [hmoved.asleep, hmoved.stage, hmoved.parked, if_pos hM, hpark, ha]
    exact ⟨hsame, rfl⟩
  · unfold Undisturbed
    rw [hmoved.asleep, hmoved.stage, hmoved.parked, if_neg (mt mem_toFinset.mpr hp')]
    exact hwoken.undisturbed (mt mem_toFinset.mpr hp)

section

variable (hl : Lists s L) (hb : Books procs s) (hph : Phases procs s L)
include hl hb hph

/-- The parked processes are the ones linked to the queue of the address. -/
theorem parkedOn_eq (hfind : futexFindQ s uaddr = some q) (hclean : ∀ p ∈ L q, s.parked p ≠ none) :
    parkedOn procs s uaddr = (L q).toFinset := by
  obtain ⟨-, haddr⟩ := hb.findQ_eq_some.mp hfind
  ext p
  rw [parkedOn, Finset.mem_filter, mem_toFinset]
  constructor
  · rintro ⟨-, hp⟩
    obtain ⟨-, -, k, hk, hkaddr⟩ := hph.parked p uaddr hp
    have hfind' := hb.find (hl.owner k p hk)
    rw [hkaddr, hfind] at hfind'
    exact Option.some.inj hfind' ▸ hk
  · intro hp
    refine ⟨hb.member p q (hl.owner q p hp), ?_⟩
    obtain ⟨a, ha⟩ := Option.ne_none_iff_exists'.mp (hclean p hp)
    obtain ⟨-, -, k, hk, hkaddr⟩ := hph.parked p a ha
    rw [ha, ← hkaddr, hl.unique hk hp, haddr]

theorem parkedOn_empty (hfind : futexFindQ s uaddr = none) : parkedOn procs s uaddr = ∅ := by
  refine Finset.filter_eq_empty_iff.mpr fun p _ hp => ?_
  obtain ⟨-, -, k, hk, rfl⟩ := hph.parked p uaddr hp
  cases hfind.symm.trans (hb.find (hl.owner k p hk))

end

theorem futexWake_spec (n : Nat) (h : FutexInv procs s)
    (hclean : ∀ q ∈ futexFindQ s uaddr, Clean procs s q) :
    FutexInv procs (futexWake s uaddr n).1 ∧ ((∀ q ∈ futexFindQ s uaddr, Settled procs s q) →
      WakesExactly procs s uaddr n (futexWake s uaddr n).1 (futexWake s uaddr n).2) := by
  obtain ⟨L, hl, hb, hph⟩ := h
  rw [futexWake]
  cases hfind : futexFindQ s uaddr with
  | none =>
    exact ⟨⟨L, hl, hb, hph⟩, fun _ =>
      (RequeuesExactly.nobody (parkedOn_empty hl hb hph hfind) 0 n 0).wakes⟩
  | some q =>
    have hclean' : ∀ p ∈ L q, s.parked p ≠ none := hl.linked_eq hb q ▸ hclean q hfind
    obtain ⟨t, hloop, hwoken, hlists, hqueues, hfutexQ⟩ := wakeLoop_spec (q := q) n hl
    dsimp only
    rw [hloop]
    refine ⟨⟨_, hlists, hb.congr hqueues hwoken.buckets hwoken.made hfutexQ,
      hph.woken (take_append_drop n (L q)).symm hclean' hwoken fun p hp => hfutexQ ▸ hp⟩, ?_⟩
    intro hsettled
    exact (RequeuesExactly.of_loops n 0 (parkedOn_eq hl hb hph hfind hclean') (hl.nodup q) hwoken
      (.nobody t 0) hclean' (hl.linked_eq hb q ▸ hsettled q rfl)).wakes

/-- The end of `futex_requeue`, where the source may be given up. -/
theorem requeueEnd_inv (q uaddr1 uaddr2 : Nat) (h : FutexInv procs s) :
    ∃ u, (if (s.queues q).nwaiters ≤ 0 then
        if uaddr1 ≠ uaddr2 then futexRemoveQ (s.setWaiters q 0) q else s.setWaiters q 0
      else s) = u ∧ FutexInv procs u ∧
    u.asleep = s.asleep ∧ u.stage = s.stage ∧ u.parked = s.parked := by
  obtain ⟨L, hl, hb, hph⟩ := h
  split
  · have hzero : (s.queues q).nwaiters = 0 := by
      have := hb.counted q
      omega
    rw [setWaiters_same hzero]
    split
    · exact ⟨_, rfl, ⟨L, remove_inv hl hb hph hzero⟩, rfl, rfl, rfl⟩
    · exact ⟨s, rfl, ⟨L, hl, hb, hph⟩, rfl, rfl, rfl⟩
  · exact ⟨s, rfl, ⟨L, hl, hb, hph⟩, rfl, rfl, rfl⟩

/-- The loops of a requeue to an empty queue of another address. -/
theorem requeueLoops_spec {r b : Nat} (nwake nmove : Nat) (hl : Lists s L) (hb : Books procs s)
    (hph : Phases procs s L) (hne : q ≠ r) (hfind : futexFindQ s b = some r) (hempty : L r = [])
    (hclean : ∀ p ∈ L q, s.parked p ≠ none) :
    ∃ t u, requeueWakes q nwake s = (t, min nwake (L q).length) ∧
      requeueMoves q r b nmove (.root r) t = (u, min nmove ((L q).drop nwake).length) ∧
      FutexInv procs u ∧ Woken s t ((L q).take nwake) ∧
      Moved t u b (((L q).drop nwake).take nmove) := by
  obtain ⟨hbucket, haddr⟩ := hb.findQ_eq_some.mp hfind
  obtain ⟨t, hwakes, hwoken, hlists, hbooks, hothers⟩ := requeueWakes_spec (q := q) nwake hl hb
  have hph' := hph.woken (take_append_drop nwake (L q)).symm hclean hwoken fun p hp => by
    rw [hothers p, hp]
    intro hmem
    cases hp.symm.trans (hl.owner q p (mem_of_mem_take hmem))
  have hr : update L q ((L q).drop nwake) r = [] := by rw [update_of_ne (Ne.symm hne), hempty]
  have hq : update L q ((L q).drop nwake) q = (L q).drop nwake := update_self ..
  have hreg : r ∈ t.buckets (futexHash (t.queues r).uaddr) := by
    rw [hwoken.buckets, hwoken.uaddr, haddr]
    exact hbucket
  obtain ⟨u, hmoves, hlists', hbooks', hmoved⟩ :=
    requeueMoves_spec (a := b) nmove hlists hbooks hne hreg
  rw [hr, hq] at hmoves
  rw [hr, hq] at hlists'
  rw [hq] at hmoved
  refine ⟨t, u, hwakes, hmoves, ⟨_, hlists', hbooks', ?_⟩, hwoken, hmoved⟩
  have haddr' : (t.queues r).uaddr = b := (hwoken.uaddr r).trans haddr
  -- the processes left on the source are those not woken
  have hleft : ∀ p ∈ (L q).drop nwake, t.parked p = s.parked p := by
    intro p hp
    rw [hwoken.parked, if_neg]
    intro hmem
    have hnodup := hl.nodup q
    rw [← take_append_drop nwake (L q)] at hnodup
    exact (nodup_append.mp hnodup).2.2 p hmem p hp rfl
  refine hph'.moved hne (hq.trans (take_append_drop nmove _).symm) hr (fun p hp => ?_)
    (by rw [haddr']; exact hmoved) fun p hp => ?_
  · rw [hq] at hp
    rw [hleft p hp]
    exact hclean p (mem_of_mem_drop hp)
  · have hmem : p ∈ update L q ((L q).drop nwake) q := by
      rw [hq]
      exact mem_of_mem_take hp
    rw [hlists.owner q p hmem]
    nofun

theorem futexRequeue_spec {uaddr1 uaddr2 : Nat} (granted : Bool) (nwake nmove : Nat)
    (h : FutexInv procs s)
    (hproper : ∀ q ∈ futexFindQ s uaddr1, Clean procs s q ∧
      ∀ r ∈ futexFindQ s uaddr2, linked procs s r = []) :
    FutexInv procs (futexRequeue granted s uaddr1 uaddr2 nwake nmove).1 ∧
      (granted = true → (∀ q ∈ futexFindQ s uaddr1, Settled procs s q) →
        RequeuesExactly procs s uaddr1 uaddr2 nwake nmove
        (futexRequeue granted s uaddr1 uaddr2 nwake nmove).1
        (futexRequeue granted s uaddr1 uaddr2 nwake nmove).2.1
        (futexRequeue granted s uaddr1 uaddr2 nwake nmove).2.2) := by
  obtain ⟨L, hl, hb, hph⟩ := h
  rw [futexRequeue]
  cases hfind : futexFindQ s uaddr1 with
  | none =>
    exact ⟨⟨L, hl, hb, hph⟩, fun _ _ => .nobody (parkedOn_empty hl hb hph hfind) ..⟩
  | some q =>
    obtain ⟨hclean, htarget⟩ := hproper q hfind
    have hclean' : ∀ p ∈ L q, s.parked p ≠ none := hl.linked_eq hb q ▸ hclean
    have heq := parkedOn_eq hl hb hph hfind hclean'
    dsimp only
    by_cases haddr : uaddr1 = uaddr2
    · -- one queue, nobody on it
      have hempty : L q = [] := hl.linked_eq hb q ▸ htarget q (haddr ▸ hfind)
      have hnull : s.ptr (.root q) = 0 := (hl.head_eq q).trans (by rw [hempty]; rfl)
      have hwakes : requeueWakes q nwake s = (s, 0) := by
        cases nwake with
        | zero => rfl
        | succ n => rw [requeueWakes, if_pos hnull]
      have hmoves : requeueMoves q q uaddr2 nmove (.root q) s = (s, 0) := by
        cases nmove with
        | zero => rw [requeueMoves, setPtr_same hnull]
        | succ n => rw [requeueMoves, if_pos hnull, setPtr_same hnull]
      rw [if_pos haddr]
      dsimp only
      rw [hwakes]
      rw [hmoves]
      obtain ⟨v, hend, hinv, hsame⟩ := requeueEnd_inv q uaddr1 uaddr2 ⟨L, hl, hb, hph⟩
      rw [hend]
      rw [hempty] at heq
      exact ⟨hinv, fun _ _ => (RequeuesExactly.nobody heq ..).congr ⟨rfl, rfl, rfl⟩ hsame⟩
    rw [if_neg haddr]
    cases hcreate : futexCreateQ granted s uaddr2 with
    | none =>
      refine ⟨⟨L, hl, hb, hph⟩, fun hgranted => ?_⟩
      rw [futexCreateQ, hgranted] at hcreate
      split at hcreate <;> cases hcreate
    | some pair =>
      obtain ⟨s', r⟩ := pair
      obtain ⟨-, -, -, -, -, -, -, hcase, -⟩ := hb.create hcreate
      obtain ⟨hl', hb', hph', hfind', -, hstage', hparked', hasleep', hfresh⟩ :=
        create_inv hl hb hph hcreate
      obtain ⟨hbucket, haddr1⟩ := hb.findQ_eq_some.mp hfind
      have hempty : L r = [] := by
        rcases hfresh with hempty | hfound
        · exact hempty
        · exact hl.linked_eq hb r ▸ htarget r hfound
      have hne : q ≠ r := by
        rintro rfl
        rcases hcase with rfl | ⟨hmade, -⟩
        · exact haddr (haddr1.symm.trans (hb.findQ_eq_some.mp hfind').2)
        · exact Nat.ne_of_lt (hb.bucket _ q hbucket).1 hmade
      obtain ⟨t, u, hwakes, hmoves, hinv, hwoken, hmoved⟩ := requeueLoops_spec nwake nmove hl' hb'
        hph' hne hfind' hempty (hparked' ▸ hclean')
      dsimp only
      rw [hwakes]
      rw [hmoves]
      obtain ⟨v, hend, hinv', hsame⟩ := requeueEnd_inv q uaddr1 uaddr2 hinv
      rw [hend]
      refine ⟨hinv', fun _ hsettled => ?_⟩
      have heq' : parkedOn procs s' uaddr1 = (L q).toFinset := by
        rw [← heq, parkedOn, hparked']
        rfl
      exact (RequeuesExactly.of_loops nwake nmove heq' (hl.nodup q) hwoken hmoved
        (hparked' ▸ hclean') (hstage' ▸ hl.linked_eq hb q ▸ hsettled q rfl)).congr
        ⟨hasleep', hstage', hparked'⟩ hsame

/-! ## Runs -/

/-- What the calls must not do: wait without a timeout, wake or requeue on a queue with a
process that is linked but no longer parked, or requeue to a queue with a process linked. -/
def Proper (procs : Finset Nat) (s : FutexState) : FutexCall → Prop
  | .wait _ _ _ _ forever => forever = false
  | .wake uaddr _ => ∀ q ∈ futexFindQ s uaddr, Clean procs s q
  | .requeue uaddr1 uaddr2 _ _ _ => ∀ q ∈ futexFindQ s uaddr1, Clean procs s q ∧
      ∀ r ∈ futexFindQ s uaddr2, linked procs s r = []
  | _ => True

instance (procs : Finset Nat) (s : FutexState) (c : FutexCall) : Decidable (Proper procs s c) := by
  cases c <;> unfold Proper <;> infer_instance

/-- What else a wake or a requeue must find for the processes it wakes not to sleep on. -/
def Timely (procs : Finset Nat) (s : FutexState) : FutexCall → Prop
  | .wake uaddr _ | .requeue uaddr _ _ _ _ => ∀ q ∈ futexFindQ s uaddr, Settled procs s q
  | _ => True

instance (procs : Finset Nat) (s : FutexState) (c : FutexCall) : Decidable (Timely procs s c) := by
  cases c <;> unfold Timely <;> infer_instance

theorem futexStep_inv (hzero : 0 ∉ procs) (s : FutexState) (c : FutexCall) (t : FutexState)
    (h : FutexInv procs s) (hproper : Proper procs s c) (hstep : futexStep procs s c = some t) :
    FutexInv procs t := by
  cases c with
  | wait p uaddr granted word forever =>
    obtain ⟨hcond, rfl⟩ := of_guard hstep
    exact futexWait_inv hzero h hcond.1 hcond.2.1 hcond.2.2 hproper
  | returnEarly p reason | resume p reason =>
    simp only [futexStep] at hstep
    split at hstep
    on_goal 2 => cases hstep
    rename_i q forever hsleep
    obtain ⟨-, rfl⟩ := of_guard hstep
    exact endSleep_inv h hsleep nofun nofun nofun
  | sleep p queued =>
    simp only [futexStep] at hstep
    split at hstep
    on_goal 2 => cases hstep
    exact sleepStep_inv h hstep
  | signal p =>
    cases hstep
    obtain ⟨L, hl, hb, hph⟩ := h
    exact ⟨L, hl.congr rfl rfl, hb.congr rfl rfl rfl rfl,
      hph.unpark rfl rfl rfl (fun _ hr => update_of_ne hr ..) rfl⟩
  | walk p =>
    simp only [futexStep] at hstep
    split at hstep
    on_goal 2 => cases hstep
    rename_i q hended
    obtain ⟨hunlocked, rfl⟩ := of_guard hstep
    exact walk_inv h hended hunlocked
  | unlink p =>
    simp only [futexStep] at hstep
    split at hstep
    on_goal 2 => cases hstep
    rename_i q loc hwalking
    cases hstep
    exact unlink_inv h hwalking
  | account p =>
    obtain ⟨hcond, rfl⟩ := of_guard hstep
    exact futexAccount_inv h hcond.1 hcond.2
  | wake uaddr n =>
    cases hstep
    exact (futexWake_spec n h hproper).1
  | requeue uaddr1 uaddr2 nwake nmove granted =>
    cases hstep
    exact (futexRequeue_spec granted nwake nmove h hproper).1

theorem start_inv (procs : Finset Nat) : FutexInv procs .start := by
  refine ⟨fun _ => [], ⟨fun _ => rfl, fun _ => nodup_nil, ?_⟩, ⟨?_, fun q => ?_, ?_, ?_,
    fun _ => nodup_nil, ?_⟩, ⟨fun _ h => absurd rfl h, fun _ _ => rfl, ?_, ?_, ?_, ?_, ?_⟩⟩
  · nofun
  · nofun
  · exact (Nat.cast_eq_zero.mpr (Finset.sum_eq_zero fun p _ => rfl)).symm
  all_goals nofun

/-- The process is linked once to the queue of the address, and to no other queue. -/
def OnOneQueue (procs : Finset Nat) (s : FutexState) (p uaddr : Nat) : Prop :=
  ∃ q, futexFindQ s uaddr = some q ∧ (linked procs s q).count p = 1 ∧
    ∀ r, r ≠ q → p ∉ linked procs s r

theorem FutexInv.onOneQueue (h : FutexInv procs s) (hp : s.parked p = some uaddr) :
    OnOneQueue procs s p uaddr := by
  obtain ⟨L, hl, hb, hph⟩ := h
  obtain ⟨-, -, q, hq, rfl⟩ := hph.parked p uaddr hp
  refine ⟨q, hb.find (hl.owner q p hq), ?_, fun r hr => ?_⟩
  · rw [hl.linked_eq hb q]
    exact count_eq_one_of_mem (hl.nodup q) hq
  · rw [hl.linked_eq hb r]
    exact fun hmem => hr (hl.unique hmem hq)

/-- **Parked processes are neither lost nor woken in excess.**  Along every run of proper and
timely calls, each parked process is on one futex queue, and the next call, if it is a wake or a
requeue that finds memory for its target, wakes and moves as many of the parked processes as
it asks for and finds, and no others. -/
theorem futex_queues_exact (procs : Finset Nat) (hzero : 0 ∉ procs) (calls : List FutexCall)
    (proper : AllSteps (futexStep procs) (fun s c => Proper procs s c ∧ Timely procs s c) .start
      calls)
    (before after : List FutexCall) (hcalls : calls = before ++ after) (s : FutexState)
    (run : exec (futexStep procs) .start before = some s) :
    (∀ p uaddr, s.parked p = some uaddr → OnOneQueue procs s p uaddr) ∧
    (∀ uaddr n, after.head? = some (.wake uaddr n) →
      WakesExactly procs s uaddr n (futexWake s uaddr n).1 (futexWake s uaddr n).2) ∧
    ∀ uaddr1 uaddr2 nwake nmove, after.head? = some (.requeue uaddr1 uaddr2 nwake nmove true) →
      RequeuesExactly procs s uaddr1 uaddr2 nwake nmove
        (futexRequeue true s uaddr1 uaddr2 nwake nmove).1
        (futexRequeue true s uaddr1 uaddr2 nwake nmove).2.1
        (futexRequeue true s uaddr1 uaddr2 nwake nmove).2.2 := by
  subst hcalls
  have h : FutexInv procs s :=
    exec_invariant (fun s c t h hok => futexStep_inv hzero s c t h hok.1) (start_inv procs)
      proper.left run
  have hnext : ∀ c, after.head? = some c → Proper procs s c ∧ Timely procs s c := by
    intro c hc
    obtain ⟨rest, rfl⟩ := List.head?_eq_some_iff.mp hc
    exact allSteps_iff.mp proper before c rest s rfl run
  refine ⟨fun p uaddr hp => h.onOneQueue hp, fun uaddr n hc => ?_, fun u₁ u₂ w m hc => ?_⟩
  · exact (futexWake_spec n h (hnext _ hc).1).2 (hnext _ hc).2
  · exact (futexRequeue_spec true w m h (hnext _ hc).1).2 rfl (hnext _ hc).2

/-- Processes 1 and 2 wait at 64, process 3 times out there, 2 is woken and 1 moved to 128. -/
def orderlyCalls : List FutexCall :=
  [.wait 1 64 true .expected false, .wait 2 64 true .expected false, .sleep 2 true, .sleep 2 true,
    .sleep 2 true, .wait 3 64 true .expected false, .sleep 3 true, .sleep 3 true, .sleep 3 true,
    .resume 3 .timedOut, .walk 3, .unlink 3, .account 3, .requeue 64 128 1 1 true]

theorem futex_queues_exact_orderly :
    ∃ s, exec (futexStep {1, 2, 3}) .start orderlyCalls.dropLast = some s ∧
      s.parked 1 = some 64 ∧ s.stage 2 = .blocked ∧ (futexRequeue true s 64 128 1 1).2 = (1, 1) ∧
      OnOneQueue {1, 2, 3} s 1 64 ∧
      RequeuesExactly {1, 2, 3} s 64 128 1 1 (futexRequeue true s 64 128 1 1).1 1 1 := by
  refine exists_run (A := fun s => s.parked 1 = some 64 ∧ s.stage 2 = .blocked ∧
    (futexRequeue true s 64 128 1 1).2 = (1, 1)) (by decide +kernel) ?_
  rintro s hrun ⟨h₁, h₂, h₃⟩
  obtain ⟨hqueue, -, hrequeue⟩ := futex_queues_exact {1, 2, 3} (by decide) orderlyCalls
    (by decide +kernel) orderlyCalls.dropLast [.requeue 64 128 1 1 true] rfl s hrun
  have hexact := hrequeue 64 128 1 1 rfl
  rw [h₃] at hexact
  exact ⟨h₁, h₂, h₃, hqueue 1 64 h₁, hexact⟩

/-- Along the same runs a queue that some process names is the one found at its address, so it has
not been removed, and its count is the number of those processes. -/
theorem futex_table_exact (procs : Finset Nat) (hzero : 0 ∉ procs) (calls : List FutexCall)
    (proper : AllSteps (futexStep procs) (Proper procs) .start calls) (s : FutexState)
    (run : exec (futexStep procs) .start calls = some s) :
    (∀ p q, s.futexQ p = some q → futexFindQ s (s.queues q).uaddr = some q) ∧
      ∀ q, (s.queues q).nwaiters = (procs.filter fun p => s.futexQ p = some q).card := by
  obtain ⟨L, -, hb, -⟩ := exec_invariant (futexStep_inv hzero) (start_inv procs) proper run
  refine ⟨fun p q => hb.find, fun q => ?_⟩
  rw [hb.counted, Finset.card_filter]
  rfl

theorem futex_table_exact_orderly : ∃ s, exec (futexStep {1, 2, 3}) .start orderlyCalls = some s ∧
    ∀ p q, s.futexQ p = some q → futexFindQ s (s.queues q).uaddr = some q :=
  exists_run (A := fun _ => True) (by decide +kernel) fun s hs _ =>
    (futex_table_exact _ (by decide) _ (by decide +kernel) s hs).1

/-- Process 1 waits at 128, process 2 at 64 and is requeued to 128: process 1 is on no queue
any more, and waking 128 twice wakes process 2 only. -/
theorem requeue_drops_waiters : ∃ s, exec (futexStep {1, 2}) .start
        [.wait 1 128 true .expected false, .wait 2 64 true .expected false,
          .requeue 64 128 0 1 true] = some s ∧
      s.parked 1 = some 128 ∧ s.parked 2 = some 128 ∧
      (futexFindQ s 128).map (linked {1, 2} s) = some [2] ∧ (futexWake s 128 2).2 = 1 ∧
      (futexWake s 128 2).1.asleep 1 = true :=
  exists_run (by decide +kernel) fun _ _ h => h

end ArcKernel.Uipc
