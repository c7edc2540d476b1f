import ArcKernel.Foundation.Ledger
import ArcKernel.Uipc.Futex

/-!
# The queues of the futexes

Two parts of the invariant, with what the steps do to them.  `Lists`: the waiters of each
queue form a null-terminated list, and a process is on no queue but the one it is counted
on.  `Books`: the count of each queue is the number of processes counted on it, and a queue
somebody is counted on is found under its address.
-/

namespace ArcKernel.Uipc

open ArcKernel.Foundation Function List Loc

variable {t : FutexState} {l : List Nat}

theorem setWaiters_uaddr (s : FutexState) (q : Nat) (n : Int) (k : Nat) :
    ((s.setWaiters q n).queues k).uaddr = (s.queues k).uaddr := by
  rw [FutexState.setWaiters]
  dsimp only
  rw [update_apply]
  split
  · rename_i hk
    rw [hk]
  · rfl

theorem setWaiters_nwaiters (s : FutexState) (q : Nat) (n : Int) (k : Nat) :
    ((s.setWaiters q n).queues k).nwaiters = if k = q then n else (s.queues k).nwaiters := by
  rw [FutexState.setWaiters]
  dsimp only
  rw [update_apply]
  split <;> rfl

/-! ## Lists -/

/-- `L q` are the waiters linked to queue `q`. -/
structure Lists (s : FutexState) (L : Nat → List Nat) : Prop where
  chain : ∀ q, Chain s.ptr (.root q) (L q)
  nodup : ∀ q, (L q).Nodup
  owner : ∀ q p, p ∈ L q → s.futexQ p = some q

section

variable {s : FutexState} {L : Nat → List Nat} {q r p : Nat}

section

variable (h : Lists s L)
include h

theorem Lists.unique (hq : p ∈ L q) (hr : p ∈ L r) : q = r :=
  Option.some.inj ((h.owner q p hq).symm.trans (h.owner r p hr))

/-- The locations of a queue's list are distinct. -/
theorem Lists.simple (q : Nat) : ((root q : Loc Nat) :: (L q).map link).Nodup :=
  simple_of_nodup q (h.nodup q)

/-- A location of one queue's list is not one of another's. -/
theorem Lists.disjoint (hqr : q ≠ r) {x : Loc Nat} (hq : x ∈ (root q : Loc Nat) :: (L q).map link) :
    x ∉ (root r : Loc Nat) :: (L r).map link := by
  intro hr
  rcases mem_cons.mp hq with rfl | hq
  · rcases mem_cons.mp hr with hr | hr
    · exact hqr (root.inj hr)
    · exact root_notMem_links q _ hr
  · obtain ⟨p, hp, rfl⟩ := mem_map.mp hq
    rcases mem_cons.mp hr with hr | hr
    · cases hr
    · exact hqr (h.unique hp (link_mem.mp hr))

/-- An edit of one queue's list. -/
theorem Lists.edit (q : Nat) (hchain : Chain t.ptr (.root q) l) (hnodup : l.Nodup)
    (howner : ∀ p ∈ l, t.futexQ p = some q)
    (hother : ∀ r, r ≠ q → ∀ x ∈ (root r : Loc Nat) :: (L r).map link, t.ptr x = s.ptr x)
    (hfutexQ : ∀ r, r ≠ q → ∀ p ∈ L r, t.futexQ p = s.futexQ p) : Lists t (update L q l) := by
  refine ⟨fun r => ?_, fun r => ?_, fun r p hp => ?_⟩
  all_goals rcases eq_or_ne r q with rfl | hr
  · rw [update_self]
    exact hchain
  · rw [update_of_ne hr]
    exact (h.chain r).congr (hother r hr)
  · rw [update_self]
    exact hnodup
  · rw [update_of_ne hr]
    exact h.nodup r
  · rw [update_self] at hp
    exact howner p hp
  · rw [update_of_ne hr] at hp
    exact (hfutexQ r hr p hp).trans (h.owner r p hp)

/-- Rewriting a location of one queue leaves the lists of the others. -/
theorem Lists.ptr_other {x : Loc Nat} (hx : x ∈ (root q : Loc Nat) :: (L q).map link)
    (v : Nat) (hr : r ≠ q) :
    ∀ y ∈ (root r : Loc Nat) :: (L r).map link, update s.ptr x v y = s.ptr y :=
  fun y hy => update_of_ne (fun hyx : y = x => h.disjoint hr hy (hyx ▸ hx)) ..

/-- A process takes itself off the queue. -/
theorem Lists.unlink {a b : List Nat} (hL : L q = a ++ p :: b)
    (hptr : t.ptr = update s.ptr (endLoc (.root q) a) (s.ptr (.link p)))
    (hfutexQ : ∀ r, r ≠ p → t.futexQ r = s.futexQ r) : Lists t (update L q (a ++ b)) := by
  have hsub : List.Sublist (a ++ b) (L q) := by
    rw [hL]
    exact List.Sublist.append_left (sublist_cons_self p b) a
  have hchain := h.chain q
  have hsimple := h.simple q
  have hnodup := h.nodup q
  rw [hL] at hchain hsimple hnodup
  have hp : p ∉ a ++ b := nodup_middle.mp hnodup |> nodup_cons.mp |>.1
  have hloc : endLoc (.root q) a ∈ (root q : Loc Nat) :: (L q).map link := by
    rw [hL, map_append]
    exact mem_append_left _ (endLoc_mem _ a)
  refine h.edit q (hptr ▸ hchain.unlink hsimple) ((h.nodup q).sublist hsub) (fun r hr => ?_)
    (fun r hr => hptr ▸ h.ptr_other hloc _ hr) fun r hr k hk => hfutexQ k ?_
  · exact (hfutexQ r fun h' => hp (h' ▸ hr)).trans (h.owner q r (hsub.subset hr))
  · rintro rfl
    exact hr (h.unique hk (hL ▸ mem_append_right _ mem_cons_self))

/-- The first waiter is taken off the queue. -/
theorem Lists.pop {w : Nat} (hL : L q = w :: l)
    (hptr : t.ptr = update (update s.ptr (.root q) (s.ptr (.link w))) (.link w) 0)
    (hfutexQ : ∀ r, r ≠ w → t.futexQ r = s.futexQ r) : Lists t (update L q l) := by
  have hchain := h.chain q
  have hsimple := h.simple q
  have hnodup := h.nodup q
  rw [hL] at hchain hsimple hnodup
  obtain ⟨hw, hl⟩ := nodup_cons.mp hnodup
  refine h.edit q (hptr ▸ hchain.pop hsimple) hl (fun r hr => ?_) (fun r hr x hx => ?_)
    fun r hr k hk => hfutexQ k ?_
  · exact (hfutexQ r fun h' => hw (h' ▸ hr)).trans (h.owner q r (hL ▸ mem_cons_of_mem w hr))
  · have hroot := h.disjoint hr hx
    rw [hptr, update_of_ne, update_of_ne]
    · rintro rfl
      exact hroot mem_cons_self
    · rintro rfl
      exact hroot (mem_cons_of_mem _ (link_mem.mpr (hL ▸ mem_cons_self)))
  · rintro rfl
    exact hr (h.unique hk (hL ▸ mem_cons_self))

/-- A process that is on no queue is linked at the front of one. -/
theorem Lists.push (hp : p ≠ 0) (hfree : s.futexQ p = none)
    (hptr : t.ptr = update (update s.ptr (.link p) (s.ptr (.root q))) (.root q) p)
    (hself : t.futexQ p = some q) (hfutexQ : ∀ r, r ≠ p → t.futexQ r = s.futexQ r) :
    Lists t (update L q (p :: L q)) := by
  have hnone : ∀ r, p ∉ L r := fun r hr => nomatch hfree.symm.trans (h.owner r p hr)
  have hfresh : ∀ r, (link p : Loc Nat) ∉ (root r : Loc Nat) :: (L r).map link := by
    rintro r (_ | ⟨_, hmem⟩)
    exact hnone r (link_mem.mp hmem)
  refine h.edit q (hptr ▸ (h.chain q).push hp (hfresh q) (root_notMem_links q _))
    (nodup_cons.mpr ⟨hnone q, h.nodup q⟩) (fun r hr => ?_) (fun r hr x hx => ?_)
    fun r hr k hk => hfutexQ k ?_
  · rcases mem_cons.mp hr with rfl | hr
    · exact hself
    · exact (hfutexQ r fun h' => hnone q (h' ▸ hr)).trans (h.owner q r hr)
  · rw [hptr, update_of_ne, update_of_ne]
    · rintro rfl
      exact hfresh r hx
    · rintro rfl
      exact h.disjoint hr hx mem_cons_self
  · rintro rfl
    exact hnone r hk

/-- The first waiter of one queue is stored behind the list of another. -/
theorem Lists.move {q₁ q₂ w : Nat} (hne : q₁ ≠ q₂) (hL : L q₁ = w :: l)
    (hptr : t.ptr = update (update (update s.ptr (.root q₁)
      (s.ptr (.link w))) (.link w) 0) (endLoc (.root q₂) (L q₂)) w) (hself : t.futexQ w = some q₂)
    (hfutexQ : ∀ r, r ≠ w → t.futexQ r = s.futexQ r) :
    Lists t (update (update L q₁ l) q₂ (L q₂ ++ [w])) := by
  -- the pop, then the store at the end of the other list
  have hw₂ : w ∉ L q₂ := fun hw => hne (h.unique (hL ▸ mem_cons_self) hw)
  have hw : w ≠ 0 := (h.chain q₁).ne_zero w (hL ▸ mem_cons_self)
  have hpop := h.pop hL (t := { s with
    ptr := update (update s.ptr (.root q₁) (s.ptr (.link w))) (.link w) 0 }) rfl
    fun _ _ => rfl
  have hend : endLoc (.root q₂) (L q₂) ∈ (root q₂ : Loc Nat) :: (L q₂).map link := endLoc_mem _ _
  have hL₂ : update L q₁ l q₂ = L q₂ := update_of_ne (Ne.symm hne) ..
  have hlink : (link w : Loc Nat) ≠ endLoc (.root q₂) (L q₂) := by
    intro heq
    rcases mem_cons.mp (heq ▸ hend) with h' | h'
    · cases h'
    · exact hw₂ (link_mem.mp h')
  refine hpop.edit q₂ ?_ ?_ (fun r hr => ?_) (fun r hr x hx => ?_) fun r hr k hk => hfutexQ k ?_
  · have hchain := hpop.chain q₂
    have hsimple := hpop.simple q₂
    rw [hL₂] at hchain hsimple
    rw [hptr]
    obtain ⟨hpath, -⟩ := chain_append.mp ((append_nil (L q₂)).symm ▸ hchain)
    refine chain_append.mpr ⟨hpath.update_end w hsimple, update_self .., hw, ?_⟩
    show update _ _ _ _ = 0
    rw [update_of_ne hlink, update_self]
  · exact nodup_append.mpr ⟨h.nodup q₂, nodup_singleton w, fun a ha b hb hab =>
      hw₂ (by rw [mem_singleton.mp hb] at hab; exact hab ▸ ha)⟩
  · rcases mem_append.mp hr with hr | hr
    · exact (hfutexQ r fun h' => hw₂ (h' ▸ hr)).trans (h.owner q₂ r hr)
    · rw [mem_singleton.mp hr]
      exact hself
  · rw [hptr, update_of_ne]
    rintro rfl
    exact hpop.disjoint hr hx (hL₂.symm ▸ hend)
  · rintro rfl
    rcases eq_or_ne r q₁ with rfl | hr₁
    · rw [update_self] at hk
      have := h.nodup r
      rw [hL] at this
      exact (nodup_cons.mp this).1 hk
    · rw [update_of_ne hr₁] at hk
      exact hr₁ (h.unique hk (hL ▸ mem_cons_self))

/-- The lists depend on the pointers and the owners only. -/
theorem Lists.congr (hptr : t.ptr = s.ptr) (hfutexQ : t.futexQ = s.futexQ) : Lists t L :=
  ⟨fun q => hptr ▸ h.chain q, h.nodup, fun q p hp => hfutexQ ▸ h.owner q p hp⟩

end

end

/-! ## Books -/

/-- What a process counted on `o` adds to the count of `q`. -/
def counts (q : Nat) (o : Option Nat) : Nat := if o = some q then 1 else 0

@[simp] theorem counts_none (q : Nat) : counts q none = 0 := rfl

@[simp] theorem counts_self (q : Nat) : counts q (some q) = 1 := if_pos rfl

theorem counts_ne {q r : Nat} (h : r ≠ q) : counts q (some r) = 0 :=
  if_neg fun h' => h (Option.some.inj h')

structure Books (procs : Finset Nat) (s : FutexState) : Prop where
  member : ∀ p q, s.futexQ p = some q → p ∈ procs
  counted : ∀ q, (s.queues q).nwaiters = (∑ p ∈ procs, counts q (s.futexQ p) : Nat)
  registered : ∀ p q, s.futexQ p = some q → q ∈ s.buckets (futexHash (s.queues q).uaddr)
  bucket : ∀ i q, q ∈ s.buckets i → q < s.made ∧ futexHash (s.queues q).uaddr = i
  distinct : ∀ i, (s.buckets i).Nodup
  single : ∀ i q r, q ∈ s.buckets i → r ∈ s.buckets i →
    (s.queues q).uaddr = (s.queues r).uaddr → q = r

section

variable {procs : Finset Nat} {s : FutexState} {p q q₁ q₂ uaddr : Nat}

section

variable (h : Books procs s)
include h

theorem Books.findQ_eq_some : futexFindQ s uaddr = some q ↔
      q ∈ s.buckets (futexHash uaddr) ∧ (s.queues q).uaddr = uaddr := by
  constructor
  · intro hfind
    exact ⟨mem_of_find?_eq_some hfind, by simpa using List.find?_some hfind⟩
  · rintro ⟨hmem, haddr⟩
    cases hfind : futexFindQ s uaddr with
    | none => exact absurd haddr (by simpa using List.find?_eq_none.mp hfind q hmem)
    | some r =>
      have hr : (s.queues r).uaddr = uaddr := by simpa using List.find?_some hfind
      rw [h.single _ r q (mem_of_find?_eq_some hfind) hmem (hr.trans haddr.symm)]

/-- A queue somebody is counted on is found under its address. -/
theorem Books.find (hp : s.futexQ p = some q) :
    futexFindQ s (s.queues q).uaddr = some q := h.findQ_eq_some.mpr ⟨h.registered p q hp, rfl⟩

/-- The count after one process is counted elsewhere. -/
theorem Books.recount (hp : p ∈ procs) (o : Option Nat) (q : Nat) :
    ((∑ r ∈ procs, counts q (update s.futexQ p o r) : Nat) : Int) =
      (s.queues q).nwaiters - counts q (s.futexQ p) + counts q o := by
  have hledger := ledger_update procs s.futexQ (counts q) hp o
  have hcount := h.counted q
  omega

theorem Books.counted_le (hp : s.futexQ p = some q) : 1 ≤ (s.queues q).nwaiters := by
  have hle := le_ledger procs s.futexQ (counts q) (h.member p q hp)
  have hcount := h.counted q
  rw [hp, counts_self] at hle
  omega

/-- The books depend on the queues, the buckets and the owners only. -/
theorem Books.congr (hqueues : t.queues = s.queues) (hbuckets : t.buckets = s.buckets)
    (hmade : t.made = s.made) (hfutexQ : t.futexQ = s.futexQ) : Books procs t := by
  obtain ⟨tq, tm, tb, _, tf, _, _, _, _⟩ := t
  obtain rfl : tq = s.queues := hqueues
  obtain rfl : tb = s.buckets := hbuckets
  obtain rfl : tm = s.made := hmade
  obtain rfl : tf = s.futexQ := hfutexQ
  exact { h with }

/-- Owners and counts change together; addresses and buckets stay. -/
theorem Books.recounted (hp : p ∈ procs) (o : Option Nat)
    (ho : ∀ q, o = some q → q ∈ s.buckets (futexHash (s.queues q).uaddr))
    (hfutexQ : t.futexQ = update s.futexQ p o)
    (haddr : ∀ q, (t.queues q).uaddr = (s.queues q).uaddr)
    (hcounts : ∀ q, (t.queues q).nwaiters =
      (s.queues q).nwaiters - counts q (s.futexQ p) + counts q o) (hbuckets : t.buckets = s.buckets)
    (hmade : t.made = s.made) : Books procs t := by
  refine ⟨fun r q hr => ?_, fun q => ?_, fun r q hr => ?_, fun i q hq => ?_, fun i => ?_,
    fun i q r hq hr heq => ?_⟩
  · rw [hfutexQ, update_apply] at hr
    split at hr
    · rename_i hrp
      exact hrp ▸ hp
    · exact h.member r q hr
  · rw [hcounts, hfutexQ, h.recount hp]
  · rw [haddr, hbuckets]
    rw [hfutexQ, update_apply] at hr
    split at hr
    · exact ho q hr
    · exact h.registered r q hr
  · rw [hbuckets] at hq
    rw [haddr, hmade]
    exact h.bucket i q hq
  · rw [hbuckets]
    exact h.distinct i
  · rw [hbuckets] at hq hr
    rw [haddr, haddr] at heq
    exact h.single i q r hq hr heq

/-- A process is counted on a queue. -/
theorem Books.count (hp : p ∈ procs) (hnone : s.futexQ p = none)
    (hq : q ∈ s.buckets (futexHash (s.queues q).uaddr))
    (hfutexQ : t.futexQ = update s.futexQ p (some q))
    (hqueues : t.queues = (s.setWaiters q ((s.queues q).nwaiters + 1)).queues)
    (hbuckets : t.buckets = s.buckets) (hmade : t.made = s.made) : Books procs t := by
  refine h.recounted hp (some q) (fun k hk => Option.some.inj hk ▸ hq) hfutexQ
    (fun k => hqueues ▸ setWaiters_uaddr ..) (fun k => ?_) hbuckets hmade
  rw [hqueues, setWaiters_nwaiters, hnone, counts_none]
  rcases eq_or_ne k q with rfl | hk
  · simp
  · simp [hk, counts_ne (Ne.symm hk)]

/-- A process is counted no more. -/
theorem Books.uncount (howner : s.futexQ p = some q)
    (hfutexQ : t.futexQ = update s.futexQ p none)
    (hqueues : t.queues = (s.setWaiters q ((s.queues q).nwaiters - 1)).queues)
    (hbuckets : t.buckets = s.buckets) (hmade : t.made = s.made) : Books procs t := by
  refine h.recounted (h.member p q howner) none nofun hfutexQ
    (fun k => hqueues ▸ setWaiters_uaddr ..) (fun k => ?_) hbuckets hmade
  rw [hqueues, setWaiters_nwaiters, howner, counts_none]
  rcases eq_or_ne k q with rfl | hk
  · simp
  · simp [hk, counts_ne (Ne.symm hk)]

/-- A queue nobody is counted on is taken out of its bucket. -/
theorem Books.remove (hnone : ∀ p, s.futexQ p ≠ some q) : Books procs (futexRemoveQ s q) := by
  have hmem : ∀ {i r}, r ∈ (futexRemoveQ s q).buckets i → r ∈ s.buckets i := by
    intro i r hr
    rw [futexRemoveQ] at hr
    dsimp only at hr
    rw [update_apply] at hr
    split at hr
    · rename_i hi
      exact hi ▸ mem_of_mem_erase hr
    · exact hr
  refine ⟨h.member, h.counted, fun p r hp => ?_, fun i r hr => h.bucket i r (hmem hr), fun i => ?_,
    fun i a b ha hb => h.single i a b (hmem ha) (hmem hb)⟩
  · have hr := h.registered p r hp
    have hne : r ≠ q := fun hrq => hnone p (hrq ▸ hp)
    rw [futexRemoveQ]
    dsimp only
    rw [update_apply]
    split
    · rename_i hi
      rw [hi] at hr
      exact (mem_erase_of_ne hne).mpr hr
    · exact hr
  · rw [futexRemoveQ]
    dsimp only
    rw [update_apply]
    split
    · exact (h.distinct _).erase q
    · exact h.distinct i

/-- `futex_find_q` with `create`: the queue is there under its address, and nothing else has
changed but a fresh queue. -/
theorem Books.create {granted : Bool} (hcreate : futexCreateQ granted s uaddr = some (t, q)) :
    Books procs t ∧ futexFindQ t uaddr = some q ∧ t.futexQ = s.futexQ ∧ t.asleep = s.asleep ∧
      t.phase = s.phase ∧ t.stage = s.stage ∧ t.parked = s.parked ∧
      (t = s ∨ q = s.made ∧ t.ptr = update s.ptr (.root q) 0 ∧ futexFindQ s uaddr = none) ∧
      ∀ r, r ≠ q → t.queues r = s.queues r := by
  unfold futexCreateQ at hcreate
  split at hcreate
  · rename_i r hfind
    cases hcreate
    exact ⟨h, hfind, rfl, rfl, rfl, rfl, rfl, .inl rfl, fun _ _ => rfl⟩
  rename_i hfind
  split at hcreate
  on_goal 2 => cases hcreate
  cases hcreate
  have hold : ∀ i r, r ∈ s.buckets i → r ≠ s.made := fun i r hr => Nat.ne_of_lt (h.bucket i r hr).1
  have howned : ∀ p r, s.futexQ p = some r → r ≠ s.made := fun p r hp =>
    hold _ r (h.registered p r hp)
  have hmem : ∀ i r, r ∈ update s.buckets (futexHash uaddr)
      (s.made :: s.buckets (futexHash uaddr)) i ↔
      r ∈ s.buckets i ∨ r = s.made ∧ i = futexHash uaddr := by
    intro i r
    rw [update_apply]
    split
    · rename_i hi
      subst hi
      rw [mem_cons]
      tauto
    · tauto
  have hbooks : Books procs { s with
      made := s.made + 1
      queues := update s.queues s.made ⟨uaddr, 0⟩
      ptr := update s.ptr (.root s.made) 0
      buckets := update s.buckets (futexHash uaddr) (s.made :: s.buckets (futexHash uaddr)) } := by
    refine ⟨h.member, fun r => ?_, fun p r hp => ?_, fun i r hr => ?_, fun i => ?_,
      fun i a b ha hb heq => ?_⟩
    · dsimp only
      rcases eq_or_ne r s.made with rfl | hr
      · rw [update_self]
        refine (Nat.cast_eq_zero.mpr (Finset.sum_eq_zero fun p _ => ?_)).symm
        exact if_neg fun hp => howned p s.made hp rfl
      · rw [update_of_ne hr]
        exact h.counted r
    · dsimp only
      rw [update_of_ne (howned p r hp)]
      exact (hmem _ r).mpr (.inl (h.registered p r hp))
    · dsimp only at hr ⊢
      rcases (hmem i r).mp hr with hr | ⟨rfl, rfl⟩
      · rw [update_of_ne (hold i r hr)]
        exact ⟨Nat.lt_succ_of_lt (h.bucket i r hr).1, (h.bucket i r hr).2⟩
      · rw [update_self]
        exact ⟨Nat.lt_succ_self _, rfl⟩
    · dsimp only
      rw [update_apply]
      split
      · refine nodup_cons.mpr ⟨fun hmade => ?_, h.distinct _⟩
        exact hold _ _ hmade rfl
      · exact h.distinct i
    · dsimp only at ha hb heq
      -- nothing in the bucket had the address of the new queue
      have hnew : ∀ r, r ∈ s.buckets (futexHash uaddr) → (s.queues r).uaddr ≠ uaddr := fun r hr =>
        by simpa using List.find?_eq_none.mp hfind r hr
      rcases (hmem i a).mp ha with ha | ⟨rfl, rfl⟩
      · rw [update_of_ne (hold i a ha)] at heq
        rcases (hmem i b).mp hb with hb | ⟨rfl, rfl⟩
        · rw [update_of_ne (hold i b hb)] at heq
          exact h.single i a b ha hb heq
        · rw [update_self] at heq
          exact absurd heq (hnew a ha)
      · rcases (hmem _ b).mp hb with hb | ⟨rfl, -⟩
        · rw [update_self, update_of_ne (hold _ b hb)] at heq
          exact absurd heq.symm (hnew b hb)
        · rfl
  refine ⟨hbooks, hbooks.findQ_eq_some.mpr ⟨?_, ?_⟩, rfl, rfl, rfl, rfl, rfl,
    .inr ⟨rfl, rfl, hfind⟩, fun r hr => update_of_ne hr ..⟩
  · exact (hmem _ _).mpr (.inr ⟨rfl, rfl⟩)
  · dsimp only
    rw [update_self]

end

end

end ArcKernel.Uipc
