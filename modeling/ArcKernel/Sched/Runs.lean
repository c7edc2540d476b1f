import ArcKernel.Sched.Invariant

/-!
# What the scheduler keeps

`scheduler_switch` leaves a thread in the state `RUNNING` on two of its paths: a tick before
the end of the slice, and a yield with a reschedule pending.  Unless the same thread is taken
up again it runs nowhere; after the yield it may not even be queued.  A tick at the end of the
slice dequeues by the priority it has just computed, and the return from a system call leaves a
queued thread on the ring of its old priority.  `scheduler_set_nice` enqueues through a null
pointer.

`orderly` is a condition on each call that excludes these, and three more that take a thread
from under a CPU: adding a thread that is queued or current elsewhere, a sleeper sent to
another CPU for want of a place in the sleep queue, and a sleeper woken by a CPU it has left.
-/

namespace ArcKernel.Sched

open ArcKernel.Foundation Function List Scheduler Only

variable {now : BitVec 32} {u s : Scheduler} {call : SchedCall}

/-! ## The next thread -/

/-- The thread is the first of the first ring in use of the CPU's active array. -/
def resumes (s : Scheduler) (c t : Nat) : Bool :=
  match prioArrayFindTop (s.links.arrays (s.active c)) with
  | none => false
  | some top => (s.links.arrays (s.active c)).queue top == t

theorem resumes_iff {c t : Nat} :
    resumes s c t = true ↔ ∃ top, prioArrayFindTop (s.links.arrays (s.active c)) = some top ∧
      (s.links.arrays (s.active c)).queue top = t := by
  rw [resumes]
  cases prioArrayFindTop (s.links.arrays (s.active c)) with
  | none => simp
  | some top => simp

section

variable {R : ArrayRef → Nat → List Nat} {c t : Nat}

section

variable (h : Books s R none)
include h

end

end

/-! ## Moving a thread -/

section

variable {R : ArrayRef → Nat → List Nat} {c t : Nat} {a : ArrayRef}

/-- A queued thread that is current nowhere is ready. -/
theorem ready_of_queued (hbooks : Books s R none) (hplaced : Placed s)
    (ha : s.links.array t = some a) (hcur : (s.cpus a.cpu).current ≠ .thread t) :
    (s.info t).state = .ready ∧ ∀ k, (s.cpus k).current ≠ .thread t := by
  have hnowhere : ∀ k, (s.cpus k).current ≠ .thread t := by
    intro k hk
    have hrq := (hbooks.current k t hk).1
    rw [hbooks.home t a ha] at hrq
    exact hcur (Option.some.inj hrq ▸ hk)
  refine ⟨?_, hnowhere⟩
  rcases hbooks.linked t (by rw [ha]; exact Option.some_ne_none a) with hready | hrunning
  · exact hready
  · obtain ⟨k, -, hk⟩ := hplaced.running t hrunning
    exact absurd hk (hnowhere k)

/-- A thread in hand goes on a ring of its home CPU with new fields. -/
theorem Books.file {i : Info} (h : Books u R (some t)) (hzero : t ≠ 0)
    (hfree : u.links.array t = none) (hbound : i.prio < prioBits ∧ i.staticPrio < prioBits)
    (hcur : ∀ k, (u.cpus k).current = .thread t → i.rq = some k) (hrq : i.rq = some a.cpu)
    (hstate : i.state = .ready ∨ i.state = .running) :
    ∃ R', Books ((u.setInfo t i).enqueue a t i.prio) R' none := by
  have hedit := h.edit hzero hfree hbound hcur fun _ => by rw [hrq]; exact Option.some_ne_none _
  have hself : (u.setInfo t i).info t = i := info_setInfo_self ..
  obtain ⟨R', hon, -⟩ := hedit.enqueue (a := a) hzero hfree (by rw [hself, hrq]) (by rwa [hself])
  rw [hself] at hon
  exact ⟨R', hon⟩

/-- A thread in hand with new fields goes on a ring of its home CPU, as a ready thread. -/
theorem place_inv {i : Info} (hbooks : Books u R (some t)) (hplaced : Placed s) (honly : Only t s u)
    (hzero : t ≠ 0) (hfree : u.links.array t = none)
    (hbound : i.prio < prioBits ∧ i.staticPrio < prioBits)
    (hcur : ∀ k, (u.cpus k).current = .thread t → i.rq = some k) (hrq : i.rq = some a.cpu)
    (hstate : i.state = .ready) : Inv ((u.setInfo t i).enqueue a t i.prio) := by
  obtain ⟨R', hon⟩ := hbooks.file hzero hfree hbound hcur hrq (.inl hstate)
  refine ⟨R', hon, hplaced.only (t := t) ?_ ?_⟩
  · exact (honly.trans (setInfo u t i)).trans (enqueue _ a t _)
  · show ((u.setInfo t i).info t).state ≠ .running
    rw [info_setInfo_self, hstate]
    nofun

/-- Off one ring, on the active array of another CPU. -/
theorem move_inv (hbooks : Books s R none) (hplaced : Placed s) (ha : s.links.array t = some a)
    (hcur : (s.cpus a.cpu).current ≠ .thread t) (d : Nat) :
    Inv (((s.dequeue a t (s.info t).prio).setInfo t
      { s.info t with rq := some d, state := .ready }).enqueue ⟨d, (s.cpus d).active⟩ t
        (s.info t).prio) := by
  obtain ⟨-, hnowhere⟩ := ready_of_queued hbooks hplaced ha hcur
  have hzero : t ≠ 0 := fun heq => hbooks.rings.nonzero a _ (heq ▸ hbooks.mem ha)
  obtain ⟨R₁, hoff, harray⟩ := hbooks.dequeue (.inl rfl) ha
  exact place_inv (i := { s.info t with rq := some d, state := .ready })
    (a := ⟨d, (s.cpus d).active⟩) hoff hplaced (dequeue s a t _) hzero
    (by rw [harray, update_self]) (hbooks.bound t) (fun k hk => absurd hk (hnowhere k)) rfl rfl

/-- A blocked thread is in no ring and not null. -/
theorem Books.blocked (h : Books s R none) (ht : (s.info t).state = .blocked) :
    s.links.array t = none ∧ t ≠ 0 := by
  refine ⟨?_, fun heq => ?_⟩
  · by_contra ha
    rcases h.linked t ha with hst | hst
    all_goals cases ht.symm.trans hst
  · cases (heq ▸ ht).symm.trans h.null

/-- The priority a blocked thread wakes up with. -/
def wokenPrio (i : Info) : Nat :=
  effectivePrio i.staticPrio
    (if i.sleepAvg < maxSleepAvg then min (i.sleepAvg + 10) maxSleepAvg else maxSleepAvg)

/-- The threads a tick of the CPU wakes. -/
def sleepers (s : Scheduler) (c : Nat) (now : BitVec 32) : List Nat :=
  (s.cpus c).sleepQueue.filter fun t => due s now t && decide ((s.info t).state = .blocked)

theorem mem_sleepers : t ∈ sleepers s c now ↔
    t ∈ (s.cpus c).sleepQueue ∧ due s now t = true ∧ (s.info t).state = .blocked := by
  rw [sleepers, mem_filter, Bool.and_eq_true, decide_eq_true_iff]

/-- What the loop over the sleep queue has made of `s` so far: sleepers that were due are queued,
and the running threads are as they were. -/
structure Woken (c : Nat) (now : BitVec 32) (s u : Scheduler) : Prop where
  inv : Inv u
  ncpu : u.ncpu = s.ncpu
  current : ∀ d, (u.cpus d).current = (s.cpus d).current
  active : u.active c = s.active c
  asleep : ∀ t ∈ sleepers u c now, t ∈ sleepers s c now ∧ u.info t = s.info t
  running : ∀ t, (u.info t).state = .running →
    (∃ d, u.info t = { s.info t with sleepUntil := d }) ∧ u.links.array t = s.links.array t
  queued : ∀ t, u.links.array t = some (s.active c) →
    s.links.array t = some (s.active c) ∧ (u.info t).prio = (s.info t).prio ∨
      t ∈ sleepers s c now ∧ (u.info t).prio = wokenPrio (s.info t)
  heads : KeepsHeads (s.active c) s.links u.links

theorem Woken.refl (h : Inv s) : Woken c now s s :=
  ⟨h, rfl, fun _ => rfl, rfl, fun _ ht => ⟨ht, rfl⟩, fun _ _ => ⟨⟨_, rfl⟩, rfl⟩,
    fun _ ht => .inl ⟨ht, rfl⟩, fun _ _ => rfl⟩

/-- One entry of the sleep queue is taken out: a thread that is awake loses its deadline, a
sleeper is queued. -/
theorem Woken.only {w : Scheduler} (h : Woken c now s u) (honly : Only t u w) (hinv : Inv w)
    (hqueue : ∀ y ∈ (w.cpus c).sleepQueue, y ∈ (u.cpus c).sleepQueue)
    (hawake : (w.info t).state ≠ .blocked) (hheads : KeepsHeads (s.active c) u.links w.links)
    (ht : (∃ d, w.info t = { u.info t with sleepUntil := d }) ∧
        w.links.array t = u.links.array t ∨
      (w.info t).state = .ready ∧ t ∈ sleepers u c now ∧
        (w.info t).prio = wokenPrio (u.info t)) : Woken c now s w where
  inv := hinv
  ncpu := honly.ncpu.trans h.ncpu
  current d := (honly.current d).trans (h.current d)
  active := by rw [← h.active, Scheduler.active, honly.active, Scheduler.active]
  asleep y hy := by
    obtain ⟨hmem, hdue, hblocked⟩ := mem_sleepers.mp hy
    have hinfo := honly.info y fun heq => hawake (heq ▸ hblocked)
    rw [due, hinfo] at hdue
    rw [hinfo] at hblocked ⊢
    exact h.asleep y (mem_sleepers.mpr ⟨hqueue y hmem, hdue, hblocked⟩)
  running y hy := by
    by_cases hyt : y = t
    · subst hyt
      rcases ht with ⟨⟨d, hd⟩, harray⟩ | ⟨hready, -⟩
      · rw [hd] at hy
        obtain ⟨⟨e, he⟩, hsame⟩ := h.running y hy
        exact ⟨⟨d, by rw [hd, he]⟩, harray.trans hsame⟩
      · cases hready.symm.trans hy
    · rw [honly.info y hyt] at hy ⊢
      rw [honly.array y hyt]
      exact h.running y hy
  queued y hy := by
    by_cases hyt : y = t
    · subst hyt
      rcases ht with ⟨⟨d, hd⟩, harray⟩ | ⟨-, hmem, hprio⟩
      · rw [hd]
        exact h.queued y (harray ▸ hy)
      · obtain ⟨hmem, hinfo⟩ := h.asleep y hmem
        exact .inr ⟨hmem, hinfo ▸ hprio⟩
    · rw [honly.info y hyt]
      exact h.queued y (honly.array y hyt ▸ hy)
  heads := h.heads.trans hheads

/-- The thread is in no array and on no CPU but the one it would be given to. -/
def addable (s : Scheduler) (t : Nat) : Bool :=
  (s.links.array t).isNone && (range s.ncpu).all fun c =>
    decide ((s.cpus c).current ≠ .thread t) || c == pickLeastLoaded s

/-- A sleeper has a place in the sleep queue, or stays on its CPU without one. -/
def sleepOrderly (s : Scheduler) (c : Nat) (now deadline : BitVec 32) : Bool :=
  match (s.cpus c).current with
  | .thread t =>
      !(now - deadline).msb || decide ((s.cpus c).sleepQueue.length < sleepMax) ||
        pickLeastLoaded (detach s t) == c
  | _ => true

/-- A thread queued with the priority does not come before `t`. -/
def yields (s : Scheduler) (t p : Nat) : Bool :=
  decide ((s.info t).prio < p) || (s.info t).prio == p && (s.links.array t).isSome

/-- The thread is the first of the first ring in use, or in no ring and better than all. -/
def leads (s : Scheduler) (c t : Nat) : Bool :=
  match prioArrayFindTop (s.links.arrays (s.active c)) with
  | none => true
  | some top => if s.links.array t = none then decide ((s.info t).prio < top) else resumes s c t

/-- No thread of the active array comes before `t`. -/
def Before (s : Scheduler) (c t : Nat) : Prop :=
  ∀ v, v ≠ t → s.links.array v = some (s.active c) → (s.info t).prio < (s.info v).prio ∨
    (s.info t).prio = (s.info v).prio ∧ s.links.array t ≠ none ∧
      (s.links.arrays (s.active c)).queue (s.info t).prio = t

theorem Books.resumes (h : Books s R none) (harray : s.links.array t = some (s.active c))
    (hbefore : Before s c t) : resumes s c t = true := by
  obtain ⟨top, hle, htop⟩ := h.rings.exists_top (h.mem harray)
  have hmem := h.rings.top_mem htop
  have hprio := h.prio _ _ _ hmem
  refine resumes_iff.mpr ⟨top, htop, by_contra fun hne => ?_⟩
  rcases hbefore _ hne (h.rings.mem_array hmem) with hlt | ⟨heq, -, hhead⟩
  · omega
  · rw [heq, hprio] at hhead
    exact hne hhead

/-- A thread that leads, and that the sleepers do not come before, still does once they are
awake. -/
theorem Woken.before (h : Woken c now s u) (hbooks : Books s R none)
    (hcur : (s.cpus c).current = .thread t) (ht : (u.info t).state = .running)
    (harray : s.links.array t = none ∨ s.links.array t = some (s.active c))
    (hleads : leads s c t = true)
    (hyields : ∀ y ∈ sleepers s c now, yields s t (wokenPrio (s.info y)) = true) :
    Before u c t := by
  obtain ⟨⟨d, hd⟩, hsame⟩ := h.running t ht
  have hfound : ∀ v, s.links.array v = some (s.active c) →
      ∃ top ≤ (s.info v).prio, prioArrayFindTop (s.links.arrays (s.active c)) = some top :=
    fun v hv => hbooks.rings.exists_top (hbooks.mem hv)
  -- a thread in a ring is its first, and its priority is that of the ring found
  have htop : s.links.array t ≠ none → ∀ top,
      prioArrayFindTop (s.links.arrays (s.active c)) = some top →
      (s.info t).prio = top ∧ (s.links.arrays (s.active c)).queue (s.info t).prio = t := by
    intro hne top htop
    rw [leads, htop] at hleads
    dsimp only at hleads
    rw [if_neg hne] at hleads
    obtain ⟨top', htop', hqueue⟩ := resumes_iff.mp hleads
    cases htop.symm.trans htop'
    have hprio := hbooks.prio _ top t (hqueue ▸ hbooks.rings.top_mem htop)
    exact ⟨hprio, hprio ▸ hqueue⟩
  have hhead : s.links.array t ≠ none → u.links.array t ≠ none ∧
      (u.links.arrays (u.active c)).queue (u.info t).prio = t := by
    intro hne
    obtain ⟨top, -, hfind⟩ := hfound t (harray.resolve_left hne)
    obtain ⟨-, hqueue⟩ := htop hne top hfind
    refine ⟨hsame ▸ hne, ?_⟩
    rw [hd, h.active, h.heads _ (by rw [hqueue]; exact (hbooks.current c t hcur).2)]
    exact hqueue
  intro v hvt hv
  rw [h.active] at hv
  rcases h.queued v hv with ⟨hold, hprio⟩ | ⟨hmem, hprio⟩
  · obtain ⟨top, hle, hfind⟩ := hfound v hold
    rw [hprio, hd]
    by_cases hne : s.links.array t = none
    · rw [leads, hfind] at hleads
      dsimp only at hleads
      rw [if_pos hne] at hleads
      exact .inl ((of_decide_eq_true hleads).trans_le hle)
    · obtain ⟨rfl, -⟩ := htop hne top hfind
      exact (Nat.lt_or_eq_of_le hle).imp_right fun heq => ⟨heq, hd ▸ hhead hne⟩
  · have hy := hyields v hmem
    simp only [yields, Bool.or_eq_true, Bool.and_eq_true, decide_eq_true_eq, beq_iff_eq,
      Option.isSome_iff_ne_none] at hy
    rw [hprio, hd]
    exact hy.imp_right fun ⟨heq, hne⟩ => ⟨heq, hd ▸ hhead hne⟩

/-- The running thread returns from a system call on no ring, at the end of its slice, or with
an unchanged priority. -/
def sysretOrderly (s : Scheduler) (t : Nat) : Bool :=
  (s.links.array t).isNone || decide ((s.info t).timeSlice - 1 = 0) ||
    effectivePrio (s.info t).staticPrio ((s.info t).sleepAvg - 1) == (s.info t).prio

end

/-! ## Every call -/

/-- The running thread is at the end of its slice with an unchanged priority or in no ring, or it
has slice left and no thread that is queued on the CPU, or will be once awake, comes before it. -/
def tickOrderly (s : Scheduler) (c : Nat) (now : BitVec 32) (t : Nat) : Bool :=
  if (s.info t).timeSlice - 1 = 0 then
    (s.links.array t).isNone ||
      effectivePrio (s.info t).staticPrio ((s.info t).sleepAvg - 3) == (s.info t).prio
  else leads s c t && (sleepers s c now).all fun y => yields s t (wokenPrio (s.info y))

/-- What a call must find for the scheduler to stay sound. -/
def orderly (s : Scheduler) : SchedCall → Bool
  | .add t => t == 0 || addable s t
  | .tick c now =>
      ((sleepers s c now).all fun t => decide ((s.info t).rq = some c)) &&
        (runningOn s c).all (tickOrderly s c now)
  | .sysret c => (runningOn s c).all (sysretOrderly s)
  | .yield c resched => !resched || (runningOn s c).all (resumes s c)
  | .sleep c now deadline => sleepOrderly s c now deadline
  | .setNice t _ => (s.links.array t).isNone
  | .block _ | .unblock _ _ | .steal _ | .migrate _ _ => true

section

variable {c t : Nat}

end

theorem start_rings (ncpu : Nat) (online : Nat → Bool) :
    Rings (start ncpu online).links fun _ _ => [] where
  ring _ _ := trivial
  nodup _ _ := nodup_nil
  head _ _ := rfl
  nonzero _ _ := not_mem_nil
  unique _ _ _ _ _ ht := absurd ht not_mem_nil
  array _ _ := ⟨nofun, fun ⟨_, h⟩ => absurd h not_mem_nil⟩
  bounded _ _ h := absurd rfl h
  size _ := rfl
  bit _ p := by
    have hclear : Bitmap.test PrioArray.empty.bitmap p = false := by
      rw [Bitmap.test, PrioArray.empty, getD_eq_getElem?_getD, getElem?_replicate]
      split <;> exact BitVec.getLsbD_zero
    exact ⟨fun h => absurd h (Bool.eq_false_iff.mp hclear), fun h => absurd rfl h⟩
  count _ := by
    rw [total, Finset.sum_eq_zero fun _ _ => length_nil]
    rfl

theorem start_inv (ncpu : Nat) (online : Nat → Bool) : Inv (start ncpu online) := by
  have hunused : ∀ t, ((start ncpu online).info t).state = .unused := fun _ => rfl
  have hidle : ∀ c, ((start ncpu online).cpus c).current = .idle := fun _ => rfl
  refine ⟨fun _ _ => [], ?_, ?_⟩
  · refine ⟨start_rings ncpu online, fun _ _ t ht => absurd ht not_mem_nil, fun t => ?_,
      fun t _ ht => ?_, fun t ht => absurd rfl ht, fun t a ht => ?_, fun c t ht => ?_,
      fun t ht => absurd (hunused t) ht, hunused 0⟩
    · exact (by decide : Info.created.prio < prioBits ∧ Info.created.staticPrio < prioBits)
    · cases (hunused t).symm.trans ht
    · cases ht
    · cases (hidle c).symm.trans ht
  · refine ⟨fun c t ht => ?_, fun t ht => ?_, fun c t ht => ?_⟩
    · cases (hidle c).symm.trans ht
    · cases (hunused t).symm.trans ht
    · cases (hidle c).symm.trans ht

end ArcKernel.Sched
