import ArcKernel.Foundation.Run
import ArcKernel.Sched.Model

/-!
# The invariant of the scheduler

`Books` is what holds of every thread at every point inside a call, except that one thread may
be in hand: taken off its ring and not yet put on another.  The lemmas about it are one for
each thing a call does with a thread: take it off, change its fields, put it on a ring.
`Placed` says where running threads are.
-/

namespace ArcKernel.Sched

open ArcKernel.Foundation Function List Option Scheduler

/-- The rings are those of the recorded priorities, and every thread is where its state says,
but for the one in hand. -/
structure Books (s : Scheduler) (R : ArrayRef → Nat → List Nat) (hand : Option Nat) : Prop where
  rings : Rings s.links R
  prio : ∀ a p t, t ∈ R a p → (s.info t).prio = p
  bound : ∀ t, (s.info t).prio < prioBits ∧ (s.info t).staticPrio < prioBits
  ready : ∀ t, hand ≠ some t → (s.info t).state = .ready → s.links.array t ≠ none
  linked : ∀ t, s.links.array t ≠ none → (s.info t).state = .ready ∨ (s.info t).state = .running
  home : ∀ t a, s.links.array t = some a → (s.info t).rq = some a.cpu
  current : ∀ c t, (s.cpus c).current = .thread t → (s.info t).rq = some c ∧ t ≠ 0
  known : ∀ t, (s.info t).state ≠ .unused → (s.info t).rq ≠ none
  null : (s.info 0).state = .unused

/-- A running thread is current on a CPU, and queued there in the active array if at all. -/
structure Placed (s : Scheduler) : Prop where
  cpu : ∀ c t, (s.cpus c).current = .thread t → c < s.ncpu
  running : ∀ t, (s.info t).state = .running → ∃ c < s.ncpu, (s.cpus c).current = .thread t
  active : ∀ c t, (s.cpus c).current = .thread t → (s.info t).state = .running →
    s.links.array t = none ∨ s.links.array t = some (s.active c)

def Inv (s : Scheduler) : Prop := ∃ R, Books s R none ∧ Placed s

section

variable {s u : Scheduler} {R : ArrayRef → Nat → List Nat} {hand : Option Nat} {t : Nat}
  {a : ArrayRef} {i : Info}

theorem Books.mem (h : Books s R hand) (ha : s.links.array t = some a) :
    t ∈ R a (s.info t).prio := by
  obtain ⟨p, hp⟩ := (h.rings.array a t).mp ha
  rwa [h.prio a p t hp]

theorem Books.hold (h : Books s R none) (t : Nat) : Books s R (some t) :=
  { h with ready := fun u _ hu => h.ready u nofun hu }

/-- A thread in hand that need not be on a ring is let go. -/
theorem Books.release (h : Books s R (some t)) (ht : (s.info t).state ≠ .ready) : Books s R none :=
  { h with ready := fun u _ hu => h.ready u (fun heq => ht (some.inj heq ▸ hu)) hu }

/-- The links of one thread change, and the ring it is in or was in. -/
theorem Books.relink (h : Books s R hand) {k : Links} {p : Nat} {l : List Nat}
    {x : Option ArrayRef} {hand' : Option Nat} (hrings : Rings k (setRing R a p l))
    (harray : k.array = update s.links.array t x) (hl : ∀ u ∈ l, (s.info u).prio = p)
    (hhand : ∀ u, u ≠ t → hand ≠ some u) (hself : hand' ≠ some t → x ≠ none)
    (hlinked : x ≠ none → (s.info t).state = .ready ∨ (s.info t).state = .running)
    (hhome : ∀ b, x = some b → (s.info t).rq = some b.cpu) :
    Books { s with links := k } (setRing R a p l) hand' := by
  refine ⟨hrings, ?_, h.bound, ?_, ?_, ?_, h.current, h.known, h.null⟩
  · exact forall_setRing (P := fun _ q l => ∀ u ∈ l, (s.info u).prio = q) hl fun b q _ => h.prio b q
  all_goals
    rw [harray]
  · exact (forall_update_iff _ fun u (y : Option ArrayRef) =>
      hand' ≠ some u → (s.info u).state = .ready → y ≠ none).mpr
      ⟨fun ht _ => hself ht, fun u hu _ => h.ready u (hhand u hu)⟩
  · exact (forall_update_iff _ fun u (y : Option ArrayRef) =>
      y ≠ none → (s.info u).state = .ready ∨ (s.info u).state = .running).mpr
      ⟨hlinked, fun u _ => h.linked u⟩
  · exact (forall_update_iff _ fun u (y : Option ArrayRef) =>
        ∀ b, y = some b → (s.info u).rq = some b.cpu).mpr
      ⟨hhome, fun u _ => h.home u⟩

/-- Taking a thread off its ring, by its recorded array and priority. -/
theorem Books.dequeue (h : Books s R hand) (hhand : hand = none ∨ hand = some t)
    (ha : s.links.array t = some a) :
    ∃ R', Books (s.dequeue a t (s.info t).prio) R' (some t) ∧
      (s.dequeue a t (s.info t).prio).links.array = update s.links.array t none := by
  have harray : (s.dequeue a t (s.info t).prio).links.array = update s.links.array t none := by
    unfold Scheduler.dequeue prioArrayDequeue
    split <;> rfl
  refine ⟨_, h.relink (h.rings.dequeue (h.mem ha)) harray (fun u hu => ?_) (fun u hut heq => ?_)
    (fun hne => absurd rfl hne) (fun hne => absurd rfl hne) nofun, harray⟩
  · exact h.prio a _ u (mem_of_mem_erase hu)
  · rcases hhand with hnone | hsome
    · cases hnone.symm.trans heq
    · exact hut (some.inj (hsome.symm.trans heq)).symm

/-- The fields of one thread change. -/
theorem Books.setInfo (h : Books s R hand) (hprio : ∀ b p, t ∈ R b p → i.prio = p)
    (hbound : i.prio < prioBits ∧ i.staticPrio < prioBits)
    (hready : hand ≠ some t → i.state = .ready → s.links.array t ≠ none)
    (hlinked : s.links.array t ≠ none → i.state = .ready ∨ i.state = .running)
    (hhome : ∀ b, s.links.array t = some b → i.rq = some b.cpu)
    (hcurrent : ∀ c, (s.cpus c).current = .thread t → i.rq = some c ∧ t ≠ 0)
    (hknown : i.state ≠ .unused → i.rq ≠ none) (hnull : 0 = t → i.state = .unused) :
    Books (s.setInfo t i) R hand := by
  refine ⟨h.rings, fun b p => ?_, ?_, ?_, ?_, ?_, fun c => ?_, ?_, ?_⟩
  · exact (forall_update_iff _ fun u (j : Info) => u ∈ R b p → j.prio = p).mpr
      ⟨hprio b p, fun u _ => h.prio b p u⟩
  · exact (forall_update_iff _ fun _ (j : Info) => j.prio < prioBits ∧ j.staticPrio < prioBits).mpr
      ⟨hbound, fun u _ => h.bound u⟩
  · exact (forall_update_iff _ fun u (j : Info) =>
      hand ≠ some u → j.state = .ready → s.links.array u ≠ none).mpr ⟨hready, fun u _ => h.ready u⟩
  · exact (forall_update_iff _ fun u (j : Info) =>
      s.links.array u ≠ none → j.state = .ready ∨ j.state = .running).mpr
      ⟨hlinked, fun u _ => h.linked u⟩
  · exact (forall_update_iff _ fun u (j : Info) =>
        ∀ b, s.links.array u = some b → j.rq = some b.cpu).mpr
      ⟨hhome, fun u _ => h.home u⟩
  · exact (forall_update_iff _ fun u (j : Info) =>
      (s.cpus c).current = .thread u → j.rq = some c ∧ u ≠ 0).mpr
      ⟨hcurrent c, fun u _ => h.current c u⟩
  · exact (forall_update_iff _ fun _ (j : Info) => j.state ≠ .unused → j.rq ≠ none).mpr
      ⟨hknown, fun u _ => h.known u⟩
  · by_cases h0 : 0 = t
    · subst h0
      exact hnull rfl
    · rw [s.info_setInfo_of_ne i h0]
      exact h.null

/-- Changing the fields of a thread in hand. -/
theorem Books.edit (h : Books s R (some t)) (hzero : t ≠ 0) (hfree : s.links.array t = none)
    (hbound : i.prio < prioBits ∧ i.staticPrio < prioBits)
    (hcurrent : ∀ c, (s.cpus c).current = .thread t → i.rq = some c)
    (hknown : i.state ≠ .unused → i.rq ≠ none) : Books (s.setInfo t i) R (some t) :=
  h.setInfo (fun _ _ ht => absurd ht (h.rings.notMem_of_array hfree)) hbound
    (fun hne => absurd rfl hne) (fun hne => absurd hfree hne)
    (fun _ hb => nomatch hfree.symm.trans hb) (fun c hc => ⟨hcurrent c hc, hzero⟩) hknown
    fun h0 => absurd h0.symm hzero

/-- Changing fields that have no part in where a thread is queued. -/
theorem Books.retouch (h : Books s R hand) (hrq : i.rq = (s.info t).rq)
    (hprio : i.prio = (s.info t).prio) (hstatic : i.staticPrio = (s.info t).staticPrio)
    (hstate : i.state = (s.info t).state ∨ s.links.array t ≠ none ∧ i.state = .ready ∨
      s.links.array t ≠ none ∧ i.state = .running) : Books (s.setInfo t i) R hand := by
  have hsplit : i.state = (s.info t).state ∨
      s.links.array t ≠ none ∧ (i.state = .ready ∨ i.state = .running) :=
    hstate.imp_right fun hq => hq.elim (fun h => ⟨h.1, .inl h.2⟩) fun h => ⟨h.1, .inr h.2⟩
  have hqueued : s.links.array t ≠ none → (s.info t).rq ≠ none ∧ t ≠ 0 := by
    intro ha
    obtain ⟨b, hb⟩ := ne_none_iff_exists'.mp ha
    exact ⟨h.home t b hb ▸ some_ne_none _, fun h0 => h.rings.nonzero b _ (h0 ▸ h.mem hb)⟩
  refine h.setInfo (fun b p hp => hprio.trans (h.prio b p t hp))
    (by rw [hprio, hstatic]; exact h.bound t)
    (fun hhand hr => ?_) (fun ha => ?_) (fun b hb => hrq.trans (h.home t b hb))
    (fun c hc => hrq ▸ h.current c t hc) (fun hu => ?_) fun h0 => ?_
  all_goals rcases hsplit with hsame | ⟨harr, hrun⟩
  · exact h.ready t hhand (hsame ▸ hr)
  · exact harr
  · exact hsame ▸ h.linked t ha
  · exact hrun
  · exact hrq ▸ h.known t (hsame ▸ hu)
  · exact hrq ▸ (hqueued harr).1
  · exact hsame.trans (h0 ▸ h.null)
  · exact absurd h0.symm (hqueued harr).2

/-- Putting the thread in hand on a ring of its home CPU. -/
theorem Books.enqueue (h : Books s R (some t)) (hzero : t ≠ 0) (hfree : s.links.array t = none)
    (hhome : (s.info t).rq = some a.cpu)
    (hstate : (s.info t).state = .ready ∨ (s.info t).state = .running) :
    ∃ R', Books (s.enqueue a t (s.info t).prio) R' none ∧
      (s.enqueue a t (s.info t).prio).links.array = update s.links.array t (some a) := by
  have harray : (s.enqueue a t (s.info t).prio).links.array = update s.links.array t (some a) := by
    unfold Scheduler.enqueue prioArrayEnqueue
    dsimp only
    split <;> rfl
  refine ⟨_, h.relink (h.rings.enqueue hzero hfree (h.bound t).1) harray (fun u hu => ?_)
    (fun u hut heq => hut (some.inj heq).symm) (fun _ => some_ne_none a) (fun _ => hstate)
    (fun b hb => some.inj hb ▸ hhome), harray⟩
  rcases mem_append.mp hu with hu | hu
  · exact h.prio a _ u hu
  · rw [mem_singleton.mp hu]

/-- A change of the arrays' roles, the sleep queue or of who is current, for a thread of the
CPU. -/
theorem Books.setCpu (h : Books s R hand) {c : Nat} {q : Cpu}
    (hq : ∀ t, q.current = .thread t → (s.info t).rq = some c ∧ t ≠ 0) :
    Books (s.setCpu c q) R hand := by
  refine { h with current := fun d t ht => ?_ }
  by_cases hd : d = c
  · subst hd
    rw [cpus_setCpu_self] at ht
    exact hq t ht
  · rw [cpus_setCpu_of_ne s q hd] at ht
    exact h.current d t ht

/-- `context_switch` takes the first thread of a ring and makes it run. -/
theorem Books.take (h : Books s R none) {p : Nat} {rest : List Nat} (hring : R a p = t :: rest)
    (hi : i = { s.info t with state := .running }) :
    ∃ R', Books ({ s with links := takeNext s.links a p }.setInfo t i) R' none ∧
      (takeNext s.links a p).array =
        update s.links.array t (if rest = [] then none else some a) := by
  have ht : t ∈ R a p := hring ▸ mem_cons_self
  have hrings := h.rings.take hring
  have hhead : (s.links.arrays a).queue p = t := by rw [h.rings.head, hring]; rfl
  have harray : (takeNext s.links a p).array =
      update s.links.array t (if rest = [] then none else some a) := by
    have hself := ((h.rings.ring a p).next_eq_self_iff (h.rings.nodup a p) ht)
    unfold takeNext
    dsimp only
    rw [hhead]
    by_cases hrest : rest = []
    · rw [if_pos (hself.mpr (hrest ▸ hring)), if_pos hrest]
    · rw [if_neg fun hnext => hrest (List.cons.inj (hring.symm.trans (hself.mp hnext))).2,
        if_neg hrest]
  -- nothing but the ring changes for the links, then nothing but the state of the thread
  have hlinks : Books { s with links := takeNext s.links a p } (setRing R a p
      (if rest = [] then [] else rest ++ [t])) (some t) := by
    have hqueued : s.links.array t ≠ none := h.rings.mem_array ht ▸ some_ne_none a
    refine h.relink hrings harray (fun v hv => h.prio a p v ?_) (fun _ _ => nofun)
      (fun hne => absurd rfl hne) (fun _ => h.linked t hqueued) fun b hb => ?_
    · split at hv
      · exact absurd hv not_mem_nil
      · rw [hring]
        exact (perm_append_comm : (rest ++ [t]).Perm ([t] ++ rest)).mem_iff.mp hv
    · split at hb
      · cases hb
      · exact some.inj hb ▸ h.home t a (h.rings.mem_array ht)
  refine ⟨setRing R a p (if rest = [] then [] else rest ++ [t]), Books.release (t := t) ?_ ?_,
    harray⟩
  · have hzero : t ≠ 0 := fun heq => h.rings.nonzero a p (heq ▸ ht)
    have hrq : (s.info t).rq = some a.cpu := h.home t a (h.rings.mem_array ht)
    by_cases hrest : rest = []
    · refine hlinks.edit hzero ?_ ?_ (fun c hc => ?_) (fun _ => ?_)
      · rw [harray, update_self, if_pos hrest]
      · rw [hi]
        exact h.bound t
      · rw [hi]
        exact (h.current c t hc).1
      · rw [hi]
        rw [hrq]
        exact some_ne_none _
    · refine hlinks.retouch ?_ ?_ ?_ (.inr (.inr ⟨?_, ?_⟩))
      · rw [hi]
      · rw [hi]
      · rw [hi]
      · rw [harray, update_self, if_neg hrest]
        exact some_ne_none a
      · rw [hi]
  · rw [info_setInfo_self, hi]
    nofun

end

/-! ## Changes to one thread -/

/-- The second state differs from the first in one thread and in the sleep queues at most. -/
structure Only (t : Nat) (s u : Scheduler) : Prop where
  ncpu : u.ncpu = s.ncpu
  current : ∀ c, (u.cpus c).current = (s.cpus c).current
  active : ∀ c, (u.cpus c).active = (s.cpus c).active
  info : ∀ v, v ≠ t → u.info v = s.info v
  array : ∀ v, v ≠ t → u.links.array v = s.links.array v

section

variable {s u w : Scheduler} {t : Nat}

theorem Only.refl (t : Nat) (s : Scheduler) : Only t s s :=
  ⟨rfl, fun _ => rfl, fun _ => rfl, fun _ _ => rfl, fun _ _ => rfl⟩

theorem Only.trans (h : Only t s u) (h' : Only t u w) : Only t s w where
  ncpu := h'.ncpu.trans h.ncpu
  current c := (h'.current c).trans (h.current c)
  active c := (h'.active c).trans (h.active c)
  info v hv := (h'.info v hv).trans (h.info v hv)
  array v hv := (h'.array v hv).trans (h.array v hv)

theorem Only.setInfo (s : Scheduler) (t : Nat) (i : Info) : Only t s (s.setInfo t i) :=
  ⟨rfl, fun _ => rfl, fun _ => rfl, fun _ hv => s.info_setInfo_of_ne i hv, fun _ _ => rfl⟩

theorem Only.enqueue (s : Scheduler) (a : ArrayRef) (t p : Nat) : Only t s (s.enqueue a t p) := by
  refine ⟨rfl, fun _ => rfl, fun _ => rfl, fun _ _ => rfl, fun v hv => ?_⟩
  unfold Scheduler.enqueue prioArrayEnqueue
  dsimp only
  split <;> exact update_of_ne hv ..

theorem Only.dequeue (s : Scheduler) (a : ArrayRef) (t p : Nat) : Only t s (s.dequeue a t p) := by
  refine ⟨rfl, fun _ => rfl, fun _ => rfl, fun _ _ => rfl, fun v hv => ?_⟩
  unfold Scheduler.dequeue prioArrayDequeue
  split <;> exact update_of_ne hv ..

theorem Only.setQueue (s : Scheduler) (t c : Nat) (queue : List Nat) :
    Only t s (s.setCpu c { s.cpus c with sleepQueue := queue }) := by
  refine ⟨rfl, fun d => ?_, fun d => ?_, fun _ _ => rfl, fun _ _ => rfl⟩
  all_goals
    by_cases hd : d = c
    · rw [hd, cpus_setCpu_self]
    · rw [cpus_setCpu_of_ne _ _ hd]

section

variable (h : Placed s) (honly : Only t s u)
include h honly

/-- A change to one thread that lets none run and moves none that runs. -/
theorem Placed.of_only (hrun : ∀ v, (u.info v).state = .running →
      (s.info v).state = .running ∧ u.links.array v = s.links.array v) : Placed u := by
  refine ⟨fun c v hcur => ?_, fun v hv => ?_, fun c v hcur hv => ?_⟩
  · rw [honly.current c] at hcur
    exact honly.ncpu ▸ h.cpu c v hcur
  · obtain ⟨c, hc, hcur⟩ := h.running v (hrun v hv).1
    exact ⟨c, honly.ncpu ▸ hc, (honly.current c).trans hcur⟩
  · rw [honly.current c] at hcur
    rw [(hrun v hv).2, Scheduler.active, honly.active c]
    exact h.active c v hcur (hrun v hv).1

/-- What was done to one thread, which does not run afterwards, moves no running thread. -/
theorem Placed.only (ht : (u.info t).state ≠ .running) : Placed u := by
  refine h.of_only honly fun v hv => ?_
  have hvt : v ≠ t := fun heq => ht (heq ▸ hv)
  exact ⟨honly.info v hvt ▸ hv, honly.array v hvt⟩

/-- A change that keeps the states and the arrays of all threads. -/
theorem Placed.congr (hstate : (u.info t).state = (s.info t).state)
    (harray : u.links.array t = s.links.array t) : Placed u := by
  refine h.of_only honly fun v hv => ?_
  by_cases hvt : v = t
  · subst hvt
    exact ⟨hstate ▸ hv, harray⟩
  · exact ⟨honly.info v hvt ▸ hv, honly.array v hvt⟩

end

/-- The sleep queues have no part in the books. -/
theorem Books.setQueue {R : ArrayRef → Nat → List Nat} {hand : Option Nat} (h : Books s R hand)
    (c : Nat) (queue : List Nat) :
    Books (s.setCpu c { s.cpus c with sleepQueue := queue }) R hand :=
  h.setCpu fun t ht => h.current c t ht

end

end ArcKernel.Sched
