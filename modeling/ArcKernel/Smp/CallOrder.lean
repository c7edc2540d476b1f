import ArcKernel.Smp.Calls

/-!
# The queues of cross-CPU calls

Each queue hands its jobs to its CPU in the order it took them in, each once, for every
interleaving (`Ordered`, `Numbered`); an interrupt is on the way for as long as jobs wait
(`Signalled`), and the handler, once it runs, empties its queue (`Drains`).
-/

namespace ArcKernel.Smp

open ArcKernel.Foundation Function List CallQueue

variable {job : Job} {call : SmpCall} {cont : Cont} {q : CallQueue} {target : Nat}

/-! ## Lists of jobs -/

theorem mem_update_append {f : Nat → List Job} {c d : Nat} {k : Job}
    (h : k ∈ update f c (f c ++ [job]) d) : k ∈ f d ∨ d = c ∧ k = job := by
  by_cases hd : d = c
  · rw [hd, update_self] at h
    exact (mem_append.mp h).imp (hd ▸ id) fun hk => ⟨hd, mem_singleton.mp hk⟩
  · rw [update_of_ne hd] at h
    exact .inl h

theorem subset_update_append (f : Nat → List Job) (c : Nat) (job : Job) (d : Nat) :
    f d ⊆ update f c (f c ++ [job]) d :=
  (forall_update_iff f fun d l => f d ⊆ l).mpr
    ⟨subset_append_left _ _, fun _ _ => List.Subset.refl _⟩ d

/-! ## The queue of one CPU -/

namespace CallQueue

/-- The jobs waiting, oldest first. -/
def pending (q : CallQueue) : List Job :=
  ringView q.slot callQueueDepth q.tail
    ((q.head + callQueueDepth - q.tail) % callQueueDepth)

def Valid (q : CallQueue) : Prop := q.head < callQueueDepth ∧ q.tail < callQueueDepth

theorem pending_eq_nil_iff (h : q.Valid) : q.pending = [] ↔ q.tail = q.head := by
  unfold Valid callQueueDepth at h
  rw [← length_eq_zero_iff, pending, length_ringView, callQueueDepth]
  omega

theorem pending_push (h : q.Valid) (hroom : (q.head + 1) % callQueueDepth ≠ q.tail) :
    pending { q with
      slot := update q.slot q.head job
      head := (q.head + 1) % callQueueDepth } = q.pending ++ [job] := by
  unfold Valid callQueueDepth at h
  have hfree : (q.tail + (q.head + callQueueDepth - q.tail) % callQueueDepth) % callQueueDepth =
      q.head := by
    unfold callQueueDepth
    omega
  have hgrown : ((q.head + 1) % callQueueDepth + callQueueDepth - q.tail) % callQueueDepth =
      (q.head + callQueueDepth - q.tail) % callQueueDepth + 1 := by
    unfold callQueueDepth at hroom ⊢
    omega
  unfold pending
  dsimp only
  rw [hgrown]
  refine ringView_push ?_ ?_ fun i hi => ?_
  · unfold callQueueDepth at hgrown ⊢
    omega
  · rw [hfree, update_self]
  · rw [hfree] at hi
    exact update_of_ne hi ..

theorem pending_take (h : q.Valid) (hmore : q.tail ≠ q.head) :
    q.pending = q.slot q.tail :: pending { q with tail := (q.tail + 1) % callQueueDepth } := by
  unfold Valid callQueueDepth at h
  have hcount : (q.head + callQueueDepth - q.tail) % callQueueDepth =
      (q.head + callQueueDepth - (q.tail + 1) % callQueueDepth) % callQueueDepth + 1 := by
    unfold callQueueDepth
    omega
  have hslot : q.tail % callQueueDepth = q.tail := Nat.mod_eq_of_lt h.2
  unfold pending
  rw [hcount, ringView_pop, hslot]

end CallQueue

/-- The job taken off the queue and not run yet. -/
def Processing.inHand : Processing → List Job
  | .run job => [job]
  | .idle | .loop | .ack _ => []

/-- Everything the queue has taken in has run, is in hand or is waiting, in this order. -/
structure Ordered (accepted ran : List Job) (processing : Processing) (q : CallQueue) : Prop where
  valid : q.Valid
  order : accepted = ran ++ processing.inHand ++ q.pending
  ack : ∀ job, processing = .ack job → job ∈ ran

namespace CallSys

variable {s t : CallSys} {p c : Nat}

def AllOrdered (s : CallSys) : Prop :=
  ∀ c, Ordered (s.accepted c) (s.ran c) (s.processing c) (s.queue c)

section

variable (h : s.AllOrdered)
include h

/-- One CPU is changed. -/
theorem AllOrdered.change {a r : List Job} {g : Processing} (hnew : Ordered a r g q)
    (haccepted : t.accepted = update s.accepted c a) (hran : t.ran = update s.ran c r)
    (hprocessing : t.processing = update s.processing c g) (hqueue : t.queue = update s.queue c q) :
    t.AllOrdered := by
  intro d
  rw [haccepted, hran, hprocessing, hqueue]
  by_cases hd : d = c
  · subst hd
    rw [update_self, update_self, update_self, update_self]
    exact hnew
  · rw [update_of_ne hd, update_of_ne hd, update_of_ne hd, update_of_ne hd]
    exact h d

theorem AllOrdered.congr (haccepted : t.accepted = s.accepted) (hran : t.ran = s.ran)
    (hprocessing : t.processing = s.processing) (hqueue : t.queue = s.queue) : t.AllOrdered := by
  intro d
  rw [haccepted, hran, hprocessing, hqueue]
  exact h d

/-- A processing phase that holds no job. -/
theorem AllOrdered.setProcessing {processing : Processing} (hold : (s.processing c).inHand = [])
    (hnew : processing = .idle ∨ processing = .loop) :
    (s.setProcessing c processing).AllOrdered := by
  refine h.change (c := c) (a := s.accepted c) (r := s.ran c) (q := s.queue c)
    (g := processing) ⟨(h c).valid, ?_, fun job hjob => ?_⟩ ?_ ?_ rfl ?_
  · have hnone : processing.inHand = [] := by rcases hnew with rfl | rfl <;> rfl
    rw [hnone, ← hold]
    exact (h c).order
  · rcases hnew with rfl | rfl
    all_goals cases hjob
  all_goals exact (update_eq_self c _).symm

theorem AllOrdered.place (p target fn arg : Nat) (cont : Cont) :
    (s.place p target fn arg cont).AllOrdered := by
  cases cont <;> exact h.congr rfl rfl rfl rfl

theorem AllOrdered.ret (p target : Nat) (job : Job) (cont : Cont) :
    (s.ret p target job cont).AllOrdered := by
  cases cont <;> exact h.congr rfl rfl rfl rfl

theorem AllOrdered.enqueued (p target : Nat) (job : Job) (cont : Cont) :
    (s.enqueued p target job cont).AllOrdered := by
  cases cont <;> exact h.congr rfl rfl rfl rfl

end

theorem head_ne (hroom : s.full c = false) :
    ((s.queue c).head + 1) % callQueueDepth ≠ (s.queue c).tail := by
  unfold full at hroom
  rwa [beq_eq_false_iff_ne] at hroom

section

variable (h : s.AllOrdered)
include h

theorem AllOrdered.push (hroom : s.full c = false) : (s.push c job).AllOrdered := by
  have hc := h c
  refine h.change (c := c) (a := s.accepted c ++ [job]) (r := s.ran c)
    (g := s.processing c)
    (q := { s.queue c with
      slot := update (s.queue c).slot (s.queue c).head job
      head := ((s.queue c).head + 1) % callQueueDepth })
    ⟨⟨?_, hc.valid.2⟩, ?_, hc.ack⟩ rfl ?_ ?_ rfl
  · exact Nat.mod_lt _ (by decide)
  · rw [pending_push hc.valid (head_ne hroom), ← append_assoc, ← hc.order]
  all_goals exact (update_eq_self c _).symm

theorem AllOrdered.take (hc : s.processing c = .loop)
    (hmore : (s.queue c).tail ≠ (s.queue c).head) :
    AllOrdered ({ s with
      queue := update s.queue c
        { s.queue c with tail := ((s.queue c).tail + 1) % callQueueDepth } }.setProcessing c
        (.run ((s.queue c).slot (s.queue c).tail))) := by
  have hat := h c
  refine h.change (c := c) (a := s.accepted c) (r := s.ran c)
    (g := .run ((s.queue c).slot (s.queue c).tail))
    (q := { s.queue c with tail := ((s.queue c).tail + 1) % callQueueDepth })
    ⟨⟨hat.valid.1, ?_⟩, ?_, ?_⟩ ?_ ?_ rfl rfl
  · exact Nat.mod_lt _ (by decide)
  · have horder := hat.order
    rw [hc, pending_take hat.valid hmore] at horder
    rw [horder, Processing.inHand, Processing.inHand, append_nil, append_assoc]
    rfl
  · intro job hjob
    cases hjob
  all_goals exact (update_eq_self c _).symm

theorem AllOrdered.run (hc : s.processing c = .run job) :
    AllOrdered ({ s with ran := update s.ran c (s.ran c ++ [job]) }.setProcessing c
      (.ack job)) := by
  have hat := h c
  refine h.change (c := c) (a := s.accepted c) (r := s.ran c ++ [job])
    (g := .ack job) (q := s.queue c) ⟨hat.valid, ?_, ?_⟩ ?_ rfl rfl ?_
  · have horder := hat.order
    rw [hc] at horder
    rw [horder, Processing.inHand, Processing.inHand, append_nil]
  · intro job' hjob
    cases hjob
    exact mem_append_right _ mem_cons_self
  all_goals exact (update_eq_self c _).symm

/-- Every step keeps the order. -/
theorem AllOrdered.step (hstep : smpStep s call = some t) : t.AllOrdered := by
  apply smpStep_cases hstep <;> intros
  case offline => exact h
  case place | flushOne => exact h.place _ _ _ _ _
  case refuse job _ _ _ _ =>
    refine AllOrdered.enqueued ?_ _ _ _ _
    cases job.done <;> exact h.congr rfl rfl rfl rfl
  case push hroom => exact (h.push hroom).congr rfl rfl rfl rfl
  case send =>
    refine AllOrdered.enqueued ?_ _ _ _ _
    exact h.congr rfl rfl rfl rfl
  case refused | done | timeout => exact h.ret _ _ _ _
  case interrupt c hc =>
    have hold : (s.processing c).inHand = [] := by rw [hc]; rfl
    exact (h.setProcessing hold (.inr rfl)).congr rfl rfl rfl rfl
  case drained hc _ => exact h.setProcessing (by rw [hc]; rfl) (.inl rfl)
  case take hc hmore => exact h.take hc hmore
  case run hc => exact h.run hc
  case ack c job hc =>
    have hold : (s.processing c).inHand = [] := by rw [hc]; rfl
    have hset := h.setProcessing hold (.inr rfl)
    cases job.done <;> exact hset.congr rfl rfl rfl rfl
  all_goals exact h.congr rfl rfl rfl rfl

end

end CallSys

/-! ## Jobs are told apart -/

/-- The job a caller has made and not yet put on a queue. -/
def CallerPhase.placing : CallerPhase → Option Job
  | .enqueue _ job _ => some job
  | .idle | .flush .. | .send .. | .check .. | .spin .. => none

/-- Every job has a number of its own. -/
structure Numbered (placing : Nat → Option Job) (jobs : Nat) (accepted : Nat → List Job) :
    Prop where
  made : ∀ c, ∀ job ∈ accepted c, job.id < jobs
  nodup : ∀ c, ((accepted c).map Job.id).Nodup
  apart : ∀ c d, ∀ j ∈ accepted c, ∀ k ∈ accepted d, j.id = k.id → c = d
  placed : ∀ p job, placing p = some job → job.id < jobs ∧ ∀ c, ∀ k ∈ accepted c, k.id ≠ job.id
  each : ∀ p q j k, placing p = some j → placing q = some k → j.id = k.id → p = q

namespace Numbered

variable {placing : Nat → Option Job} {jobs p c : Nat} {accepted : Nat → List Job}

section

variable (h : Numbered placing jobs accepted)
include h

theorem more : Numbered placing (jobs + 1) accepted where
  made c j hj := Nat.lt_succ_of_lt (h.made c j hj)
  nodup := h.nodup
  apart := h.apart
  placed p j hp := ⟨Nat.lt_succ_of_lt (h.placed p j hp).1, (h.placed p j hp).2⟩
  each := h.each

theorem drop (p : Nat) : Numbered (update placing p none) jobs accepted := by
  have hsub : ∀ q j, update placing p none q = some j → placing q = some j := by
    intro q j hq
    rcases update_cases hq with ⟨-, ⟨⟩⟩ | ⟨-, hq⟩
    exact hq
  exact ⟨h.made, h.nodup, h.apart, fun q j hq => h.placed q j (hsub q j hq),
    fun q r j k hq hr => h.each q r j k (hsub q j hq) (hsub r k hr)⟩

theorem place (p : Nat) (hjob : job.id = jobs) :
    Numbered (update placing p (some job)) (jobs + 1) accepted := by
  have hmore := h.more
  refine ⟨hmore.made, h.nodup, h.apart, fun q j hq => ?_, fun q r j k hq hr hjk => ?_⟩
  · rcases update_cases hq with ⟨-, ⟨⟩⟩ | ⟨-, hq⟩
    · refine ⟨hjob ▸ Nat.lt_succ_self _, fun c k hk => ?_⟩
      rw [hjob]
      exact Nat.ne_of_lt (h.made c k hk)
    · exact hmore.placed q j hq
  · rcases update_cases hq with ⟨rfl, ⟨⟩⟩ | ⟨-, hq⟩
    · rcases update_cases hr with ⟨rfl, -⟩ | ⟨-, hr⟩
      · rfl
      · exact absurd (hjk.symm.trans hjob) (Nat.ne_of_lt (h.placed r k hr).1)
    · rcases update_cases hr with ⟨-, ⟨⟩⟩ | ⟨-, hr⟩
      · exact absurd (hjk.trans hjob) (Nat.ne_of_lt (h.placed q j hq).1)
      · exact h.each q r j k hq hr hjk

/-- The job goes on the queue of one CPU. -/
theorem push (hp : placing p = some job) (c : Nat) :
    Numbered (update placing p none) jobs
      (update accepted c (accepted c ++ [job])) := by
  obtain ⟨hlt, hfresh⟩ := h.placed p job hp
  have hdrop := h.drop p
  refine ⟨fun d k hk => ?_, fun d => ?_, fun d e j hj k hk hjk => ?_, fun q j hq => ?_, hdrop.each⟩
  · rcases mem_update_append hk with hk | ⟨-, rfl⟩
    · exact h.made d k hk
    · exact hlt
  · by_cases hd : d = c
    · subst hd
      rw [update_self, map_append, map_singleton]
      refine List.Nodup.append (h.nodup d) (nodup_singleton _) ?_
      rw [disjoint_singleton]
      intro hmem
      obtain ⟨k, hk, hid⟩ := mem_map.mp hmem
      exact hfresh d k hk hid
    · rw [update_of_ne hd]
      exact h.nodup d
  · rcases mem_update_append hj with hj' | ⟨hdc, hjob⟩
    · rcases mem_update_append hk with hk' | ⟨-, hjob⟩
      · exact h.apart d e j hj' k hk' hjk
      · exact absurd (hjob ▸ hjk) (hfresh d j hj')
    · rcases mem_update_append hk with hk' | ⟨hec, -⟩
      · exact absurd (hjob ▸ hjk).symm (hfresh e k hk')
      · exact hdc.trans hec.symm
  · obtain ⟨hj, hnone⟩ := hdrop.placed q j hq
    refine ⟨hj, fun d k hk => ?_⟩
    rcases mem_update_append hk with hk | ⟨rfl, rfl⟩
    · exact hnone d k hk
    · intro hid
      rcases update_cases hq with ⟨-, ⟨⟩⟩ | ⟨hqp, hq⟩
      exact hqp (h.each q p j k hq hp hid.symm)

end

end Numbered

namespace CallSys

variable {s t : CallSys} {p c : Nat}

def placing (s : CallSys) (p : Nat) : Option Job := (s.callers p).placing

theorem placing_setPhase (s : CallSys) (p : Nat) (phase : CallerPhase) :
    (s.setPhase p phase).placing = update s.placing p phase.placing :=
  comp_update CallerPhase.placing s.callers p phase

def AllNumbered (s : CallSys) : Prop := Numbered s.placing s.jobs s.accepted

section

variable (h : s.AllNumbered)
include h

/-- A caller goes on to a phase in which it has no job in hand. -/
theorem AllNumbered.setPhase (p : Nat) {f : CallerPhase} (hphase : f.placing = none) :
    (s.setPhase p f).AllNumbered := by
  unfold AllNumbered
  rw [placing_setPhase, hphase]
  exact Numbered.drop h p

theorem AllNumbered.place (p target fn arg : Nat) (cont : Cont) :
    (s.place p target fn arg cont).AllNumbered := by
  unfold CallSys.place AllNumbered
  cases cont
  all_goals
    rw [placing_setPhase]
    exact Numbered.place h p rfl

theorem AllNumbered.ret (p target : Nat) (job : Job) (cont : Cont) :
    (s.ret p target job cont).AllNumbered := by
  cases cont
  · exact h.setPhase p (f := .idle) rfl
  · exact h.setPhase p (f := .idle) rfl
  · exact h.setPhase p (f := .flush _ _ _) rfl

theorem AllNumbered.enqueued (p target : Nat) (job : Job) (cont : Cont) :
    (s.enqueued p target job cont).AllNumbered := by
  cases cont
  all_goals exact h.setPhase p rfl

theorem AllNumbered.step (hstep : smpStep s call = some t) : t.AllNumbered := by
  apply smpStep_cases hstep <;> intros
  case here => exact Numbered.more h
  case offline => exact h
  case place | flushOne => exact h.place ..
  case flush | skip | check | spin => exact h.setPhase _ rfl
  case flushed => exact h.setPhase _ (f := .idle) rfl
  case refuse job _ _ _ _ =>
    refine AllNumbered.enqueued ?_ _ _ _ _
    cases job.done <;> exact h
  case push target _ _ hp _ =>
    unfold AllNumbered
    rw [placing_setPhase]
    exact Numbered.push h (congrArg CallerPhase.placing hp) target
  case send =>
    refine AllNumbered.enqueued ?_ _ _ _ _
    exact h
  case refused | done | timeout => exact h.ret ..
  case ack job _ => cases job.done <;> exact h
  all_goals exact h

end

end CallSys

namespace CallSys

variable {s t : CallSys} {p c : Nat}

/-! ## Waiting jobs are on their way -/

/-- A queue with jobs on it has an interrupt pending, is being worked on, or its interrupt is
about to be sent. -/
def Signalled (s : CallSys) : Prop :=
  ∀ c, (s.queue c).pending ≠ [] → s.ipi c = true ∨ s.processing c ≠ .idle ∨
    ∃ p job cont, s.callers p = .send c job cont

section

variable (h : s.Signalled) (hp : ∀ c job cont, s.callers p ≠ .send c job cont)
include h hp

/-- A caller goes on that was not about to send an interrupt. -/
theorem Signalled.setPhase {f : CallerPhase} : (s.setPhase p f).Signalled := by
  intro c hc
  refine (h c hc).imp_right fun hrest => hrest.imp_right fun ⟨q, job, cont, hq⟩ => ?_
  have hqp : q ≠ p := by
    rintro rfl
    exact hp c job cont hq
  exact ⟨q, job, cont, (update_of_ne hqp ..).trans hq⟩

theorem Signalled.place (target fn arg : Nat) (cont : Cont) :
    (s.place p target fn arg cont).Signalled := by
  cases cont <;> exact Signalled.setPhase h hp

theorem Signalled.ret (target : Nat) (job : Job) (cont : Cont) :
    (s.ret p target job cont).Signalled := by
  cases cont
  · exact h.setPhase hp (f := .idle)
  · exact h.setPhase hp (f := .idle)
  · exact h.setPhase hp (f := .flush _ _ _)

theorem Signalled.enqueued (target : Nat) (job : Job) (cont : Cont) :
    (s.enqueued p target job cont).Signalled := by
  cases cont <;> exact h.setPhase hp

end

section

variable (h : s.Signalled)
include h

/-- The interrupt is sent. -/
theorem Signalled.send (hp : s.callers p = .send target job cont) :
    ({ s with ipi := update s.ipi target true }.enqueued p target job cont).Signalled := by
  have hset : ∀ phase : CallerPhase,
      ({ s with ipi := update s.ipi target true }.setPhase p phase).Signalled := by
    intro phase c hc
    by_cases hct : c = target
    · subst hct
      exact .inl (update_self ..)
    rcases h c hc with hipi | hbusy | ⟨q, j, k, hq⟩
    · exact .inl ((update_of_ne hct ..).trans hipi)
    · exact .inr (.inl hbusy)
    · have hqp : q ≠ p := by
        rintro rfl
        cases hp.symm.trans hq
        exact hct rfl
      exact .inr (.inr ⟨q, j, k, (update_of_ne hqp ..).trans hq⟩)
  cases cont
  · exact hset .idle
  · exact hset _
  · exact hset _

theorem Signalled.push (hp : s.callers p = .enqueue target job cont) :
    ((s.push target job).setPhase p (.send target job cont)).Signalled := by
  intro c hc
  by_cases hct : c = target
  · subst hct
    exact .inr (.inr ⟨p, job, cont, update_self ..⟩)
  have hold : (s.queue c).pending ≠ [] := by
    have hqueue : ((s.push target job).setPhase p (.send target job cont)).queue c = s.queue c :=
      update_of_ne hct ..
    rwa [hqueue] at hc
  refine (h c hold).imp_right fun hrest => hrest.imp_right fun ⟨q, j, k, hq⟩ => ?_
  have hqp : q ≠ p := by
    rintro rfl
    cases hp.symm.trans hq
  exact ⟨q, j, k, (update_of_ne hqp ..).trans hq⟩

/-- A CPU starts or goes on working. -/
theorem Signalled.work (hbusy : t.processing c ≠ .idle)
    (hqueue : ∀ d, d ≠ c → t.queue d = s.queue d) (hipi : ∀ d, d ≠ c → t.ipi d = s.ipi d)
    (hprocessing : ∀ d, d ≠ c → t.processing d = s.processing d)
    (hcallers : t.callers = s.callers) :
    t.Signalled := by
  intro d hd
  by_cases hdc : d = c
  · subst hdc
    exact .inr (.inl hbusy)
  · rw [hqueue d hdc] at hd
    rw [hipi d hdc, hprocessing d hdc, hcallers]
    exact h d hd

theorem Signalled.step (hord : s.AllOrdered) (hstep : smpStep s call = some t) : t.Signalled := by
  apply smpStep_cases hstep <;> intros
  case here | offline => exact h
  case place hp _ | flushOne hp =>
    exact h.place (fun _ _ _ heq => nomatch hp.symm.trans heq) _ _ _ _
  case flush hp | skip hp _ | check hp | spin hp =>
    exact h.setPhase fun _ _ _ heq => nomatch hp.symm.trans heq
  case flushed hp _ => exact h.setPhase (f := .idle) fun _ _ _ heq => nomatch hp.symm.trans heq
  case refuse p _ job _ _ hp _ =>
    refine Signalled.enqueued ?_ ?_ _ _ _
    · cases job.done <;> exact h
    · have hnot : ∀ c j k, s.callers p ≠ .send c j k := fun _ _ _ heq => nomatch hp.symm.trans heq
      cases job.done <;> exact hnot
  case push hp _ => exact h.push hp
  case send hp => exact h.send hp
  case refused hp _ | done hp _ | timeout hp _ _ =>
    exact h.ret (fun _ _ _ heq => nomatch hp.symm.trans heq) _ _ _
  case interrupt c _ =>
    refine h.work (c := c) ?_ (fun _ _ => rfl) (fun d hd => update_of_ne hd ..)
      (fun d hd => update_of_ne hd ..) rfl
    rw [show (CallSys.setProcessing { s with ipi := update s.ipi c false } c .loop).processing c
      = .loop from update_self ..]
    nofun
  case drained c _ hempty =>
    intro d hd
    have hdc : d ≠ c := by
      rintro rfl
      exact hd ((pending_eq_nil_iff (hord d).valid).mpr hempty)
    rw [show (s.setProcessing c .idle).processing d = s.processing d from update_of_ne hdc ..]
    exact h d hd
  case take c _ _ =>
    refine h.work (c := c) ?_ (fun d hd => update_of_ne hd ..) (fun _ _ => rfl)
      (fun d hd => update_of_ne hd ..) rfl
    intro heq
    cases (update_self c _ _).symm.trans heq
  case run c _ _ =>
    refine h.work (c := c) ?_ (fun _ _ => rfl) (fun _ _ => rfl)
      (fun d hd => update_of_ne hd ..) rfl
    intro heq
    cases (update_self c _ _).symm.trans heq
  case ack c job _ =>
    have hwork : (s.setProcessing c .loop).Signalled := by
      refine h.work (c := c) ?_ (fun _ _ => rfl) (fun _ _ => rfl)
        (fun d hd => update_of_ne hd ..) rfl
      intro heq
      cases (update_self c _ _).symm.trans heq
    cases job.done <;> exact hwork

end

/-! ## The interrupt handler empties its queue -/

/-- Steps of the CPU alone run everything its queue has taken in. -/
def Drains (s : CallSys) (c : Nat) : Prop :=
  ∃ n t, exec smpStep s (List.replicate n (.process c)) = some t ∧ t.processing c = .idle ∧
    t.ran c = s.accepted c

theorem Drains.cons {u : CallSys} (hstep : smpStep s (.process c) = some u)
    (hsame : u.accepted c = s.accepted c) (h : u.Drains c) : s.Drains c := by
  obtain ⟨n, t, hrun, hidle, hran⟩ := h
  refine ⟨n + 1, t, ?_, hidle, hran.trans hsame⟩
  exact exec_cons_eq_some.mpr ⟨u, hstep, hrun⟩

theorem drains_of_ack {j : Job} (hc : s.processing c = .ack j)
    (hloop : ∀ u : CallSys, u.AllOrdered → u.processing c = .loop → u.queue c = s.queue c →
      u.Drains c) (hord : s.AllOrdered) : s.Drains c := by
  have hstep : smpStep s (.process c) =
      some ((j.done.elim s fun a => s.setDone a 1).setProcessing c .loop) := by
    rw [smpStep, processStep, hc]
  refine Drains.cons hstep ?_ (hloop _ (hord.step hstep) (update_self ..) ?_)
  all_goals cases j.done <;> rfl

theorem drains_of_run (hc : s.processing c = .run job)
    (hloop : ∀ u : CallSys, u.AllOrdered → u.processing c = .loop → u.queue c = s.queue c →
      u.Drains c) (hord : s.AllOrdered) : s.Drains c := by
  have hstep : smpStep s (.process c) =
      some ({ s with ran := update s.ran c (s.ran c ++ [job]) }.setProcessing c
        (.ack job)) := by
    rw [smpStep, processStep, hc]
  refine Drains.cons hstep rfl (drains_of_ack (j := job) (update_self ..) ?_
    (hord.step hstep))
  exact hloop

/-- By induction on the number of jobs waiting. -/
theorem drains_of_loop (n : Nat) : ∀ s : CallSys, s.AllOrdered → s.processing c = .loop →
    (s.queue c).pending.length = n → s.Drains c := by
  induction n with
  | zero =>
    intro s hord hc hn
    have hnil := length_eq_zero_iff.mp hn
    have hempty := (pending_eq_nil_iff (hord c).valid).mp hnil
    have hstep : smpStep s (.process c) = some (s.setProcessing c .idle) := by
      rw [smpStep, processStep, hc]
      exact if_pos hempty
    refine ⟨1, _, exec_cons_eq_some.mpr ⟨_, hstep, rfl⟩, update_self .., ?_⟩
    have horder := (hord c).order
    rw [hc, hnil, Processing.inHand, append_nil, append_nil] at horder
    exact horder.symm
  | succ n ih =>
    intro s hord hc hn
    have hmore : (s.queue c).tail ≠ (s.queue c).head := by
      intro heq
      rw [(pending_eq_nil_iff (hord c).valid).mpr heq] at hn
      cases hn
    have hstep : smpStep s (.process c) = some ({ s with
        queue := update s.queue c
          { s.queue c with tail := ((s.queue c).tail + 1) % callQueueDepth } }.setProcessing c
          (.run ((s.queue c).slot (s.queue c).tail))) := by
      rw [smpStep, processStep, hc]
      exact if_neg hmore
    refine Drains.cons hstep rfl (drains_of_run (update_self ..) ?_ (hord.step hstep))
    intro u huord huc hqueue
    refine ih u huord huc ?_
    rw [hqueue, show (CallSys.setProcessing { s with
        queue := update s.queue c
          { s.queue c with tail := ((s.queue c).tail + 1) % callQueueDepth } } c
          (.run ((s.queue c).slot (s.queue c).tail))).queue c =
      { s.queue c with tail := ((s.queue c).tail + 1) % callQueueDepth } from
      update_self ..]
    rw [pending_take (hord c).valid hmore] at hn
    exact Nat.succ.inj hn

theorem AllOrdered.drains (h : s.AllOrdered) (hc : s.processing c ≠ .idle) : s.Drains c := by
  have hloop : ∀ u : CallSys, u.AllOrdered → u.processing c = .loop → u.queue c = s.queue c →
      u.Drains c := fun u hu huc _ => drains_of_loop _ u hu huc rfl
  cases hphase : s.processing c with
  | idle => exact absurd hphase hc
  | loop => exact hloop s h hphase rfl
  | run job => exact drains_of_run hphase hloop h
  | ack job => exact drains_of_ack hphase hloop h

end CallSys

end ArcKernel.Smp
