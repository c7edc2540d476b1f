import ArcKernel.Smp.CallOrder

/-!
# What cross-CPU calls guarantee

`cpu_call_sync` returns without having been served when the queue is full or when its spins run
out, and in the second case the target later writes to the flag of a call that is over.
`orderly` excludes the two.  `Served` is what then ties every flag to its job, and `Flushes`
what has run when a synchronous call or a flush returns.
-/

namespace ArcKernel.Smp

open ArcKernel.Foundation Function List CallerPhase

/-! ## Flags -/

/-- The call a caller waits for. -/
def CallerPhase.waiting : CallerPhase → Option (Nat × Job × Cont)
  | .send target job cont | .check target job cont | .spin target job cont _ =>
      some (target, job, cont)
  | .idle | .flush .. | .enqueue .. => none

/-- The job a CPU is working on. -/
def Processing.held : Processing → List Job
  | .run job | .ack job => [job]
  | .idle | .loop => []

/-- The flag of a call is 0 until its job is done, and no queue has a pointer to a flag that
nobody waits for. -/
structure Served (callers : Nat → CallerPhase) (done : Nat → Int)
    (accepted ran unacked : Nat → List Job) : Prop where
  placed : ∀ p target job cont, callers p = .enqueue target job cont →
    cont = .async ∧ job.done = none ∨ cont ≠ .async ∧ job.done = some p ∧ done p = 0
  waits : ∀ p target job cont, (callers p).waiting = some (target, job, cont) → cont ≠ .async →
    job ∈ accepted target ∧
      (done p = 0 ∨ done p = 1 ∧ job ∈ ran target ∧ job ∉ unacked target)
  owner : ∀ c p, ∀ job ∈ unacked c, job.done = some p →
    ∃ cont, cont ≠ Cont.async ∧ (callers p).waiting = some (c, job, cont)

namespace Served

variable {callers : Nat → CallerPhase} {done : Nat → Int} {accepted ran unacked : Nat → List Job}
    {p c target : Nat} {job : Job} {cont : Cont} {f : CallerPhase}

section

variable (h : Served callers done accepted ran unacked)
include h

variable {f : CallerPhase}

/-- A caller goes on, and its own flag may change. -/
theorem go {v : Int}
    (hplaced : ∀ target job cont, f = .enqueue target job cont →
      cont = .async ∧ job.done = none ∨ cont ≠ .async ∧ job.done = some p ∧ v = 0)
    (hwaits : ∀ target job cont, f.waiting = some (target, job, cont) → cont ≠ .async →
      job ∈ accepted target ∧ (v = 0 ∨ v = 1 ∧ job ∈ ran target ∧ job ∉ unacked target))
    (howner : ∀ c, ∀ job ∈ unacked c, job.done = some p →
      ∃ cont, cont ≠ Cont.async ∧ f.waiting = some (c, job, cont)) :
    Served (update callers p f) (update done p v) accepted ran unacked := by
  refine ⟨fun q target job cont hq => ?_, fun q target job cont hq hcont => ?_,
    fun c q job hjob hdone => ?_⟩
  · by_cases hqp : q = p
    · subst hqp
      rw [update_self] at hq ⊢
      exact hplaced target job cont hq
    · rw [update_of_ne hqp] at hq ⊢
      exact h.placed q target job cont hq
  · by_cases hqp : q = p
    · subst hqp
      rw [update_self] at hq ⊢
      exact hwaits target job cont hq hcont
    · rw [update_of_ne hqp] at hq ⊢
      exact h.waits q target job cont hq hcont
  · by_cases hqp : q = p
    · subst hqp
      rw [update_self]
      exact howner c job hjob hdone
    · rw [update_of_ne hqp]
      exact h.owner c q job hjob hdone

/-- No queue points to the flag of a caller that does not wait. -/
theorem unowned (hp : (callers p).waiting = none) (hjob : job ∈ unacked c) : job.done ≠ some p := by
  intro hdone
  obtain ⟨cont, -, hwaiting⟩ := h.owner c p job hjob hdone
  cases hp.symm.trans hwaiting

/-- A caller that waits for nothing goes on without a job. -/
theorem leave (hp : (callers p).waiting = none) (hplacing : f.placing = none)
    (hwaiting : f.waiting = none) : Served (update callers p f) done accepted ran unacked := by
  have hgo := h.go (p := p) (f := f) (v := done p) (fun target job cont heq => ?_)
    (fun target job cont heq => ?_) (fun c job hjob hdone => ?_)
  · rwa [update_eq_self] at hgo
  · cases hplacing.symm.trans (congrArg placing heq)
  · cases hwaiting.symm.trans heq
  · exact absurd hdone (h.unowned hp hjob)

/-- A caller goes on waiting for the same call. -/
theorem stay (hplacing : f.placing = none) (hsame : f.waiting = (callers p).waiting) :
    Served (update callers p f) done accepted ran unacked := by
  have hgo := h.go (p := p) (f := f) (v := done p) (fun target job cont heq => ?_)
    (fun target job cont heq hcont => ?_) (fun c job hjob hdone => ?_)
  · rwa [update_eq_self] at hgo
  · cases hplacing.symm.trans (congrArg placing heq)
  · exact h.waits p target job cont (hsame.symm.trans heq) hcont
  · rw [hsame]
    exact h.owner c p job hjob hdone

/-- A call that is done is left. -/
theorem finish (hp : (callers p).waiting = some (target, job, cont))
    (hdone : cont = .async ∨ done p ≠ 0) (hplacing : f.placing = none)
    (hwaiting : f.waiting = none) :
    Served (update callers p f) done accepted ran unacked := by
  have hgo := h.go (p := p) (f := f) (v := done p) (fun target job cont heq => ?_)
    (fun target job cont heq => ?_) (fun c j hj hjdone => ?_)
  · rwa [update_eq_self] at hgo
  · cases hplacing.symm.trans (congrArg placing heq)
  · cases hwaiting.symm.trans heq
  · obtain ⟨cont', hcont', hown⟩ := h.owner c p j hj hjdone
    cases hp.symm.trans hown
    rcases (h.waits p target job cont hp hcont').2 with hzero | ⟨-, -, hnot⟩
    · exact absurd hzero (hdone.resolve_left hcont')
    · exact absurd hj hnot

/-- The job goes on the queue. -/
theorem push (hp : callers p = .enqueue target job cont)
    (hfresh : ∀ c, ∀ k ∈ accepted c, k.id ≠ job.id) :
    Served (update callers p (.send target job cont)) done
      (update accepted target (accepted target ++ [job])) ran
      (update unacked target (unacked target ++ [job])) := by
  have hnone : (callers p).waiting = none := by rw [hp]; rfl
  refine ⟨fun q t j k hq => ?_, fun q t j k hq hk => ?_, fun c q j hj hdone => ?_⟩
  · rcases update_cases hq with ⟨-, ⟨⟩⟩ | ⟨-, hq⟩
    exact h.placed q t j k hq
  · by_cases hqp : q = p
    · subst hqp
      rw [update_self] at hq
      cases hq
      refine ⟨?_, .inl ?_⟩
      · rw [update_self]
        exact mem_append_right _ mem_cons_self
      · rcases h.placed q target job cont hp with ⟨hasync, -⟩ | ⟨-, -, hzero⟩
        · exact absurd hasync hk
        · exact hzero
    · rw [update_of_ne hqp] at hq
      obtain ⟨hmem, hflag⟩ := h.waits q t j k hq hk
      refine ⟨subset_update_append _ _ _ _ hmem,
        hflag.imp_right fun ⟨hone, hran, hnot⟩ => ⟨hone, hran, fun hin => ?_⟩⟩
      rcases mem_update_append hin with hin | ⟨-, rfl⟩
      · exact hnot hin
      · exact hfresh t j hmem rfl
  · rcases mem_update_append hj with hj | ⟨rfl, rfl⟩
    · have hqp : q ≠ p := by
        rintro rfl
        exact h.unowned hnone hj hdone
      rw [update_of_ne hqp]
      exact h.owner c q j hj hdone
    · rcases h.placed p c j cont hp with ⟨-, hnodone⟩ | ⟨hcont, hown, -⟩
      · cases hnodone.symm.trans hdone
      · cases hdone.symm.trans hown
        refine ⟨cont, hcont, ?_⟩
        rw [update_self]
        rfl

theorem run {ran' : Nat → List Job} (hran : ∀ c, ran c ⊆ ran' c) :
    Served callers done accepted ran' unacked where
  placed := h.placed
  waits p target job cont hp hcont :=
    ⟨(h.waits p target job cont hp hcont).1, (h.waits p target job cont hp hcont).2.imp_right
      fun ⟨hone, hin, hnot⟩ => ⟨hone, hran target hin, hnot⟩⟩
  owner := h.owner

/-- The job is done: its flag is set and it is forgotten. -/
theorem ack {u : Nat → List Job} (hjob : job ∈ unacked c) (hran : job ∈ ran c) (hgone : job ∉ u c)
    (hless : ∀ d, u d ⊆ unacked d) :
    Served callers (job.done.elim done fun p => update done p 1) accepted ran u := by
  refine ⟨fun q target k cont hq => ?_, fun q target k cont hq hcont => ?_,
    fun d q k hk hdone => h.owner d q k (hless d hk) hdone⟩
  · refine (h.placed q target k cont hq).imp_right fun ⟨hcont, hown, hzero⟩ => ⟨hcont, hown, ?_⟩
    cases hd : job.done with
    | none => exact hzero
    | some a =>
      have hqa : q ≠ a := by
        rintro rfl
        refine h.unowned ?_ hjob hd
        rw [hq]
        rfl
      exact (update_of_ne hqa ..).trans hzero
  · obtain ⟨hmem, hflag⟩ := h.waits q target k cont hq hcont
    refine ⟨hmem, ?_⟩
    have hkeep : done q = 0 ∨ done q = 1 ∧ k ∈ ran target ∧ k ∉ u target :=
      hflag.imp_right fun ⟨hone, hin, hnot⟩ => ⟨hone, hin, fun hk => hnot (hless target hk)⟩
    cases hd : job.done with
    | none => exact hkeep
    | some a =>
      by_cases hqa : q = a
      · subst hqa
        obtain ⟨cont', -, hown⟩ := h.owner c q job hjob hd
        cases hq.symm.trans hown
        exact .inr ⟨update_self .., hran, hgone⟩
      · rw [show (some a).elim done (fun p => update done p 1) q = done q from update_of_ne hqa ..]
        exact hkeep

end

end Served

namespace CallSys

variable {s t : CallSys} {p c : Nat}

/-- What has been accepted on a CPU and not acknowledged. -/
def unacked (s : CallSys) (c : Nat) : List Job := (s.processing c).held ++ (s.queue c).pending

def AllServed (s : CallSys) : Prop := Served s.callers s.done s.accepted s.ran s.unacked

/-- What a step must find for every synchronous call to be served. -/
def orderly (s : CallSys) : SmpCall → Bool
  | .step p =>
      match s.callers p with
      | .enqueue target _ cont => cont == .async || !s.full target
      | .spin _ _ _ spins => s.done p != 0 || decide (spins < spinLimit)
      | _ => true
  | _ => true

theorem unacked_setProcessing (s : CallSys) (c : Nat) {processing : Processing}
    (hsame : processing.held = (s.processing c).held) :
    (s.setProcessing c processing).unacked = s.unacked := by
  funext d
  unfold unacked CallSys.setProcessing
  dsimp only
  by_cases hd : d = c
  · rw [hd, update_self, hsame]
  · rw [update_of_ne hd]

theorem unacked_push (h : s.AllOrdered) (hroom : s.full c = false) :
    (s.push c job).unacked = update s.unacked c (s.unacked c ++ [job]) := by
  funext d
  unfold unacked CallSys.push
  dsimp only
  by_cases hd : d = c
  · subst hd
    rw [update_self, update_self, CallQueue.pending_push (h d).valid (head_ne hroom), append_assoc]
  · rw [update_of_ne hd, update_of_ne hd]

theorem unacked_take (h : s.AllOrdered) (hc : s.processing c = .loop)
    (hmore : (s.queue c).tail ≠ (s.queue c).head) :
    unacked ({ s with
      queue := update s.queue c
        { s.queue c with tail := ((s.queue c).tail + 1) % callQueueDepth } }.setProcessing c
        (.run ((s.queue c).slot (s.queue c).tail))) = s.unacked := by
  funext d
  unfold unacked CallSys.setProcessing
  dsimp only
  by_cases hd : d = c
  · subst hd
    rw [update_self, update_self, hc, CallQueue.pending_take (h d).valid hmore]
    rfl
  · rw [update_of_ne hd, update_of_ne hd]

/-- A job that has run is not waiting too. -/
theorem notMem_pending (hord : s.AllOrdered) (hnum : s.AllNumbered)
    (hran : job ∈ s.ran c) : job ∉ (s.queue c).pending := by
  intro hpending
  have hnodup := hnum.nodup c
  rw [(hord c).order, append_assoc, map_append, nodup_append'] at hnodup
  refine hnodup.2.2 (mem_map_of_mem hran) (mem_map_of_mem ?_)
  exact mem_append_right _ hpending

theorem AllServed.place (h : s.AllServed) (hp : (s.callers p).waiting = none)
    (target fn arg : Nat) (cont : Cont) : (s.place p target fn arg cont).AllServed := by
  have hunowned : ∀ c, ∀ job ∈ s.unacked c, job.done = some p → ∃ k, k ≠ Cont.async ∧
      waiting (.enqueue target ⟨s.jobs, fn, arg, some p⟩ cont) = some (c, job, k) :=
    fun c job hjob hdone => absurd hdone (Served.unowned h hp hjob)
  cases cont with
  | async =>
    have hgo := Served.go h (p := p) (f := .enqueue target ⟨s.jobs, fn, arg, none⟩ .async)
      (v := s.done p) (fun t j k heq => ?_) (fun t j k heq => ?_) hunowned
    · rw [update_eq_self] at hgo
      exact hgo
    · cases heq
      exact .inl ⟨rfl, rfl⟩
    · cases heq
  | sync | flush me start =>
    refine Served.go h (fun t j k heq => ?_) (fun t j k heq => ?_) hunowned
    · cases heq
      exact .inr ⟨nofun, rfl, rfl⟩
    · cases heq

theorem AllServed.ret (h : s.AllServed)
    (hp : (s.callers p).waiting = some (target, job, cont)) (hdone : cont = .async ∨ s.done p ≠ 0) :
    (s.ret p target job cont).AllServed := by
  cases cont with
  | async | sync => exact Served.finish h hp hdone (f := .idle) rfl rfl
  | flush me start => exact Served.finish h hp hdone (f := .flush me start (target + 1)) rfl rfl

/-- An orderly step keeps flags and jobs together. -/
theorem AllServed.step (h : s.AllServed) (hord : s.AllOrdered) (hnum : s.AllNumbered)
    {call : SmpCall} (hcall : s.orderly call = true) (hstep : smpStep s call = some t) :
    t.AllServed := by
  apply smpStep_cases hstep <;> intros
  case here | offline => exact h
  case place hp _ | flushOne hp => exact h.place (by rw [hp]; rfl) ..
  case flush hp | skip hp _ => exact Served.leave h (by rw [hp]; rfl) rfl rfl
  case flushed hp _ => exact Served.leave h (f := .idle) (by rw [hp]; rfl) rfl rfl
  case refuse p target job cont hcall hp hfull =>
    subst hcall
    -- only an asynchronous call may find the queue full
    have hasync : cont = .async := by
      rw [orderly, hp] at hcall
      simp only [hfull, Bool.not_true, Bool.or_false, beq_iff_eq] at hcall
      exact hcall
    subst hasync
    have hnone : job.done = none := by
      rcases Served.placed h p target job .async hp with ⟨-, hnone⟩ | ⟨hne, -⟩
      · exact hnone
      · exact absurd rfl hne
    rw [hnone]
    exact Served.leave h (f := .idle) (by rw [hp]; rfl) rfl rfl
  case push p _ job _ hp hroom =>
    have hpushed := Served.push h hp (hnum.placed p job (congrArg CallerPhase.placing hp)).2
    rw [← unacked_push hord hroom] at hpushed
    exact hpushed
  case send p target job cont hp =>
    cases cont with
    | async =>
      have hwaiting : (s.callers p).waiting = some (target, job, .async) := by
        rw [hp]
        rfl
      exact Served.finish h hwaiting (.inl rfl) (f := .idle) rfl rfl
    | sync => exact Served.stay h (f := .check target job .sync) rfl (by rw [hp]; rfl)
    | flush me start =>
      exact Served.stay h (f := .check target job (.flush me start)) rfl (by rw [hp]; rfl)
  case refused hp hminus =>
    refine h.ret (by rw [hp]; rfl) (.inr ?_)
    rw [hminus]
    decide
  case check hp | spin hp => exact Served.stay h rfl (by rw [hp]; rfl)
  case done hp hdone => exact h.ret (by rw [hp]; rfl) (.inr hdone)
  case timeout hcall hp hzero _ =>
    subst hcall
    rw [orderly, hp] at hcall
    simp only [hzero, bne_self_eq_false, Bool.false_or, decide_eq_true_eq] at hcall
    omega
  case interrupt c hc | drained c hc _ =>
    unfold AllServed
    rw [unacked_setProcessing _ c]
    · exact h
    · rw [hc]
      rfl
  case take hc hmore =>
    unfold AllServed
    rw [unacked_take hord hc hmore]
    exact h
  case run c job hc =>
    unfold AllServed
    rw [unacked_setProcessing _ c]
    · exact Served.run h (subset_update_append s.ran c job)
    · rw [hc]
      rfl
  case ack c job hc =>
    have hran := (hord c).ack job hc
    have hheld : job ∈ s.unacked c := by
      unfold unacked
      rw [hc]
      exact mem_cons_self
    have hother : ∀ d, d ≠ c → (s.setProcessing c .loop).unacked d = s.unacked d := by
      intro d hd
      unfold unacked CallSys.setProcessing
      dsimp only
      rw [update_of_ne hd]
    have hself : (s.setProcessing c .loop).unacked c = (s.queue c).pending := by
      unfold unacked CallSys.setProcessing
      dsimp only
      rw [update_self]
      rfl
    have hacked := Served.ack h (u := (s.setProcessing c .loop).unacked) hheld hran
      (by rw [hself]; exact notMem_pending hord hnum hran) (fun d => ?_)
    · cases hd : job.done with
      | none | some a =>
        rw [hd] at hacked
        exact hacked
    · by_cases hd : d = c
      · rw [hd, hself]
        exact subset_append_right _ _
      · rw [hother d hd]
        exact List.Subset.refl _

end CallSys

/-! ## Flushes and returns -/

/-- Every other CPU below `i` that is online has flushed since the job `start`. -/
def FlushedUpTo (online : Nat → Bool) (ran : Nat → List Job) (me start i : Nat) : Prop :=
  ∀ c < i, c ≠ me → online c = true → ∃ job ∈ ran c, start ≤ job.id ∧ job.fn = tlbShootdownFn

/-- The call a caller has begun. -/
def CallerPhase.call : CallerPhase → Option (Nat × Job × Cont)
  | .enqueue target job cont | .send target job cont | .check target job cont
  | .spin target job cont _ => some (target, job, cont)
  | .idle | .flush .. => none

/-- A flush has served the CPUs it has come past, and a call that has returned has run. -/
structure Flushes (ncpu : Nat) (online : Nat → Bool) (callers : Nat → CallerPhase) (jobs : Nat)
    (ran inline : Nat → List Job) (log : List CallEvent) : Prop where
  loop : ∀ p me start i, callers p = .flush me start i →
    start ≤ jobs ∧ FlushedUpTo online ran me start i
  call : ∀ p target job me start, (callers p).call = some (target, job, .flush me start) →
    FlushedUpTo online ran me start target ∧ start ≤ job.id ∧ job.fn = tlbShootdownFn ∧ start ≤ jobs
  returned : ∀ target job, .returned target job ∈ log → job ∈ ran target ∨ job ∈ inline target
  flushed : ∀ me start, .flushed me start ∈ log → FlushedUpTo online ran me start ncpu

namespace Flushes

variable {ncpu jobs p : Nat} {online : Nat → Bool} {callers : Nat → CallerPhase}
  {ran inline : Nat → List Job} {log : List CallEvent}

section

variable (h : Flushes ncpu online callers jobs ran inline log)
include h

theorem go
    (hloop : ∀ me start i, f = .flush me start i → start ≤ jobs ∧ FlushedUpTo online ran me start i)
    (hcall : ∀ target job me start, f.call = some (target, job, .flush me start) →
      FlushedUpTo online ran me start target ∧ start ≤ job.id ∧ job.fn = tlbShootdownFn ∧
        start ≤ jobs) : Flushes ncpu online (update callers p f) jobs ran inline log := by
  refine ⟨fun q me start i hq => ?_, fun q target job me start hq => ?_, h.returned, h.flushed⟩
  · rcases update_cases hq with ⟨-, hq⟩ | ⟨-, hq⟩
    · exact hloop me start i hq
    · exact h.loop q me start i hq
  · by_cases hqp : q = p
    · rw [hqp, update_self] at hq
      exact hcall target job me start hq
    · rw [update_of_ne hqp] at hq
      exact h.call q target job me start hq

/-- A caller goes on with the same call. -/
theorem stay (hsame : f.call = (callers p).call)
    (hphase : ∀ me start i, f ≠ .flush me start i) :
    Flushes ncpu online (update callers p f) jobs ran inline log :=
  h.go (fun me start i heq => absurd heq (hphase me start i))
    fun target job me start heq => h.call p target job me start (hsame.symm.trans heq)

/-- A caller goes on to nothing that has to do with a flush. -/
theorem leave (hloop : ∀ me start i, f ≠ .flush me start i)
    (hcall : ∀ target job me start, f.call ≠ some (target, job, .flush me start)) :
    Flushes ncpu online (update callers p f) jobs ran inline log :=
  h.go (fun me start i heq => absurd heq (hloop me start i))
    fun target job me start heq => absurd heq (hcall target job me start)

theorem grow {n : Nat} {r i : Nat → List Job} (hjobs : jobs ≤ n) (hran : ∀ c, ran c ⊆ r c)
    (hinline : ∀ c, inline c ⊆ i c) : Flushes ncpu online callers n r i log := by
  have hmono : ∀ {me start i}, FlushedUpTo online ran me start i →
      FlushedUpTo online r me start i := by
    intro me start i hflushed c hc hne hon
    obtain ⟨job, hjob, hrest⟩ := hflushed c hc hne hon
    exact ⟨job, hran c hjob, hrest⟩
  refine ⟨fun p me start i hp => ?_, fun p target job me start hp => ?_, fun target job hlog => ?_,
    fun me start hlog => hmono (h.flushed me start hlog)⟩
  · obtain ⟨hstart, hup⟩ := h.loop p me start i hp
    exact ⟨hstart.trans hjobs, hmono hup⟩
  · obtain ⟨hup, hid, hfn, hstart⟩ := h.call p target job me start hp
    exact ⟨hmono hup, hid, hfn, hstart.trans hjobs⟩
  · exact (h.returned target job hlog).imp (fun hin => hran target hin) fun hin =>
      hinline target hin

theorem event {event : CallEvent}
    (hreturned :
      ∀ target job, event = .returned target job → job ∈ ran target ∨ job ∈ inline target)
    (hflushed : ∀ me start, event = .flushed me start → FlushedUpTo online ran me start ncpu) :
    Flushes ncpu online callers jobs ran inline (event :: log) := by
  refine ⟨h.loop, h.call, fun target job hlog => ?_, fun me start hlog => ?_⟩
  · rcases mem_cons.mp hlog with heq | hlog
    · exact hreturned target job heq.symm
    · exact h.returned target job hlog
  · rcases mem_cons.mp hlog with heq | hlog
    · exact hflushed me start heq.symm
    · exact h.flushed me start hlog

end

end Flushes

namespace CallSys

variable {s t : CallSys} {p c : Nat}

def AllFlushes (s : CallSys) : Prop := Flushes s.ncpu s.online s.callers s.jobs s.ran s.inline s.log

theorem AllFlushes.place (h : s.AllFlushes) {fn arg : Nat}
    (hcont : ∀ me start, cont = .flush me start →
      start ≤ s.jobs ∧ FlushedUpTo s.online s.ran me start target ∧ fn = tlbShootdownFn) :
    (s.place p target fn arg cont).AllFlushes := by
  have hmore := Flushes.grow h (Nat.le_succ s.jobs) (fun _ => List.Subset.refl _)
    fun _ => List.Subset.refl _
  cases cont with
  | async | sync => exact hmore.leave nofun nofun
  | flush me start =>
    obtain ⟨hstart, hup, hfn⟩ := hcont me start rfl
    refine hmore.go nofun fun t j me' start' heq => ?_
    cases heq
    exact ⟨hup, hstart, hfn, Nat.le_succ_of_le hstart⟩

section

variable {target : Nat} {job : Job} {cont : Cont} (h : s.AllFlushes)
    (hp : (s.callers p).call = some (target, job, cont))
include h hp

theorem AllFlushes.enqueued : (s.enqueued p target job cont).AllFlushes := by
  cases cont with
  | async =>
    exact Flushes.leave h (f := .idle) nofun
      nofun
  | sync => exact Flushes.stay h (f := .check target job .sync) hp.symm nofun
  | flush me start =>
    exact Flushes.stay h (f := .check target job (.flush me start)) hp.symm
      nofun

/-- A synchronous call returns after its job has run. -/
theorem AllFlushes.ret (hran : cont ≠ .async → job ∈ s.ran target) :
    (s.ret p target job cont).AllFlushes := by
  cases cont with
  | async =>
    exact Flushes.leave h (f := .idle) nofun
      nofun
  | sync =>
    have hin := hran nofun
    refine Flushes.event (Flushes.leave h (f := .idle) nofun
      nofun) (fun t j heq => ?_) nofun
    cases heq
    exact .inl hin
  | flush me start =>
    have hin := hran nofun
    obtain ⟨hup, hid, hfn, hstart⟩ := h.call p target job me start hp
    refine Flushes.event (Flushes.go h (f := .flush me start (target + 1))
      (fun me' start' i heq => ?_) nofun) (fun t j heq => ?_)
      nofun
    · cases heq
      refine ⟨hstart, fun c hc hne hon => ?_⟩
      rcases Nat.lt_succ_iff_lt_or_eq.mp hc with hlt | rfl
      · exact hup c hlt hne hon
      · exact ⟨job, hin, hid, hfn⟩
    · cases heq
      exact .inl hin

end

theorem AllFlushes.step (h : s.AllFlushes) (hserved : s.AllServed) {call : SmpCall}
    (hcall : s.orderly call = true) (hstep : smpStep s call = some t) : t.AllFlushes := by
  -- a flag that is not 0 belongs to a job that has run
  have hrun : ∀ {p target job cont}, (s.callers p).waiting = some (target, job, cont) →
      s.done p ≠ 0 → cont ≠ .async → job ∈ s.ran target := by
    intro p target job cont hp hdone hcont
    rcases (hserved.waits p target job cont hp hcont).2 with hzero | ⟨-, hin, -⟩
    · exact absurd hzero hdone
    · exact hin
  apply smpStep_cases hstep <;> intros
  case here target fn arg _ _ =>
    have hmore := Flushes.grow h (n := s.jobs + 1) (r := s.ran)
      (i := update s.inline target (s.inline target ++ [⟨s.jobs, fn, arg, none⟩]))
      (Nat.le_succ s.jobs) (fun _ => List.Subset.refl _) (subset_update_append s.inline target _)
    unfold AllFlushes
    split
    · exact hmore
    · refine hmore.event (fun t j heq => ?_) nofun
      cases heq
      right
      rw [update_self]
      exact mem_append_right _ mem_cons_self
  case offline => exact h
  case place hcont =>
    refine h.place fun me start heq => ?_
    rcases hcont with rfl | rfl
    all_goals cases heq
  case flush =>
    refine Flushes.go h (fun me' start i heq => ?_) nofun
    cases heq
    exact ⟨Nat.le_refl _, fun c hc => absurd hc (Nat.not_lt_zero c)⟩
  case skip p me start i hp hskip =>
    obtain ⟨hstart, hup⟩ := h.loop p me start i hp
    refine Flushes.go h (fun me' start' i' heq => ?_) nofun
    cases heq
    refine ⟨hstart, fun c hc hne hon => ?_⟩
    rcases Nat.lt_succ_iff_lt_or_eq.mp hc with hlt | rfl
    · exact hup c hlt hne hon
    · rcases hskip with hme | hoff
      · exact absurd hme hne
      · cases hoff.symm.trans hon
  case flushOne p me start i hp =>
    obtain ⟨hstart, hup⟩ := h.loop p me start i hp
    refine h.place fun me' start' heq => ?_
    cases heq
    exact ⟨hstart, hup, rfl⟩
  case flushed p me start i hp hend =>
    obtain ⟨-, hup⟩ := h.loop p me start i hp
    refine Flushes.event (Flushes.leave h (f := .idle) nofun
      nofun) nofun fun me' start' heq => ?_
    cases heq
    exact fun c hc => hup c (Nat.lt_of_lt_of_le hc hend)
  case refuse p target job cont _ hp _ =>
    refine AllFlushes.enqueued ?_ ?_
    · cases job.done <;> exact h
    · have hcalled : (s.callers p).call = some (target, job, cont) := by rw [hp]; rfl
      cases hd : job.done <;> exact hcalled
  case push target job cont hp _ =>
    exact Flushes.stay h (f := .send target job cont) (by rw [hp]; rfl)
      nofun
  case send hp =>
    refine AllFlushes.enqueued ?_ ?_
    · exact h
    · rw [hp]
      rfl
  case refused hp hminus =>
    refine h.ret (by rw [hp]; rfl) fun hcont => hrun (by rw [hp]; rfl) ?_ hcont
    rw [hminus]
    decide
  case check hp | spin hp => exact Flushes.stay h (by rw [hp]; rfl) nofun
  case done hp hdone =>
    exact h.ret (by rw [hp]; rfl) fun hcont => hrun (by rw [hp]; rfl) hdone hcont
  case timeout hcall hp hzero _ =>
    subst hcall
    rw [orderly, hp] at hcall
    simp only [hzero, bne_self_eq_false, Bool.false_or, decide_eq_true_eq] at hcall
    omega
  case run c job _ =>
    exact Flushes.grow h (Nat.le_refl _) (subset_update_append s.ran c job)
      fun _ => List.Subset.refl _
  case ack job _ => cases job.done <;> exact h
  all_goals exact h

end CallSys

/-! ## Every run -/

/-- What cross-CPU calls promise. -/
structure CallsKept (s : CallSys) : Prop where
  /-- each CPU runs what its queue has taken in, in that order -/
  order : ∀ c, s.accepted c = s.ran c ++ (s.processing c).inHand ++ (s.queue c).pending
  /-- no job twice, and none on two CPUs -/
  once : ∀ c, ((s.accepted c).map Job.id).Nodup
  target : ∀ c d, ∀ j ∈ s.accepted c, ∀ k ∈ s.accepted d, j.id = k.id → c = d
  /-- what has not run is on its way -/
  pending : ∀ c, s.accepted c ≠ s.ran c → s.ipi c = true ∨ s.processing c ≠ .idle ∨
    ∃ p job cont, s.callers p = .send c job cont
  drains : ∀ c, s.processing c ≠ .idle → s.Drains c
  /-- a synchronous call has returned after its function ran -/
  returned : ∀ target job, .returned target job ∈ s.log → job ∈ s.ran target ∨ job ∈ s.inline target
  /-- and a flush after every other CPU flushed -/
  flushed : ∀ me start, .flushed me start ∈ s.log → FlushedUpTo s.online s.ran me start s.ncpu

/-- In a run of orderly steps, every promise is kept. -/
theorem calls_kept (ncpu : Nat) (online : Nat → Bool) (slot : Nat → Nat → Job)
    (calls : List SmpCall) (s : CallSys)
    (meets : AllSteps smpStep (fun s call => s.orderly call = true) (.start ncpu online slot) calls)
    (run : exec smpStep (.start ncpu online slot) calls = some s) : CallsKept s := by
  have hvalid : ∀ c, ((CallSys.start ncpu online slot).queue c).Valid :=
    fun _ => ⟨Nat.zero_lt_succ 15, Nat.zero_lt_succ 15⟩
  have hempty : ∀ c, ((CallSys.start ncpu online slot).queue c).pending = [] :=
    fun c => (CallQueue.pending_eq_nil_iff (hvalid c)).mpr rfl
  have hinv : (s.AllOrdered ∧ s.AllNumbered) ∧ s.Signalled ∧ s.AllServed ∧ s.AllFlushes := by
    refine exec_invariant
      (I := fun s => (s.AllOrdered ∧ s.AllNumbered) ∧ s.Signalled ∧ s.AllServed ∧ s.AllFlushes)
      (fun _ _ _ ⟨⟨hord, hnum⟩, hsig, hserved, hflush⟩ hcall hstep =>
        ⟨⟨hord.step hstep, hnum.step hstep⟩, hsig.step hord hstep,
          hserved.step hord hnum hcall hstep, hflush.step hserved hcall hstep⟩)
      ⟨⟨?_, ?_⟩, ?_, ?_, ?_⟩ meets run
    · refine fun c => ⟨hvalid c, ?_, nofun⟩
      rw [hempty c]
      rfl
    · exact ⟨fun _ _ hj => absurd hj not_mem_nil, fun _ => nodup_nil,
        fun _ _ _ hj => absurd hj not_mem_nil, nofun,
        nofun⟩
    · exact fun c hc => absurd (hempty c) hc
    · refine ⟨nofun, nofun, fun c _ _ hj => ?_⟩
      unfold CallSys.unacked at hj
      rw [hempty c] at hj
      exact absurd hj not_mem_nil
    · exact ⟨nofun, nofun,
        fun _ _ hlog => absurd hlog not_mem_nil, fun _ _ hlog => absurd hlog not_mem_nil⟩
  obtain ⟨⟨hord, hnum⟩, hsig, -, hflush⟩ := hinv
  refine ⟨fun c => (hord c).order, hnum.nodup, hnum.apart, fun c hc => ?_,
    fun c hc => hord.drains hc, hflush.returned, hflush.flushed⟩
  by_cases hpending : (s.queue c).pending = []
  · refine .inr (.inl fun hidle => hc ?_)
    rw [(hord c).order, hidle, hpending, Processing.inHand, append_nil, append_nil]
  · exact hsig c hpending

/-- One CPU flushes the TLB of the other and waits for it. -/
theorem calls_kept_two_cpus :
    (exec smpStep (.start 2 (fun _ => true) fun _ _ => ⟨0, 0, 0, none⟩)
      [.flush 0 0, .step 0, .step 0, .step 0, .step 0, .interrupt 1, .process 1, .process 1,
        .process 1, .process 1, .step 0, .step 0, .step 0]).map (fun s => s.log) =
      some [.flushed 0 0, .returned 1 ⟨0, tlbShootdownFn, 0, some 0⟩] ∧
    ∀ s, exec smpStep (.start 2 (fun _ => true) fun _ _ => ⟨0, 0, 0, none⟩)
      [.flush 0 0, .step 0, .step 0, .step 0, .step 0, .interrupt 1, .process 1, .process 1,
        .process 1, .process 1, .step 0, .step 0, .step 0] = some s → CallsKept s :=
  ⟨by decide +kernel, fun s run => calls_kept 2 (fun _ => true) (fun _ _ => ⟨0, 0, 0, none⟩) _ s
    (by decide +kernel) run⟩

/-- With fifteen calls waiting, `tlb_flush_others_sync` returns though the other CPU has run
nothing. -/
theorem flush_returns_early :
    ∃ s, exec smpStep (.start 2 (fun _ => true) fun _ _ => ⟨0, 0, 0, none⟩)
      ((List.replicate 15 [.call 0 0 1 7 7, .step 0, .step 0]).flatten ++
        [.flush 0 0, .step 0, .step 0, .step 0, .step 0, .step 0]) = some s ∧ ¬ CallsKept s := by
  refine exists_run (A := fun s =>
    s.log = [.flushed 0 15, .returned 1 ⟨15, tlbShootdownFn, 0, some 0⟩] ∧ s.ran 1 = [] ∧
      s.inline 1 = []) (by decide +kernel) ?_
  rintro s - ⟨hlog, hran, hinline⟩ hkept
  rcases hkept.returned 1 ⟨15, tlbShootdownFn, 0, some 0⟩ (by rw [hlog]; simp) with hin | hin
  · exact absurd (hran ▸ hin) not_mem_nil
  · exact absurd (hinline ▸ hin) not_mem_nil

end ArcKernel.Smp
