import ArcKernel.Foundation.Ring
import ArcKernel.Foundation.Run

/-!
# Cross-CPU calls

`cpu_call`, `cpu_call_sync`, `cpu_call_process` and `tlb_flush_others_sync`.  A caller is a
context on some CPU, and there may be several on each; `cpu_call_process` runs in interrupt
context, once at a time on each CPU.  Each section that holds a queue's lock is one step, and so
is each access to a `done` flag.

A `done` flag is a cell on the caller's stack, and successive calls of a context use the same
cell: the queue may hold a pointer to the cell of a call that has returned.  `accepted`, `ran`,
`inline`, `jobs` and `log` are ghost fields.
-/

namespace ArcKernel.Smp

open ArcKernel.Foundation Function Option

def callQueueDepth : Nat := 16

/-- The spins after which `cpu_call_sync` gives up. -/
def spinLimit : Nat := 1000000000

/-- The function `tlb_shootdown_fn`. -/
def tlbShootdownFn : Nat := 0

/-- `struct cpu_call`; `id` numbers the jobs and is ghost data. -/
structure Job where
  id : Nat
  fn : Nat
  arg : Nat
  /-- the context whose flag is to be set, for `cpu_call_sync` -/
  done : Option Nat
  deriving DecidableEq

structure CallQueue where
  slot : Nat → Job
  head : Nat
  tail : Nat

/-- `cpu_call_process` on one CPU. -/
inductive Processing where
  | idle
  | loop
  /-- a job taken off the queue -/
  | run (job : Job)
  /-- a job whose function has returned -/
  | ack (job : Job)
  deriving DecidableEq

/-- Who waits for a call. -/
inductive Cont where
  /-- nobody: `cpu_call` -/
  | async
  /-- the caller of `cpu_call_sync` -/
  | sync
  /-- `tlb_flush_others_sync` on the CPU `me`, begun when `start` jobs had been made -/
  | flush (me start : Nat)
  deriving DecidableEq

inductive CallerPhase where
  | idle
  /-- `tlb_flush_others_sync` at the CPU `i` -/
  | flush (me start i : Nat)
  | enqueue (target : Nat) (job : Job) (cont : Cont)
  /-- accepted, before `cpu_send_ipi` -/
  | send (target : Nat) (job : Job) (cont : Cont)
  /-- before the test for a full queue -/
  | check (target : Nat) (job : Job) (cont : Cont)
  | spin (target : Nat) (job : Job) (cont : Cont) (spins : Nat)
  deriving DecidableEq

inductive CallEvent where
  /-- `cpu_call_sync` returned -/
  | returned (target : Nat) (job : Job)
  /-- `tlb_flush_others_sync` returned -/
  | flushed (me start : Nat)
  deriving DecidableEq

structure CallSys where
  ncpu : Nat
  online : Nat → Bool
  queue : Nat → CallQueue
  /-- the `done` flag of each context -/
  done : Nat → Int
  /-- `IPI_CALL` is pending on the CPU -/
  ipi : Nat → Bool
  processing : Nat → Processing
  callers : Nat → CallerPhase
  /-- the number of jobs made -/
  jobs : Nat
  /-- what each queue has taken in -/
  accepted : Nat → List Job
  /-- what `cpu_call_process` has run on each CPU -/
  ran : Nat → List Job
  /-- what a CPU has run for itself -/
  inline : Nat → List Job
  log : List CallEvent

namespace CallSys

def setPhase (s : CallSys) (p : Nat) (phase : CallerPhase) : CallSys :=
  { s with callers := update s.callers p phase }

def setDone (s : CallSys) (a : Nat) (v : Int) : CallSys := { s with done := update s.done a v }

def setProcessing (s : CallSys) (c : Nat) (phase : Processing) : CallSys :=
  { s with processing := update s.processing c phase }

/-- `next == call_tail[id]` -/
def full (s : CallSys) (c : Nat) : Bool :=
  ((s.queue c).head + 1) % callQueueDepth == (s.queue c).tail

/-- The section of `cpu_call_enqueue` that takes the job in. -/
def push (s : CallSys) (c : Nat) (job : Job) : CallSys :=
  { s with
    queue := update s.queue c { s.queue c with
        slot := update (s.queue c).slot (s.queue c).head job
        head := ((s.queue c).head + 1) % callQueueDepth }
    accepted := update s.accepted c (s.accepted c ++ [job]) }

/-- `cpu_call_sync` returns to its caller. -/
def ret (s : CallSys) (p target : Nat) (job : Job) : Cont → CallSys
  | .async => s.setPhase p .idle
  | .sync => { s.setPhase p .idle with log := .returned target job :: s.log }
  | .flush me start =>
      { s.setPhase p (.flush me start (target + 1)) with log := .returned target job :: s.log }

/-- What follows `cpu_call_enqueue`. -/
def enqueued (s : CallSys) (p target : Nat) (job : Job) : Cont → CallSys
  | .async => s.setPhase p .idle
  | cont => s.setPhase p (.check target job cont)

/-- A job for another CPU is made, with the flag set to 0 if there is one. -/
def place (s : CallSys) (p target fn arg : Nat) (cont : Cont) : CallSys :=
  match cont with
  | .async =>
      { s with jobs := s.jobs + 1 }.setPhase p (.enqueue target ⟨s.jobs, fn, arg, none⟩ cont)
  | .sync | .flush _ _ =>
      { s with jobs := s.jobs + 1, done := update s.done p 0 }.setPhase p
        (.enqueue target ⟨s.jobs, fn, arg, some p⟩ cont)

/-- The next step of a caller that is inside a call. -/
def callerStep (s : CallSys) (p : Nat) : Option CallSys :=
  match s.callers p with
  | .idle => none
  | .flush me start i =>
      if i < s.ncpu then
        if i = me ∨ s.online i = false then some (s.setPhase p (.flush me start (i + 1)))
        else some (s.place p i tlbShootdownFn 0 (.flush me start))
      else some { s.setPhase p .idle with log := .flushed me start :: s.log }
  | .enqueue target job cont =>
      if s.full target then
        some ((job.done.elim s fun a => s.setDone a (-1)).enqueued p target job cont)
      else some ((s.push target job).setPhase p (.send target job cont))
  | .send target job cont =>
      some ({ s with ipi := update s.ipi target true }.enqueued p target job cont)
  | .check target job cont =>
      if s.done p = -1 then some (s.ret p target job cont)
      else some (s.setPhase p (.spin target job cont 0))
  | .spin target job cont spins =>
      if s.done p ≠ 0 then some (s.ret p target job cont)
      else if spinLimit < spins + 1 then some (s.ret p target job cont)
      else some (s.setPhase p (.spin target job cont (spins + 1)))

/-- The next step of `cpu_call_process`. -/
def processStep (s : CallSys) (c : Nat) : Option CallSys :=
  match s.processing c with
  | .idle => none
  | .loop =>
      let q := s.queue c
      if q.tail = q.head then some (s.setProcessing c .idle)
      else some ({ s with
        queue := update s.queue c { q with tail := (q.tail + 1) % callQueueDepth }
        }.setProcessing c (.run (q.slot q.tail)))
  | .run job =>
      some ({ s with ran := update s.ran c (s.ran c ++ [job]) }.setProcessing c (.ack job))
  | .ack job => some ((job.done.elim s fun a => s.setDone a 1).setProcessing c .loop)

end CallSys

inductive SmpCall where
  /-- the context `p`, running on `me`, calls `cpu_call` -/
  | call (p me target fn arg : Nat)
  | callSync (p me target fn arg : Nat)
  | flush (p me : Nat)
  | step (p : Nat)
  /-- the pending `IPI_CALL` is taken -/
  | interrupt (c : Nat)
  | process (c : Nat)

/-- The local path, the test for an offline target, or the way to the queue. -/
def CallSys.dispatch (s : CallSys) (p me target fn arg : Nat) (cont : Cont) : CallSys :=
  if me = target then
    let job : Job := ⟨s.jobs, fn, arg, none⟩
    { s with
      jobs := s.jobs + 1
      inline := update s.inline target (s.inline target ++ [job])
      log := if cont = Cont.async then s.log else .returned target job :: s.log }
  else if s.online target = false then s
  else s.place p target fn arg cont

def smpStep (s : CallSys) : SmpCall → Option CallSys
  | .call p me target fn arg =>
      if s.callers p = .idle then some (s.dispatch p me target fn arg .async) else none
  | .callSync p me target fn arg =>
      if s.callers p = .idle then some (s.dispatch p me target fn arg .sync) else none
  | .flush p me => if s.callers p = .idle then some (s.setPhase p (.flush me s.jobs 0)) else none
  | .step p => s.callerStep p
  | .interrupt c =>
      if s.ipi c = true ∧ s.processing c = .idle then
        some ({ s with ipi := update s.ipi c false }.setProcessing c .loop)
      else none
  | .process c => s.processStep c

/-- Nothing called yet. -/
def CallSys.start (ncpu : Nat) (online : Nat → Bool) (slot : Nat → Nat → Job) : CallSys where
  ncpu := ncpu
  online := online
  queue := fun c => ⟨slot c, 0, 0⟩
  done := fun _ => 0
  ipi := fun _ => false
  processing := fun _ => .idle
  callers := fun _ => .idle
  jobs := 0
  accepted := fun _ => []
  ran := fun _ => []
  inline := fun _ => []
  log := []

/-! ## What a step is -/

/-- Every step is one of these; a property of the state reached is shown for each. -/
theorem smpStep_cases {s t : CallSys} {call : SmpCall} {motive : CallSys → Prop}
    (hstep : smpStep s call = some t)
    (here : ∀ target fn arg cont, cont = Cont.async ∨ cont = .sync → motive { s with
        jobs := s.jobs + 1
        inline := update s.inline target (s.inline target ++ [⟨s.jobs, fn, arg, none⟩])
        log := if cont = Cont.async then s.log
          else .returned target ⟨s.jobs, fn, arg, none⟩ :: s.log }) (offline : motive s)
    (place : ∀ p target fn arg cont, s.callers p = .idle → cont = Cont.async ∨ cont = .sync →
      motive (s.place p target fn arg cont))
    (flush : ∀ p me, s.callers p = .idle → motive (s.setPhase p (.flush me s.jobs 0)))
    (skip : ∀ p me start i, s.callers p = .flush me start i → i = me ∨ s.online i = false →
      motive (s.setPhase p (.flush me start (i + 1))))
    (flushOne : ∀ p me start i, s.callers p = .flush me start i →
      motive (s.place p i tlbShootdownFn 0 (.flush me start)))
    (flushed : ∀ p me start i, s.callers p = .flush me start i → s.ncpu ≤ i →
      motive { s.setPhase p .idle with log := .flushed me start :: s.log })
    (refuse : ∀ p target job cont, call = .step p → s.callers p = .enqueue target job cont →
      s.full target = true →
      motive ((job.done.elim s fun a => s.setDone a (-1)).enqueued p target job cont))
    (push : ∀ p target job cont, s.callers p = .enqueue target job cont → s.full target = false →
      motive ((s.push target job).setPhase p (.send target job cont)))
    (send : ∀ p target job cont, s.callers p = .send target job cont →
      motive ({ s with ipi := update s.ipi target true }.enqueued p target job cont))
    (refused : ∀ p target job cont, s.callers p = .check target job cont → s.done p = -1 →
      motive (s.ret p target job cont))
    (check : ∀ p target job cont, s.callers p = .check target job cont →
      motive (s.setPhase p (.spin target job cont 0)))
    (done : ∀ p target job cont spins, s.callers p = .spin target job cont spins → s.done p ≠ 0 →
      motive (s.ret p target job cont))
    (timeout : ∀ p target job cont spins, call = .step p →
      s.callers p = .spin target job cont spins → s.done p = 0 → spinLimit < spins + 1 →
      motive (s.ret p target job cont))
    (spin : ∀ p target job cont spins, s.callers p = .spin target job cont spins →
      motive (s.setPhase p (.spin target job cont (spins + 1))))
    (interrupt : ∀ c, s.processing c = .idle →
      motive ({ s with ipi := update s.ipi c false }.setProcessing c .loop))
    (drained : ∀ c, s.processing c = .loop → (s.queue c).tail = (s.queue c).head →
      motive (s.setProcessing c .idle))
    (take : ∀ c, s.processing c = .loop → (s.queue c).tail ≠ (s.queue c).head → motive ({ s with
        queue := update s.queue c
          { s.queue c with tail := ((s.queue c).tail + 1) % callQueueDepth } }.setProcessing c
          (.run ((s.queue c).slot (s.queue c).tail))))
    (run : ∀ c job, s.processing c = .run job →
      motive ({ s with ran := update s.ran c (s.ran c ++ [job]) }.setProcessing c (.ack job)))
    (ack : ∀ c job, s.processing c = .ack job →
      motive ((job.done.elim s fun a => s.setDone a 1).setProcessing c .loop)) : motive t := by
  have hdispatch : ∀ {p me target fn arg cont}, s.callers p = .idle →
      cont = Cont.async ∨ cont = .sync → motive (s.dispatch p me target fn arg cont) := by
    intro p me target fn arg cont hp hcont
    unfold CallSys.dispatch
    split
    · exact here target fn arg cont hcont
    · split
      · exact offline
      · exact place p target fn arg cont hp hcont
  cases call with
  | call p me target fn arg =>
    obtain ⟨hok, rfl⟩ := of_guard hstep
    exact hdispatch hok (.inl rfl)
  | callSync p me target fn arg =>
    obtain ⟨hok, rfl⟩ := of_guard hstep
    exact hdispatch hok (.inr rfl)
  | flush p me =>
    obtain ⟨hok, rfl⟩ := of_guard hstep
    exact flush p me hok
  | step p =>
    rw [smpStep, CallSys.callerStep] at hstep
    split at hstep
    · cases hstep
    · rename_i me start i hp
      split at hstep
      · split at hstep
        · rename_i hskip
          exact some.inj hstep ▸ skip p me start i hp hskip
        · exact some.inj hstep ▸ flushOne p me start i hp
      · rename_i hend
        exact some.inj hstep ▸ flushed p me start i hp (Nat.le_of_not_lt hend)
    · rename_i target job cont hp
      split at hstep
      · rename_i hfull
        exact some.inj hstep ▸ refuse p target job cont rfl hp hfull
      · rename_i hroom
        exact some.inj hstep ▸ push p target job cont hp (Bool.eq_false_iff.mpr hroom)
    · rename_i target job cont hp
      exact some.inj hstep ▸ send p target job cont hp
    · rename_i target job cont hp
      split at hstep
      · rename_i hfull
        exact some.inj hstep ▸ refused p target job cont hp hfull
      · exact some.inj hstep ▸ check p target job cont hp
    · rename_i target job cont spins hp
      split at hstep
      · rename_i hdone
        exact some.inj hstep ▸ done p target job cont spins hp hdone
      rename_i hzero
      split at hstep
      · rename_i hlimit
        exact some.inj hstep ▸ timeout p target job cont spins rfl hp (not_not.mp hzero) hlimit
      · exact some.inj hstep ▸ spin p target job cont spins hp
  | interrupt c =>
    obtain ⟨hok, rfl⟩ := of_guard hstep
    exact interrupt c hok.2
  | process c =>
    rw [smpStep, CallSys.processStep] at hstep
    split at hstep
    · cases hstep
    · rename_i hc
      dsimp only at hstep
      split at hstep
      · rename_i hempty
        exact some.inj hstep ▸ drained c hc hempty
      · rename_i hmore
        exact some.inj hstep ▸ take c hc hmore
    · rename_i job hc
      exact some.inj hstep ▸ run c job hc
    · rename_i job hc
      exact some.inj hstep ▸ ack c job hc

end ArcKernel.Smp
