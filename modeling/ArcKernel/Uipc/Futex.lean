import ArcKernel.Foundation.Chain
import ArcKernel.Foundation.Run

/-!
# Futexes

Model of `bsd/uipc/futex.c` (`futex_find_q`, `futex_remove_q`, `futex_wait`, `futex_wake`,
`futex_requeue`) and of `waitq_sleep_timeout_linked` (`bsd/proc/proc.c`), for processes that
share an address space.

Queues live in 64 hash buckets; the waiters of a queue are a list linked through
`wait_next`.  All sections under `futex_lock` are single steps.  A process in `futex_wait`
passes through phases: it is linked and sleeps, its sleep ends, it takes itself off the
queue it was linked to, and it settles the account of the queue it is counted on.  On its way
to sleep it holds no lock: the test of its state, the second write of `PRS_SLEEP` and the call
of `scheduler_sleep_ticks` are steps of their own.  The walk that takes it off holds only the
lock of the queue, which `futex_wake` and `futex_requeue` do not take, so finding the link and
rewriting it are two steps.

Processes are positive numbers, 0 is the null pointer.  `parked` is not read by the code: it
records the address a process is parked on, until it is woken, times out or is interrupted.
-/

namespace ArcKernel.Uipc

open ArcKernel.Foundation Function

/-- `FUTEX_BUCKETS` -/
def futexBuckets : Nat := 64

structure FutexQ where
  uaddr : Nat
  nwaiters : Int

/-- Why a sleep ends. -/
inductive WakeReason where
  | woken | timedOut | interrupted
  deriving DecidableEq

/-- Where a process is in `futex_wait`, after it has been linked. -/
inductive Phase where
  /-- not in `futex_wait` -/
  | idle
  /-- linked to the queue; `forever` when no timeout was given -/
  | sleeping (q : Nat) (forever : Bool)
  /-- back from the sleep, about to take itself off the queue -/
  | ended (q : Nat)
  /-- holding the lock of the queue, with the link to rewrite -/
  | walking (q : Nat) (at_ : Option (Loc Nat))
  /-- about to settle the account -/
  | leaving
  deriving DecidableEq

/-- Where a process is in `waitq_sleep_timeout_linked`, up to the end of its sleep. -/
inductive SleepStage where
  /-- before the test of `p->state` -/
  | entering
  | tested
  /-- `PRS_SLEEP` written again -/
  | marked
  /-- the thread is `THREAD_BLOCKED`, until the deadline -/
  | blocked
  /-- no room on the sleep queue: the deadline is polled -/
  | polling
  /-- the thread has been made ready again -/
  | running
  deriving DecidableEq

/-- `scheduler_unblock_thread` does nothing to a thread that is not blocked. -/
def SleepStage.unblock : SleepStage → SleepStage
  | .blocked => .running
  | st => st

structure FutexState where
  queues : Nat → FutexQ
  /-- number of queues made so far -/
  made : Nat
  buckets : Nat → List Nat
  /-- `wq.head` of the queues and `wait_next` of the processes -/
  ptr : Loc Nat → Nat
  futexQ : Nat → Option Nat
  /-- `p->state == PRS_SLEEP` -/
  asleep : Nat → Bool
  phase : Nat → Phase
  stage : Nat → SleepStage
  parked : Nat → Option Nat

def futexHash (uaddr : Nat) : Nat := uaddr / 4 % futexBuckets

def futexFindQ (s : FutexState) (uaddr : Nat) : Option Nat :=
  (s.buckets (futexHash uaddr)).find? fun q => (s.queues q).uaddr = uaddr

/-- `futex_find_q` with `create`; `none` when `kmalloc` fails. -/
def futexCreateQ (granted : Bool) (s : FutexState) (uaddr : Nat) : Option (FutexState × Nat) :=
  match futexFindQ s uaddr with
  | some q => some (s, q)
  | none =>
      if granted then
        let q := s.made
        let idx := futexHash uaddr
        some ({ s with
          made := q + 1
          queues := update s.queues q ⟨uaddr, 0⟩
          ptr := update s.ptr (.root q) 0
          buckets := update s.buckets idx (q :: s.buckets idx) }, q)
      else none

def futexRemoveQ (s : FutexState) (q : Nat) : FutexState :=
  let idx := futexHash (s.queues q).uaddr
  { s with buckets := update s.buckets idx ((s.buckets idx).erase q) }

namespace FutexState

def setWaiters (s : FutexState) (q : Nat) (n : Int) : FutexState :=
  { s with queues := update s.queues q { s.queues q with nwaiters := n } }

def setPtr (s : FutexState) (loc : Loc Nat) (v : Nat) : FutexState :=
  { s with ptr := update s.ptr loc v }

def setPhase (s : FutexState) (p : Nat) (ph : Phase) : FutexState :=
  { s with phase := update s.phase p ph }

def setFutexQ (s : FutexState) (p : Nat) (q : Option Nat) : FutexState :=
  { s with futexQ := update s.futexQ p q }

def setParked (s : FutexState) (p : Nat) (a : Option Nat) : FutexState :=
  { s with parked := update s.parked p a }

def setAsleep (s : FutexState) (p : Nat) (b : Bool) : FutexState :=
  { s with asleep := update s.asleep p b }

def setStage (s : FutexState) (p : Nat) (st : SleepStage) : FutexState :=
  { s with stage := update s.stage p st }

/-- `PRS_RUNNING`, and the thread unblocked: the parking is over. -/
def rouse (s : FutexState) (p : Nat) : FutexState :=
  ((s.setAsleep p false).setStage p (s.stage p).unblock).setParked p none

end FutexState

/-! ## `futex_wait` -/

/-- What `copy_from_user` finds at the address. -/
inductive UserWord where
  | fault | changed | expected

/-- Up to the sleep. -/
def futexWait (granted : Bool) (s : FutexState) (p uaddr : Nat) (word : UserWord) (forever : Bool) :
    FutexState :=
  match futexCreateQ granted s uaddr with
  | none => s
  | some (s, q) =>
      match word with
      | .fault => if (s.queues q).nwaiters = 0 then futexRemoveQ s q else s
      | .changed =>
          -- counted and uncounted again
          if (s.queues q).nwaiters = 0 then futexRemoveQ s q else s
      | .expected =>
          let s := (s.setWaiters q ((s.queues q).nwaiters + 1)).setFutexQ p (some q)
          let s := s.setPtr (.link p) (s.ptr (.root q))
          let s := s.setPtr (.root q) p
          let s := (s.setAsleep p true).setPhase p (.sleeping q forever)
          (s.setStage p .entering).setParked p (some uaddr)

/-- `*pp = p->wait_next`, if the walk has found the link to the process. -/
def rewriteLink (s : FutexState) (p : Nat) : Option (Loc Nat) → FutexState
  | some loc => s.setPtr loc (s.ptr (.link p))
  | none => s

/-- The walk that takes a process off the list of a queue. -/
def takeOff (fuel : Nat) (s : FutexState) (p q : Nat) : FutexState :=
  rewriteLink s p (locate s.ptr p fuel (.root q))

/-- The end of `futex_wait`: leave the queue the process is counted on. -/
def futexAccount (fuel : Nat) (s : FutexState) (p : Nat) : FutexState :=
  let s := s.setPhase p .idle
  match s.futexQ p with
  | none => s
  | some mq =>
      let s := takeOff fuel (s.setFutexQ p none) p mq
      let n : Int := (s.queues mq).nwaiters - 1
      if n ≤ 0 then futexRemoveQ (s.setWaiters mq 0) mq else s.setWaiters mq n

/-! ## `futex_wake` and `futex_requeue` -/

/-- Take the first waiter off the queue and make it runnable. -/
def popWake (s : FutexState) (q : Nat) : FutexState :=
  let w := s.ptr (.root q)
  let s := s.setPtr (.root q) (s.ptr (.link w))
  (s.setPtr (.link w) 0).rouse w

/-- The loop of `futex_wake`: the number woken. -/
def wakeLoop (q : Nat) : Nat → FutexState → FutexState × Nat
  | 0, s => (s, 0)
  | n + 1, s =>
      if s.ptr (.root q) = 0 then (s, 0)
      else
        let (t, woken) := wakeLoop q n (popWake s q)
        (t, woken + 1)

def futexWake (s : FutexState) (uaddr n : Nat) : FutexState × Nat :=
  match futexFindQ s uaddr with
  | none => (s, 0)
  | some q => wakeLoop q n s

def uncount (s : FutexState) (q : Nat) : FutexState :=
  if 0 < (s.queues q).nwaiters then s.setWaiters q ((s.queues q).nwaiters - 1) else s

/-- The first part of the loop of `futex_requeue`: while fewer than `nwake` are woken. -/
def requeueWakes (q1 : Nat) : Nat → FutexState → FutexState × Nat
  | 0, s => (s, 0)
  | n + 1, s =>
      if s.ptr (.root q1) = 0 then (s, 0)
      else
        let w := s.ptr (.root q1)
        let (t, woken) := requeueWakes q1 n (uncount ((popWake s q1).setFutexQ w none) q1)
        (t, woken + 1)

/-- Take the first waiter off `q1` and store it at `pp`. -/
def requeueMove (q1 q2 uaddr2 : Nat) (pp : Loc Nat) (s : FutexState) : FutexState :=
  let w := s.ptr (.root q1)
  let s := s.setPtr (.root q1) (s.ptr (.link w))
  let s := s.setPtr (.link w) 0
  let s := s.setPtr pp w
  let s := uncount (s.setFutexQ w (some q2)) q1
  let s := if q2 ≠ q1 then s.setWaiters q2 ((s.queues q2).nwaiters + 1) else s
  s.setParked w ((s.parked w).map fun _ => uaddr2)

/-- The second part of the loop, and the final `*pp = NULL`: the number moved. -/
def requeueMoves (q1 q2 uaddr2 : Nat) : Nat → Loc Nat → FutexState → FutexState × Nat
  | 0, pp, s => (s.setPtr pp 0, 0)
  | n + 1, pp, s =>
      if s.ptr (.root q1) = 0 then (s.setPtr pp 0, 0)
      else
        let w := s.ptr (.root q1)
        let (t, moved) := requeueMoves q1 q2 uaddr2 n (.link w) (requeueMove q1 q2 uaddr2 pp s)
        (t, moved + 1)

/-- The numbers woken and moved. -/
def futexRequeue (granted : Bool) (s : FutexState) (uaddr1 uaddr2 nwake nmove : Nat) :
    FutexState × Nat × Nat :=
  match futexFindQ s uaddr1 with
  | none => (s, 0, 0)
  | some q1 =>
      match if uaddr1 = uaddr2 then some (s, q1) else futexCreateQ granted s uaddr2 with
      | none => (s, 0, 0)
      | some (s, q2) =>
          let (s, woken) := requeueWakes q1 nwake s
          let (s, moved) := requeueMoves q1 q2 uaddr2 nmove (.root q2) s
          let s := if (s.queues q1).nwaiters ≤ 0 then
              let s := s.setWaiters q1 0
              if uaddr1 ≠ uaddr2 then futexRemoveQ s q1 else s
            else s
          (s, woken, moved)

/-! ## Steps -/

inductive FutexCall where
  | wait (p uaddr : Nat) (granted : Bool) (word : UserWord) (forever : Bool)
  /-- `waitq_sleep_timeout_linked` returns at one of its first tests -/
  | returnEarly (p : Nat) (reason : WakeReason)
  /-- the next step to the sleep; `queued` when there is room on the sleep queue -/
  | sleep (p : Nat) (queued : Bool)
  /-- `proc_wakeup` for a signal -/
  | signal (p : Nat)
  /-- the sleeping thread runs again -/
  | resume (p : Nat) (reason : WakeReason)
  /-- walk the queue to the own link, with its lock taken -/
  | walk (p : Nat)
  /-- rewrite the link and release the lock -/
  | unlink (p : Nat)
  | account (p : Nat)
  | wake (uaddr n : Nat)
  | requeue (uaddr1 uaddr2 nwake nmove : Nat) (granted : Bool)

/-- The queue a process walks. -/
def Phase.walked : Phase → Option Nat
  | .walking q _ => some q
  | _ => none

/-- No process walks the queue. -/
def Unlocked (procs : Finset Nat) (s : FutexState) (q : Nat) : Prop :=
  ∀ p ∈ procs, (s.phase p).walked ≠ some q

instance (procs : Finset Nat) (s : FutexState) (q : Nat) : Decidable (Unlocked procs s q) :=
  inferInstanceAs (Decidable (∀ p ∈ procs, _))

/-- A sleep that ends: a timeout or an interrupt ends the parking, except that a wait
without a timeout has none. -/
def endSleep (s : FutexState) (p : Nat) (forever : Bool) (reason : WakeReason) : FutexState :=
  if reason = .timedOut ∧ forever then s else s.setParked p none

/-- The way to the sleep after the tests for a signal and the deadline. -/
def sleepStep (s : FutexState) (p : Nat) (queued : Bool) : Option FutexState :=
  match s.stage p with
  | .entering => if s.asleep p then some (s.setStage p .tested) else none
  | .tested => some ((s.setAsleep p true).setStage p .marked)
  | .marked => some (s.setStage p (if queued then .blocked else .polling))
  | .blocked | .polling | .running => none

/-- The function returns before the sleep: a process woken has left `PRS_SLEEP`.  The test of a
passed deadline holds for the deadline 0 of a wait without timeout as well. -/
def canReturn (s : FutexState) (p : Nat) (reason : WakeReason) : Bool :=
  s.stage p = .entering ∧ (reason = .woken → s.asleep p = false)

/-- The sleep ends: a blocked thread runs again only when it was made ready or at its deadline,
and one that polls looks at the deadline and for a signal. -/
def SleepStage.canEnd : SleepStage → WakeReason → Bool
  | .running, _ => true
  | .polling, reason => reason ≠ .woken
  | .blocked, reason | .marked, reason => reason = .timedOut
  | .entering, _ | .tested, _ => false

/-- `procs` are the processes that share the address space. -/
def futexStep (procs : Finset Nat) (s : FutexState) : FutexCall → Option FutexState
  | .wait p uaddr granted word forever =>
      if p ∈ procs ∧ s.phase p = .idle ∧ ∀ q ∈ futexFindQ s uaddr, Unlocked procs s q then
        some (futexWait granted s p uaddr word forever)
      else none
  | .returnEarly p reason =>
      match s.phase p with
      | .sleeping _ forever =>
          if canReturn s p reason then some ((endSleep s p forever reason).setPhase p .leaving)
          else none
      | _ => none
  | .sleep p queued =>
      match s.phase p with
      | .sleeping .. => sleepStep s p queued
      | _ => none
  | .signal p => some (s.rouse p)
  | .resume p reason =>
      match s.phase p with
      | .sleeping q forever =>
          if (s.stage p).canEnd reason then
            some ((endSleep s p forever reason).setPhase p (.ended q))
          else none
      | _ => none
  | .walk p =>
      match s.phase p with
      | .ended q =>
          if Unlocked procs s q then
            some (s.setPhase p (.walking q (locate s.ptr p (procs.card + 1) (.root q))))
          else none
      | _ => none
  | .unlink p =>
      match s.phase p with
      | .walking _ loc => some (((rewriteLink s p loc).setAsleep p false).setPhase p .leaving)
      | _ => none
  | .account p =>
      if s.phase p = .leaving ∧ ∀ q ∈ s.futexQ p, Unlocked procs s q then
        some (futexAccount (procs.card + 1) s p)
      else none
  | .wake uaddr n => some (futexWake s uaddr n).1
  | .requeue uaddr1 uaddr2 nwake nmove granted =>
      some (futexRequeue granted s uaddr1 uaddr2 nwake nmove).1

/-- No queue, no waiter. -/
def FutexState.start : FutexState :=
  ⟨fun _ => ⟨0, 0⟩, 0, fun _ => [], fun _ => 0, fun _ => none, fun _ => false, fun _ => .idle,
    fun _ => .entering, fun _ => none⟩

end ArcKernel.Uipc
