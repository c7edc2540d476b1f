import ArcKernel.Sched.Arrays

/-!
# The scheduler

Model of `mk/arch/amd64/thread/scheduler.c`: `scheduler_add_thread`, `scheduler_switch` on a
tick, on the return from a system call and on a yield, `context_switch`, `rq_steal`,
`scheduler_block_current`, `scheduler_unblock_thread`, `scheduler_sleep_ticks`,
`sleep_wake_tick`, `thread_migrate` and `scheduler_set_nice`.

The idle thread of a CPU is never queued and never changes state, so it is only a value of
`current`.  Each call is one step, but for `scheduler_switch`: its load balancer and `rq_steal`
run before it takes the lock of its run queue, and each is a step of its own, the first as the
`thread_migrate` it ends in.  The label gives the time, and whether a reschedule is pending.

Registers, stacks, the floating point owner and the interrupt sent to another CPU are left
out.
-/

namespace ArcKernel.Sched

open ArcKernel.Foundation Function

/-- `SLEEP_MAX` -/
def sleepMax : Nat := 256

/-- `MAX_SLEEP_AVG` -/
def maxSleepAvg : Nat := 100

/-- `MAX_RT_PRIO` -/
def maxRtPrio : Nat := 100

/-- `DEFAULT_PRIO` -/
def defaultPrio : Nat := 120

inductive ThreadState where
  | unused | ready | running | blocked | zombie
  deriving DecidableEq

/-- The fields of a thread beside its links. -/
structure Info where
  state : ThreadState
  staticPrio : Nat
  prio : Nat
  sleepAvg : Nat
  timeSlice : Nat
  rq : Option Nat
  sleepUntil : BitVec 32

/-- A thread as `thread_create` leaves it, not yet given to the scheduler. -/
def Info.created : Info := ⟨.unused, 120, 120, 50, 0, none, 0⟩

/-- `rq->current` -/
inductive Current where
  | none | idle | thread (t : Nat)
  deriving DecidableEq

structure Cpu where
  /-- which of the two arrays is the active one -/
  active : Bool
  current : Current
  sleepQueue : List Nat
  online : Bool

structure Scheduler where
  links : Links
  info : Nat → Info
  cpus : Nat → Cpu
  ncpu : Nat

namespace Scheduler

def active (s : Scheduler) (c : Nat) : ArrayRef := ⟨c, (s.cpus c).active⟩

def expired (s : Scheduler) (c : Nat) : ArrayRef := ⟨c, !(s.cpus c).active⟩

def nrActive (s : Scheduler) (c : Nat) : Int := (s.links.arrays (s.active c)).nrActive

def setInfo (s : Scheduler) (t : Nat) (i : Info) : Scheduler := { s with info := update s.info t i }

def setCpu (s : Scheduler) (c : Nat) (q : Cpu) : Scheduler := { s with cpus := update s.cpus c q }

def setCurrent (s : Scheduler) (c : Nat) (cur : Current) : Scheduler :=
  s.setCpu c { s.cpus c with current := cur }

def enqueue (s : Scheduler) (pa : ArrayRef) (t prio : Nat) : Scheduler :=
  { s with links := prioArrayEnqueue s.links pa t prio }

def dequeue (s : Scheduler) (pa : ArrayRef) (t prio : Nat) : Scheduler :=
  { s with links := prioArrayDequeue s.links pa t prio }

section

variable (s : Scheduler)

@[simp] theorem info_setInfo_self (t : Nat) (i : Info) :
    (s.setInfo t i).info t = i := update_self ..

theorem info_setInfo_of_ne {t u : Nat} (i : Info) (h : u ≠ t) :
    (s.setInfo t i).info u = s.info u := update_of_ne h ..

@[simp] theorem cpus_setCpu_self (c : Nat) (q : Cpu) : (s.setCpu c q).cpus c = q := update_self ..

theorem cpus_setCpu_of_ne {c d : Nat} (q : Cpu) (h : d ≠ c) :
    (s.setCpu c q).cpus d = s.cpus d := update_of_ne h ..

end

end Scheduler

/-! ## Priorities -/

def clampPrio (p : Nat) : Nat := min (max p maxRtPrio) (prioBits - 1)

/-- `nice` from -20 to 19 -/
def niceToPrio (nice : Int) : Nat := clampPrio (defaultPrio + nice).toNat

def prioToTimeslice (staticPrio : Nat) : Nat := (prioBits - 1 - staticPrio) * 2 + 2

def effectivePrio (staticPrio sleepAvg : Nat) : Nat :=
  clampPrio (staticPrio + 5 - min (sleepAvg * 11 / (maxSleepAvg + 1)) 10)

/-- `next->state` makes `context_switch` look further. -/
def ThreadState.isDead : ThreadState → Bool
  | .zombie | .unused | .blocked => true
  | .ready | .running => false

/-- The arrays change places when the active one is empty. -/
def swapIfEmpty (s : Scheduler) (c : Nat) : Scheduler :=
  if s.nrActive c ≤ 0 then s.setCpu c { s.cpus c with active := !(s.cpus c).active } else s

/-- `none` when the fuel ends before a thread that can run is found. -/
def contextSwitch : Nat → Scheduler → Nat → Option Scheduler
  | 0, _, _ => none
  | fuel + 1, s, c =>
      let s := swapIfEmpty s c
      match prioArrayFindTop (s.links.arrays (s.active c)) with
      | none => some (s.setCurrent c .idle)
      | some top =>
          let t := (s.links.arrays (s.active c)).queue top
          let s := { s with links := takeNext s.links (s.active c) top }
          if (s.info t).state.isDead then contextSwitch fuel s c
          else some ((s.setInfo t { s.info t with state := .running }).setCurrent c (.thread t))

/-- What a thief finds on the CPU `i`: the array, the priority and the thread. -/
def stealFrom (s : Scheduler) (i : Nat) : Option (ArrayRef × Nat × Nat) :=
  let look (pa : ArrayRef) : Option (ArrayRef × Nat) :=
    (prioArrayFindTop (s.links.arrays pa)).map fun top => (pa, top)
  match (look (s.active i)).or (look (s.expired i)) with
  | none => none
  | some (pa, top) =>
      let t := (s.links.arrays pa).queue top
      if (s.cpus i).current = .thread t then
        -- the running thread stays; the next of its ring will do
        if s.links.next t = t then none else some (pa, top, s.links.next t)
      else some (pa, top, t)

/-- Move a stolen thread to the active array of the thief. -/
def stealInto (s : Scheduler) (c : Nat) (pa : ArrayRef) (top t : Nat) : Scheduler :=
  let s := s.dequeue pa t top
  let s := s.setInfo t { s.info t with rq := some c, state := .ready }
  s.enqueue (s.active c) t (s.info t).prio

def rqSteal (s : Scheduler) (c : Nat) : Scheduler :=
  if 0 < s.nrActive c then s
  else
    match ((List.range s.ncpu).filter fun i => i != c && (s.cpus i).online).findSome?
        (stealFrom s) with
    | none => s
    | some (pa, top, t) => stealInto s c pa top t

/-- The run queue and the array the thread leaves; `none` where `thread_migrate` returns. -/
def canMigrate (s : Scheduler) (t target : Nat) : Option (Nat × ArrayRef) :=
  if t = 0 ∨ s.ncpu ≤ target ∨ (s.cpus target).online = false then none
  else
    match (s.info t).rq, s.links.array t with
    | some source, some pa =>
        if source = target ∨ (s.info t).state ≠ .ready ∨ (s.cpus source).current = .thread t then
          none
        else some (source, pa)
    | _, _ => none

def threadMigrate (s : Scheduler) (t target : Nat) : Scheduler :=
  match canMigrate s t target with
  | none => s
  | some (_, pa) =>
      let s := s.dequeue pa t (s.info t).prio
      let s := s.setInfo t { s.info t with rq := some target }
      s.enqueue (s.active target) t (s.info t).prio

/-- Wake a blocked thread on the run queue of `c`. -/
def rqUnblockLocked (s : Scheduler) (c t : Nat) : Scheduler :=
  if (s.info t).state ≠ .blocked then s
  else
    let i := s.info t
    let sleepAvg := if i.sleepAvg < maxSleepAvg then min (i.sleepAvg + 10) maxSleepAvg
      else maxSleepAvg
    let prio := effectivePrio i.staticPrio sleepAvg
    let s := s.setInfo t { i with state := .ready, sleepAvg := sleepAvg, prio := prio }
    s.enqueue (s.active c) t prio

/-- The deadline of a sleeper has passed. -/
def due (s : Scheduler) (now : BitVec 32) (t : Nat) : Bool :=
  (s.info t).sleepUntil != 0 && !(now - (s.info t).sleepUntil).msb

/-- The loop of `sleep_wake_tick`: a sleeper that is woken leaves its place to the last one,
which is looked at next. -/
def sleepWake (now : BitVec 32) (c : Nat) : Nat → Nat → Scheduler → Scheduler
  | 0, _, s => s
  | n + 1, i, s =>
      match (s.cpus c).sleepQueue[i]? with
      | none => s
      | some t =>
          if due s now t then
            let queue := ((s.cpus c).sleepQueue.set i ((s.cpus c).sleepQueue.getLastD 0)).dropLast
            let s := s.setCpu c { s.cpus c with sleepQueue := queue }
            let s := s.setInfo t { s.info t with sleepUntil := 0 }
            sleepWake now c n i (rqUnblockLocked s c t)
          else sleepWake now c n (i + 1) s

def sleepWakeTick (s : Scheduler) (c : Nat) (now : BitVec 32) : Scheduler :=
  sleepWake now c (s.cpus c).sleepQueue.length 0 s

/-- The running thread is queued again by a tick: at the end of its slice in the expired
array, else in the active one if it is in none. -/
def tickRequeue (s : Scheduler) (c t : Nat) : Scheduler :=
  let i := s.info t
  let slice := i.timeSlice - 1
  if slice = 0 then
    let prio := effectivePrio i.staticPrio (i.sleepAvg - 3)
    let s := s.setInfo t { i with
      state := .ready, sleepAvg := i.sleepAvg - 3, prio := prio,
      timeSlice := prioToTimeslice i.staticPrio }
    -- with the priority just computed
    let s := if s.links.array t = some (s.active c) then s.dequeue (s.active c) t prio else s
    (s.enqueue (s.expired c) t prio).setCurrent c .none
  else
    let s := s.setInfo t { i with timeSlice := slice }
    let s := if s.links.array t = none then s.enqueue (s.active c) t i.prio else s
    s.setCurrent c .none

/-- The running thread is queued again on the return from a system call. -/
def sysretRequeue (s : Scheduler) (c t : Nat) : Scheduler :=
  let i := s.info t
  let slice := i.timeSlice - 1
  let prio := effectivePrio i.staticPrio (i.sleepAvg - 1)
  let s := s.setInfo t { i with
    state := .ready, sleepAvg := i.sleepAvg - 1, prio := prio, timeSlice := slice }
  let s :=
    if slice = 0 then
      let s := if s.links.array t = some (s.active c) then s.dequeue (s.active c) t i.prio else s
      s.enqueue (s.expired c) t prio
    else if s.links.array t = none then s.enqueue (s.active c) t prio
    else s
  s.setCurrent c .none

/-- The running thread of the CPU, if it is not the idle thread. -/
def runningOn (s : Scheduler) (c : Nat) : Option Nat :=
  match (s.cpus c).current with
  | .thread t => if (s.info t).state = .running then some t else none
  | _ => none

/-! ## The calls -/

/-- The load of a CPU, for placing a thread. -/
def load (s : Scheduler) (c : Nat) : Int :=
  (s.links.arrays (s.active c)).nrActive + (s.links.arrays (s.expired c)).nrActive +
    (s.cpus c).sleepQueue.length

def pickLeastLoaded (s : Scheduler) : Nat :=
  ((List.range s.ncpu).foldl (fun best i =>
    if (s.cpus i).online then
      match best with
      | none => some i
      | some b => if load s i < load s b then some i else best
    else best) none).getD 0

def addThread (s : Scheduler) (t : Nat) : Scheduler :=
  let i := s.info t
  let staticPrio := if i.staticPrio = 0 then defaultPrio else i.staticPrio
  let prio := if i.prio = 0 then staticPrio else i.prio
  let timeSlice := if i.timeSlice = 0 then prioToTimeslice staticPrio else i.timeSlice
  let rq := pickLeastLoaded s
  let s := s.setInfo t { i with
    staticPrio := staticPrio, prio := prio, timeSlice := timeSlice, state := .ready, rq := some rq }
  s.enqueue (s.active rq) t prio

/-- Take the current thread off its array, if it is in one. -/
def detach (s : Scheduler) (t : Nat) : Scheduler :=
  match s.links.array t with
  | some pa => s.dequeue pa t (s.info t).prio
  | none => s

def blockCurrent (s : Scheduler) (c : Nat) : Scheduler :=
  match (s.cpus c).current with
  | .thread t =>
      let s := detach s t
      s.setInfo t { s.info t with state := .blocked }
  | _ => s

/-- A thread that finds the sleep queue full is given back to the scheduler. -/
def sleepTicks (s : Scheduler) (c : Nat) (now deadline : BitVec 32) : Scheduler :=
  match (s.cpus c).current with
  | .thread t =>
      if (now - deadline).msb = false then s
      else
        let s := detach s t
        if (s.cpus c).sleepQueue.length < sleepMax then
          let s := s.setInfo t { s.info t with sleepUntil := deadline, state := .blocked }
          s.setCpu c { s.cpus c with sleepQueue := (s.cpus c).sleepQueue ++ [t] }
        else addThread (s.setInfo t { s.info t with sleepUntil := 0, state := .ready }) t
  | _ => s

def unblockThread (s : Scheduler) (c t : Nat) : Scheduler :=
  if t = 0 then s else rqUnblockLocked s ((s.info t).rq.getD c) t

/-- A queued thread is dequeued and then enqueued through the null pointer
`prio_array_dequeue` leaves in `t->array`: it is in no array of the scheduler. -/
def setNice (s : Scheduler) (t : Nat) (nice : Int) : Scheduler :=
  let nice := max (-20) (min 19 nice)
  let i := s.info t
  let staticPrio := niceToPrio nice
  let prio := effectivePrio staticPrio i.sleepAvg
  if t = 0 then s
  else
    match s.links.array t with
    | some pa =>
        (s.dequeue pa t i.prio).setInfo t { i with
          staticPrio := staticPrio, prio := prio, timeSlice := prioToTimeslice staticPrio }
    | none => s.setInfo t { i with staticPrio := staticPrio, prio := prio }

inductive SchedCall where
  | add (t : Nat)
  | tick (c : Nat) (now : BitVec 32)
  /-- return from a system call -/
  | sysret (c : Nat)
  | yield (c : Nat) (resched : Bool)
  | block (c : Nat)
  | unblock (c t : Nat)
  | sleep (c : Nat) (now deadline : BitVec 32)
  | steal (c : Nat)
  | migrate (t target : Nat)
  | setNice (t : Nat) (nice : Int)

/-- The CPU that makes the call. -/
def SchedCall.cpu : SchedCall → Option Nat
  | .tick c _ | .sysret c | .yield c _ | .block c | .unblock c _ | .sleep c _ _ | .steal c => some c
  | .add _ | .migrate _ _ | .setNice _ _ => none

/-- `scheduler_switch` under the lock of its run queue, and the other calls. -/
def runCall (fuel : Nat) (s : Scheduler) : SchedCall → Option Scheduler
  | .add t => some (if t = 0 then s else addThread s t)
  | .tick c now =>
      let s := sleepWakeTick s c now
      contextSwitch fuel ((runningOn s c).elim s (tickRequeue s c)) c
  | .sysret c => contextSwitch fuel ((runningOn s c).elim s (sysretRequeue s c)) c
  | .yield c resched =>
      match (s.cpus c).current with
      | .none => contextSwitch fuel s c
      | .idle => if resched then contextSwitch fuel s c else some s
      | .thread t =>
          if (s.info t).state ≠ .running ∨ resched then contextSwitch fuel s c else some s
  | .block c => some (blockCurrent s c)
  | .unblock c t => some (unblockThread s c t)
  | .sleep c now deadline => some (sleepTicks s c now deadline)
  | .steal c => some (rqSteal s c)
  | .migrate t target => some (threadMigrate s t target)
  | .setNice t nice => some (setNice s t nice)

/-- Every CPU just after `scheduler_init`, running its idle thread. -/
def Scheduler.start (ncpu : Nat) (online : Nat → Bool) : Scheduler where
  links := ⟨fun _ => 0, fun _ => 0, fun _ => none, fun _ => .empty⟩
  info := fun _ => .created
  cpus := fun c => ⟨false, .idle, [], online c⟩
  ncpu := ncpu

/-! ## What the scheduler is to keep -/

/-- The links are rings with exact bitmaps and counts; a thread that is ready is in one ring,
that of its recorded array and priority; a running thread is current on exactly one CPU. -/
def Sound (s : Scheduler) : Prop :=
  ∃ R, Rings s.links R ∧ (∀ t, (s.info t).state = .ready → (∃ a p, t ∈ R a p) ∧
      ∀ a p, t ∈ R a p → s.links.array t = some a ∧ (s.info t).prio = p) ∧
    ∀ t, (s.info t).state = .running → ∃! c, c < s.ncpu ∧ (s.cpus c).current = .thread t

end ArcKernel.Sched
