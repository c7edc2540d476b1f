import ArcKernel.Foundation.Run
import ArcKernel.Signal.Deliver

/-!
# One process and every signal sent to it

The steps follow one process through user code, the two halves of `bsd_syscall_dispatch` and
its end as a zombie (`bsd/sys/syscall.c`, `bsd/sys/sys_signal.c`, `bsd/proc`).  Signals from
`kill`, `killpg` and the terminal arrive between any two steps.  User registers and memory
are part of each label: user code may leave anything in them.

A fork or clone is followed into the child; for the parent it is a call like any other.
-/

namespace ArcKernel.Signal

open ArcKernel.Foundation

/-! ## System calls on the signal state -/

/-- A pointer argument: null, unusable, or what it points to. -/
inductive UserArg (α : Type) where
  | null
  | fault
  | value (a : α)

def sysSignal (s : SigState) (sig : Nat) (handler : BitVec 64) : SigState :=
  if !signalIsValid sig || sig == sigkill || sig == sigstop then s
  else { s with
    handler := Function.update s.handler sig handler
    pending := Function.update s.pending sig false }

/-- `sigaction_t`. -/
structure SigAction where
  handler : BitVec 64
  mask : BitVec 32
  flags : BitVec 32
  restorer : BitVec 64

/-- `sys_sigaction`; `oldOk` says that the old action was not asked for or could be stored. -/
def sysSigaction (s : SigState) (sig : Nat) (oldOk : Bool) (act : UserArg SigAction) : SigState :=
  if !signalIsValid sig || sig == sigkill || sig == sigstop then s
  else if !oldOk then s
  else
    match act with
    | .fault => s
    | .null => { s with pending := Function.update s.pending sig false }
    | .value a => { s with
        handler := Function.update s.handler sig a.handler
        saMask := Function.update s.saMask sig (a.mask &&& ~~~unblockableMask)
        saFlags := Function.update s.saFlags sig a.flags
        saRestorer := Function.update s.saRestorer sig a.restorer
        pending := Function.update s.pending sig false }

/-- `SIG_BLOCK`, `SIG_UNBLOCK`, `SIG_SETMASK` and everything else. -/
inductive How where
  | block
  | unblock
  | setmask
  | invalid

/-- `SIGKILL` and `SIGSTOP` stay unblocked. -/
def sparing (blocked : Nat → Bool) (i : Nat) : Bool := !sigIsUnblockable i && blocked i

def sysSigprocmask (s : SigState) (how : How) (oldOk : Bool) (set : UserArg (BitVec 32)) :
    SigState :=
  if !oldOk then s
  else
    match set with
    | .null => s
    | .fault => s
    | .value mask =>
        let newmask := mask &&& ~~~unblockableMask
        match how with
        | .block => { s with blocked := sparing fun i => newmask.getLsbD i || s.blocked i }
        | .unblock => { s with blocked := sparing fun i => !newmask.getLsbD i && s.blocked i }
        | .setmask => { s with blocked := sparing fun i => newmask.getLsbD i }
        | .invalid => s

/-- The mask `sys_sigsuspend` waits under. -/
def suspendMask (mask : BitVec 32) : Nat → Bool :=
  sparing fun i => (mask &&& ~~~unblockableMask).getLsbD i

/-- `stack_t`. -/
structure StackT where
  sp : BitVec 64
  flags : BitVec 32
  size : BitVec 64

def ssDisable : BitVec 32 := 2

def minsigstksz : Nat := 2048

def sysSigaltstack (s : SigState) (oldOk : Bool) (ss : UserArg StackT) : SigState :=
  if !oldOk then s
  else
    match ss with
    | .null => s
    | .fault => s
    | .value ss =>
        if s.onAltstack then s
        else if ss.flags &&& ssDisable ≠ 0 then
          { s with ssSp := 0, ssSize := 0, ssActive := false }
        else if ss.flags ≠ 0 then s
        else if ss.size.toNat < minsigstksz then s
        else { s with ssSp := ss.sp, ssSize := ss.size, ssActive := true }

/-- What `execve` leaves of the signal state. -/
def execSignals (s : SigState) : SigState :=
  { s with
    handler :=
      fun sig => if signalIsValid sig ∧ s.handler sig ≠ sigIgn then sigDfl else s.handler sig
    saMask := fun sig => if signalIsValid sig then 0 else s.saMask sig
    saFlags := fun sig => if signalIsValid sig then 0 else s.saFlags sig
    saRestorer := fun sig => if signalIsValid sig then 0 else s.saRestorer sig
    pending := fun sig => !signalIsValid sig && s.pending sig
    sigframeAddr := 0
    inSignal := false
    onAltstack := false
    ssSp := 0
    ssSize := 0
    ssActive := false }

/-- The signal state of a forked child. -/
def forkSignals (s : SigState) : SigState :=
  { s with inSignal := false, sigframeAddr := 0, syscallRestartable := false,
           restartFrame := false }

/-- The signal state of a cloned child. -/
def cloneSignals (s : SigState) : SigState :=
  { s with
    inSignal := false
    onAltstack := false
    sigframeAddr := 0
    syscallRestartable := false
    restartSysno := 0
    restartFrame := false
    pending := fun sig => decide (nsig ≤ sig) && s.pending sig
    blocked := sparing s.blocked }

/-- A child as `proc_alloc` sets it up. -/
def newChild (signals : SigState) : Proc := ⟨signals, .normal, false, false, 0, 0⟩

/-! ## Sending -/

def isStopSignal (sig : Nat) : Bool :=
  sig == sigstop || sig == sigtstp || sig == sigttin || sig == sigttou

/-- `proc_wakeup` on the process itself. -/
def Proc.wakeup (p : Proc) : Proc := if p.state = .sleep then { p with state := .running } else p

/-- The wait-visible state after `SIGCONT`, for all three senders but for `exit_sig`. -/
def Proc.resumeStopped (p : Proc) : Proc :=
  { p with
    stopped := false
    state := if p.state = .stopped then .normal else p.state
    continued := if p.stopped then true else p.continued }

/-- `kill_deliver` to another process; to itself it differs for `SIGKILL` only. -/
def killDeliver (p : Proc) (sig : Nat) : Proc :=
  let p := p.setPending sig true
  let p :=
    if isStopSignal sig then
      { p with stopped := true, continued := false, exitSig := sig, state := .stopped }
    else if sig = sigcont then { p.resumeStopped with exitSig := 0 }
    else p
  if sig = sigkill then { p with exitSig := sigkill, exitStatus := 9 } else p

/-- One target of `proc_killpg`. -/
def killpgDeliver (p : Proc) (sig : Nat) : Proc :=
  if isStopSignal sig then
    ({ p with stopped := true, exitSig := sig, state := .stopped }.setPending sig false).wakeup
  else if sig = sigcont then (p.resumeStopped.setPending sig false).wakeup
  else if sig ≠ sigkill ∧ sig ≠ sigstop ∧ p.signals.blocked sig then p.setPending sig true
  else if sig = sigkill then ({ p with exitSig := sig }.setPending sig true).wakeup
  else (p.setPending sig true).wakeup

/-- One target of `tty_send_signal`. -/
def ttyDeliver (p : Proc) (sig : Nat) : Proc :=
  if sig = sigtstp then
    ({ p with stopped := true, state := .stopped, exitSig := sig }.setPending sig true).wakeup
  else (p.setPending sig true).wakeup

/-! ## The process in the dispatcher -/

/-- Where the process is. -/
inductive Mode where
  | user
  /-- past the check on entry -/
  | called (sysno : Int)
  /-- in `sys_sigsuspend`, with the mask it will put back -/
  | suspended (sysno : Int) (old : Nat → Bool)
  /-- the call has been carried out -/
  | returning (sysno : Int)
  | ended
  | reaped

/-- What became of a `SIGKILL` sent to the process. -/
inductive KillSent where
  | none
  | sent
  /-- an `execve` has cleared the pending signals since -/
  | dropped
  deriving DecidableEq

/-- `waitable` says that the process is on its parent's list of children, which a clone is
not.  `kill` and `cause` are read by nothing: whether `SIGKILL` has been sent, and why the
process ended.  `reported` is what its parent's `waitpid` got. -/
structure SigSys where
  p : Proc
  isThread : Bool
  waitable : Bool
  mode : Mode
  kill : KillSent
  cause : Option Cause
  reported : Option (BitVec 32)

def KillSent.note (k : KillSent) (sig : Nat) : KillSent := if sig = sigkill then .sent else k

def SigSys.setSignals (s : SigSys) (signals : SigState) : SigSys :=
  { s with p := { s.p with signals := signals } }

def SigSys.finish (s : SigSys) (p : Proc) (cause : Cause) : SigSys :=
  { s with p := p, mode := .ended, cause := some cause }

/-- A process with no history, as the first one is created. -/
def SigSys.start : SigSys where
  p := newChild {
    handler := fun _ => sigDfl
    pending := fun _ => false
    blocked := fun _ => false
    inSignal := false
    saMask := fun _ => 0
    saFlags := fun _ => 0
    saRestorer := fun _ => 0
    ssSp := 0
    ssSize := 0
    ssActive := false
    onAltstack := false
    syscallRestartable := false
    restartSysno := 0
    restartFrame := false
    sigframeAddr := 0 }
  isThread := false
  waitable := true
  mode := .user
  kill := .none
  cause := none
  reported := none

def Proc.setRestartable (p : Proc) (on : Bool) : Proc :=
  { p with signals := { p.signals with syscallRestartable := on } }

/-- The call may be restarted under this number. -/
def Proc.armRestart (p : Proc) (sysno : Int) : Proc :=
  { p with signals := { p.signals with
      restartSysno := BitVec.ofInt 32 sysno, syscallRestartable := true } }

def sysMax : Int := 112

/-- `bsd_syscall_dispatch` up to the call. -/
def dispatchEnter (s : SigSys) (sysno : Int) (r : Registers) (mem : UserMem)
    (stale : RestartArgs) : SigSys :=
  if sysno < 0 ∨ sysMax ≤ sysno then s
  else
    match signalCheckPending (s.p.armRestart sysno) r mem stale with
    | .nothing => { s with p := (s.p.armRestart sysno).setRestartable false, mode := .called sysno }
    | .delivered p _ _ => { s with p := p.setRestartable false }
    | .exited p cause => s.finish p cause

/-- `bsd_syscall_dispatch` after the call; `again` for a call that returned `-ERESTARTSYS`. -/
def dispatchLeave (s : SigSys) (sysno : Int) (again : Bool) (r : Registers) (mem : UserMem)
    (stale : RestartArgs) : SigSys :=
  let p := if again then s.p.armRestart sysno else s.p
  if p.signals.restartFrame then
    { s with
      p := { p with signals := { p.signals with restartFrame := false } }.setRestartable false
      mode := .user }
  else
    match signalCheckPending p r mem stale with
    | .nothing => { s with p := p.setRestartable false, mode := .user }
    | .delivered p _ _ => { s with p := p.setRestartable false, mode := .user }
    | .exited p cause => s.finish p cause

/-- What a system call does to its own process. -/
inductive Call where
  | signal (sig : Nat) (handler : BitVec 64)
  | sigaction (sig : Nat) (oldOk : Bool) (act : UserArg SigAction)
  | sigprocmask (how : How) (oldOk : Bool) (set : UserArg (BitVec 32))
  | sigaltstack (oldOk : Bool) (ss : UserArg StackT)
  | sigreturn (r : Registers) (mem : UserMem)
  /-- `kill` with itself among the targets -/
  | killSelf (sig : Nat)
  /-- a write to a pipe with no reader -/
  | brokenPipe
  | exec
  | exit (code : BitVec 32)
  | other

def runCall (s : SigSys) (sysno : Int) : Call → SigSys
  | .signal sig handler =>
      { s.setSignals (sysSignal s.p.signals sig handler) with mode := .returning sysno }
  | .sigaction sig oldOk act =>
      { s.setSignals (sysSigaction s.p.signals sig oldOk act) with mode := .returning sysno }
  | .sigprocmask how oldOk set =>
      { s.setSignals (sysSigprocmask s.p.signals how oldOk set) with mode := .returning sysno }
  | .sigaltstack oldOk ss =>
      { s.setSignals (sysSigaltstack s.p.signals oldOk ss) with mode := .returning sysno }
  | .sigreturn r mem =>
      match sysSigreturn s.p.signals r mem with
      | some (signals, _, _) => { s.setSignals signals with mode := .returning sysno }
      | none => { s with mode := .returning sysno }
  | .killSelf sig =>
      let sent := { s with p := killDeliver s.p sig, kill := s.kill.note sig }
      if sig = sigkill then sent.finish (procExit sent.p 9) (.signal sigkill)
      else { sent with mode := .returning sysno }
  | .brokenPipe =>
      { s with
        p := if s.p.signals.handler sigpipe = sigDfl then s.p.setPending sigpipe true else s.p
        mode := .returning sysno }
  | .exec =>
      { s with
        p := { s.p with signals := execSignals s.p.signals, exitSig := 0, stopped := false }
        kill := if s.kill = .sent then .dropped else s.kill
        mode := .returning sysno }
  | .exit code =>
      -- a thread leaves the process table at once
      if s.isThread then { s with mode := .reaped }
      else s.finish (procExit s.p code) (.exit code)
  | .other => { s with mode := .returning sysno }

/-- The user fault handler on an address it cannot resolve. -/
def userFault (s : SigSys) (r : Registers) (mem : UserMem) (stale : RestartArgs) : SigSys :=
  match signalDeliver (s.p.setRestartable false) sigsegv r mem stale with
  | .returned p _ _ => { s with p := p }
  | .exited p cause => s.finish p cause
  | .failed _ p _ =>
      s.finish (procExit { p.setPending sigsegv true with exitSig := sigsegv } 139)
        (.signal sigsegv)

/-- `proc_waitpid`'s status for a zombie. -/
def waitStatus (p : Proc) : BitVec 32 :=
  if p.exitSig ≠ 0 then BitVec.ofNat 32 p.exitSig else (p.exitStatus &&& 0xFF) <<< 8

inductive Step where
  | enter (sysno : Int) (r : Registers) (mem : UserMem) (stale : RestartArgs)
  | call (c : Call)
  | suspend (mask : BitVec 32)
  | unsuspend
  /-- the process goes to sleep in its call, or has been woken -/
  | sleep
  | awake
  | leave (again : Bool) (r : Registers) (mem : UserMem) (stale : RestartArgs)
  | fault (r : Registers) (mem : UserMem) (stale : RestartArgs)
  | crash (code : BitVec 32)
  | fork
  | clone (thread : Bool)
  | kill (sig : Nat)
  | killpg (sig : Nat)
  | tty (sig : Nat)
  | wait

/-- The process is still in the process table. -/
def Mode.present : Mode → Bool
  | .reaped => false
  | _ => true

/-- The process has code to run. -/
def Mode.alive : Mode → Bool
  | .ended => false
  | .reaped => false
  | _ => true

def sigStep (s : SigSys) : Step → Option SigSys
  | .enter sysno r mem stale =>
      match s.mode with
      | .user => some (dispatchEnter s sysno r mem stale)
      | _ => none
  | .call c =>
      match s.mode with
      | .called sysno => some (runCall s sysno c)
      | _ => none
  | .suspend mask =>
      match s.mode with
      | .called sysno =>
          some { s with p := s.p.setBlocked (suspendMask mask),
                        mode := .suspended sysno s.p.signals.blocked }
      | _ => none
  | .unsuspend =>
      match s.mode with
      | .suspended sysno old => some { s with p := s.p.setBlocked old, mode := .returning sysno }
      | _ => none
  | .sleep => if s.mode.alive then some { s with p := { s.p with state := .sleep } } else none
  | .awake => if s.mode.alive then some { s with p := { s.p with state := .running } } else none
  | .leave again r mem stale =>
      match s.mode with
      | .returning sysno => some (dispatchLeave s sysno again r mem stale)
      | _ => none
  | .fault r mem stale =>
      match s.mode with
      | .user => some (userFault s r mem stale)
      | _ => none
  | .crash code => if s.mode.alive then some (s.finish (procExit s.p code) .crash) else none
  | .fork =>
      match s.mode with
      | .called _ => some { SigSys.start with p := newChild (forkSignals s.p.signals) }
      | _ => none
  | .clone thread =>
      match s.mode with
      | .called _ =>
          some { SigSys.start with
                  p := newChild (cloneSignals s.p.signals), isThread := thread, waitable := false }
      | _ => none
  | .kill sig =>
      if s.mode.present && signalIsValid sig then
        some { s with p := (killDeliver s.p sig).wakeup, kill := s.kill.note sig }
      else none
  | .killpg sig =>
      if s.mode.present && signalIsValid sig then
        some { s with p := killpgDeliver s.p sig, kill := s.kill.note sig }
      else none
  | .tty sig =>
      if s.mode.present && signalIsValid sig then
        some { s with p := ttyDeliver s.p sig, kill := s.kill.note sig }
      else none
  | .wait =>
      match s.mode with
      | .ended =>
          if s.waitable && s.p.state = .zombie then
            some { s with mode := .reaped, reported := some (waitStatus s.p) }
          else none
      | _ => none

end ArcKernel.Signal
