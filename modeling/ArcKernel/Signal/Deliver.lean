import ArcKernel.Foundation.Bytes

/-!
# Signal state, delivery and return (`bsd/signal/signal.c`, `bsd/sys/sys_signal.c`, amd64)

`signal_deliver` interrupts a user context: it writes a frame with part of the context to
the user stack and makes the handler the next thing to run.  `sys_sigreturn` reads the frame
back.  Between the two the frame is ordinary user memory.

The parent of the process is woken at several places; whom a wake reaches has no effect on
the signal state and is left out.
-/

namespace ArcKernel.Signal

open ArcKernel.Foundation ByteMem BitVec

/-! ## Registers and user memory -/

/-- `registers_t`, without the interrupt number and error code. -/
structure Registers where
  rax : BitVec 64
  rbx : BitVec 64
  rcx : BitVec 64
  rdx : BitVec 64
  rsi : BitVec 64
  rdi : BitVec 64
  rbp : BitVec 64
  r8 : BitVec 64
  r9 : BitVec 64
  r10 : BitVec 64
  r11 : BitVec 64
  r12 : BitVec 64
  r13 : BitVec 64
  r14 : BitVec 64
  r15 : BitVec 64
  rip : BitVec 64
  cs : BitVec 64
  rflags : BitVec 64
  rsp : BitVec 64
  ss : BitVec 64

/-- The general registers other than `rax` and the stack pointer. -/
def Registers.others (r : Registers) : List (BitVec 64) :=
  [r.rbx, r.rcx, r.rdx, r.rsi, r.rdi, r.rbp, r.r8, r.r9, r.r10, r.r11, r.r12, r.r13, r.r14, r.r15]

/-- The flags of a page as `vmm_get_page_flags` reports them. -/
structure PageFlags where
  present : Bool
  user : Bool
  writable : Bool
  cow : Bool

/-- The user half of the address space. -/
structure UserMem where
  bytes : ByteMem
  page : Nat → PageFlags

def pageSize : Nat := 4096

def userStackTop : Nat := 0x7FFFFFFFF000

def UserMem.readable (mem : UserMem) (a : Nat) : Bool :=
  (mem.page (a / pageSize)).present && (mem.page (a / pageSize)).user

def UserMem.writable (mem : UserMem) (a : Nat) : Bool :=
  mem.readable a && ((mem.page (a / pageSize)).writable || (mem.page (a / pageSize)).cow)

/-- The copy loop of `copy_to_user`: the page is looked up before it is touched, and what was
copied before a page that may not be written stays. -/
def copyToLoop : UserMem → Nat → List UInt8 → Bool × UserMem
  | mem, _, [] => (true, mem)
  | mem, a, b :: bs =>
      if mem.writable a then
        copyToLoop { mem with bytes := Function.update mem.bytes a b } (a + 1) bs
      else (false, mem)

/-- `copy_to_user`; `false` is its `-1`. -/
def copyToUser (mem : UserMem) (dst : BitVec 64) (src : List UInt8) : Bool × UserMem :=
  if src = [] then (true, mem)
  else if dst = 0 then (false, mem)
  else if userStackTop ≤ dst.toNat ∨ userStackTop - dst.toNat < src.length then (false, mem)
  else copyToLoop mem dst.toNat src

/-- Whether `copy_from_user` succeeds; the bytes it copies are then those of the range. -/
def copyFromUser (mem : UserMem) (src : BitVec 64) (size : Nat) : Bool :=
  if size = 0 then true
  else if src = 0 then false
  else if userStackTop ≤ src.toNat ∨ userStackTop - src.toNat < size then false
  else (List.range size).all fun i => mem.readable (src.toNat + i)

/-! ## The signal state of a process -/

def nsig : Nat := 32

def sigkill : Nat := 9
def sigsegv : Nat := 11
def sigpipe : Nat := 13
def sigcont : Nat := 18
def sigstop : Nat := 19
def sigtstp : Nat := 20
def sigttin : Nat := 21
def sigttou : Nat := 22

def sigDfl : BitVec 64 := 0
def sigIgn : BitVec 64 := 1

def saOnstack : BitVec 32 := 0x08000000
def saRestart : BitVec 32 := 0x10000000
def saNodefer : BitVec 32 := 0x40000000

/-- `sigstate_t`; the arrays are indexed by the signal number. -/
structure SigState where
  handler : Nat → BitVec 64
  pending : Nat → Bool
  blocked : Nat → Bool
  inSignal : Bool
  saMask : Nat → BitVec 32
  saFlags : Nat → BitVec 32
  saRestorer : Nat → BitVec 64
  ssSp : BitVec 64
  ssSize : BitVec 64
  ssActive : Bool
  onAltstack : Bool
  syscallRestartable : Bool
  restartSysno : BitVec 32
  restartFrame : Bool
  sigframeAddr : BitVec 64

/-- `p->state`. -/
inductive RunState where
  | normal
  | zombie
  | stopped
  | sleep
  | running
  deriving DecidableEq

/-- The part of `proc_t` that signals read and write. -/
structure Proc where
  signals : SigState
  state : RunState
  stopped : Bool
  continued : Bool
  exitSig : Nat
  exitStatus : BitVec 32

def Proc.setPending (p : Proc) (sig : Nat) (on : Bool) : Proc :=
  { p with signals := { p.signals with pending := Function.update p.signals.pending sig on } }

def Proc.setBlocked (p : Proc) (blocked : Nat → Bool) : Proc :=
  { p with signals := { p.signals with blocked := blocked } }

/-- Why a process ended. -/
inductive Cause where
  /-- it called `exit` with this code -/
  | exit (code : BitVec 32)
  /-- this signal terminated it -/
  | signal (sig : Nat)
  /-- an exception or a kernel fault, with no signal sent -/
  | crash
  deriving DecidableEq

/-- What `proc_exit` leaves in the process for its parent. -/
def procExit (p : Proc) (code : BitVec 32) : Proc := { p with exitStatus := code, state := .zombie }

def signalIsValid (sig : Nat) : Bool := 1 ≤ sig && sig < nsig

def sigIsUnblockable (sig : Nat) : Bool := sig == sigkill || sig == sigstop

/-- `signal_default_action`. -/
inductive DefaultAction where
  | term
  | core
  | ign
  | stop
  | cont
  deriving DecidableEq

def signalDefaultAction (sig : Nat) : DefaultAction :=
  if sig ∈ [17, 23, 28] then .ign                       -- CHLD, URG, WINCH
  else if sig ∈ [sigstop, sigtstp, sigttin, sigttou] then .stop
  else if sig = sigcont then .cont
  else if sig ∈ [3, 4, 5, 6, 8, 11, 7] then .core        -- QUIT, ILL, TRAP, ABRT, FPE, SEGV, BUS
  else .term

/-- The test of `signal_has_pending` and `signal_check_pending` for one signal. -/
def SigState.deliverable (s : SigState) (sig : Nat) : Bool :=
  s.pending sig && (!s.blocked sig || sigIsUnblockable sig)

/-- The signals from `1` to `NSIG - 1`, in the order of the loops. -/
def signalNumbers : List Nat := List.range' 1 31

/-! ## The frame -/

structure RestartArgs where
  arg0 : BitVec 64
  arg1 : BitVec 64
  arg2 : BitVec 64
  arg3 : BitVec 64
  arg4 : BitVec 64
  arg5 : BitVec 64

/-- `sigframe_t`; the padding is always zero. -/
structure SigFrame where
  signum : BitVec 32
  savedRip : BitVec 64
  savedCs : BitVec 64
  savedRflags : BitVec 64
  savedRsp : BitVec 64
  savedSs : BitVec 64
  savedRax : BitVec 64
  savedMask : BitVec 32
  restartActive : BitVec 32
  restartSysno : BitVec 32
  restartArgs : RestartArgs

/-- The frame as it lies in memory. -/
def SigFrame.encode (f : SigFrame) : List UInt8 :=
  wordBytes 4 f.signum.toNat ++ wordBytes 4 0 ++
  wordBytes 8 f.savedRip.toNat ++ wordBytes 8 f.savedCs.toNat ++
  wordBytes 8 f.savedRflags.toNat ++ wordBytes 8 f.savedRsp.toNat ++
  wordBytes 8 f.savedSs.toNat ++ wordBytes 8 f.savedRax.toNat ++
  wordBytes 4 f.savedMask.toNat ++ wordBytes 4 0 ++
  wordBytes 4 f.restartActive.toNat ++ wordBytes 4 f.restartSysno.toNat ++
  wordBytes 8 f.restartArgs.arg0.toNat ++ wordBytes 8 f.restartArgs.arg1.toNat ++
  wordBytes 8 f.restartArgs.arg2.toNat ++ wordBytes 8 f.restartArgs.arg3.toNat ++
  wordBytes 8 f.restartArgs.arg4.toNat ++ wordBytes 8 f.restartArgs.arg5.toNat

/-- `sizeof(sigframe_t)`. -/
def sigframeSize : Nat := 120

/-- The frame found at an address. -/
def SigFrame.read (mem : ByteMem) (a : Nat) : SigFrame where
  signum := BitVec.ofNat 32 (mem.load 4 a)
  savedRip := BitVec.ofNat 64 (mem.load 8 (a + 8))
  savedCs := BitVec.ofNat 64 (mem.load 8 (a + 16))
  savedRflags := BitVec.ofNat 64 (mem.load 8 (a + 24))
  savedRsp := BitVec.ofNat 64 (mem.load 8 (a + 32))
  savedSs := BitVec.ofNat 64 (mem.load 8 (a + 40))
  savedRax := BitVec.ofNat 64 (mem.load 8 (a + 48))
  savedMask := BitVec.ofNat 32 (mem.load 4 (a + 56))
  restartActive := BitVec.ofNat 32 (mem.load 4 (a + 64))
  restartSysno := BitVec.ofNat 32 (mem.load 4 (a + 68))
  restartArgs := {
    arg0 := BitVec.ofNat 64 (mem.load 8 (a + 72))
    arg1 := BitVec.ofNat 64 (mem.load 8 (a + 80))
    arg2 := BitVec.ofNat 64 (mem.load 8 (a + 88))
    arg3 := BitVec.ofNat 64 (mem.load 8 (a + 96))
    arg4 := BitVec.ofNat 64 (mem.load 8 (a + 104))
    arg5 := BitVec.ofNat 64 (mem.load 8 (a + 112)) }

/-- The registers a system call takes its arguments in. -/
def Registers.callArgs (r : Registers) : RestartArgs := ⟨r.rdi, r.rsi, r.rdx, r.r10, r.r8, r.r9⟩

/-- The packed mask: bit `i` for `blocked[i]`, from `1` on. -/
def packMask (blocked : Nat → Bool) : BitVec 32 :=
  signalNumbers.foldl (fun mask i => if blocked i then mask ||| 1#32 <<< i else mask) 0

def unblockableMask : BitVec 32 := 1#32 <<< sigkill ||| 1#32 <<< sigstop

/-- The mask the handler runs under. -/
def SigState.handlerMask (s : SigState) (sig : Nat) : BitVec 32 :=
  let own := if s.saFlags sig &&& saNodefer = 0 then packMask s.blocked ||| 1#32 <<< sig
    else packMask s.blocked
  (own ||| s.saMask sig) &&& ~~~unblockableMask

/-- The interrupted system call is to be run again after the handler. -/
def SigState.restarts (s : SigState) (sig : Nat) : Bool :=
  s.syscallRestartable && s.saFlags sig &&& saRestart != 0

/-- Length of the `syscall` instruction. -/
def syscallInsLen : BitVec 64 := 2

/-- The frame `signal_deliver` fills in.  Without a restart its last six words are what was on
the kernel stack before. -/
def SigState.buildFrame (s : SigState) (sig : Nat) (r : Registers) (stale : RestartArgs) :
    SigFrame where
  signum := BitVec.ofNat 32 sig
  savedRip := if s.restarts sig then r.rip - syscallInsLen else r.rip
  savedCs := r.cs
  savedRflags := r.rflags
  savedRsp := r.rsp
  savedSs := r.ss
  savedRax := r.rax
  savedMask := packMask s.blocked
  restartActive := if s.restarts sig then 1 else 0
  restartSysno := if s.restarts sig then s.restartSysno else 0
  restartArgs := if s.restarts sig then r.callArgs else stale

/-- Where the handler's stack starts. -/
def SigState.handlerStack (s : SigState) (sig : Nat) (r : Registers) : BitVec 64 :=
  if s.saFlags sig &&& saOnstack ≠ 0 ∧ s.ssActive ∧ !s.onAltstack then s.ssSp + s.ssSize
  else r.rsp

def SigState.frameAddr (s : SigState) (sig : Nat) (r : Registers) : BitVec 64 :=
  if s.saRestorer sig ≠ 0 then s.handlerStack sig r - 8 - BitVec.ofNat 64 sigframeSize
  else s.handlerStack sig r - BitVec.ofNat 64 sigframeSize

/-- The stack pointer the handler is entered with. -/
def SigState.entryRsp (s : SigState) (sig : Nat) (r : Registers) : BitVec 64 :=
  if s.saRestorer sig ≠ 0 then s.handlerStack sig r - 8 else s.frameAddr sig r

/-! ## Delivery -/

inductive Errno where
  | EINVAL
  | EFAULT

/-- How `signal_deliver` ends. -/
inductive Delivery where
  /-- it returns `0` -/
  | returned (p : Proc) (r : Registers) (mem : UserMem)
  /-- it returns an error -/
  | failed (e : Errno) (p : Proc) (mem : UserMem)
  /-- it does not return: the process has ended -/
  | exited (p : Proc) (cause : Cause)

/-- The state committed once the frame is in user memory. -/
def Proc.enterHandler (p : Proc) (sig : Nat) (r : Registers) : Proc :=
  let s := p.signals
  let addr := s.frameAddr sig r
  { p with
    signals := { s with
      pending := Function.update s.pending sig false
      blocked := fun i => if 1 ≤ i ∧ i < nsig then (s.handlerMask sig).getLsbD i else s.blocked i
      restartFrame := if s.restarts sig then true else s.restartFrame
      inSignal := true
      onAltstack := s.ssSp.toNat ≤ addr.toNat && addr.toNat < (s.ssSp + s.ssSize).toNat
      sigframeAddr := addr } }

/-- The second half of `signal_deliver`: run the handler on a frame. -/
def pushFrame (p : Proc) (sig : Nat) (r : Registers) (mem : UserMem) (stale : RestartArgs) :
    Delivery :=
  let s := p.signals
  match copyToUser mem (s.frameAddr sig r) (s.buildFrame sig r stale).encode with
  | (false, mem) => .failed .EFAULT p mem
  | (true, mem) =>
      let regs := { r with
        rsp := s.entryRsp sig r, rdi := BitVec.ofNat 64 sig, rip := s.handler sig }
      if s.saRestorer sig = 0 then .returned (p.enterHandler sig r) regs mem
      else
        match copyToUser mem (s.entryRsp sig r) (wordBytes 8 (s.saRestorer sig).toNat) with
        | (false, mem) => .failed .EFAULT p mem
        | (true, mem) => .returned (p.enterHandler sig r) regs mem

/-- A stale blocked bit of `SIGKILL` or `SIGSTOP` is cleared. -/
def Proc.forceUnblocked (p : Proc) (sig : Nat) : Proc :=
  if sigIsUnblockable sig then p.setBlocked (Function.update p.signals.blocked sig false) else p

/-- The default action of a signal on the process it reaches. -/
def defaultDeliver (p : Proc) (sig : Nat) (r : Registers) (mem : UserMem) : Delivery :=
  match signalDefaultAction sig with
  | .ign => .returned (p.setPending sig false) r mem
  | .stop =>
      .returned ({ p with state := .stopped, stopped := true, continued := false,
                          exitSig := sig }.setPending sig false) r mem
  | .cont =>
      .returned ({ p with state := .normal, stopped := false,
                          continued := if p.stopped then true else p.continued }.setPending sig
                    false) r mem
  | .term => .exited (procExit { p with exitSig := sig } 0) (.signal sig)
  | .core => .exited (procExit { p with exitSig := sig } 0) (.signal sig)

def signalDeliver (p : Proc) (sig : Nat) (r : Registers) (mem : UserMem) (stale : RestartArgs) :
    Delivery :=
  if !signalIsValid sig then .failed .EINVAL p mem
  else if p.signals.blocked sig && !sigIsUnblockable sig then
    .returned (p.setPending sig true) r mem
  else
    let p := p.forceUnblocked sig
    if p.signals.handler sig = sigIgn then .returned (p.setPending sig false) r mem
    else if p.signals.handler sig = sigDfl then defaultDeliver p sig r mem
    else pushFrame p sig r mem stale

/-- How `signal_check_pending` ends. -/
inductive Check where
  /-- it returns `0` -/
  | nothing
  /-- it returns `1` -/
  | delivered (p : Proc) (r : Registers) (mem : UserMem)
  /-- the process has ended -/
  | exited (p : Proc) (cause : Cause)

def signalCheckPending (p : Proc) (r : Registers) (mem : UserMem) (stale : RestartArgs) : Check :=
  if p.signals.inSignal then .nothing
  else
    match signalNumbers.find? p.signals.deliverable with
    | none => .nothing
    | some sig =>
        match signalDeliver p sig r mem stale with
        | .returned p r mem => .delivered p r mem
        | .exited p cause => .exited p cause
        | .failed _ p _ =>
            .exited (procExit { p.setPending sig false with exitSig := sigsegv } 139)
              (.signal sigsegv)

/-! ## Return -/

def userCsSel : BitVec 64 := 0x2B
def userSsSel : BitVec 64 := 0x23
def rflagsSafeMask : BitVec 64 := 0xED5

/-- `sigreturn_restore_mask`. -/
def sigreturnRestoreMask (s : SigState) (mask : BitVec 32) : SigState :=
  { s with blocked := fun i => (1 ≤ i && i < nsig) && (mask &&& ~~~unblockableMask).getLsbD i }

/-- `sigreturn_done`. -/
def sigreturnDone (s : SigState) : SigState :=
  { s with inSignal := false, onAltstack := false, sigframeAddr := 0 }

/-- What `sys_sigreturn` makes of the frame it has read: the signal state, the registers and
the value returned, which the dispatcher stores to `rax`. -/
def resume (f : SigFrame) (s : SigState) (r : Registers) : SigState × Registers × BitVec 64 :=
  let r := { r with
    rip := f.savedRip
    cs := userCsSel
    rflags := (f.savedRflags &&& rflagsSafeMask) ||| 0x2
    rsp := f.savedRsp
    ss := userSsSel }
  if f.restartActive ≠ 0 then
    (sigreturnDone (sigreturnRestoreMask { s with restartSysno := f.restartSysno } f.savedMask),
      { r with
        rdi := f.restartArgs.arg0
        rsi := f.restartArgs.arg1
        rdx := f.restartArgs.arg2
        r10 := f.restartArgs.arg3
        r8 := f.restartArgs.arg4
        r9 := f.restartArgs.arg5 },
      f.restartSysno.setWidth 64 + 1024)
  else
    (sigreturnDone (sigreturnRestoreMask s f.savedMask), { r with rax := f.savedRax }, f.savedRax)

/-- The frame `sys_sigreturn` pops. -/
def poppedAddr (s : SigState) (r : Registers) : BitVec 64 :=
  if s.sigframeAddr = 0 then r.rsp else s.sigframeAddr

/-- `sys_sigreturn`; `none` is `-EFAULT`. -/
def sysSigreturn (s : SigState) (r : Registers) (mem : UserMem) :
    Option (SigState × Registers × BitVec 64) :=
  if copyFromUser mem (poppedAddr s r) sigframeSize then
    some (resume (SigFrame.read mem.bytes (poppedAddr s r).toNat) s r)
  else none

end ArcKernel.Signal
