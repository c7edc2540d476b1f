import ArcKernel.Signal.Process

/-!
# The status a parent's `waitpid` reports

`exit_sig` records three things: the signal that stopped a process, the signal that ended it,
and that `SIGKILL` is on its way.  `waitpid` reads it as the second.  The status is right when
the field is clear at `exit`, and when nothing sent to the zombie writes it or the state.
-/

namespace ArcKernel.Signal

open ArcKernel.Foundation

variable {s t : SigSys} {p q : Proc} {sig : Nat} {r : Registers} {mem : UserMem}
  {stale : RestartArgs} {cause : Cause}

/-- A step from user code that was taken. -/
theorem of_user {u : SigSys} (h : (match s.mode with | .user => some u | _ => none) = some t) :
    s.mode = .user ∧ u = t := by
  split at h
  · exact ⟨‹_›, Option.some.inj h⟩
  · cases h

/-- A step inside a call that was taken. -/
theorem of_called {f : Int → SigSys}
    (h : (match s.mode with | .called sysno => some (f sysno) | _ => none) = some t) :
    ∃ sysno, s.mode = .called sysno ∧ f sysno = t := by
  split at h
  · exact ⟨_, ‹_›, Option.some.inj h⟩
  · cases h

/-- The status a process that ended this way should have; a crash is neither of the two. -/
def Cause.status : Cause → Option (BitVec 32)
  | .exit code => some (BitVec.ofNat 32 (code.toNat % 256 * 256))
  | .signal sig => some (BitVec.ofNat 32 sig)
  | .crash => none

/-- The process is a zombie with that status. -/
def Ends (p : Proc) (cause : Cause) : Prop :=
  ∀ st, cause.status = some st → p.state = .zombie ∧ waitStatus p = st

theorem waitStatus_of_signal (h : p.exitSig = sig) (hne : sig ≠ 0) :
    waitStatus p = BitVec.ofNat 32 sig := by
  rw [waitStatus, h, if_pos hne]

theorem ends_signal (h : p.exitSig = sig) (hne : sig ≠ 0) (code : BitVec 32) :
    Ends (procExit p code) (.signal sig) := by
  intro st hst
  cases hst
  exact ⟨rfl, waitStatus_of_signal h hne⟩

theorem ends_exit (h : p.exitSig = 0) (code : BitVec 32) : Ends (procExit p code) (.exit code) := by
  intro st hst
  cases hst
  refine ⟨rfl, ?_⟩
  have hexit : (procExit p code).exitSig = 0 := h
  rw [waitStatus, hexit, if_neg (not_not_intro rfl)]
  apply BitVec.eq_of_toNat_eq
  have hlow : code.toNat &&& 255 = code.toNat % 256 := Nat.and_two_pow_sub_one_eq_mod code.toNat 8
  rw [BitVec.toNat_shiftLeft, BitVec.toNat_and, Nat.shiftLeft_eq]
  show (code.toNat &&& 255) * 2 ^ 8 % 2 ^ 32 = code.toNat % 256 * 256 % 2 ^ 32
  rw [hlow]

/-! ## Termination by a signal -/

theorem signalDeliver_exited (h : signalDeliver p sig r mem stale = .exited q cause) :
    Ends q cause := by
  rw [signalDeliver] at h
  split at h
  · cases h
  rename_i hvalid
  have hne : sig ≠ 0 := by
    rintro rfl
    exact hvalid rfl
  split at h
  · cases h
  dsimp only at h
  split at h
  · cases h
  split at h
  · rw [defaultDeliver] at h
    split at h
    · cases h
    · cases h
    · cases h
    all_goals
      cases h
      exact ends_signal rfl hne 0
  · rw [pushFrame] at h
    split at h
    · cases h
    split at h
    · cases h
    split at h <;> cases h

theorem signalCheckPending_exited (h : signalCheckPending p r mem stale = .exited q cause) :
    Ends q cause := by
  rw [signalCheckPending] at h
  split at h
  · cases h
  split at h
  · cases h
  split at h
  · cases h
  · rename_i hdel
    cases h
    exact signalDeliver_exited hdel
  · cases h
    exact ends_signal rfl (show sigsegv ≠ 0 by decide) 139

/-! ## What is sent to a zombie -/

/-- A change that leaves a zombie and its status alone. -/
def KeepsStatus (p q : Proc) : Prop :=
  p.state = .zombie → q.state = .zombie ∧ waitStatus q = waitStatus p

theorem KeepsStatus.of_eq (hstate : q.state = p.state) (hsig : q.exitSig = p.exitSig)
    (hstatus : q.exitStatus = p.exitStatus) : KeepsStatus p q := by
  intro hz
  exact ⟨hstate.trans hz, by rw [waitStatus, waitStatus, hsig, hstatus]⟩

theorem KeepsStatus.trans {q' : Proc} (h : KeepsStatus p q) (h' : KeepsStatus q q') :
    KeepsStatus p q' := by
  intro hz
  obtain ⟨hq, hw⟩ := h hz
  obtain ⟨hq', hw'⟩ := h' hq
  exact ⟨hq', hw'.trans hw⟩

/-- A zombie is not asleep. -/
theorem KeepsStatus.wakeup (h : KeepsStatus p q) : KeepsStatus p q.wakeup := by
  intro hz
  have hsame : q.wakeup = q := if_neg (by rw [(h hz).1]; nofun)
  rw [hsame]
  exact h hz

/-- `SIGKILL` is recorded in a process that it ended already. -/
theorem KeepsStatus.kill (h : p.exitSig = sigkill) (hstate : q.state = p.state)
    (hsig : q.exitSig = sigkill) : KeepsStatus p q := by
  intro hz
  refine ⟨hstate.trans hz, ?_⟩
  rw [waitStatus_of_signal hsig (by decide), waitStatus_of_signal h (by decide)]

theorem KeepsStatus.resumeStopped (p : Proc) : KeepsStatus p p.resumeStopped := by
  intro hz
  refine ⟨?_, rfl⟩
  show (if p.state = .stopped then RunState.normal else p.state) = .zombie
  rw [hz]
  rfl

theorem KeepsStatus.killDeliver (hstop : isStopSignal sig = false)
    (hcont : sig = sigcont → p.exitSig = 0) (hkill : sig = sigkill → p.exitSig = sigkill) :
    KeepsStatus p (killDeliver p sig) := by
  rw [Signal.killDeliver]
  dsimp only
  rw [hstop, if_neg Bool.false_ne_true]
  by_cases hc : sig = sigcont
  · rw [if_pos hc, if_neg (by rw [hc]; decide)]
    have hres : KeepsStatus p (p.setPending sig true).resumeStopped :=
      (KeepsStatus.of_eq rfl rfl rfl).trans (KeepsStatus.resumeStopped _)
    exact hres.trans (KeepsStatus.of_eq rfl (hcont hc).symm rfl)
  rw [if_neg hc]
  by_cases hk : sig = sigkill
  · rw [if_pos hk]
    exact KeepsStatus.kill (hkill hk) rfl rfl
  · rw [if_neg hk]
    exact KeepsStatus.of_eq rfl rfl rfl

theorem KeepsStatus.killpgDeliver (hstop : isStopSignal sig = false)
    (hkill : sig = sigkill → p.exitSig = sigkill) : KeepsStatus p (killpgDeliver p sig) := by
  rw [Signal.killpgDeliver, hstop, if_neg Bool.false_ne_true]
  split
  · exact KeepsStatus.wakeup ((KeepsStatus.resumeStopped p).trans (KeepsStatus.of_eq rfl rfl rfl))
  split
  · exact KeepsStatus.of_eq rfl rfl rfl
  split
  · rename_i hk
    exact KeepsStatus.wakeup (KeepsStatus.kill (hkill hk) rfl hk)
  · exact KeepsStatus.wakeup (KeepsStatus.of_eq rfl rfl rfl)

theorem KeepsStatus.ttyDeliver (hne : sig ≠ sigtstp) : KeepsStatus p (ttyDeliver p sig) := by
  rw [Signal.ttyDeliver, if_neg hne]
  exact KeepsStatus.wakeup (KeepsStatus.of_eq rfl rfl rfl)

/-! ## Runs -/

/-- `exit` is called with nothing recorded in `exit_sig`.  Once the process has ended, no stop
signal reaches it, `SIGCONT` from `kill` only if it called `exit`, and `SIGKILL` from `kill` or
`killpg` only if that ended it. -/
def undisturbed (s : SigSys) : Step → Bool
  | .call (.exit _) => s.isThread || s.p.exitSig == 0
  | .kill sig =>
      s.mode.alive || (!isStopSignal sig && (sig != sigcont || s.p.exitSig == 0) &&
        (sig != sigkill || s.p.exitSig == sigkill))
  | .killpg sig => s.mode.alive || (!isStopSignal sig && (sig != sigkill || s.p.exitSig == sigkill))
  | .tty sig => s.mode.alive || sig != sigtstp
  | _ => true

/-- A process that has ended has the status its end calls for, until it has been reported. -/
structure StatusKept (s : SigSys) : Prop where
  alive : s.mode.alive = true → s.cause = none
  ended : s.mode = .ended → ∀ cause, s.cause = some cause → Ends s.p cause
  reaped : s.mode = .reaped → ∀ cause st, s.cause = some cause → cause.status = some st →
    s.reported = some st

theorem StatusKept.of_alive (hmode : s.mode.alive = true) (hcause : s.cause = none) :
    StatusKept s := by
  refine ⟨fun _ => hcause, fun h => ?_, fun h => ?_⟩
  all_goals
    rw [h] at hmode
    cases hmode

theorem StatusKept.finish (h : Ends q cause) : StatusKept (s.finish q cause) := by
  refine ⟨nofun, fun _ c hc => ?_, nofun⟩
  cases hc
  exact h

/-- The process table entry changes, the process does not move. -/
theorem StatusKept.of_keeps {kill : KillSent} (h : StatusKept s)
    (hkeeps : s.mode.alive = false → KeepsStatus s.p q) :
    StatusKept { s with p := q, kill := kill } := by
  refine ⟨h.alive, fun hmode c hc st hst => ?_, h.reaped⟩
  obtain ⟨hz, hw⟩ := h.ended hmode c hc st hst
  obtain ⟨hz', hw'⟩ := hkeeps (by rw [show s.mode = .ended from hmode]; rfl) hz
  exact ⟨hz', hw'.trans hw⟩

theorem StatusKept.runCall {sysno : Int} (hcause : s.cause = none) (c : Call)
    (hok : undisturbed s (.call c) = true) : StatusKept (runCall s sysno c) := by
  cases c with
  | signal sig handler
  | sigaction sig oldOk act
  | sigprocmask how oldOk set
  | sigaltstack oldOk ss
  | brokenPipe
  | exec
  | other => exact .of_alive rfl hcause
  | sigreturn r mem =>
    rw [Signal.runCall]
    split <;> exact .of_alive rfl hcause
  | killSelf sig =>
    rw [Signal.runCall]
    dsimp only
    split
    · rename_i hsig
      refine .finish (ends_signal ?_ (by decide) 9)
      show (killDeliver s.p sig).exitSig = sigkill
      rw [Signal.killDeliver]
      dsimp only
      rw [if_pos hsig]
    · exact .of_alive rfl hcause
  | exit code =>
    rw [Signal.runCall]
    rw [undisturbed, Bool.or_eq_true, beq_iff_eq] at hok
    split
    · refine ⟨nofun, nofun, fun _ c st hc => ?_⟩
      cases hcause.symm.trans hc
    · rename_i hthread
      exact .finish (ends_exit (hok.resolve_left hthread) code)

theorem StatusKept.step (l : Step) (h : StatusKept s) (hok : undisturbed s l = true)
    (hstep : sigStep s l = some t) : StatusKept t := by
  cases l with
  | enter sysno r mem stale =>
    obtain ⟨hmode, rfl⟩ := of_user hstep
    have halive : s.mode.alive = true := by rw [hmode]; rfl
    rw [dispatchEnter]
    split
    · exact h
    split
    · exact .of_alive rfl (h.alive halive)
    · exact .of_alive halive (h.alive halive)
    · rename_i hcheck
      exact .finish (signalCheckPending_exited hcheck)
  | call c =>
    obtain ⟨sysno, hmode, rfl⟩ := of_called hstep
    exact .runCall (h.alive (by rw [hmode]; rfl)) c hok
  | suspend mask =>
    obtain ⟨sysno, hmode, rfl⟩ := of_called hstep
    exact .of_alive rfl (h.alive (by rw [hmode]; rfl))
  | unsuspend =>
    rw [sigStep] at hstep
    split at hstep
    · rename_i sysno old hmode
      cases hstep
      exact .of_alive rfl (h.alive (by rw [hmode]; rfl))
    · cases hstep
  | sleep | awake =>
    obtain ⟨hmode, rfl⟩ := of_guard hstep
    exact .of_alive hmode (h.alive hmode)
  | leave again r mem stale =>
    rw [sigStep] at hstep
    split at hstep
    · rename_i sysno hmode
      have hcause := h.alive (by rw [hmode]; rfl)
      cases hstep
      rw [dispatchLeave]
      generalize (if again = true then s.p.armRestart sysno else s.p) = q
      split
      · exact .of_alive rfl hcause
      split
      · exact .of_alive rfl hcause
      · exact .of_alive rfl hcause
      · rename_i hcheck
        exact .finish (signalCheckPending_exited hcheck)
    · cases hstep
  | fault r mem stale =>
    obtain ⟨hmode, rfl⟩ := of_user hstep
    have halive : s.mode.alive = true := by rw [hmode]; rfl
    rw [userFault]
    split
    · exact .of_alive halive (h.alive halive)
    · rename_i hdel
      exact .finish (signalDeliver_exited hdel)
    · exact .finish (ends_signal rfl (show sigsegv ≠ 0 by decide) 139)
  | crash code =>
    obtain ⟨-, rfl⟩ := of_guard hstep
    exact .finish nofun
  | fork | clone thread =>
    obtain ⟨-, -, rfl⟩ := of_called hstep
    exact .of_alive rfl rfl
  | kill sig =>
    obtain ⟨-, rfl⟩ := of_guard hstep
    refine h.of_keeps fun hdead => ?_
    rw [undisturbed, hdead] at hok
    simp only [Bool.false_or, Bool.and_eq_true, Bool.or_eq_true, Bool.not_eq_true', bne_iff_ne,
      beq_iff_eq] at hok
    obtain ⟨⟨hstop, hcont⟩, hkill⟩ := hok
    exact (KeepsStatus.killDeliver hstop (fun hc => hcont.resolve_left (not_not_intro hc))
      fun hk => hkill.resolve_left (not_not_intro hk)).wakeup
  | killpg sig =>
    obtain ⟨-, rfl⟩ := of_guard hstep
    refine h.of_keeps fun hdead => ?_
    rw [undisturbed, hdead] at hok
    simp only [Bool.false_or, Bool.and_eq_true, Bool.or_eq_true, Bool.not_eq_true', bne_iff_ne,
      beq_iff_eq] at hok
    exact KeepsStatus.killpgDeliver hok.1 fun hk => hok.2.resolve_left (not_not_intro hk)
  | tty sig =>
    obtain ⟨-, rfl⟩ := of_guard hstep
    refine h.of_keeps fun hdead => ?_
    rw [undisturbed, hdead, Bool.false_or, bne_iff_ne] at hok
    exact KeepsStatus.ttyDeliver hok
  | wait =>
    rw [sigStep] at hstep
    split at hstep
    · rename_i hmode
      obtain ⟨-, rfl⟩ := of_guard hstep
      refine ⟨nofun, nofun, fun _ c st hc hst => ?_⟩
      rw [(h.ended hmode c hc st hst).2]
    · cases hstep

/-- **The reported status.**  In every run whose steps leave the record of the end alone: a
process that has ended by `exit` or by a signal is a zombie whose status is that of its end,
or has been reaped and reported with it. -/
theorem wait_status_exact (calls : List Step) (s : SigSys) (cause : Cause) (st : BitVec 32)
    (meets : AllSteps sigStep (fun s l => undisturbed s l = true) SigSys.start calls)
    (run : exec sigStep SigSys.start calls = some s) (hcause : s.cause = some cause)
    (hst : cause.status = some st) :
    (s.mode = .ended ∧ s.p.state = .zombie ∧ waitStatus s.p = st) ∨
      (s.mode = .reaped ∧ s.reported = some st) := by
  have hkept : StatusKept s :=
    exec_invariant (fun s l t h hok hstep => StatusKept.step l h hok hstep)
      (.of_alive rfl rfl) meets run
  cases hmode : s.mode with
  | ended => exact .inl ⟨rfl, hkept.ended hmode cause hcause st hst⟩
  | reaped => exact .inr ⟨rfl, hkept.reaped hmode cause st hcause hst⟩
  | user
  | called sysno
  | suspended sysno old
  | returning sysno => cases (hkept.alive (by rw [hmode]; rfl)).symm.trans hcause

/-- Some user registers and memory. -/
def exampleUser : Registers × UserMem :=
  (⟨0, 0, 0, 0, 0, 0, 0, 0, 0, 0, 0, 0, 0, 0, 0, 0x400000, userCsSel, 0x202, 0x600000, userSsSel⟩,
    ⟨fun _ => 0, fun _ => ⟨true, true, true, false⟩⟩)

def enterKernel : Step := .enter 1 exampleUser.1 exampleUser.2 ⟨0, 0, 0, 0, 0, 0⟩

/-- The process calls `exit` with this code. -/
def exitCall (code : BitVec 32) : List Step := [enterKernel, .call (.exit code)]

/-- An ignored signal interrupts the process first, `SIGTERM` reaches it as a zombie. -/
theorem wait_status_exact_interrupted : ∃ s, exec sigStep SigSys.start
        (.kill 17 :: enterKernel :: exitCall 259 ++ [.kill 15, .wait]) = some s ∧
      s.reported = some 768 := by
  refine exists_run (A := fun s => s.cause = some (.exit 259) ∧ s.mode.present = false)
    (by decide +kernel) ?_
  rintro s hrun ⟨hcause, hmode⟩
  rcases wait_status_exact _ s _ _ (by decide +kernel) hrun hcause rfl with
    ⟨hended, -⟩ | ⟨-, hreported⟩
  · rw [hended] at hmode
    cases hmode
  · exact hreported

/-- Three wrong reports: of `exit 3` after a stop and a continue by `killpg`, of `exit 3` with
`SIGKILL` sent to the zombie, and of a death by `SIGTERM` with `SIGCONT` sent to the zombie. -/
theorem stop_overrides_exit_status : (exec sigStep SigSys.start
        ([.killpg sigtstp, .killpg sigcont] ++ exitCall 3 ++ [.wait])).map
      (fun s => (s.cause, s.reported)) = some (some (.exit 3), some 20) ∧
    (exec sigStep SigSys.start (exitCall 3 ++ [.kill sigkill, .wait])).map
      (fun s => (s.cause, s.reported)) = some (some (.exit 3), some 9) ∧
    (exec sigStep SigSys.start [.kill 15, enterKernel, .kill sigcont, .wait]).map
      (fun s => (s.cause, s.reported)) = some (some (.signal 15), some 0) ∧
    (Cause.exit 3).status = some 768 ∧ (Cause.signal 15).status = some 15 := by
  decide +kernel

end ArcKernel.Signal
