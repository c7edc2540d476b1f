import ArcKernel.Signal.Pending
import ArcKernel.Signal.Restore

/-!
# When `SIGKILL` takes effect

A signal ends a process at a check of the dispatcher only.  Each check looks at one signal,
the lowest-numbered one that is pending and not blocked, and at none while a handler is in
progress.
-/

namespace ArcKernel.Signal

open ArcKernel.Foundation SigSys

variable {sysno : Int} {q : Proc} {signals : SigState}

variable {p : Proc} {sig : Nat} {r : Registers} {mem : UserMem} {stale : RestartArgs} {s t : SigSys}

/-! ## What a check does -/

/-- Delivery of the signal ends the process: by default, or for want of room for a frame. -/
def EndsProcess (s : SigState) (sig : Nat) (r : Registers) (mem : UserMem) : Prop :=
  (s.handler sig = sigDfl ∧ (signalDefaultAction sig = .term ∨ signalDefaultAction sig = .core)) ∨
    (s.handler sig ≠ sigDfl ∧ s.handler sig ≠ sigIgn ∧ ¬ CanPush s sig r mem)

/-- The signal a check looks at. -/
def Lowest (s : SigState) (sig : Nat) : Prop :=
  1 ≤ sig ∧ sig < nsig ∧ s.deliverable sig = true ∧ ∀ j, 1 ≤ j → j < sig → s.deliverable j = false

theorem find_deliverable {s : SigState} :
    signalNumbers.find? s.deliverable = some sig ↔ Lowest s sig := by
  rw [signalNumbers, List.find?_range'_eq_some, List.mem_range'_1, Lowest, nsig]
  constructor
  · rintro ⟨hd, ⟨hlo, hhi⟩, hlow⟩
    refine ⟨hlo, by omega, hd, fun j hj hlt => ?_⟩
    have := hlow j hj hlt
    rwa [Bool.not_eq_true'] at this
  · rintro ⟨hlo, hhi, hd, hlow⟩
    refine ⟨hd, ⟨hlo, by omega⟩, fun j hj hlt => ?_⟩
    rw [Bool.not_eq_true']
    exact hlow j hj hlt

theorem pushFrame_of_not_canPush (stale : RestartArgs) (h : ¬ CanPush p.signals sig r mem) :
    ∃ e q m, pushFrame p sig r mem stale = .failed e q m := by
  cases hpush : pushFrame p sig r mem stale with
  | returned q r' m => exact absurd (pushFrame_eq_returned.mp hpush).1 h
  | failed e q m => exact ⟨e, q, m, rfl⟩
  | exited q cause =>
    rw [pushFrame] at hpush
    split at hpush
    · cases hpush
    · split at hpush
      · cases hpush
      · split at hpush <;> cases hpush

/-- The three ways a deliverable signal goes. -/
theorem signalDeliver_of_deliverable (hvalid : signalIsValid sig = true)
    (hd : p.signals.deliverable sig = true) :
    signalDeliver p sig r mem stale =
      if p.signals.handler sig = sigIgn then
        .returned ((p.forceUnblocked sig).setPending sig false) r mem
      else if p.signals.handler sig = sigDfl then defaultDeliver (p.forceUnblocked sig) sig r mem
      else pushFrame (p.forceUnblocked sig) sig r mem stale := by
  have hhandler : (p.forceUnblocked sig).signals.handler sig = p.signals.handler sig := by
    rw [Proc.forceUnblocked]
    split <;> rfl
  have hheld : ¬ (p.signals.blocked sig && !sigIsUnblockable sig) = true := by
    rw [SigState.deliverable] at hd
    cases hb : p.signals.blocked sig <;> cases hu : sigIsUnblockable sig <;> simp_all
  rw [signalDeliver, if_neg (by rw [hvalid]; decide), if_neg hheld]
  dsimp only
  rw [hhandler]

/-- A check ends the process exactly when no handler is in progress and the signal it looks at
does. -/
theorem check_exited_iff : (∃ q cause, signalCheckPending p r mem stale = .exited q cause) ↔
      p.signals.inSignal = false ∧ ∃ sig, Lowest p.signals sig ∧
        EndsProcess p.signals sig r mem := by
  rw [signalCheckPending]
  cases hin : p.signals.inSignal with
  | true => exact iff_of_false (by rintro ⟨_, _, ⟨⟩⟩) fun h => Bool.false_ne_true h.1.symm
  | false =>
    cases hfind : signalNumbers.find? p.signals.deliverable with
    | none =>
      refine iff_of_false (by rintro ⟨_, _, ⟨⟩⟩) ?_
      rintro ⟨_, sig, hlow, _⟩
      cases hfind.symm.trans (find_deliverable.mpr hlow)
    | some sig =>
      have hlow := find_deliverable.mp hfind
      have hvalid : signalIsValid sig = true := by
        rw [signalIsValid, decide_eq_true hlow.1, decide_eq_true hlow.2.1]
        rfl
      have hunique : (∃ sig', Lowest p.signals sig' ∧ EndsProcess p.signals sig' r mem) ↔
          EndsProcess p.signals sig r mem := by
        constructor
        · rintro ⟨sig', hlow', hends⟩
          cases hfind.symm.trans (find_deliverable.mpr hlow')
          exact hends
        · exact fun hends => ⟨sig, hlow, hends⟩
      have hpush :
        CanPush (p.forceUnblocked sig).signals sig r mem ↔ CanPush p.signals sig r mem := by
        rw [Proc.forceUnblocked]
        split <;> exact Iff.rfl
      dsimp only
      rw [hunique, signalDeliver_of_deliverable hvalid hlow.2.2.1, EndsProcess]
      by_cases hign : p.signals.handler sig = sigIgn
      · rw [if_pos hign]
        refine iff_of_false (by rintro ⟨_, _, ⟨⟩⟩) ?_
        rintro ⟨-, ⟨hdfl, -⟩ | ⟨-, hne, -⟩⟩
        · exact absurd (hign.symm.trans hdfl) (by decide)
        · exact hne hign
      rw [if_neg hign]
      by_cases hdfl : p.signals.handler sig = sigDfl
      · rw [defaultDeliver]
        cases hact : signalDefaultAction sig <;> simp [hdfl]
      rw [if_neg hdfl]
      by_cases hroom : CanPush p.signals sig r mem
      · rw [pushFrame_eq_returned.mpr ⟨hpush.mpr hroom, rfl, rfl, rfl⟩]
        exact iff_of_false (by rintro ⟨_, _, ⟨⟩⟩)
          fun h => h.2.elim (fun h => hdfl h.1) fun h => h.2.2 hroom
      · obtain ⟨e, q, m, hq⟩ := pushFrame_of_not_canPush stale (mt hpush.mp hroom)
        rw [hq]
        exact iff_of_true ⟨_, _, rfl⟩ ⟨rfl, .inr ⟨hdfl, hign, hroom⟩⟩

/-! ## Runs -/

/-- While the process lives, `SIGKILL` has its default action, and one that was sent is pending
unless an `execve` dropped it. -/
structure KillKept (s : SigSys) : Prop where
  dfl : s.p.signals.handler sigkill = sigDfl
  pending : s.kill = .sent → s.p.signals.pending sigkill = true

/-- `signal` and `sigaction` refuse `SIGKILL`, and `killpg` does not take it for a stop. -/
theorem spares_sigkill (l : Step) : spares sigkill l = true := by
  have hset : ∀ sig, (sig != sigkill || !settable sig) = true := by
    intro sig
    rcases eq_or_ne sig sigkill with rfl | hne
    · rfl
    · rw [bne_iff_ne.mpr hne, Bool.true_or]
  cases l with
  | call c =>
    cases c with
    | signal sig handler => exact hset sig
    | sigaction sig oldOk act =>
      cases act with
      | fault => rfl
      | _ => exact Bool.or_eq_true_iff.mpr (.inl (hset sig))
    | _ => rfl
  | killpg sig =>
    rcases eq_or_ne sig sigkill with rfl | hne
    · rfl
    · rw [spares, bne_iff_ne.mpr hne, Bool.true_or]
  | _ => rfl

/-- The steps after which the run is one of a new image or a new process. -/
theorem killKept_replaces {l : Step} (h : s.mode.alive = true → KillKept s)
    (hnew : l.replaces = true) (hstep : sigStep s l = some t) : KillKept t := by
  rw [sigStep.eq_def] at hstep
  match l, hnew with
  | .call .exec, _ =>
    obtain ⟨sysno, hmode, rfl⟩ := of_called hstep
    refine ⟨?_, fun hsent => ?_⟩
    · show (if signalIsValid sigkill ∧ s.p.signals.handler sigkill ≠ sigIgn then sigDfl
        else s.p.signals.handler sigkill) = sigDfl
      split
      · rfl
      · exact (h (by rw [hmode]; rfl)).dfl
    · replace hsent : (if s.kill = .sent then KillSent.dropped else s.kill) = .sent := hsent
      split at hsent
      · cases hsent
      · rename_i hne
        exact absurd hsent hne
  | .fork, _ =>
    obtain ⟨sysno, hmode, rfl⟩ := of_called hstep
    exact ⟨(h (by rw [hmode]; rfl)).dfl, nofun⟩
  | .clone thread, _ =>
    obtain ⟨sysno, hmode, rfl⟩ := of_called hstep
    exact ⟨(h (by rw [hmode]; rfl)).dfl, nofun⟩

/-- One step keeps it. -/
theorem killKept_step (l : Step) (h : s.mode.alive = true → KillKept s)
    (hstep : sigStep s l = some t) (halive : t.mode.alive = true) : KillKept t := by
  cases hnew : l.replaces with
  | true => exact killKept_replaces h hnew hstep
  | false =>
    obtain ⟨hs, hkeeps, hsent, hkill⟩ := carries_step l hstep halive hnew (spares_sigkill l)
      fun hs _ => ⟨(h hs).dfl, rfl⟩
    refine ⟨hkeeps.1.trans (h hs).dfl, fun hnow => ?_⟩
    rw [hkill] at hnow
    cases hl : l.sent with
    | none =>
      rw [hl] at hnow
      exact hkeeps.2 ((h hs).pending hnow)
    | some sig =>
      rw [hl, Option.elim_some, KillSent.note] at hnow
      split at hnow
      · rename_i hsig
        exact hsent (hl.trans (congrArg some hsig))
      · exact hkeeps.2 ((h hs).pending hnow)

theorem killKept_of_run {calls : List Step} (run : exec sigStep start calls = some s) :
    s.mode.alive = true → KillKept s :=
  exec_invariant_all (I := fun s => s.mode.alive = true → KillKept s)
    (fun _ l _ h hstep halive => killKept_step l h hstep halive)
    (fun _ => ⟨rfl, fun hsent => absurd hsent (by decide)⟩) run

/-! ## The next check -/

/-- The steps with a check: entry to the dispatcher and exit from it. -/
def Step.Checks : Step → Prop
  | .enter .. => True
  | .leave .. => True
  | _ => False

/-- No handler is in progress, and the lowest-numbered signal that is pending and not blocked is
`SIGKILL` or another one that ends the process. -/
def SignalsEnd (s : SigState) (r : Registers) (mem : UserMem) : Prop :=
  s.inSignal = false ∧ ∃ sig, Lowest s sig ∧ (sig = sigkill ∨ EndsProcess s sig r mem)

/-- The signals end the process and the check is made: on entry for every number of a system
call, on exit unless a frame has been built for a restart. -/
def KillTakes (s : SigSys) : Step → Prop
  | .enter sysno r mem _ => (0 ≤ sysno ∧ sysno < sysMax) ∧ SignalsEnd s.p.signals r mem
  | .leave _ r mem _ => s.p.signals.restartFrame = false ∧ SignalsEnd s.p.signals r mem
  | _ => False

theorem signalsEnd_iff (hdfl : signals.handler sigkill = sigDfl) : SignalsEnd signals r mem ↔
      signals.inSignal = false ∧ ∃ sig, Lowest signals sig ∧ EndsProcess signals sig r mem := by
  refine and_congr_right fun _ => ⟨?_, ?_⟩
  · rintro ⟨sig, hlow, rfl | hends⟩
    · exact ⟨sigkill, hlow, .inl ⟨hdfl, .inl rfl⟩⟩
    · exact ⟨sig, hlow, hends⟩
  · rintro ⟨sig, hlow, hends⟩
    exact ⟨sig, hlow, .inr hends⟩

theorem dispatchEnter_ended_iff (h : KillKept s) (hmode : s.mode = .user) :
    (dispatchEnter s sysno r mem stale).mode = .ended ↔
      (0 ≤ sysno ∧ sysno < sysMax) ∧ SignalsEnd s.p.signals r mem := by
  have halive : s.mode ≠ .ended := by
    rw [hmode]
    rintro ⟨⟩
  rw [signalsEnd_iff h.dfl]
  have hcheck : (∃ q cause, signalCheckPending (s.p.armRestart sysno) r mem stale =
      .exited q cause) ↔ s.p.signals.inSignal = false ∧
        ∃ sig, Lowest s.p.signals sig ∧ EndsProcess s.p.signals sig r mem := check_exited_iff
  rw [dispatchEnter]
  by_cases hvalid : sysno < 0 ∨ sysMax ≤ sysno
  · rw [if_pos hvalid]
    exact iff_of_false halive fun h => by omega
  rw [if_neg hvalid, ← hcheck]
  have hin : 0 ≤ sysno ∧ sysno < sysMax := by omega
  cases hres : signalCheckPending (s.p.armRestart sysno) r mem stale with
  | nothing => exact iff_of_false (by rintro ⟨⟩) (by rintro ⟨_, _, _, ⟨⟩⟩)
  | delivered q r' mem' => exact iff_of_false halive (by rintro ⟨_, _, _, ⟨⟩⟩)
  | exited q cause => exact iff_of_true rfl ⟨hin, q, cause, rfl⟩

theorem dispatchLeave_ended_iff {again : Bool} (h : KillKept s) :
    (dispatchLeave s sysno again r mem stale).mode = .ended ↔
      s.p.signals.restartFrame = false ∧ SignalsEnd s.p.signals r mem := by
  rw [signalsEnd_iff h.dfl, dispatchLeave]
  obtain ⟨q, hq⟩ : ∃ q, (if again = true then s.p.armRestart sysno else s.p) = q := ⟨_, rfl⟩
  have hcheck : (∃ q' cause, signalCheckPending q r mem stale = .exited q' cause) ↔
      s.p.signals.inSignal = false ∧
        ∃ sig, Lowest s.p.signals sig ∧ EndsProcess s.p.signals sig r mem := by
    rw [check_exited_iff, ← hq]
    split <;> exact Iff.rfl
  have hframe : q.signals.restartFrame = s.p.signals.restartFrame := by
    rw [← hq]
    split <;> rfl
  rw [hq, ← hcheck, hframe]
  cases hre : s.p.signals.restartFrame with
  | true => exact iff_of_false (by rintro ⟨⟩) fun h => Bool.false_ne_true h.1.symm
  | false =>
    cases hres : signalCheckPending q r mem stale with
    | nothing | delivered q' r' mem' =>
      exact iff_of_false (by rintro ⟨⟩) (by rintro ⟨_, _, _, ⟨⟩⟩)
    | exited q' cause => exact iff_of_true rfl ⟨rfl, q', cause, rfl⟩

/-- **What `SIGKILL` does.**  In every state the process can reach: a `SIGKILL` that was sent
stays pending until the process ends, unless an `execve` drops it; and the next entry to or
exit from the dispatcher ends the process exactly when that check is made, no handler is in
progress and no lower-numbered signal that the process survives comes first. -/
theorem kill_ends_iff (calls : List Step) (s : SigSys) (run : exec sigStep start calls = some s) :
    (s.mode.alive = true → s.kill = .sent → s.p.signals.pending sigkill = true) ∧
      ∀ l t, l.Checks → sigStep s l = some t → (t.mode = .ended ↔ KillTakes s l) := by
  have hkept := killKept_of_run run
  refine ⟨fun halive hsent => (hkept halive).pending hsent, fun l t hl hstep => ?_⟩
  cases l with
  | enter sysno r mem stale =>
    obtain ⟨hmode, rfl⟩ := of_user hstep
    exact dispatchEnter_ended_iff (hkept (by rw [hmode]; rfl)) hmode
  | leave again r mem stale =>
    rw [sigStep] at hstep
    split at hstep
    · rename_i sysno hmode
      cases hstep
      exact dispatchLeave_ended_iff (hkept (by rw [hmode]; rfl))
    · cases hstep
  | _ => exact hl.elim

/-- Killed in user code, with nothing else pending. -/
theorem kill_ends_next_call : ∃ s t, exec sigStep start [.kill sigkill] = some s ∧ s.kill = .sent ∧
      sigStep s (.enter 7 exampleRegs exampleMem ⟨0, 0, 0, 0, 0, 0⟩) = some t ∧
      t.mode = .ended := by
  have hrun : exec sigStep start [.kill sigkill] =
      some { start with p := (killDeliver start.p sigkill).wakeup, kill := .sent } := rfl
  have hends := (kill_ends_iff _ _ hrun).2 (.enter 7 exampleRegs exampleMem ⟨0, 0, 0, 0, 0, 0⟩) _
    trivial rfl
  refine ⟨_, _, hrun, rfl, rfl, hends.mpr ⟨by decide, rfl, sigkill, ?_, .inl rfl⟩⟩
  refine ⟨by decide, by decide, rfl, fun j _ hhi => ?_⟩
  show (Function.update (fun _ => false) sigkill true j && _) = false
  rw [Function.update_of_ne (Nat.ne_of_lt hhi), Bool.false_and]

/-- The process catches `SIGUSR1`, and is killed inside its handler. -/
def killedInHandler : List Step :=
  [.enter 17 exampleRegs exampleMem ⟨0, 0, 0, 0, 0, 0⟩,
   .call (.sigaction 10 true (.value ⟨0x401000, 0, 0, 0x402000⟩)),
   .leave false exampleRegs exampleMem ⟨0, 0, 0, 0, 0, 0⟩,
   .kill 10,
   .enter 7 exampleRegs exampleMem ⟨0, 0, 0, 0, 0, 0⟩,
   .kill sigkill]

/-- One system call. -/
def oneCall : List Step :=
  [.enter 7 exampleRegs exampleMem ⟨0, 0, 0, 0, 0, 0⟩, .call .other,
   .leave false exampleRegs exampleMem ⟨0, 0, 0, 0, 0, 0⟩]

/-- `SIGKILL` has been sent, and the process enters and leaves the kernel as it likes as long as
it does not return from the handler. -/
theorem handler_outlives_kill : (exec sigStep start killedInHandler).map
      (fun s => (s.kill, s.p.signals.inSignal)) = some (.sent, true) ∧
    (exec sigStep start (killedInHandler ++ oneCall)).map
      (fun s => (s.mode.alive, s.cause)) = some (true, none) ∧
    (exec sigStep start (killedInHandler ++ oneCall ++ oneCall)).map
      (fun s => (s.mode.alive, s.cause)) = some (true, none) := by
  decide +kernel

end ArcKernel.Signal
