import ArcKernel.Signal.Status

/-!
# A signal that was sent stays pending

The pending flag of a signal is written by every sender, by the check that acts on it and by
`signal`, `sigaction` and `execve`.  The steps are followed for one signal: which of them leave
its flag and its handler alone, and what may then be said of a whole run.
-/

namespace ArcKernel.Signal

open ArcKernel.Foundation Function

variable {k sig : Nat} {sysno : Int} {p q : Proc} {a b c : SigState} {r r' : Registers}
    {mem mem' : UserMem} {stale : RestartArgs} {s t : SigSys} {l : Step} {oldOk : Bool}

/-! ## What is kept of one signal -/

/-- The signal is handled as before, and stays pending. -/
def Keeps (k : Nat) (a b : SigState) : Prop :=
  b.handler k = a.handler k ∧ (a.pending k = true → b.pending k = true)

/-- The signal can only end the process. -/
def Fatal (s : SigState) (k : Nat) : Prop := s.handler k = sigDfl ∧ signalDefaultAction k = .term

theorem Keeps.of_eq (hhandler : b.handler = a.handler) (hpending : b.pending = a.pending) :
    Keeps k a b := by
  rw [Keeps, hhandler, hpending]
  exact ⟨rfl, id⟩

theorem Keeps.trans (h : Keeps k a b) (h' : Keeps k b c) : Keeps k a c :=
  ⟨h'.1.trans h.1, fun hp => h'.2 (h.2 hp)⟩

theorem Keeps.setPending_of_ne (p : Proc) (v : Bool) (hne : sig ≠ k) :
    Keeps k p.signals (p.setPending sig v).signals :=
  ⟨rfl, fun h => (update_of_ne (Ne.symm hne) ..).trans h⟩

theorem Keeps.setPending_true (p : Proc) : Keeps k p.signals (p.setPending sig true).signals := by
  refine ⟨rfl, fun h => ?_⟩
  show update p.signals.pending sig true k = true
  rw [update_apply]
  split
  · rfl
  · exact h

theorem Keeps.forceUnblocked (p : Proc) : Keeps k p.signals (p.forceUnblocked sig).signals := by
  rw [Proc.forceUnblocked]
  split <;> exact ⟨rfl, id⟩

/-! ## Delivery -/

/-- The process a delivery leaves. -/
def Delivery.proc : Delivery → Proc
  | .returned p _ _ => p
  | .failed _ p _ => p
  | .exited p _ => p

theorem Keeps.defaultDeliver (p : Proc) (hk : sig = k → signalDefaultAction k = .term) :
    Keeps k p.signals (defaultDeliver p sig r mem).proc.signals := by
  have hne : ∀ {act : DefaultAction}, signalDefaultAction sig = act → act ≠ .term → sig ≠ k := by
    rintro act rfl hact rfl
    exact hact (hk rfl)
  rw [Signal.defaultDeliver]
  cases hact : signalDefaultAction sig with
  | ign => exact setPending_of_ne p false (hne hact (by decide))
  | stop | cont => exact setPending_of_ne { p with .. } false (hne hact (by decide))
  | term => exact ⟨rfl, id⟩
  | core => exact ⟨rfl, id⟩

theorem Keeps.pushFrame (p : Proc) (hne : sig ≠ k) :
    Keeps k p.signals (pushFrame p sig r mem stale).proc.signals := by
  have hentered : Keeps k p.signals (p.enterHandler sig r).signals :=
    ⟨rfl, fun h => (update_of_ne (Ne.symm hne) ..).trans h⟩
  rw [Signal.pushFrame]
  dsimp only
  split
  · exact ⟨rfl, id⟩
  · split
    · exact hentered
    · split
      · exact ⟨rfl, id⟩
      · exact hentered

/-- A delivery clears the flag of its own signal only, and not of one that ends the process. -/
theorem Keeps.signalDeliver
    (hk : (p.signals.blocked sig && !sigIsUnblockable sig) = false → sig = k → Fatal p.signals k) :
    Keeps k p.signals (signalDeliver p sig r mem stale).proc.signals := by
  rw [Signal.signalDeliver]
  split
  · exact ⟨rfl, id⟩
  split
  · exact setPending_true p
  rename_i hopen
  replace hk := hk (Bool.eq_false_of_not_eq_true hopen)
  dsimp only
  have hforce : Keeps k p.signals (p.forceUnblocked sig).signals := Keeps.forceUnblocked p
  have hcaught : ∀ v, (p.forceUnblocked sig).signals.handler sig = v → v ≠ sigDfl → sig ≠ k := by
    rintro v hv hne rfl
    exact hne (hv.symm.trans (hforce.1.trans (hk rfl).1))
  split
  · rename_i hign
    exact hforce.trans (setPending_of_ne _ false (hcaught _ hign (by decide)))
  split
  · exact hforce.trans (Keeps.defaultDeliver _ fun h => (hk h).2)
  · rename_i hne
    exact hforce.trans (Keeps.pushFrame _ (hcaught _ rfl hne))

/-- A check that lets the process live. -/
theorem Keeps.check (h : signalCheckPending p r mem stale = .delivered q r' mem')
    (hk : p.signals.inSignal = false → signalNumbers.find? p.signals.deliverable = some k →
      Fatal p.signals k) :
    Keeps k p.signals q.signals := by
  rw [signalCheckPending] at h
  split at h
  · cases h
  rename_i hin
  split at h
  · cases h
  rename_i sig hfind
  split at h
  · rename_i hdel
    cases h
    have hkeeps : Keeps k p.signals (Signal.signalDeliver p sig r mem stale).proc.signals :=
      Keeps.signalDeliver fun _ hsig => hk (Bool.eq_false_of_not_eq_true hin) (hsig ▸ hfind)
    rw [hdel] at hkeeps
    exact hkeeps
  all_goals cases h

/-! ## Senders -/

theorem wakeup_signals (p : Proc) : p.wakeup.signals = p.signals := by
  rw [Proc.wakeup]
  split <;> rfl

theorem killDeliver_signals (p : Proc) (sig : Nat) :
    (killDeliver p sig).signals = (p.setPending sig true).signals := by
  rw [killDeliver]
  dsimp only
  split <;> split <;> first | rfl | (split <;> rfl)

/-- What a sender does to the signals. -/
def Sends (k sig : Nat) (a b : SigState) : Prop := Keeps k a b ∧ (sig = k → b.pending k = true)

theorem Sends.of_eq (h : b = (p.setPending sig true).signals) : Sends k sig p.signals b := by
  subst h
  refine ⟨Keeps.setPending_true p, ?_⟩
  rintro rfl
  exact update_self sig true p.signals.pending

/-- `killpg` carries out a stop or a continue itself and clears the flag. -/
theorem Sends.killpg (p : Proc) (hk : sig = k → (isStopSignal sig || sig == sigcont) = false) :
    Sends k sig p.signals (killpgDeliver p sig).signals := by
  have hclear : ∀ b, sig ≠ k → b = (p.setPending sig false).signals → Sends k sig p.signals b := by
    rintro _ hne rfl
    exact ⟨Keeps.setPending_of_ne p false hne, fun h => absurd h hne⟩
  rw [killpgDeliver]
  split
  · rename_i hstop
    refine hclear _ (fun h => ?_) (wakeup_signals _)
    rw [hstop] at hk
    cases hk h
  split
  · rename_i hcont
    refine hclear _ (fun h => ?_) (wakeup_signals _)
    rw [hcont, beq_self_eq_true] at hk
    cases hk (hcont ▸ h)
  split
  · exact .of_eq rfl
  split
  all_goals exact .of_eq (wakeup_signals _)

theorem Sends.tty (p : Proc) (sig : Nat) : Sends k sig p.signals (ttyDeliver p sig).signals := by
  rw [ttyDeliver]
  split <;> exact .of_eq (wakeup_signals _)

/-! ## Calls -/

/-- `signal` and `sigaction` accept the signal. -/
def settable (sig : Nat) : Bool := !(!signalIsValid sig || sig == sigkill || sig == sigstop)

theorem Keeps.sysSignal {handler : BitVec 64} (hk : (sig != k || !settable sig) = true) :
    Keeps k a (sysSignal a sig handler) := by
  rw [Signal.sysSignal]
  split
  · exact ⟨rfl, id⟩
  · rename_i hguard
    rw [settable, Bool.eq_false_of_not_eq_true hguard, Bool.not_false, Bool.not_true,
      Bool.or_false, bne_iff_ne] at hk
    have hne := Ne.symm hk
    exact ⟨update_of_ne hne .., (update_of_ne hne ..).trans⟩

theorem Keeps.sysSigaction {act : UserArg SigAction}
    (hk : act = .fault ∨ (sig != k || !settable sig || !oldOk) = true) :
    Keeps k a (sysSigaction a sig oldOk act) := by
  unfold Signal.sysSigaction
  split
  · exact ⟨rfl, id⟩
  split
  · exact ⟨rfl, id⟩
  rename_i hguard hold
  rw [settable, Bool.eq_false_of_not_eq_true hguard, Bool.eq_false_of_not_eq_true hold,
    Bool.not_false, Bool.not_true, Bool.or_false, Bool.or_false, bne_iff_ne] at hk
  have hne : act ≠ .fault → k ≠ sig := fun hact => Ne.symm (hk.resolve_left hact)
  cases act with
  | fault => exact ⟨rfl, id⟩
  | null => exact ⟨rfl, (update_of_ne (hne nofun) ..).trans⟩
  | value act => exact ⟨update_of_ne (hne nofun) .., (update_of_ne (hne nofun) ..).trans⟩

theorem Keeps.sysSigprocmask {how : How} {set : UserArg (BitVec 32)} :
    Keeps k a (sysSigprocmask a how oldOk set) := by
  unfold Signal.sysSigprocmask
  split
  · exact ⟨rfl, id⟩
  cases set with
  | null => exact ⟨rfl, id⟩
  | fault => exact ⟨rfl, id⟩
  | value mask => cases how <;> exact ⟨rfl, id⟩

theorem Keeps.sysSigaltstack {ss : UserArg StackT} : Keeps k a (sysSigaltstack a oldOk ss) := by
  unfold Signal.sysSigaltstack
  split
  · exact ⟨rfl, id⟩
  cases ss with
  | null => exact ⟨rfl, id⟩
  | fault => exact ⟨rfl, id⟩
  | value ss =>
    dsimp only
    split
    · exact ⟨rfl, id⟩
    split
    · exact ⟨rfl, id⟩
    split
    · exact ⟨rfl, id⟩
    split <;> exact ⟨rfl, id⟩

theorem Keeps.sysSigreturn {ret : BitVec 64} (h : sysSigreturn a r mem = some (b, r', ret)) :
    Keeps k a b := by
  rw [Signal.sysSigreturn] at h
  split at h
  · have hresume := Option.some.inj h
    rw [resume] at hresume
    split at hresume
    all_goals
      cases hresume
      exact ⟨rfl, id⟩
  · cases h

/-! ## Steps -/

/-- The signal a step sends to the process. -/
def Step.sent : Step → Option Nat
  | .kill sig => some sig
  | .killpg sig => some sig
  | .tty sig => some sig
  | .call (.killSelf sig) => some sig
  | _ => none

/-- The signal a step acts on: the one a check finds, or a fault's own. -/
def acts (s : SigSys) : Step → Option Nat
  | .enter sysno .. =>
      if sysno < 0 ∨ sysMax ≤ sysno ∨ s.p.signals.inSignal then none
      else signalNumbers.find? s.p.signals.deliverable
  | .leave .. =>
      if s.p.signals.restartFrame ∨ s.p.signals.inSignal then none
      else signalNumbers.find? s.p.signals.deliverable
  | .fault .. => if s.p.signals.blocked sigsegv then none else some sigsegv
  | _ => none

/-- The image is replaced, or the run goes on with a new process. -/
def Step.replaces : Step → Bool
  | .call .exec => true
  | .fork => true
  | .clone _ => true
  | _ => false

/-- No `signal` or `sigaction` for the signal gets as far as clearing its flag, a query of the
action included, and it is not a stop or continue from `killpg`. -/
def spares (k : Nat) : Step → Bool
  | .call (.signal sig _) => sig != k || !settable sig
  | .call (.sigaction _ _ .fault) => true
  | .call (.sigaction sig oldOk _) => sig != k || !settable sig || !oldOk
  | .killpg sig => sig != k || !(isStopSignal sig || sig == sigcont)
  | _ => true

/-- What a step does to one signal of a process that lives. -/
structure Carries (k : Nat) (s : SigSys) (l : Step) (t : SigSys) : Prop where
  alive : s.mode.alive = true
  keeps : Keeps k s.p.signals t.p.signals
  sent : l.sent = some k → t.p.signals.pending k = true
  kill : t.kill = (l.sent.elim s.kill s.kill.note)

theorem Carries.of_keeps (hsent : l.sent = none) (halive : s.mode.alive = true)
    (hkeeps : Keeps k s.p.signals t.p.signals) (hkill : t.kill = s.kill) : Carries k s l t :=
  ⟨halive, hkeeps, fun h => (nomatch hsent.symm.trans h), by rw [hsent]; exact hkill⟩

theorem Carries.of_sends (hsent : l.sent = some sig) (halive : s.mode.alive = true)
    (h : Sends k sig s.p.signals t.p.signals) (hkill : t.kill = s.kill.note sig) :
    Carries k s l t :=
  ⟨halive, h.1, fun hk => h.2 (Option.some.inj (hsent.symm.trans hk)), by rw [hsent]; exact hkill⟩

theorem carries_runCall (hmode : s.mode = .called sysno) (c : Call)
    (halive : (runCall s sysno c).mode.alive = true) (hnew : (Step.call c).replaces = false)
    (hspares : spares k (.call c) = true) : Carries k s (.call c) (runCall s sysno c) := by
  have hs : s.mode.alive = true := by rw [hmode]; rfl
  cases c with
  | signal sig handler => exact .of_keeps rfl hs (.sysSignal hspares) rfl
  | sigaction sig oldOk act =>
    refine .of_keeps rfl hs (.sysSigaction ?_) rfl
    cases act with
    | fault => exact .inl rfl
    | null => exact .inr hspares
    | value act => exact .inr hspares
  | sigprocmask how oldOk set => exact .of_keeps rfl hs .sysSigprocmask rfl
  | sigaltstack oldOk ss => exact .of_keeps rfl hs .sysSigaltstack rfl
  | sigreturn r mem =>
    rw [runCall]
    split
    · rename_i signals regs ret hret
      exact .of_keeps rfl hs (.sysSigreturn hret) rfl
    · exact .of_keeps rfl hs ⟨rfl, id⟩ rfl
  | killSelf sig =>
    have hsends : Sends k sig s.p.signals (killDeliver s.p sig).signals :=
      .of_eq (killDeliver_signals s.p sig)
    rw [runCall]
    dsimp only
    split <;> exact .of_sends rfl hs hsends rfl
  | brokenPipe =>
    refine .of_keeps rfl hs ?_ rfl
    show Keeps k s.p.signals (if s.p.signals.handler sigpipe = sigDfl
      then s.p.setPending sigpipe true else s.p).signals
    split
    · exact Keeps.setPending_true _
    · exact ⟨rfl, id⟩
  | exec => cases hnew
  | exit code =>
    rw [runCall] at halive
    split at halive <;> cases halive
  | other => exact .of_keeps rfl hs ⟨rfl, id⟩ rfl

/-- One step. -/
theorem carries_step (l : Step) (hstep : sigStep s l = some t) (halive : t.mode.alive = true)
    (hnew : l.replaces = false) (hspares : spares k l = true)
    (hacts : s.mode.alive = true → acts s l = some k → Fatal s.p.signals k) :
    Carries k s l t := by
  cases l with
  | enter sysno r mem stale =>
    obtain ⟨hmode, rfl⟩ := of_user hstep
    have hs : s.mode.alive = true := by rw [hmode]; rfl
    rw [dispatchEnter] at halive ⊢
    split
    · exact .of_keeps rfl hs ⟨rfl, id⟩ rfl
    rename_i hvalid
    rw [if_neg hvalid] at halive
    split
    · exact .of_keeps rfl hs ⟨rfl, id⟩ rfl
    · rename_i q r' mem' hcheck
      have hkeeps : Keeps k (s.p.armRestart sysno).signals q.signals :=
        Keeps.check hcheck fun hin hfind => hacts hs <| by
          rw [acts, if_neg (by rw [← or_assoc]; exact not_or.mpr ⟨hvalid, ne_true_of_eq_false hin⟩)]
          exact hfind
      exact .of_keeps rfl hs hkeeps rfl
    · rename_i q cause hcheck
      rw [hcheck] at halive
      cases halive
  | call c =>
    obtain ⟨sysno, hmode, rfl⟩ := of_called hstep
    exact carries_runCall hmode c halive hnew hspares
  | suspend mask =>
    obtain ⟨sysno, hmode, rfl⟩ := of_called hstep
    exact .of_keeps rfl (by rw [hmode]; rfl) ⟨rfl, id⟩ rfl
  | unsuspend =>
    rw [sigStep] at hstep
    split at hstep
    · rename_i sysno old hmode
      cases hstep
      exact .of_keeps rfl (by rw [hmode]; rfl) ⟨rfl, id⟩ rfl
    · cases hstep
  | sleep | awake =>
    obtain ⟨-, rfl⟩ := of_guard hstep
    exact .of_keeps rfl halive ⟨rfl, id⟩ rfl
  | leave again r mem stale =>
    rw [sigStep] at hstep
    split at hstep
    · rename_i sysno hmode
      have hs : s.mode.alive = true := by rw [hmode]; rfl
      cases hstep
      rw [dispatchLeave] at halive ⊢
      obtain ⟨q, hq⟩ : ∃ q, (if again = true then s.p.armRestart sysno else s.p) = q := ⟨_, rfl⟩
      have harm : q.signals.handler = s.p.signals.handler ∧
          q.signals.pending = s.p.signals.pending ∧ q.signals.inSignal = s.p.signals.inSignal ∧
          q.signals.deliverable = s.p.signals.deliverable ∧
          q.signals.restartFrame = s.p.signals.restartFrame := by
        rw [← hq]
        split <;> exact ⟨rfl, rfl, rfl, rfl, rfl⟩
      obtain ⟨hhandler, hpending, hin, hdel, hre⟩ := harm
      have hkept : Keeps k s.p.signals q.signals := .of_eq hhandler hpending
      rw [hq] at halive ⊢
      split
      · exact .of_keeps rfl hs hkept rfl
      rename_i hframe
      rw [if_neg hframe] at halive
      split
      · exact .of_keeps rfl hs hkept rfl
      · rename_i q' r' mem' hcheck
        have hkeeps : Keeps k q.signals q'.signals := Keeps.check hcheck fun hin' hfind => by
          rw [hre] at hframe
          rw [hin] at hin'
          rw [hdel] at hfind
          rw [Fatal, hhandler]
          refine hacts hs ?_
          rw [acts, if_neg (not_or.mpr ⟨hframe, ne_true_of_eq_false hin'⟩), hfind]
        exact .of_keeps rfl hs (hkept.trans hkeeps) rfl
      · rename_i q' cause hcheck
        rw [hcheck] at halive
        cases halive
    · cases hstep
  | fault r mem stale =>
    obtain ⟨hmode, rfl⟩ := of_user hstep
    have hs : s.mode.alive = true := by rw [hmode]; rfl
    have hkeeps : Keeps k s.p.signals
        (signalDeliver (s.p.setRestartable false) sigsegv r mem stale).proc.signals :=
      Keeps.signalDeliver (p := s.p.setRestartable false) fun hopen hsig => hacts hs <| by
        replace hopen : (s.p.signals.blocked sigsegv && true) = false := hopen
        rw [Bool.and_true] at hopen
        rw [acts, hopen, if_neg Bool.false_ne_true, hsig]
    rw [userFault] at halive ⊢
    split
    · rename_i q r' mem' hdel
      rw [hdel] at hkeeps
      exact .of_keeps rfl hs hkeeps rfl
    · rename_i q cause hdel
      rw [hdel] at halive
      cases halive
    · rename_i e q mem' hdel
      rw [hdel] at halive
      cases halive
  | crash code =>
    obtain ⟨-, rfl⟩ := of_guard hstep
    cases halive
  | fork => cases hnew
  | clone thread => cases hnew
  | kill sig =>
    obtain ⟨-, rfl⟩ := of_guard hstep
    exact .of_sends rfl halive (.of_eq ((wakeup_signals _).trans (killDeliver_signals s.p sig))) rfl
  | killpg sig =>
    obtain ⟨-, rfl⟩ := of_guard hstep
    refine .of_sends rfl halive (.killpg s.p fun hsig => ?_) rfl
    simpa [spares, hsig] using hspares
  | tty sig =>
    obtain ⟨-, rfl⟩ := of_guard hstep
    exact .of_sends rfl halive (.tty s.p sig) rfl
  | wait =>
    rw [sigStep] at hstep
    split at hstep
    · obtain ⟨-, rfl⟩ := of_guard hstep
      cases halive
    · cases hstep

/-! ## Runs -/

/-- The action of the signal is to be ignored. -/
def ignored (s : SigState) (sig : Nat) : Bool :=
  s.handler sig == sigIgn || (s.handler sig == sigDfl && signalDefaultAction sig == .ign)

/-- The step acts on the signal, makes it ignored, replaces the image or ends the process. -/
def settles (k : Nat) (s : SigSys) (l : Step) : Bool :=
  match sigStep s l with
  | none => false
  | some t => acts s l == some k || ignored t.p.signals k || l.replaces || !t.mode.alive

theorem acts_of_sent (h : l.sent = some k) : l.replaces = false ∧ acts s l = none := by
  match l, h with
  | .kill _, _ | .killpg _, _ | .tty _, _ | .call (.killSelf _), _ => exact ⟨rfl, rfl⟩

/-- **A signal that was sent stays pending.**  From any state: while the process lives and no
step acts on the signal, makes it ignored or replaces the image, the flag is set, when neither
the send nor a later step is one of those that clear it without acting on it. -/
theorem sent_signal_stays_pending (k : Nat) (s t u : SigSys) (send : Step) (after : List Step)
    (hsent : send.sent = some k) (hstep : sigStep s send = some t)
    (lives : t.mode.alive = true) (hrun : exec sigStep t after = some u)
    (waits : AllSteps sigStep (fun s l => settles k s l = false) t after)
    (spared : ∀ l ∈ send :: after, spares k l = true) : u.p.signals.pending k = true := by
  obtain ⟨hspares, hspared⟩ := List.forall_mem_cons.mp spared
  have hmeets := waits.and (.of_forall fun l hl _ => hspared l hl)
  obtain ⟨hnew, hquiet⟩ := acts_of_sent (s := s) hsent
  have hset := (carries_step send hstep lives hnew hspares fun _ h =>
    nomatch hquiet.symm.trans h).sent hsent
  refine exec_invariant (I := fun s => s.p.signals.pending k = true)
    (fun s l t hp hok hstep => ?_) hset hmeets hrun
  obtain ⟨hsettles, hspares⟩ := hok
  rw [settles, hstep] at hsettles
  simp only [Bool.or_eq_false_iff, beq_eq_false_iff_ne, Bool.not_eq_false'] at hsettles
  obtain ⟨⟨⟨hacts, -⟩, hnew⟩, halive⟩ := hsettles
  exact (carries_step l hstep halive hnew hspares fun _ h => absurd h hacts).keeps.2 hp

def leaveKernel : Step := .leave false exampleUser.1 exampleUser.2 ⟨0, 0, 0, 0, 0, 0⟩

/-- The process blocks `SIGUSR1`. -/
def blockUsr1 : List Step :=
  [enterKernel, .call (.sigprocmask .block true (.value (1#32 <<< 10))), leaveKernel]

/-- The blocked signal waits while the process calls the kernel. -/
theorem sent_signal_stays_pending_blocked :
    ∃ s t u, exec sigStep SigSys.start blockUsr1 = some s ∧ sigStep s (.kill 10) = some t ∧
      exec sigStep t [enterKernel, .call .other, leaveKernel] = some u ∧
      u.p.signals.pending 10 = true := by
  have hwaits : ∀ t ∈ exec sigStep SigSys.start (blockUsr1 ++ [.kill 10]),
      t.mode.alive = true ∧ AllSteps sigStep (fun s l => settles 10 s l = false) t
        [enterKernel, .call .other, leaveKernel] := by decide +kernel
  obtain ⟨s, hs⟩ : ∃ s, exec sigStep SigSys.start blockUsr1 = some s := ⟨_, rfl⟩
  obtain ⟨t, ht⟩ : ∃ t, sigStep s (.kill 10) = some t := by cases hs; exact ⟨_, rfl⟩
  obtain ⟨u, hu⟩ : ∃ u, exec sigStep t [enterKernel, .call .other, leaveKernel] = some u := by
    cases hs; cases ht; exact ⟨_, rfl⟩
  obtain ⟨lives, waits⟩ := hwaits t
    (exec_append_eq_some.mpr ⟨s, hs, exec_cons_eq_some.mpr ⟨t, ht, rfl⟩⟩)
  exact ⟨s, t, u, hs, ht, hu,
    sent_signal_stays_pending 10 s t u (.kill 10) _ rfl ht lives hu waits (by decide)⟩

/-- The blocked signal is discarded when its action is only asked for. -/
theorem query_discards_signal :
    (exec sigStep SigSys.start (blockUsr1 ++ [.kill 10, enterKernel])).map
      (fun s => (s.p.signals.pending 10, settles 10 s (.call (.sigaction 10 true .null)))) =
        some (true, false) ∧
    (exec sigStep SigSys.start
        (blockUsr1 ++ [.kill 10, enterKernel, .call (.sigaction 10 true .null)])).map
      (fun s => s.p.signals.pending 10) = some false := by
  decide +kernel

end ArcKernel.Signal
