import ArcKernel.Uipc.PipeStream

/-!
# Wake-ups of a pipe

`pipe_read` tests for bytes, `waitq_sleep` links the process and then blocks it, and nothing
holds a lock across the three.  A writer that copies and calls `waitq_wake_all` in between finds
an empty queue, or unlinks a process that is not blocked yet; the reader then sleeps on with
bytes in the pipe.  (`waitq_sleep_timeout_linked` is the variant that looks again before it
blocks.)

`orderly` excludes these two overlaps: a section that makes a queue ready is not entered while a
party is between its test and its block on that queue, and a queue is not woken while a party
is between linking and blocking.
-/

namespace ArcKernel.Uipc

open ArcKernel.Foundation Function List Bool PipePhase PipeSys

variable {e : End} {phase : PipePhase} {after : After} {call : PipeCall} {data : List UInt8}
    {party : Party}

/-- On the way to sleep on the queue: past the test, not blocked yet. -/
def PipePhase.unsettled (e : End) : PipePhase → Bool
  | .sleep op .tested | .sleep op .linking | .sleep op .linked => op.queue == e
  | _ => false

/-- On the queue and not blocked yet. -/
def PipePhase.linkedOn (e : End) : PipePhase → Bool
  | .sleep op .linked => op.queue == e
  | _ => false

/-- Asleep on the queue. -/
def Party.asleepOn (e : End) (party : Party) : Prop :=
  (∃ op, party.phase = .sleep op .asleep ∧ op.queue = e) ∧ party.blocked = true

/-- About to wake the queue. -/
def PipePhase.waking (e : End) (phase : PipePhase) : Prop := ∃ after, phase = .wakeAll e after

/-- Who is on the way to sleep finds nothing to do, who is linked or asleep is on the queue, and
for a sleeper with something to do a wake-up is under way. -/
structure Wakeups (parties : Nat → Party) (queue : End → List Nat) (ready : End → Prop) : Prop where
  unsettled : ∀ p e, (parties p).phase.unsettled e = true → ¬ ready e
  linked : ∀ p e, (parties p).phase.linkedOn e = true → p ∈ queue e
  asleep : ∀ p e, (parties p).asleepOn e → p ∈ queue e ∧ (ready e → ∃ q, (parties q).phase.waking e)

theorem PipePhase.unsettled_of_linkedOn
    (h : phase.linkedOn e = true) : phase.unsettled e = true := by
  unfold linkedOn at h
  split at h
  · exact h
  · cases h

namespace Wakeups

variable {parties : Nat → Party} {queue queue' : End → List Nat} {ready ready' : End → Prop}
    {p : Nat}

section

variable (h : Wakeups parties queue ready)
include h

/-- A party goes on: it does not leave a wake-up undone, and a queue becomes ready only where
nobody is on the way to sleep and the sleepers will be, or have been, woken.  It falls asleep
only on the queue, with nothing to do. -/
theorem set (hunsettled : ∀ e, party.phase.unsettled e = true → ¬ ready' e)
    (hlinked : ∀ e, party.phase.linkedOn e = true → p ∈ queue e)
    (hasleep : ∀ e, party.asleepOn e → p ∈ queue e ∧ ¬ ready' e)
    (hwake : ∀ e, (parties p).phase.waking e → party.phase.waking e ∨ ∀ q, ¬ (parties q).asleepOn e)
    (hready : ∀ e, ready' e → ready e ∨ (∀ q, (parties q).phase.unsettled e = false) ∧
      party.phase.waking e) : Wakeups (update parties p party) queue ready' := by
  refine ⟨(forall_update_iff parties fun _ x => ∀ e, x.phase.unsettled e = true → ¬ ready' e).mpr
      ⟨hunsettled, fun q _ e hq hr => ?_⟩,
    (forall_update_iff parties fun q x => ∀ e, x.phase.linkedOn e = true → q ∈ queue e).mpr
      ⟨hlinked, fun q _ => h.linked q⟩,
    (forall_update_iff parties fun q x => ∀ e, x.asleepOn e → q ∈ queue e ∧ (ready' e →
      ∃ r, (update parties p party r).phase.waking e)).mpr ⟨fun e he => ?_, fun q _ e hq => ?_⟩⟩
  · rcases hready e hr with hold | ⟨hnone, -⟩
    · exact h.unsettled q e hq hold
    · exact absurd hq (eq_false_iff.mp (hnone q))
  · exact (hasleep e he).imp_right fun hnot hr => absurd hr hnot
  obtain ⟨hmem, hwaker⟩ := h.asleep q e hq
  refine ⟨hmem, fun hr => ?_⟩
  rcases hready e hr with hold | ⟨-, hwaking⟩
  · obtain ⟨r, hr⟩ := hwaker hold
    by_cases hrp : r = p
    · rcases hwake e (hrp ▸ hr) with hstill | hnone
      · exact ⟨p, by rwa [update_self]⟩
      · exact absurd hq (hnone q)
    · exact ⟨r, by rwa [update_of_ne hrp]⟩
  · exact ⟨p, by rwa [update_self]⟩

/-- A change of the queues that leaves the linked and the sleepers where they are. -/
theorem setQueue
    (hkeep : ∀ q e, (parties q).phase.linkedOn e = true ∨ (parties q).asleepOn e → q ∈ queue e →
      q ∈ queue' e) : Wakeups parties queue' ready where
  unsettled := h.unsettled
  linked q e hq := hkeep q e (.inl hq) (h.linked q e hq)
  asleep q e hq := ⟨hkeep q e (.inr hq) (h.asleep q e hq).1, (h.asleep q e hq).2⟩

/-- The linked party blocks. -/
theorem block {op : PipeOp} (hp : (parties p).phase = .sleep op .linked) : Wakeups (update parties p
      { parties p with phase := .sleep op .asleep, blocked := true }) queue ready := by
  have hon : (parties p).phase.linkedOn op.queue = true := by
    rw [hp]
    exact beq_self_eq_true _
  refine h.set nofun nofun (fun e he => ?_) (fun e he => ?_) fun _ hr => .inl hr
  · obtain ⟨⟨op', hop, rfl⟩, -⟩ := he
    cases hop
    exact ⟨h.linked p _ hon, h.unsettled p _ (unsettled_of_linkedOn hon)⟩
  · obtain ⟨after, hafter⟩ := he
    cases hp.symm.trans hafter

end

/-- The processes on a queue unblocked. -/
def unblock (parties : Nat → Party) (l : List Nat) (q : Nat) : Party :=
  if q ∈ l then { parties q with blocked := false } else parties q

theorem phase_unblock (parties : Nat → Party) (l : List Nat) (q : Nat) :
    (unblock parties l q).phase = (parties q).phase := by
  unfold unblock
  split <;> rfl

theorem asleepOn_unblock {l : List Nat} {q : Nat} (h : (unblock parties l q).asleepOn e) :
    (parties q).asleepOn e ∧ q ∉ l := by
  unfold unblock at h
  split at h
  · cases h.2
  · rename_i hq
    exact ⟨h, hq⟩

/-- Waking a queue nobody is about to block on leaves nobody asleep there. -/
theorem wake (h : Wakeups parties queue ready)
    (hquiet : ∀ q, (parties q).phase.linkedOn e = false) :
    Wakeups (unblock parties (queue e)) (update queue e []) ready ∧
      ∀ q, ¬ (unblock parties (queue e) q).asleepOn e := by
  have hnone : ∀ q, ¬ (unblock parties (queue e) q).asleepOn e := by
    intro q hq
    obtain ⟨hq, hmem⟩ := asleepOn_unblock hq
    exact hmem (h.asleep q e hq).1
  refine ⟨⟨fun q d hq => ?_, fun q d hq => ?_, fun q d hq => ?_⟩, hnone⟩
  · rw [phase_unblock] at hq
    exact h.unsettled q d hq
  · rw [phase_unblock] at hq
    have hd : d ≠ e := by
      rintro rfl
      exact absurd hq (eq_false_iff.mp (hquiet q))
    rw [update_of_ne hd]
    exact h.linked q d hq
  have hd : d ≠ e := by
    rintro rfl
    exact hnone q hq
  obtain ⟨hmem, hwaker⟩ := h.asleep q d (asleepOn_unblock hq).1
  rw [update_of_ne hd]
  refine ⟨hmem, fun hr => ?_⟩
  obtain ⟨r, after, hr⟩ := hwaker hr
  exact ⟨r, after, by rw [phase_unblock, hr]⟩

/-- A queue becomes ready with nobody asleep on it or on the way there. -/
theorem reready (h : Wakeups parties queue ready)
    (hready : ∀ e, ready' e → ready e ∨ (∀ q, (parties q).phase.unsettled e = false) ∧
      ∀ q, ¬ (parties q).asleepOn e) : Wakeups parties queue ready' := by
  refine ⟨fun q e hq hr => ?_, h.linked, fun q e hq => ⟨(h.asleep q e hq).1, fun hr => ?_⟩⟩
  · rcases hready e hr with hold | ⟨hnone, -⟩
    · exact h.unsettled q e hq hold
    · exact absurd hq (eq_false_iff.mp (hnone q))
  · rcases hready e hr with hold | ⟨-, hnone⟩
    · exact (h.asleep q e hq).2 hold
    · exact absurd hq (hnone q)

end Wakeups

/-- The queue that is woken when the last descriptor on an end is closed. -/
def End.other : End → End
  | .read => .write
  | .write => .read

/-- Neither asleep nor on the way there. -/
def PipePhase.plain : PipePhase → Bool
  | .sleep _ .woken | .sleep _ .unlinked | .out | .test _ | .copy .. | .wakeAll .. => true
  | .sleep _ .tested | .sleep _ .linking | .sleep _ .linked | .sleep _ .asleep => false

theorem PipePhase.unsettled_of_plain (h : phase.plain = true) (e : End) :
    phase.unsettled e = false := by
  unfold plain at h
  split at h
  all_goals first | rfl | cases h

theorem PipePhase.linkedOn_of_plain (h : phase.plain = true) (e : End) : phase.linkedOn e = false :=
  eq_false_iff.mpr fun hlinked =>
    absurd (unsettled_of_linkedOn hlinked) (eq_false_iff.mp (unsettled_of_plain h e))

theorem Party.not_asleepOn_of_plain (h : party.phase.plain = true) (e : End) :
    ¬ party.asleepOn e := by
  rintro ⟨⟨op, hop, -⟩, -⟩
  rw [hop] at h
  cases h

namespace PipeSys

variable {w : Nat} {s t : PipeSys w} {p : Nat}

/-- Who sleeps on the queue would find something to do. -/
def ready (s : PipeSys w) : End → Prop
  | .read => 0 < s.pipe.used ∨ s.pipe.ends .write ≤ 0
  | .write => 0 < s.pipe.space ∨ s.pipe.ends .read ≤ 0

def NoLoss (s : PipeSys w) : Prop := Wakeups s.parties s.pipe.queue s.ready

/-- Only a party that holds a descriptor is inside a call. -/
def Holding (s : PipeSys w) : Prop := ∀ p, (s.parties p).phase ≠ .out → ∃ e, p ∈ s.holders e

/-- Nobody is between the test and the block on the queue. -/
def quiet (s : PipeSys w) (e : End) : Bool :=
  (s.holders .read ++ s.holders .write).all fun p => !(s.parties p).phase.unsettled e

/-- Nobody is between linking and blocking on the queue. -/
def unlinked (s : PipeSys w) (e : End) : Bool :=
  (s.holders .read ++ s.holders .write).all fun p => !(s.parties p).phase.linkedOn e

theorem Holding.all (h : s.Holding) {f : PipePhase → Bool} (hout : f .out = false)
    (hall : (s.holders .read ++ s.holders .write).all (fun p => !f (s.parties p).phase) = true)
    (p : Nat) : f (s.parties p).phase = false := by
  by_cases hp : (s.parties p).phase = .out
  · rw [hp]
    exact hout
  obtain ⟨e, he⟩ := h p hp
  have hmem : p ∈ s.holders .read ++ s.holders .write := by
    rw [mem_append]
    cases e with
    | read => exact .inl he
    | write => exact .inr he
  have hnot := all_eq_true.mp hall p hmem
  rwa [not_eq_true'] at hnot

theorem Holding.quiet (h : s.Holding) (hquiet : s.quiet e = true) (p : Nat) :
    (s.parties p).phase.unsettled e = false :=
  h.all (f := unsettled e) rfl hquiet p

theorem Holding.unlinked (h : s.Holding) (hquiet : s.unlinked e = true) (p : Nat) :
    (s.parties p).phase.linkedOn e = false :=
  h.all (f := linkedOn e) rfl hquiet p

/-! ## Who is inside a call -/

theorem Holding.setParty (h : s.Holding)
    (hp : party.phase = .out ∨ ∃ e, p ∈ s.holders e) : (s.setParty p party).Holding := by
  intro q hq
  by_cases hqp : q = p
  · rw [hqp, parties_setParty_self] at hq
    exact hqp ▸ hp.resolve_left hq
  · rw [parties_setParty_of_ne s party hqp] at hq
    exact h q hq

theorem Holding.congr (h : s.Holding) (hphase : ∀ q, (t.parties q).phase = (s.parties q).phase)
    (hholders : t.holders = s.holders) : t.Holding := by
  intro q hq
  rw [hphase] at hq
  rw [hholders]
  exact h q hq

theorem phase_pipeClose (s : PipeSys w) (e : End) (q : Nat) :
    ((s.pipeClose e).parties q).phase = (s.parties q).phase := by
  unfold pipeClose
  dsimp only
  repeat' split
  all_goals first
    | rfl
    | exact phase_waitqWakeAll _ _ q
    | exact (phase_waitqWakeAll _ _ q).trans (phase_waitqWakeAll _ _ q)

theorem phase_close (s : PipeSys w) (p : Nat) (e : End) (q : Nat) :
    ((s.close p e).parties q).phase = (s.parties q).phase := by
  unfold close
  dsimp only
  split
  · exact phase_pipeClose _ e q
  · rfl

theorem holders_close (s : PipeSys w) (p : Nat) (e : End) :
    (s.close p e).holders = update s.holders e ((s.holders e).erase p) := by
  unfold close
  dsimp only
  split
  · exact pipeClose_holders _ e
  · rfl

theorem Holding.close (h : s.Holding) (hp : (s.parties p).phase = .out) :
    (s.close p e).Holding := by
  intro q hq
  rw [phase_close] at hq
  obtain ⟨d, hd⟩ := h q hq
  have hqp : q ≠ p := by
    rintro rfl
    exact hq hp
  refine ⟨d, ?_⟩
  rw [holders_close]
  by_cases hde : d = e
  · subst hde
    rw [update_self]
    exact (mem_erase_of_ne hqp).mpr hd
  · rwa [update_of_ne hde]

theorem Holding.writeLoop (h : s.Holding) (hp : ∃ e, p ∈ s.holders e) (id : Nat)
    (data : List UInt8) (written : Nat) : (s.writeLoop p id data written).Holding := by
  unfold PipeSys.writeLoop
  split
  · exact h.setParty (.inr hp)
  · exact h.setParty (.inl rfl)

theorem Holding.step (h : s.Holding) (hstep : pipeStep s call = some t) : t.Holding := by
  have hin : ∀ {p phase}, (s.parties p).phase = phase → phase ≠ .out → ∃ e, p ∈ s.holders e :=
    fun hp hout => h _ (hp ▸ hout)
  apply pipeStep_cases hstep <;> intros
  case read e _ hp _ => exact h.setParty (.inr ⟨e, hp⟩)
  case write e data hp _ =>
    refine Holding.writeLoop (s := { s with calls := s.calls + 1 }) ?_ ⟨e, hp⟩ _ data 0
    exact h
  case dup e _ _ =>
    intro r hr
    obtain ⟨d, hd⟩ := h r hr
    refine ⟨d, ?_⟩
    by_cases hde : d = e
    · subst hde
      dsimp only
      rw [update_self]
      exact mem_cons_of_mem _ hd
    · dsimp only
      rwa [update_of_ne hde]
  case close hp => exact h.close hp
  case signal p _ =>
    by_cases hp : (s.parties p).phase = .out
    · exact h.setParty (.inl hp)
    · exact h.setParty (.inr (h p hp))
  case handle hp => exact h.setParty (.inl hp)
  case readTest hp =>
    have hmem := hin hp nofun
    unfold readTest
    split
    · exact Holding.setParty h (.inr hmem)
    · split
      · exact h.setParty (.inl rfl)
      · exact h.setParty (.inr hmem)
  case writeTest hp =>
    have hmem := hin hp nofun
    unfold writeTest
    split
    · exact Holding.setParty (h.setParty (.inr hmem)) (.inl rfl)
    · split
      all_goals exact h.setParty (.inr hmem)
  case wake e after _ hp =>
    have hmem := hin hp nofun
    have hwoken : (s.waitqWakeAll e).Holding := h.congr (phase_waitqWakeAll s e) rfl
    cases after with
    | ret count n bytes => exact hwoken.setParty (.inl rfl)
    | again id data written => exact hwoken.writeLoop hmem id data written
  case interrupted op _ _ _ =>
    cases op with
    | read count | write id data written => exact h.setParty (.inl rfl)
  case writeCopy hp | linking hp | link hp | block hp | resume hp _ | unlink hp | again hp =>
    exact Holding.setParty h (.inr (hin hp nofun))

/-! ## The steps -/

/-- What a step must find for no wake-up to be lost. -/
def orderly (s : PipeSys w) : PipeCall → Bool
  | .step p =>
      match (s.parties p).phase with
      | .test (.read count) => count == 0 || s.pipe.used == 0 || s.quiet .write
      | .copy .. => s.pipe.space == 0 || s.quiet .read
      | .wakeAll e _ => s.unlinked e
      | _ => true
  | .close _ e => s.refs e != 1 || s.quiet e.other
  | _ => true

/-- A party goes on to a phase with no part in sleeping, and nothing becomes ready. -/
theorem NoLoss.setParty (h : s.NoLoss) (hplain : party.phase.plain = true)
    (hwake : ∀ e, (s.parties p).phase.waking e → ∀ q, ¬ (s.parties q).asleepOn e) :
    (s.setParty p party).NoLoss := by
  refine Wakeups.set h (fun e he => ?_) (fun e he => ?_)
    (fun e he => absurd he (Party.not_asleepOn_of_plain hplain e))
    (fun e he => .inr (hwake e he)) (fun _ hr => .inl hr)
  · exact absurd he (eq_false_iff.mp (unsettled_of_plain hplain e))
  · exact absurd he (eq_false_iff.mp (linkedOn_of_plain hplain e))

/-- The party was not about to wake anybody. -/
theorem not_waking {f : PipePhase} (hp : (s.parties p).phase = f)
    (hphase : ∀ e after, f ≠ .wakeAll e after) (e : End)
    (hw : (s.parties p).phase.waking e) : ∀ q, ¬ (s.parties q).asleepOn e := by
  obtain ⟨after, hafter⟩ := hw
  exact absurd (hp.symm.trans hafter) (hphase e after)

section

variable (h : s.NoLoss)
include h

/-- A party that copies: the opposite queue may become ready, and the party will wake it. -/
theorem NoLoss.copies (hp : (s.parties p).phase = phase)
    (hphase : ∀ e after, phase ≠ .wakeAll e after) {u : PipeSys w}
    (hparties : u.parties = s.parties) (hqueue : u.pipe.queue = s.pipe.queue)
    (hready : ∀ d, u.ready d → s.ready d ∨ (∀ q, (s.parties q).phase.unsettled d = false) ∧ d = e) :
    (u.setPhase p (.wakeAll e after)).NoLoss := by
  have hset : Wakeups (update s.parties p { s.parties p with phase := .wakeAll e after })
      s.pipe.queue u.ready := by
    refine Wakeups.set h nofun nofun
      (fun d hd => absurd hd (Party.not_asleepOn_of_plain (by exact rfl) d))
      (fun d hd => .inr (not_waking hp hphase d hd)) (fun d hd => ?_)
    refine (hready d hd).imp_right fun ⟨hquiet, hde⟩ => ⟨hquiet, after, ?_⟩
    rw [hde]
  rw [← hparties, ← hqueue] at hset
  exact hset

theorem NoLoss.readTest (hhold : s.Holding) {count : Nat}
    (hp : (s.parties p).phase = .test (.read count))
    (hord : (count == 0 || s.pipe.used == 0 || s.quiet .write) = true) :
    (s.readTest p count).NoLoss := by
  have hnot := not_waking hp nofun
  unfold PipeSys.readTest
  split
  · rename_i hpos
    refine h.copies hp nofun rfl rfl fun d hd => ?_
    cases d with
    | read => exact .inl (.inl hpos)
    | write =>
      simp only [or_eq_true, beq_iff_eq] at hord
      rcases hord with (hzero | hempty) | hquiet
      · -- nothing is taken out
        refine .inl ?_
        rw [if_pos (by omega : count < s.pipe.used), hzero, BitVec.add_zero] at hd
        exact hd
      · exact absurd hempty (Nat.ne_of_gt hpos)
      · exact .inr ⟨hhold.quiet hquiet, rfl⟩
  rename_i hempty
  split
  · exact h.setParty rfl hnot
  rename_i hwriters
  refine Wakeups.set h (fun e he hr => ?_) nofun (fun e he => ?_)
    (fun e he => .inr (hnot e he)) (fun _ hr => .inl hr)
  · cases e with
    | read => exact hr.elim hempty hwriters
    | write => cases he
  · obtain ⟨⟨op, hop, -⟩, -⟩ := he
    cases hop

theorem NoLoss.writeTest {id written : Nat}
    (hp : (s.parties p).phase = .test (.write id data written)) :
    (s.writeTest p id data written).NoLoss := by
  have hnot := not_waking hp nofun
  unfold PipeSys.writeTest
  split
  · refine NoLoss.setParty (h.setParty ?_ hnot) rfl ?_
    · rw [hp]
      rfl
    · refine not_waking (f := .test (.write id data written)) ?_ nofun
      rw [parties_setParty_self]
      exact hp
  rename_i hreaders
  split
  · rename_i hfull
    refine Wakeups.set h (fun e he hr => ?_) nofun (fun e he => ?_)
      (fun e he => .inr (hnot e he)) (fun _ hr => .inl hr)
    · cases e with
      | read => cases he
      | write => exact hr.elim (fun hpos => Nat.ne_of_gt hpos hfull) hreaders
    · obtain ⟨⟨op, hop, -⟩, -⟩ := he
      cases hop
  · exact h.setParty rfl hnot

theorem NoLoss.writeCopy (hhold : s.Holding) {id written : Nat}
    (hp : (s.parties p).phase = .copy id data written)
    (hord : (s.pipe.space == 0 || s.quiet .read) = true) :
    (s.writeCopy p id data written).NoLoss := by
  refine h.copies hp nofun rfl rfl fun d hd => ?_
  simp only [or_eq_true, beq_iff_eq] at hord
  by_cases hfull : s.pipe.space = 0
  · -- nothing is put in
    have hn : (if s.pipe.space < data.length - written then s.pipe.space
        else data.length - written) = 0 := by split <;> omega
    refine .inl ?_
    rw [hn] at hd
    cases d with
    | read | write => rwa [BitVec.add_zero] at hd
  · cases d with
    | read => exact .inr ⟨hhold.quiet (hord.resolve_left hfull), rfl⟩
    | write => exact .inl (.inl (Nat.pos_of_ne_zero hfull))

/-- The queue is woken and the party goes on. -/
theorem NoLoss.wake (hhold : s.Holding)
    (hp : (s.parties p).phase = .wakeAll e after) (hord : s.unlinked e = true) :
    ((s.waitqWakeAll e).resume p after).NoLoss := by
  obtain ⟨hwoken, hnone⟩ := Wakeups.wake h (hhold.unlinked hord)
  have hdone : ∀ d, ((s.waitqWakeAll e).parties p).phase.waking d →
      ∀ q, ¬ ((s.waitqWakeAll e).parties q).asleepOn d := by
    rintro d ⟨after', hd⟩
    rw [phase_waitqWakeAll] at hd
    cases hp.symm.trans hd
    exact hnone
  have hloss : (s.waitqWakeAll e).NoLoss := hwoken
  cases after with
  | ret count n bytes => exact hloss.setParty rfl hdone
  | again id data written =>
    unfold resume writeLoop
    dsimp only
    split
    all_goals exact hloss.setParty rfl hdone

end

/-- The last descriptor on an end goes while there are others on the other end. -/
theorem pipeClose_of_open (hends : s.pipe.ends e = 1) (hother : 0 < s.pipe.ends e.other) :
    s.pipeClose e = waitqWakeAll { s with pipe := { s.pipe with
      ends := update s.pipe.ends e (s.pipe.ends e - 1) } } e.other := by
  have hclosed : update s.pipe.ends e (s.pipe.ends e - 1) e ≤ 0 := by
    rw [update_self, hends]
    exact Int.le_refl 0
  have hopen : ¬ s.pipe.ends e.other ≤ 0 := Int.not_le.mpr hother
  unfold pipeClose
  dsimp only
  cases e with
  | write =>
    split
    · split
      · rename_i hread
        exact absurd hread hopen
      · split
        · rename_i hboth
          exact absurd hboth.1 hopen
        · rfl
    · rename_i hwrite
      exact absurd hclosed hwrite
  | read =>
    split
    · rename_i hwrite
      exact absurd hwrite hopen
    · split
      · rename_i hboth
        exact absurd hboth.2 hopen
      · rfl

theorem NoLoss.closeLast (h : s.NoLoss) (hends : s.pipe.ends e = 1)
    (hother : 0 < s.pipe.ends e.other)
    (hsettled : ∀ q, (s.parties q).phase.unsettled e.other = false) : (s.pipeClose e).NoLoss := by
  obtain ⟨hwoken, hnone⟩ := Wakeups.wake h fun q => eq_false_iff.mpr fun hlinked =>
    absurd (unsettled_of_linkedOn hlinked) (eq_false_iff.mp (hsettled q))
  rw [pipeClose_of_open hends hother]
  -- the queue of the other end has become ready, with nobody left on it
  refine hwoken.reready fun d hd => ?_
  by_cases hde : d = e.other
  · subst hde
    exact .inr ⟨fun q => by rw [Wakeups.phase_unblock]; exact hsettled q, hnone⟩
  refine .inl ?_
  cases e with
  | write =>
    cases d with
    | read => exact absurd rfl hde
    | write => exact hd
  | read =>
    cases d with
    | read => exact hd
    | write => exact absurd rfl hde

theorem NoLoss.of_out (h : ∀ q, (s.parties q).phase = .out) : s.NoLoss := by
  refine ⟨fun q e hq => ?_, fun q e hq => ?_, fun q e hq => ?_⟩
  · rw [h q] at hq
    cases hq
  · rw [h q] at hq
    cases hq
  · obtain ⟨⟨op, hop, -⟩, -⟩ := hq
    cases (h q).symm.trans hop

theorem NoLoss.close (h : s.NoLoss) (hhold : s.Holding) (hends : s.Ends)
    (hmem : p ∈ s.holders e) (hp : (s.parties p).phase = .out)
    (hord : (s.refs e != 1 || s.quiet e.other) = true) : (s.close p e).NoLoss := by
  by_cases hlast : s.refs e = 1
  · have hquiet : s.quiet e.other = true := by
      simp only [hlast, bne_self_eq_false, Bool.false_or] at hord
      exact hord
    have hone : s.pipe.ends e = 1 := by rw [(hends e).ends, if_neg (ne_nil_of_mem hmem)]
    have hclosed : s.holders e = [p] := by
      have hlen : (s.holders e).length = 1 := by
        have hrefs := (hends e).refs
        omega
      obtain ⟨x, hx⟩ := length_eq_one_iff.mp hlen
      rw [hx, mem_singleton] at hmem
      rw [hx, hmem]
    by_cases hother : 0 < s.pipe.ends e.other
    · unfold PipeSys.close
      dsimp only
      rw [if_pos]
      · exact NoLoss.closeLast (s := { s with
          refs := update s.refs e (s.refs e - 1)
          holders := update s.holders e ((s.holders e).erase p) }) h hone hother
          (hhold.quiet hquiet)
      · rw [update_self, hlast]
        exact Int.le_refl 0
    -- no descriptor is left, so nobody is inside a call
    have hnone : s.holders e.other = [] := hends.closed (Int.not_lt.mp hother)
    refine NoLoss.of_out fun q => ?_
    rw [phase_close]
    by_contra hq
    obtain ⟨d, hd⟩ := hhold q hq
    have hde : d = e ∨ d = e.other := by cases d <;> cases e <;> simp [End.other]
    rcases hde with rfl | rfl
    · rw [hclosed, mem_singleton] at hd
      exact hq (hd ▸ hp)
    · rw [hnone] at hd
      exact absurd hd not_mem_nil
  · unfold PipeSys.close
    dsimp only
    rw [if_neg]
    · exact h
    · rw [update_self]
      have hrefs := (hends e).refs
      have hpos := length_pos_of_mem hmem
      omega

/-- An orderly step loses no wake-up. -/
theorem NoLoss.step (h : s.NoLoss) (hhold : s.Holding) (hends : s.Ends)
    (hord : s.orderly call = true) (hstep : pipeStep s call = some t) : t.NoLoss := by
  apply pipeStep_cases hstep <;> intros
  case read hp | resume hp _ | again hp => exact h.setParty rfl (not_waking hp nofun)
  case write hp =>
    unfold writeLoop
    have hnot := not_waking hp nofun
    split
    all_goals exact NoLoss.setParty h rfl hnot
  case dup => exact h
  case close hcall hmem hp =>
    subst hcall
    exact h.close hhold hends hmem hp hord
  case signal p _ =>
    refine Wakeups.set h (h.unsettled p) (h.linked p) (fun e he => ?_) (fun e he => .inl he)
      (fun _ hr => .inl hr)
    cases he.2
  case handle p hp =>
    refine h.setParty ?_ (not_waking hp nofun)
    rw [show (({ s.parties p with pending := false } : Party)).phase = .out from hp]
    rfl
  case readTest hcall hp =>
    subst hcall
    rw [orderly, hp] at hord
    exact h.readTest hhold hp hord
  case writeTest hp => exact h.writeTest hp
  case writeCopy hcall hp =>
    subst hcall
    rw [orderly, hp] at hord
    exact h.writeCopy hhold hp hord
  case wake hcall hp =>
    subst hcall
    rw [orderly, hp] at hord
    exact h.wake hhold hp hord
  case interrupted op _ hp _ =>
    have hnot := not_waking hp nofun
    cases op with
    | read count | write id data written => exact NoLoss.setParty h rfl hnot
  case linking p _ hp =>
    refine Wakeups.set h (fun e he => ?_) nofun (fun e he => ?_)
      (fun e he => .inr (not_waking hp nofun e he)) (fun _ hr => .inl hr)
    · refine h.unsettled p e ?_
      rw [hp]
      exact he
    · obtain ⟨⟨op', hop, -⟩, -⟩ := he
      cases hop
  case link p op hp =>
    have hgrown : Wakeups s.parties
        (update s.pipe.queue op.queue (p :: s.pipe.queue op.queue)) s.ready := by
      refine h.setQueue fun q e _ hq => ?_
      by_cases he : e = op.queue
      · subst he
        rw [update_self]
        exact mem_cons_of_mem p hq
      · rwa [update_of_ne he]
    refine hgrown.set (fun e he => ?_) (fun e he => ?_) (fun e he => ?_)
      (fun e he => .inr (not_waking hp nofun e he)) (fun _ hr => .inl hr)
    · refine h.unsettled p e ?_
      rw [hp]
      exact he
    · have hqueue : op.queue = e := beq_iff_eq.mp he
      rw [← hqueue, update_self]
      exact mem_cons_self
    · obtain ⟨⟨op', hop, -⟩, -⟩ := he
      cases hop
  case block hp => exact Wakeups.block h hp
  case unlink p op hp =>
    have hset : (s.setPhase p (.sleep op .unlinked)).NoLoss := h.setParty rfl (not_waking hp nofun)
    refine Wakeups.setQueue hset fun q e hq hmem => ?_
    have hqp : q ≠ p := by
      rintro rfl
      have hphase : ((s.setPhase q (.sleep op .unlinked)).parties q).phase =
          .sleep op .unlinked := congrArg Party.phase (parties_setParty_self ..)
      rcases hq with hlinked | ⟨⟨op', hop, -⟩, -⟩
      · cases (congrArg (linkedOn e) hphase).symm.trans hlinked
      · cases hphase.symm.trans hop
    by_cases he : e = op.queue
    · subst he
      show q ∈ update s.pipe.queue op.queue _ op.queue
      rw [update_self]
      exact (mem_erase_of_ne hqp).mpr hmem
    · show q ∈ update s.pipe.queue op.queue _ e
      rwa [update_of_ne he]

end PipeSys

/-! ## Every run -/

/-- A sleeper with something to do is on the queue, and some party is still to wake the queue. -/
def NoLostWakeup {w : Nat} (s : PipeSys w) : Prop :=
  ∀ p op, (s.parties p).phase = .sleep op .asleep → (s.parties p).blocked = true →
    s.ready op.queue →
      p ∈ s.pipe.queue op.queue ∧ ∃ q after, (s.parties q).phase = .wakeAll op.queue after

/-- In a run of orderly steps no wake-up is lost. -/
theorem no_lost_wakeup {w : Nat} (p : Nat) (sigpipeDefault : Nat → Bool) (calls : List PipeCall)
    (s : PipeSys w)
    (meets : AllSteps pipeStep (fun s call => s.orderly call = true) (.create w p sigpipeDefault)
      calls)
    (run : exec pipeStep (.create w p sigpipeDefault) calls = some s) : NoLostWakeup s := by
  have hinv : s.NoLoss ∧ s.Holding ∧ s.Ends := by
    refine exec_invariant (I := fun s => s.NoLoss ∧ s.Holding ∧ s.Ends)
      (fun _ _ _ ⟨hloss, hhold, hends⟩ hord hstep =>
        ⟨hloss.step hhold hends hord hstep, hhold.step hstep, hends.step hstep⟩) ?_ meets run
    exact ⟨PipeSys.NoLoss.of_out fun _ => rfl, fun _ hq => absurd rfl hq, fun _ => ⟨rfl, rfl⟩⟩
  intro q op hop hblocked hready
  obtain ⟨hmem, hwaker⟩ := hinv.1.asleep q op.queue ⟨⟨op, hop, rfl⟩, hblocked⟩
  exact ⟨hmem, hwaker hready⟩

/-- A reader is asleep when the byte comes; the writer has yet to wake it. -/
theorem no_lost_wakeup_sleeping_reader : (exec pipeStep (.create 32 0 fun _ => true)
      [.dup 0 .read 1, .read 1 .read 5, .step 1, .step 1, .step 1, .step 1,
        .write 0 .write [7], .step 0, .step 0]).map
      (fun s => ((s.parties 1).phase, s.pipe.used, s.pipe.queue .read)) =
      some (.sleep (.read 5) .asleep, 1, [1]) ∧
    ∀ s, exec pipeStep (.create 32 0 fun _ => true)
      [.dup 0 .read 1, .read 1 .read 5, .step 1, .step 1, .step 1, .step 1,
        .write 0 .write [7], .step 0, .step 0] = some s → NoLostWakeup s :=
  ⟨by decide +kernel, fun s run => no_lost_wakeup 0 (fun _ => true) _ s (by decide +kernel) run⟩

/-- The writer copies and wakes between the reader's linking and blocking: the reader sleeps, off
the queue, with a byte in the pipe. -/
theorem reader_sleeps_on : ∃ s, exec pipeStep (.create 32 0 fun _ => true)
      [.dup 0 .read 1, .read 1 .read 5, .step 1, .step 1, .step 1,
        .write 0 .write [7], .step 0, .step 0, .step 0, .step 1] = some s ∧ ¬ NoLostWakeup s := by
  refine exists_run (A := fun s : PipeSys 32 => (s.parties 1).phase = .sleep (.read 5) .asleep ∧
    (s.parties 1).blocked = true ∧ s.pipe.used = 1 ∧ s.pipe.queue .read = [])
    (by decide +kernel) ?_
  rintro s - ⟨hphase, hblocked, hused, hqueue⟩ hnone
  have hmem := (hnone 1 (.read 5) hphase hblocked (.inl (hused ▸ Nat.zero_lt_one))).1
  exact absurd (hqueue ▸ hmem) not_mem_nil

end ArcKernel.Uipc
