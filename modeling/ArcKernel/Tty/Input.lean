import ArcKernel.Foundation.Ring
import ArcKernel.Foundation.Run

/-!
# Input of a terminal (`bsd/tty/tty.c`)

`tty_input_char` puts a character into a ring of 256 cells, of which one stays free;
`tty_read` takes characters out, in canonical mode a line at a time.  What is printed by the
echo and whom the special characters signal has no effect on the input.

`typed`, `accepted` and `taken` are read by nothing: the characters that arrived as input,
those that found room, and those a read has returned.
-/

namespace ArcKernel.Terminal

open ArcKernel.Foundation List Function

def newline : UInt8 := 10

/-- The ring has cells. -/
instance ringSize : NeZero 256 := ⟨by decide⟩

/-- `tty_t`; the indices are those of `in_buf`. -/
structure Tty where
  inBuf : Nat → UInt8
  inHead : Fin 256
  inTail : Fin 256
  icanon : Bool
  isig : Bool
  /-- `c_cc[VINTR]`, `c_cc[VQUIT]`, `c_cc[VSUSP]` -/
  special : List UInt8

variable {t : Tty}

def ttyHasInput (t : Tty) : Bool := t.inHead != t.inTail

/-- The scan for a complete line, from a cell on. -/
def scanLine (t : Tty) : Nat → Fin 256 → Bool
  | 0, _ => false
  | steps + 1, i =>
      if i = t.inHead then false
      else if t.inBuf i = newline then true
      else scanLine t steps (i + 1)

/-- `tty_poll` for `POLLIN`. -/
def ttyPollIn (t : Tty) : Bool := if t.icanon then scanLine t 256 t.inTail else ttyHasInput t

/-- `tty_read` goes to sleep. -/
def ttyReadSleeps (t : Tty) : Bool :=
  if !ttyHasInput t then true
  else if t.icanon then !scanLine t 256 t.inTail
  else false

/-- The copy loop of `tty_read`. -/
def ttyDrain : Nat → Tty → List UInt8 × Tty
  | 0, t => ([], t)
  | count + 1, t =>
      if t.inHead = t.inTail then ([], t)
      else
        let c := t.inBuf t.inTail
        let t := { t with inTail := t.inTail + 1 }
        if t.icanon && c == newline then ([c], t)
        else
          let (cs, t) := ttyDrain count t
          (c :: cs, t)

/-- The character generates a signal. -/
def Tty.signals (t : Tty) (c : UInt8) : Bool := t.isig && c != 0 && t.special.contains c

def Tty.full (t : Tty) : Bool := t.inHead + 1 == t.inTail

def ttyInputChar (t : Tty) (c : UInt8) : Tty :=
  if t.signals c then t
  else if t.full then t
  else { t with inBuf := update t.inBuf t.inHead c, inHead := t.inHead + 1 }

structure TtySys where
  tty : Tty
  typed : List UInt8
  accepted : List UInt8
  taken : List UInt8

inductive TtyStep where
  | input (c : UInt8)
  | read (count : Nat)
  /-- `TIOCSETA` -/
  | setMode (icanon isig : Bool) (special : List UInt8)

/-- A read that sleeps is no step; it is tried again when it has been woken. -/
def ttyStep (s : TtySys) : TtyStep → Option TtySys
  | .input c => some { s with
      tty := ttyInputChar s.tty c
      typed := if s.tty.signals c then s.typed else s.typed ++ [c]
      accepted := if s.tty.signals c || s.tty.full then s.accepted else s.accepted ++ [c] }
  | .read count =>
      if ttyReadSleeps s.tty = false then
        some { s with
          tty := (ttyDrain count s.tty).2
          taken := s.taken ++ (ttyDrain count s.tty).1 }
      else none
  | .setMode icanon isig special =>
      some { s with tty := { s.tty with icanon := icanon, isig := isig, special := special } }

/-- A terminal after `tty_init`. -/
def TtySys.start : TtySys := ⟨⟨fun _ => 0, 0, 0, true, true, [0x03, 0x1C, 0x1A]⟩, [], [], []⟩

/-! ## The queue -/

/-- What waits in the buffer, oldest first. -/
def Tty.contents (t : Tty) : List UInt8 :=
  ringView t.inBuf 256 t.inTail ((t.inHead + 256 - t.inTail) % 256)

theorem val_succ (i : Fin 256) : (i + 1).val = (i.val + 1) % 256 := Fin.val_add i 1

theorem contents_eq_nil (h : t.inHead = t.inTail) : t.contents = [] := by
  rw [Tty.contents, h, Nat.add_sub_cancel_left]
  rfl

theorem contents_pop (h : t.inHead ≠ t.inTail) :
    t.contents = t.inBuf t.inTail :: { t with inTail := t.inTail + 1 }.contents := by
  have hne : t.inHead.val ≠ t.inTail.val := fun heq => h (Fin.ext heq)
  have hcount : (t.inHead.val + 256 - t.inTail.val) % 256 =
      (t.inHead.val + 256 - (t.inTail.val + 1) % 256) % 256 + 1 := by omega
  rw [Tty.contents, hcount, ringView_pop, Nat.mod_eq_of_lt t.inTail.isLt, ← val_succ]
  rfl

theorem contents_push {c : UInt8} (h : t.full = false) :
    { t with inBuf := update t.inBuf t.inHead c, inHead := t.inHead + 1 }.contents =
      t.contents ++ [c] := by
  have hne : (t.inHead.val + 1) % 256 ≠ t.inTail.val := by
    rw [← val_succ]
    exact fun heq => beq_eq_false_iff_ne.mp h (Fin.ext heq)
  have hhead : (t.inTail.val + (t.inHead.val + 256 - t.inTail.val) % 256) % 256 = t.inHead.val := by
    omega
  have hcount : ((t.inHead + 1).val + 256 - t.inTail.val) % 256 =
      (t.inHead.val + 256 - t.inTail.val) % 256 + 1 := by
    rw [val_succ]
    omega
  rw [Tty.contents, Tty.contents, hcount]
  refine ringView_push (by omega) ?_ fun i hi => update_of_ne (hhead ▸ hi) ..
  rw [hhead]
  exact update_self ..

/-- The scan finds a newline exactly when one waits. -/
theorem scanLine_eq {n : Nat} (hn : n < 256) {steps : Nat} (hsteps : n ≤ steps) :
    ∀ {i : Fin 256}, (i.val + n) % 256 = t.inHead →
      scanLine t steps i = (ringView t.inBuf 256 i n).contains newline := by
  induction n generalizing steps with
  | zero =>
    intro i hi
    have heq : i = t.inHead := Fin.ext ((Nat.mod_eq_of_lt i.isLt).symm.trans hi)
    cases steps with
    | zero => rfl
    | succ steps => rw [scanLine, if_pos heq]; rfl
  | succ n ih =>
    intro i hi
    obtain ⟨steps, rfl⟩ : ∃ m, steps = m + 1 := ⟨steps - 1, by omega⟩
    have hne : i ≠ t.inHead := by
      rintro rfl
      omega
    have hnext : ((i + 1).val + n) % 256 = t.inHead := by
      rw [val_succ]
      omega
    rw [scanLine, if_neg hne, ringView_pop, Nat.mod_eq_of_lt i.isLt, contains_cons,
      ← val_succ, ← ih (by omega) (Nat.le_of_succ_le_succ hsteps) hnext]
    by_cases hc : t.inBuf i = newline
    · rw [if_pos hc, hc, beq_self_eq_true, Bool.true_or]
    · rw [if_neg hc, beq_eq_false_iff_ne.mpr (Ne.symm hc), Bool.false_or]

theorem scanLine_contents (t : Tty) : scanLine t 256 t.inTail = t.contents.contains newline :=
  scanLine_eq (Nat.mod_lt _ (by decide)) (Nat.le_of_lt (Nat.mod_lt _ (by decide))) (by omega)

/-- A read returns the front of the queue. -/
theorem contents_drain (count : Nat) (t : Tty) :
    t.contents = (ttyDrain count t).1 ++ (ttyDrain count t).2.contents := by
  induction count generalizing t with
  | zero => rfl
  | succ count ih =>
    rw [ttyDrain]
    split
    · rfl
    rename_i hne
    rw [contents_pop hne]
    dsimp only
    split
    · rfl
    · exact congrArg _ (ih _)

/-- A read sleeps exactly when the terminal is not reported readable. -/
theorem ttyReadSleeps_eq (t : Tty) : ttyReadSleeps t = !ttyPollIn t := by
  rw [ttyReadSleeps, ttyPollIn, ttyHasInput]
  by_cases h : t.inHead = t.inTail
  · have hnone : scanLine t 256 t.inTail = false := by
      rw [scanLine_contents, contents_eq_nil h]
      rfl
    rw [h, hnone]
    simp
  · cases t.icanon <;> simp [h]

/-! ## Runs -/

/-- A newline that is typed finds room. -/
def newlineFits (s : TtySys) : TtyStep → Bool
  | .input c => s.tty.signals c || c != newline || !s.tty.full
  | _ => true

/-- The buffer holds what was accepted and not yet read, and every newline typed was accepted. -/
structure TtySys.Inv (s : TtySys) : Prop where
  fifo : s.accepted = s.taken ++ s.tty.contents
  lines : s.typed.count newline = s.accepted.count newline

theorem ttyStep_inv (s : TtySys) (l : TtyStep) (u : TtySys) (h : s.Inv)
    (hfits : newlineFits s l = true) (hstep : ttyStep s l = some u) : u.Inv := by
  cases l with
  | input c =>
    cases hstep
    rw [newlineFits] at hfits
    rw [ttyInputChar]
    cases hsig : s.tty.signals c with
    | true => exact ⟨h.fifo, h.lines⟩
    | false =>
      cases hfull : s.tty.full with
      | true =>
        have hc : c ≠ newline := by simpa [hsig, hfull] using hfits
        refine ⟨h.fifo, ?_⟩
        show count newline (s.typed ++ [c]) = s.accepted.count newline
        rw [count_append, count_singleton, if_neg (by simpa using hc), h.lines]
        rfl
      | false =>
        refine ⟨?_, ?_⟩
        · show s.accepted ++ [c] = s.taken ++ Tty.contents _
          rw [h.fifo, append_assoc, ← contents_push hfull]
          rfl
        · show count newline (s.typed ++ [c]) = count newline (s.accepted ++ [c])
          rw [count_append, count_append, h.lines]
  | read count =>
    obtain ⟨-, rfl⟩ := of_guard hstep
    refine ⟨?_, h.lines⟩
    show s.accepted = s.taken ++ _ ++ _
    rw [h.fifo, contents_drain count s.tty, append_assoc]
  | setMode icanon isig special =>
    cases hstep
    exact ⟨h.fifo, h.lines⟩

/-- **Terminal input.**  After every run in which each newline typed found room: the bytes read
are the first of the accepted ones, in order, a read would sleep exactly when the terminal is
not reported readable, and in canonical mode it would not sleep while a line that was ended by
a newline has not been read. -/
theorem tty_input_read (calls : List TtyStep) (s : TtySys)
    (run : exec ttyStep TtySys.start calls = some s)
    (fits : AllSteps ttyStep (fun s l => newlineFits s l = true) TtySys.start calls) :
    s.accepted = s.taken ++ s.tty.contents ∧ (ttyReadSleeps s.tty = !ttyPollIn s.tty) ∧
      (s.tty.icanon = true → s.taken.count newline < s.typed.count newline →
        ttyReadSleeps s.tty = false) := by
  have h : s.Inv := exec_invariant ttyStep_inv ⟨rfl, rfl⟩ fits run
  refine ⟨h.fifo, ttyReadSleeps_eq _, fun hcanon hmore => ?_⟩
  rw [h.lines, h.fifo, count_append] at hmore
  have hwaits : newline ∈ s.tty.contents := count_pos_iff.mp (by omega)
  rw [ttyReadSleeps_eq, ttyPollIn, if_pos hcanon, scanLine_contents,
    contains_iff_mem.mpr hwaits, Bool.not_true]

/-- Two lines are typed and one is read. -/
theorem tty_input_read_line :
    ∃ s, exec ttyStep TtySys.start [.input 97, .input 10, .input 98, .input 10, .read 80] = some s ∧
      s.taken = [97, 10] ∧ ttyReadSleeps s.tty = false := by
  have hfits : AllSteps ttyStep (fun s l => newlineFits s l = true) TtySys.start
      [.input 97, .input 10, .input 98, .input 10, .read 80] := by decide +kernel
  exact ⟨_, rfl, by decide +kernel,
    (tty_input_read _ _ rfl hfits).2.2 (by decide +kernel) (by decide +kernel)⟩

/-- A newline after 255 characters is dropped, and no read ever returns the line. -/
theorem long_line_unreadable :
    (exec ttyStep TtySys.start (replicate 255 (.input 97) ++ [.input newline])).map
      (fun s => (s.tty.icanon, s.typed.count newline, s.taken, ttyReadSleeps s.tty)) =
        some (true, 1, [], true) := by
  decide +kernel

end ArcKernel.Terminal
