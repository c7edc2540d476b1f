import Mathlib.Data.BitVec
import ArcKernel.Uipc.Pipe

/-!
# The bytes of a pipe

`Stream` ties the buffer and its two free-running counters to the record of what went in and
out: the bytes copied in are those handed to readers followed by the ring between the counters.
Only the copying sections touch it.  `Writes` ties each write to its own bytes in the record,
`Ends` the counters of open ends to the descriptors there are, and `Reads` what the reads of a
process returned to the bytes handed to it.
-/

namespace ArcKernel.Uipc

open ArcKernel.Foundation Function List PipeSys

variable {e : End} {data : List UInt8} {id p w written : Nat} {call : PipeCall} {phase : PipePhase}
    {ret : Int}

/-! ## The ring between two counters -/

section

/-- A counter keeps its place in the buffer when it wraps. -/
theorem index_add (hw : 12 < w) (x : BitVec w) (i : Nat) :
    (x + BitVec.ofNat w i).toNat % pipeBufSize = (x.toNat + i) % pipeBufSize := by
  have hdvd : pipeBufSize ∣ 2 ^ w := Nat.pow_dvd_pow 2 (m := 12) (by omega)
  rw [BitVec.toNat_add, BitVec.toNat_ofNat, Nat.add_mod_mod, Nat.mod_mod_of_dvd _ hdvd]

theorem bufSize_lt (hw : 12 < w) : pipeBufSize < 2 ^ w :=
  Nat.pow_lt_pow_right (a := 2) (m := 12) (by decide) hw

/-- The queue a buffer holds between `tail` and `head`. -/
structure Stream (buf : Nat → UInt8) (head tail : BitVec w) (copied returned : List UInt8) :
    Prop where
  view : copied = returned ++
    ringView buf pipeBufSize tail.toNat (copied.length - returned.length)
  head : head = tail + BitVec.ofNat w (copied.length - returned.length)
  bound : copied.length - returned.length ≤ pipeBufSize

variable {buf : Nat → UInt8} {head tail : BitVec w} {copied returned : List UInt8}

theorem Stream.length (h : Stream buf head tail copied returned) :
    copied.length = returned.length + (copied.length - returned.length) := by
  have hlen := congrArg List.length h.view
  rwa [length_append, length_ringView] at hlen

section

variable (hw : 12 < w) (h : Stream buf head tail copied returned)
include hw h

theorem Stream.used : (head - tail).toNat = copied.length - returned.length := by
  have hlt := bufSize_lt hw
  have hbound := h.bound
  rw [h.head, add_sub_cancel_left, BitVec.toNat_ofNat, Nat.mod_eq_of_lt (by omega)]

theorem Stream.space :
    (BitVec.ofNat w pipeBufSize - (head - tail)).toNat =
      pipeBufSize - (copied.length - returned.length) := by
  have hlt := bufSize_lt hw
  have hbound := h.bound
  have hle : head - tail ≤ BitVec.ofNat w pipeBufSize := by
    rw [BitVec.le_def, h.used hw, BitVec.toNat_ofNat, Nat.mod_eq_of_lt hlt]
    exact hbound
  rw [BitVec.toNat_sub_of_le hle, h.used hw, BitVec.toNat_ofNat, Nat.mod_eq_of_lt hlt]

/-- Taking out the `n` oldest bytes. -/
theorem Stream.out {n : Nat} (hn : n ≤ copied.length - returned.length) :
    Stream buf head (tail + BitVec.ofNat w n) copied
      (returned ++ ringView buf pipeBufSize tail.toNat n) := by
  have hbound := h.bound
  obtain ⟨m, hm⟩ := Nat.exists_eq_add_of_le hn
  have hrest : copied.length - (returned ++ ringView buf pipeBufSize tail.toNat n).length = m := by
    rw [length_append, length_ringView]
    omega
  refine ⟨?_, ?_, ?_⟩
  · have hview := h.view
    rw [hm, ringView_append] at hview
    rw [hrest, ringView_mod buf (index_add hw tail n), append_assoc]
    exact hview
  · rw [hrest, h.head, hm, BitVec.ofNat_add, BitVec.add_assoc]
  · omega

/-- Putting bytes in where there is room for them. -/
theorem Stream.into (src : List UInt8)
    (hroom : copied.length - returned.length + src.length ≤ pipeBufSize) :
    Stream
      (src.zipIdx.foldl (fun buf x =>
        update buf ((head + BitVec.ofNat w x.2).toNat % pipeBufSize) x.1) buf)
      (head + BitVec.ofNat w src.length) tail (copied ++ src) returned := by
  have hlen := h.length
  have hidx : ∀ i, (head + BitVec.ofNat w i).toNat % pipeBufSize =
      (tail.toNat + (copied.length - returned.length + i)) % pipeBufSize := by
    intro i
    rw [h.head, BitVec.add_assoc, ← BitVec.ofNat_add, index_add hw]
  have hgrown : (copied ++ src).length - returned.length =
      copied.length - returned.length + src.length := by
    rw [length_append]
    omega
  have hfill := ringView_fill hidx src buf 0 hroom
  rw [Nat.add_zero] at hfill
  refine ⟨?_, ?_, ?_⟩
  · rw [hgrown, hfill, ← append_assoc, ← h.view]
  · rw [hgrown, BitVec.ofNat_add, ← BitVec.add_assoc, ← h.head]
  · rw [hgrown]
    exact hroom

end

end

namespace PipeSys

variable {s t : PipeSys w}

/-- The buffer holds what has been copied in and not handed out. -/
def Streams (s : PipeSys w) : Prop :=
  Stream s.pipe.buf s.pipe.head s.pipe.tail (s.copied.map Prod.snd) (s.returned.map Prod.snd)

theorem map_snd_tag (copied : List (Nat × UInt8)) (src : List UInt8) (id : Nat) :
    (copied ++ src.map (id, ·)).map Prod.snd = copied.map Prod.snd ++ src := by
  rw [map_append, map_map]
  exact congrArg _ (map_id src)

section

variable (h : s.Streams) (hw : 12 < w)
include h hw

theorem Streams.used : s.pipe.used = s.unread := by
  rw [Pipe.used, Stream.used hw h, length_map, length_map, unread]

theorem Streams.space : s.pipe.space = pipeBufSize - s.unread := by
  rw [Pipe.space, Stream.space hw h, length_map, length_map, unread]

theorem Streams.readTest (p count : Nat) : (s.readTest p count).Streams := by
  have hused := h.used hw
  unfold PipeSys.readTest
  split
  · dsimp only
    generalize hn : (if count < s.pipe.used then count else s.pipe.used) = n
    have hle : n ≤ (s.copied.map Prod.snd).length - (s.returned.map Prod.snd).length := by
      rw [length_map, length_map, ← unread]
      split at hn <;> omega
    have hout : s.pipe.copyOut n = ringView s.pipe.buf pipeBufSize s.pipe.tail.toNat n := by
      apply map_congr_left
      intro i _
      rw [index_add hw]
    have hstream := Stream.out hw h hle
    rw [← hout, ← map_snd_tag _ _ p] at hstream
    exact hstream
  · split
    · exact h
    · exact h

end

section

variable (h : s.Streams)
include h

theorem Streams.writeCopy (hw : 12 < w) (p id : Nat) (data : List UInt8) (written : Nat) :
    (s.writeCopy p id data written).Streams := by
  have hspace := h.space hw
  have hbound := Stream.bound h
  rw [length_map, length_map, ← unread] at hbound
  unfold PipeSys.writeCopy
  generalize hn : (if s.pipe.space < data.length - written then s.pipe.space
    else data.length - written) = n
  have hle : n ≤ s.pipe.space ∧ n ≤ data.length - written := by split at hn <;> omega
  have hlen : ((data.drop written).take n).length = n := by
    rw [length_take, length_drop]
    omega
  have hstream := Stream.into hw h ((data.drop written).take n) (by
    rw [length_map, length_map, ← unread]
    omega)
  rw [hlen] at hstream
  rw [← map_snd_tag _ _ id] at hstream
  exact hstream

theorem Streams.pipeClose (e : End) : (s.pipeClose e).Streams := by
  unfold PipeSys.pipeClose
  dsimp only
  repeat' split
  all_goals exact h

theorem Streams.close (p : Nat) (e : End) : (s.close p e).Streams := by
  unfold PipeSys.close
  dsimp only
  split
  · refine Streams.pipeClose ?_ e
    exact h
  · exact h

section

variable (p id : Nat) (data : List UInt8) (written : Nat)

theorem Streams.writeLoop : (s.writeLoop p id data written).Streams := by
  unfold PipeSys.writeLoop
  split
  · exact h
  · exact h

theorem Streams.writeTest : (s.writeTest p id data written).Streams := by
  unfold PipeSys.writeTest
  repeat' split
  all_goals exact h

end

/-- Every step keeps the stream. -/
theorem Streams.step (hw : 12 < w) (hstep : pipeStep s call = some t) : t.Streams := by
  apply pipeStep_cases hstep <;> intros
  case write =>
    refine Streams.writeLoop ?_ _ _ _ _
    exact h
  case close => exact h.close ..
  case readTest => exact h.readTest hw ..
  case writeTest => exact h.writeTest ..
  case writeCopy => exact h.writeCopy hw ..
  case wake after _ _ =>
    cases after with
    | ret count n bytes => exact h
    | again id data written =>
      refine Streams.writeLoop ?_ _ _ _ _
      exact h
  case interrupted op _ _ _ => cases op <;> exact h
  all_goals exact h

end

end PipeSys

/-! ## The bytes of one write -/

/-- The write a party is making: its number, its bytes and how many it has written. -/
def PipePhase.writing : PipePhase → Option (Nat × List UInt8 × Nat)
  | .test (.write id data written) | .copy id data written
  | .wakeAll _ (.again id data written) | .sleep (.write id data written) _ =>
      some (id, data, written)
  | .out | .test (.read _) | .wakeAll _ (.ret ..) | .sleep (.read _) _ => none

/-- The bytes of a write in the record of bytes copied in, or of a process in the record of bytes
handed out. -/
def bytesOf (id : Nat) (copied : List (Nat × UInt8)) : List UInt8 :=
  (copied.filter fun x => x.1 == id).map Prod.snd

theorem bytesOf_append (id : Nat) (copied copied' : List (Nat × UInt8)) :
    bytesOf id (copied ++ copied') = bytesOf id copied ++ bytesOf id copied' := by
  rw [bytesOf, filter_append, map_append, bytesOf, bytesOf]

theorem bytesOf_tag_self (id : Nat) (src : List UInt8) : bytesOf id (src.map (id, ·)) = src := by
  induction src with
  | nil => rfl
  | cons x src ih =>
    rw [map_cons, ← singleton_append, bytesOf_append, ih]
    simp [bytesOf]

theorem bytesOf_eq_nil {copied : List (Nat × UInt8)} (h : ∀ x ∈ copied, x.1 ≠ id) :
    bytesOf id copied = [] := by
  rw [bytesOf, filter_eq_nil_iff.mpr, map_nil]
  intro x hx
  rw [beq_iff_eq]
  exact h x hx

theorem bytesOf_tag_of_ne {j : Nat} (h : j ≠ id) (src : List UInt8) :
    bytesOf j (src.map (id, ·)) = [] := by
  apply bytesOf_eq_nil
  intro x hx
  obtain ⟨_, _, rfl⟩ := mem_map.mp hx
  exact h.symm

/-- What a write has returned is what it has copied in. -/
def WriteResult (copied : List (Nat × UInt8)) (id : Nat) (data : List UInt8) (ret : Int) : Prop :=
  (0 ≤ ret → ret = (bytesOf id copied).length ∧ bytesOf id copied = data.take ret.toNat) ∧
    (ret < 0 → bytesOf id copied = [])

/-- Each write, under way or done, and its bytes in the record. -/
structure Writes (writing : Nat → Option (Nat × List UInt8 × Nat)) (calls : Nat)
    (copied : List (Nat × UInt8)) (log : List PipeEvent) : Prop where
  under : ∀ p id data written, writing p = some (id, data, written) →
    id < calls ∧ written ≤ data.length ∧ bytesOf id copied = data.take written
  apart : ∀ p q x y, writing p = some x → writing q = some y → x.1 = y.1 → p = q
  begun : ∀ x ∈ copied, x.1 < calls
  done : ∀ id data ret, .wrote id data ret ∈ log →
    id < calls ∧ (∀ p x, writing p = some x → x.1 ≠ id) ∧ WriteResult copied id data ret

namespace Writes

variable {writing : Nat → Option (Nat × List UInt8 × Nat)} {calls : Nat}
    {copied : List (Nat × UInt8)} {log : List PipeEvent}

section

variable (h : Writes writing calls copied log)
include h

/-- A new write has a number of its own and no bytes yet. -/
theorem begins (p : Nat) (data : List UInt8) :
    Writes (update writing p (some (calls, data, 0))) (calls + 1) copied log := by
  have hnew : ∀ q x, writing q = some x → x.1 ≠ calls :=
    fun q x hx => Nat.ne_of_lt (h.under q x.1 x.2.1 x.2.2 hx).1
  refine ⟨fun q id d k hq => ?_, fun q r x y hq hr hxy => ?_,
    fun x hx => Nat.lt_succ_of_lt (h.begun x hx), fun id d ret hdone => ?_⟩
  · rcases update_cases hq with ⟨-, ⟨⟩⟩ | ⟨-, hq⟩
    · refine ⟨Nat.lt_succ_self _, Nat.zero_le _, ?_⟩
      exact bytesOf_eq_nil fun x hx => Nat.ne_of_lt (h.begun x hx)
    · exact (h.under q id d k hq).imp_left Nat.lt_succ_of_lt
  · rcases update_cases hq with ⟨hqp, ⟨⟩⟩ | ⟨-, hq'⟩ <;>
      rcases update_cases hr with ⟨hrp, ⟨⟩⟩ | ⟨-, hr'⟩
    · exact hqp.trans hrp.symm
    · exact absurd hxy.symm (hnew r y hr')
    · exact absurd hxy (hnew q x hq')
    · exact h.apart q r x y hq' hr' hxy
  · obtain ⟨hid, hfree, hres⟩ := h.done id d ret hdone
    refine ⟨Nat.lt_succ_of_lt hid, fun q x hq => ?_, hres⟩
    rcases update_cases hq with ⟨-, ⟨⟩⟩ | ⟨-, hq⟩
    · exact (Nat.ne_of_lt hid).symm
    · exact hfree q x hq

/-- The next bytes of a write are copied in. -/
theorem advance (hp : writing p = some (id, data, written)) {n : Nat}
    (hn : n ≤ data.length - written) :
    Writes (update writing p (some (id, data, written + n))) calls
      (copied ++ ((data.drop written).take n).map (id, ·)) log := by
  obtain ⟨hid, hle, hbytes⟩ := h.under p id data written hp
  -- only the numbers matter for telling writes apart, and they stay
  have hsame : ∀ q x, update writing p (some (id, data, written + n)) q = some x →
      ∃ y, writing q = some y ∧ y.1 = x.1 := by
    intro q x hq
    rcases update_cases hq with ⟨rfl, ⟨⟩⟩ | ⟨-, hq⟩
    · exact ⟨_, hp, rfl⟩
    · exact ⟨x, hq, rfl⟩
  have hbeside : ∀ j, j ≠ id →
      bytesOf j (copied ++ ((data.drop written).take n).map (id, ·)) = bytesOf j copied := by
    intro j hj
    rw [bytesOf_append, bytesOf_tag_of_ne hj, append_nil]
  refine ⟨fun q j d k hq => ?_, fun q r x y hq hr hxy => ?_, fun x hx => ?_,
    fun j d ret hdone => ?_⟩
  · rcases update_cases hq with ⟨-, ⟨⟩⟩ | ⟨hqp, hq⟩
    · refine ⟨hid, by omega, ?_⟩
      rw [bytesOf_append, bytesOf_tag_self, hbytes, take_add]
    · obtain ⟨hj, hk, hbytes'⟩ := h.under q j d k hq
      refine ⟨hj, hk, ?_⟩
      rw [hbeside j, hbytes']
      exact fun heq => hqp (h.apart q p _ _ hq hp heq)
  · obtain ⟨x', hq', hx'⟩ := hsame q x hq
    obtain ⟨y', hr', hy'⟩ := hsame r y hr
    exact h.apart q r x' y' hq' hr' (hx'.trans (hxy.trans hy'.symm))
  · rcases mem_append.mp hx with hx | hx
    · exact h.begun x hx
    · obtain ⟨_, _, rfl⟩ := mem_map.mp hx
      exact hid
  · obtain ⟨hj, hfree, hres⟩ := h.done j d ret hdone
    refine ⟨hj, fun q x hq => ?_, ?_⟩
    · obtain ⟨x', hq', hx'⟩ := hsame q x hq
      exact hx' ▸ hfree q x' hq'
    · unfold WriteResult
      rw [hbeside j (hfree p _ hp).symm]
      exact hres

/-- A write returns what it has written, or an error if that is nothing. -/
theorem returns (hp : writing p = some (id, data, written))
    (hret : ret = written ∨ written = 0 ∧ ret < 0) :
    Writes (update writing p none) calls copied (.wrote id data ret :: log) := by
  obtain ⟨hid, hle, hbytes⟩ := h.under p id data written hp
  have hsub : ∀ q x, update writing p none q = some x → writing q = some x ∧ q ≠ p := by
    intro q x hq
    rcases update_cases hq with ⟨-, ⟨⟩⟩ | ⟨hqp, hq⟩
    exact ⟨hq, hqp⟩
  refine ⟨fun q j d k hq => h.under q j d k (hsub q _ hq).1,
    fun q r x y hq hr => h.apart q r x y (hsub q x hq).1 (hsub r y hr).1, h.begun,
    fun j d ret' hdone => ?_⟩
  rcases mem_cons.mp hdone with heq | hdone
  · cases heq
    refine ⟨hid, fun q x hq hx => ?_, ?_⟩
    · obtain ⟨hq', hqp⟩ := hsub q x hq
      exact hqp (h.apart q p x _ hq' hp hx)
    · rcases hret with rfl | ⟨rfl, hneg⟩
      · refine ⟨fun _ => ⟨?_, ?_⟩, fun hneg => absurd hneg (Int.not_lt.mpr (Int.natCast_nonneg _))⟩
        · rw [hbytes, length_take, Nat.min_eq_left hle]
        · rw [hbytes, Int.toNat_natCast]
      · exact ⟨fun hnonneg => absurd hneg (Int.not_lt.mpr hnonneg), fun _ => hbytes⟩
  · obtain ⟨hj, hfree, hres⟩ := h.done j d ret' hdone
    exact ⟨hj, fun q x hq => hfree q x (hsub q x hq).1, hres⟩

/-- A read returns. -/
theorem readReturns (p count : Nat) (ret : Int) (bytes : List UInt8) (writeEnds unread : Nat) :
    Writes writing calls copied (.read p count ret bytes writeEnds unread :: log) := by
  refine { h with done := fun j d ret' hdone => ?_ }
  rcases mem_cons.mp hdone with heq | hdone
  · cases heq
  · exact h.done j d ret' hdone

end

end Writes

namespace PipeSys

variable {s t : PipeSys w}

def writing (s : PipeSys w) (p : Nat) : Option (Nat × List UInt8 × Nat) :=
  (s.parties p).phase.writing

theorem writing_of_phase (h : (s.parties p).phase = phase) :
    s.writing p = phase.writing := congrArg PipePhase.writing h

@[simp] theorem writing_setParty (s : PipeSys w) (p : Nat) (party : Party) :
    (s.setParty p party).writing = update s.writing p party.phase.writing :=
  comp_update (fun x : Party => x.phase.writing) s.parties p party

@[simp] theorem writing_setPhase (s : PipeSys w) (p : Nat) (phase : PipePhase) :
    (s.setPhase p phase).writing = update s.writing p phase.writing :=
  writing_setParty s p _

@[simp] theorem writing_waitqWakeAll (s : PipeSys w) (e : End) :
    (s.waitqWakeAll e).writing = s.writing := by
  funext q
  unfold writing
  rw [phase_waitqWakeAll]

/-- The record accounts for every write. -/
def Accounted (s : PipeSys w) : Prop := Writes s.writing s.calls s.copied s.log

section

variable (h : s.Accounted)
include h

/-- A party that goes on with the same write, or with none. -/
theorem Accounted.setParty {party : Party} (hsame : party.phase.writing = s.writing p) :
    (s.setParty p party).Accounted := by
  unfold Accounted
  rw [writing_setParty, hsame, update_eq_self]
  exact h

theorem Accounted.setPhase {f : PipePhase} (hsame : f.writing = s.writing p) :
    (s.setPhase p f).Accounted :=
  h.setParty hsame

theorem Accounted.finishRead (hnone : s.writing p = none) (count : Nat) (ret : Int)
    (bytes : List UInt8) : (s.finishRead p count ret bytes).Accounted :=
  Writes.readReturns (h.setPhase (f := .out) hnone.symm) ..

theorem Accounted.finishWrite (hp : s.writing p = some (id, data, written))
    (hret : ret = written ∨ written = 0 ∧ ret < 0) :
    (s.finish p (.wrote id data ret)).Accounted := by
  have hdone := Writes.returns h hp hret
  unfold Accounted
  rw [show (s.finish p (.wrote id data ret)).writing = update s.writing p none from
    writing_setPhase s p .out]
  exact hdone

theorem Accounted.writeLoop (hp : s.writing p = some (id, data, written)) :
    (s.writeLoop p id data written).Accounted := by
  unfold PipeSys.writeLoop
  split
  · exact h.setPhase hp.symm
  · exact h.finishWrite hp (.inl rfl)

theorem Accounted.begins (p : Nat) (data : List UInt8) :
    ({ s with calls := s.calls + 1 }.writeLoop p s.calls data 0).Accounted := by
  have hbegun := Writes.begins h p data
  unfold PipeSys.writeLoop
  split
  · unfold Accounted
    rw [writing_setPhase]
    exact hbegun
  -- nothing to write: the call returns at once
  have hdone := Writes.returns hbegun (update_self p _ _) (.inl rfl)
  rw [update_idem] at hdone
  unfold Accounted
  rw [show (finish { s with calls := s.calls + 1 } p
    (.wrote s.calls data (0 : Nat))).writing = update s.writing p none from
    writing_setPhase { s with calls := s.calls + 1 } p .out]
  exact hdone

theorem Accounted.stopWrite (hp : s.writing p = some (id, data, written)) {err : Int}
    (herr : 0 < err) : (s.stopWrite p id data written err).Accounted := by
  refine h.finishWrite hp ?_
  split
  · exact .inl rfl
  · exact .inr ⟨by omega, by omega⟩

theorem Accounted.interrupted {op : PipeOp} {stage : Stage}
    (hp : (s.parties p).phase = .sleep op stage) : (s.interrupted p op).Accounted := by
  have hwriting := writing_of_phase hp
  cases op with
  | read count => exact h.finishRead hwriting count _ _
  | write id data written => exact h.stopWrite hwriting (by decide)

theorem Accounted.waitqWakeAll (e : End) : (s.waitqWakeAll e).Accounted := by
  unfold Accounted
  rw [writing_waitqWakeAll]
  exact h

theorem Accounted.writeCopy (hp : s.writing p = some (id, data, written)) :
    (s.writeCopy p id data written).Accounted := by
  unfold PipeSys.writeCopy
  generalize hn : (if s.pipe.space < data.length - written then s.pipe.space
    else data.length - written) = n
  have hle : n ≤ data.length - written := by split at hn <;> omega
  have hmore := Writes.advance h hp hle
  unfold Accounted
  rw [writing_setPhase]
  exact hmore

theorem Accounted.close (p : Nat) (e : End) : (s.close p e).Accounted := by
  unfold PipeSys.close PipeSys.pipeClose
  dsimp only
  repeat' split
  all_goals first
    | exact h
    | exact Accounted.waitqWakeAll h _
    | exact Accounted.waitqWakeAll (Accounted.waitqWakeAll h _) _

/-- Every step keeps the account. -/
theorem Accounted.step (hstep : pipeStep s call = some t) : t.Accounted := by
  apply pipeStep_cases hstep <;> intros
  case read hp => exact h.setPhase (writing_of_phase hp).symm
  case write => exact h.begins ..
  case dup => exact h
  case close => exact h.close ..
  case signal | handle => exact h.setParty rfl
  case readTest count _ hp =>
    have hnone := writing_of_phase hp
    unfold readTest
    split
    · exact Accounted.setPhase h hnone.symm
    · split
      · exact h.finishRead hnone count 0 []
      · exact h.setPhase hnone.symm
  case writeTest hp =>
    have hwriting := writing_of_phase hp
    unfold writeTest
    split
    · refine Accounted.stopWrite (h.setParty ?_) ?_ (by decide)
      · exact rfl
      · rw [writing_setParty, update_self]
        exact hwriting
    · split
      all_goals exact h.setPhase hwriting.symm
  case writeCopy hp => exact h.writeCopy (writing_of_phase hp)
  case wake p e after _ hp =>
    have hwriting : (s.waitqWakeAll e).writing p = PipePhase.writing (.wakeAll e after) := by
      rw [writing_waitqWakeAll]
      exact writing_of_phase hp
    cases after with
    | ret count n bytes => exact (h.waitqWakeAll e).finishRead hwriting count n bytes
    | again id data written => exact (h.waitqWakeAll e).writeLoop hwriting
  case interrupted hp _ => exact h.interrupted hp
  case linking op hp | resume op hp _ | again op hp =>
    exact h.setPhase (by rw [writing_of_phase hp]; cases op <;> rfl)
  case link op hp | unlink op hp =>
    exact Accounted.setPhase h (by rw [writing_of_phase hp]; cases op <;> rfl)
  case block op hp => exact h.setParty (by rw [writing_of_phase hp]; cases op <;> rfl)

end

/-! ## Open ends and reads that return nothing -/

/-- The counters of a vnode and of its end are those of the descriptors there are. -/
structure Counted (refs : Int) (holders : List Nat) (ends : Int) : Prop where
  refs : refs = holders.length
  ends : ends = if holders = [] then 0 else 1

def Ends (s : PipeSys w) : Prop := ∀ e, Counted (s.refs e) (s.holders e) (s.pipe.ends e)

theorem Ends.closed (h : s.Ends) (he : s.pipe.ends e ≤ 0) : s.holders e = [] := by
  by_contra hne
  have hone := (h e).ends
  rw [if_neg hne] at hone
  omega

section

variable (s : PipeSys w) (e : End)

@[simp] theorem pipeClose_refs : (s.pipeClose e).refs = s.refs := by
  unfold pipeClose
  dsimp only
  repeat' split
  all_goals rfl

@[simp] theorem pipeClose_holders : (s.pipeClose e).holders = s.holders := by
  unfold pipeClose
  dsimp only
  repeat' split
  all_goals rfl

@[simp] theorem pipeClose_ends :
    (s.pipeClose e).pipe.ends = update s.pipe.ends e (s.pipe.ends e - 1) := by
  unfold pipeClose
  dsimp only
  repeat' split
  all_goals rfl

end

/-- One end is changed. -/
theorem Ends.change (h : s.Ends) {refs n : Int} {holders : List Nat}
    (hcounted : Counted refs holders n) (hrefs : t.refs = update s.refs e refs)
    (hholders : t.holders = update s.holders e holders)
    (hends : t.pipe.ends = update s.pipe.ends e n) : t.Ends := by
  intro d
  rw [hrefs, hholders, hends]
  by_cases hd : d = e
  · subst hd
    rw [update_self, update_self, update_self]
    exact hcounted
  · rw [update_of_ne hd, update_of_ne hd, update_of_ne hd]
    exact h d

theorem Ends.close (h : s.Ends) (hp : p ∈ s.holders e) : (s.close p e).Ends := by
  have hrefs := (h e).refs
  have hends := (h e).ends
  rw [if_neg (ne_nil_of_mem hp)] at hends
  have hlen : s.refs e - 1 = ((s.holders e).erase p).length := by
    rw [length_erase_of_mem hp]
    have hpos := length_pos_of_mem hp
    omega
  have hempty : (s.holders e).erase p = [] ↔ s.refs e - 1 ≤ 0 := by
    rw [← length_eq_zero_iff]
    omega
  unfold PipeSys.close
  dsimp only
  split
  · rename_i hlast
    rw [update_self] at hlast
    refine h.change (e := e) (n := s.pipe.ends e - 1) ⟨hlen, ?_⟩ ?_ ?_ ?_
    · rw [if_pos (hempty.mpr hlast), hends]
      exact Int.sub_self 1
    · rw [pipeClose_refs]
    · rw [pipeClose_holders]
    · rw [pipeClose_ends]
  · rename_i hmore
    rw [update_self] at hmore
    refine h.change (e := e) (n := s.pipe.ends e) ⟨hlen, ?_⟩ rfl rfl ?_
    · rw [if_neg (mt hempty.mp hmore), hends]
    · rw [update_eq_self]

theorem Ends.dup (h : s.Ends) (hp : p ∈ s.holders e) (q : Nat) :
    Ends { s with
      refs := update s.refs e (s.refs e + 1)
      holders := update s.holders e (q :: s.holders e) } := by
  have hends := (h e).ends
  rw [if_neg (ne_nil_of_mem hp)] at hends
  refine h.change (e := e) (n := s.pipe.ends e) ⟨?_, ?_⟩ rfl rfl ?_
  · rw [(h e).refs]
    exact (Int.natCast_succ _).symm
  · rw [if_neg (cons_ne_nil _ _), hends]
  · rw [update_eq_self]

theorem Ends.step (h : s.Ends) (hstep : pipeStep s call = some t) : t.Ends := by
  apply pipeStep_cases hstep <;> intros
  case dup q hp => exact h.dup hp q
  case close hp _ => exact h.close hp
  case write =>
    unfold writeLoop
    split <;> exact h
  case readTest =>
    unfold readTest
    repeat' split
    all_goals exact h
  case writeTest =>
    unfold writeTest
    repeat' split
    all_goals exact h
  case wake after _ _ =>
    cases after with
    | ret count n bytes => exact h
    | again id data written =>
      unfold resume writeLoop
      dsimp only
      split <;> exact h
  case interrupted op _ _ _ => cases op <;> exact h
  all_goals exact h

/-! ## What the reads of a process return -/

end PipeSys

/-- What a read returns: the number of bytes in its buffer, no more than it asked for, or an error
and no bytes; and 0 only if it asked for nothing, or found the pipe empty and without writers. -/
structure ReadResult (count : Nat) (ret : Int) (bytes : List UInt8) (writeEnds unread : Nat) :
    Prop where
  length : 0 ≤ ret → ret = bytes.length ∧ bytes.length ≤ count
  error : ret < 0 → bytes = []
  zero : ret = 0 → 0 < count → writeEnds = 0 ∧ unread = 0

/-- The bytes the returned reads of a process have left in its buffers, oldest first. -/
def got (p : Nat) : List PipeEvent → List UInt8
  | [] => []
  | .read q _ _ bytes _ _ :: log => got p log ++ if q = p then bytes else []
  | .wrote .. :: log => got p log

/-- The bytes a read has taken out and is about to return. -/
def PipePhase.taken : PipePhase → List UInt8
  | .wakeAll _ (.ret _ _ bytes) => bytes
  | _ => []

/-- The reads done, the reads about to return and the record of bytes handed out. -/
structure Reads (phases : Nat → PipePhase) (returned : List (Nat × UInt8)) (log : List PipeEvent) :
    Prop where
  taken : ∀ p e count n bytes, phases p = .wakeAll e (.ret count n bytes) →
    bytes.length = n ∧ n ≤ count ∧ (n = 0 → count = 0)
  handed : ∀ p, bytesOf p returned = got p log ++ (phases p).taken
  result : ∀ p count ret bytes writeEnds unread,
    .read p count ret bytes writeEnds unread ∈ log → ReadResult count ret bytes writeEnds unread

section

variable {phases : Nat → PipePhase} {returned : List (Nat × UInt8)} {log : List PipeEvent}
    (h : Reads phases returned log)
include h

/-- A party that has taken nothing out goes on, with the bytes it takes out now. -/
theorem Reads.update (phase : PipePhase) (hp : (phases p).taken = [])
    (hphase : ∀ e count n bytes, phase = .wakeAll e (.ret count n bytes) →
      bytes.length = n ∧ n ≤ count ∧ (n = 0 → count = 0)) :
    Reads (update phases p phase) (returned ++ phase.taken.map (p, ·)) log := by
  refine ⟨fun q e count n bytes hq => ?_, fun q => ?_, h.result⟩
  · rcases update_cases hq with ⟨-, hq⟩ | ⟨-, hq⟩
    · exact hphase e count n bytes hq
    · exact h.taken q e count n bytes hq
  · rw [bytesOf_append, h.handed]
    by_cases hqp : q = p
    · rw [hqp, update_self, bytesOf_tag_self, hp, append_nil]
    · rw [update_of_ne hqp, bytesOf_tag_of_ne hqp, append_nil]

/-- A read returns what it has taken out. -/
theorem Reads.returns {count writeEnds unread : Nat}
    (hresult : ReadResult count ret (phases p).taken writeEnds unread) :
    Reads (Function.update phases p .out) returned
      (.read p count ret (phases p).taken writeEnds unread :: log) := by
  refine ⟨fun q e count n bytes hq => ?_, fun q => ?_, fun q count ret bytes we un hmem => ?_⟩
  · rcases update_cases hq with ⟨-, hq⟩ | ⟨-, hq⟩
    · cases hq
    · exact h.taken q e count n bytes hq
  · rw [h.handed, got]
    by_cases hqp : q = p
    · rw [hqp, update_self, if_pos rfl]
      exact (append_nil _).symm
    · rw [update_of_ne hqp, if_neg (Ne.symm hqp), append_nil]
  · rcases mem_cons.mp hmem with heq | hmem
    · cases heq
      exact hresult
    · exact h.result q count ret bytes we un hmem

/-- A write returns. -/
theorem Reads.wrote (id : Nat) (data : List UInt8) (ret : Int) :
    Reads phases returned (.wrote id data ret :: log) := by
  refine { h with result := fun p count ret' bytes we un hmem => ?_ }
  rcases mem_cons.mp hmem with heq | hmem
  · cases heq
  · exact h.result p count ret' bytes we un hmem

end

namespace PipeSys

variable {s t : PipeSys w}

def phases (s : PipeSys w) (p : Nat) : PipePhase := (s.parties p).phase

@[simp] theorem phases_setParty (s : PipeSys w) (p : Nat) (party : Party) :
    (s.setParty p party).phases = update s.phases p party.phase :=
  comp_update Party.phase s.parties p party

@[simp] theorem phases_waitqWakeAll (s : PipeSys w) (e : End) :
    (s.waitqWakeAll e).phases = s.phases := funext (phase_waitqWakeAll s e)

/-- Every read returns the bytes that were handed to it. -/
def Handed (s : PipeSys w) : Prop := Reads s.phases s.returned s.log

section

variable (h : s.Handed)
include h

/-- A party that has taken nothing out goes on to a phase where it has nothing either. -/
theorem Handed.setParty {party : Party} (hp : (s.parties p).phase.taken = [])
    (hphase : ∀ e count n bytes, party.phase ≠ .wakeAll e (.ret count n bytes)) :
    (s.setParty p party).Handed := by
  have hnone : party.phase.taken = [] := by
    unfold PipePhase.taken
    split
    · exact absurd ‹_› (hphase _ _ _ _)
    · rfl
  have hupdate := Reads.update h (p := p) party.phase hp
    fun e count n bytes heq => absurd heq (hphase e count n bytes)
  rw [hnone, map_nil, append_nil] at hupdate
  unfold Handed
  rw [phases_setParty]
  exact hupdate

/-- A party keeps its phase. -/
theorem Handed.same {party : Party} (hp : party.phase = (s.parties p).phase) :
    (s.setParty p party).Handed := by
  unfold Handed
  rw [phases_setParty, hp]
  exact (update_eq_self p s.phases).symm ▸ h

theorem Handed.finishRead {count : Nat} {bytes : List UInt8}
    (hp : (s.parties p).phase.taken = bytes)
    (hresult : ReadResult count ret bytes (s.holders .write).length s.unread) :
    (s.finishRead p count ret bytes).Handed := by
  subst hp
  have hreturns := Reads.returns h (p := p) hresult
  rw [← phases_setParty s p { s.parties p with phase := .out }] at hreturns
  exact hreturns

theorem Handed.finishWrite (hp : (s.parties p).phase.taken = []) (id : Nat) (data : List UInt8)
    (ret : Int) : (s.finish p (.wrote id data ret)).Handed :=
  Reads.wrote (show (s.setParty p { s.parties p with phase := .out }).Handed from
    h.setParty hp nofun) id data ret

theorem Handed.waitqWakeAll (e : End) : (s.waitqWakeAll e).Handed := by
  unfold Handed
  rw [phases_waitqWakeAll]
  exact h

theorem Handed.writeLoop (hp : (s.parties p).phase.taken = []) (id : Nat) (data : List UInt8)
    (written : Nat) : (s.writeLoop p id data written).Handed := by
  unfold PipeSys.writeLoop
  split
  · exact h.setParty hp nofun
  · exact h.finishWrite hp ..

theorem Handed.readTest (hends : s.Ends) (hstream : s.Streams) (hw : 12 < w)
    (hp : (s.parties p).phase.taken = []) (count : Nat) : (s.readTest p count).Handed := by
  have hused := hstream.used hw
  unfold PipeSys.readTest
  split
  · dsimp only
    generalize hn : (if count < s.pipe.used then count else s.pipe.used) = n
    have hupdate := Reads.update h (p := p)
      (.wakeAll .write (.ret count n (s.pipe.copyOut n))) hp fun e c m bytes heq => ?_
    · unfold Handed
      rw [setPhase, phases_setParty]
      exact hupdate
    · obtain ⟨-, hret⟩ := PipePhase.wakeAll.inj heq
      obtain ⟨rfl, rfl, rfl⟩ := After.ret.inj hret
      rw [Pipe.copyOut, length_map, length_range]
      split at hn <;> omega
  split
  · rename_i hclosed
    refine h.finishRead hp ⟨fun _ => ⟨rfl, Nat.zero_le _⟩, fun _ => rfl, fun _ _ => ?_⟩
    exact ⟨by rw [hends.closed hclosed, length_nil], by omega⟩
  · exact h.setParty hp nofun

theorem Handed.step (hends : s.Ends) (hstream : s.Streams) (hw : 12 < w)
    (hstep : pipeStep s call = some t) : t.Handed := by
  have hnone : ∀ {p phase}, (s.parties p).phase = phase → phase.taken = [] →
      (s.parties p).phase.taken = [] := fun hp htaken => hp ▸ htaken
  apply pipeStep_cases hstep <;> intros
  case write hp => exact Handed.writeLoop (s := { s with calls := s.calls + 1 }) h (hnone hp rfl) ..
  case dup => exact h
  case close =>
    unfold close pipeClose
    dsimp only
    repeat' split
    all_goals first
      | exact h
      | exact Handed.waitqWakeAll h _
      | exact Handed.waitqWakeAll (Handed.waitqWakeAll h _) _
  case signal | handle => exact h.same rfl
  case readTest hp => exact h.readTest hends hstream hw (hnone hp rfl) _
  case writeTest p _ _ _ hp =>
    unfold writeTest
    split
    · refine Handed.finishWrite (h.same ?_) ?_ ..
      · exact rfl
      · rw [parties_setParty_self]
        exact hnone hp rfl
    · split
      all_goals exact h.setParty (hnone hp rfl) nofun
  case wake p e after _ hp =>
    have htaken : ((s.waitqWakeAll e).parties p).phase = .wakeAll e after := by
      rw [phase_waitqWakeAll, hp]
    cases after with
    | ret count n bytes =>
      obtain ⟨rfl, hle, hzero⟩ := h.taken p e count n bytes hp
      refine (h.waitqWakeAll e).finishRead (by rw [htaken]; rfl) ⟨fun _ => ⟨rfl, hle⟩, ?_, ?_⟩
      · intro hneg
        omega
      · intro hret hpos
        exact absurd (hzero (Int.ofNat_eq_zero.mp hret)) (Nat.ne_of_gt hpos)
    | again id data written =>
      exact (h.waitqWakeAll e).writeLoop (by rw [htaken]; rfl) id data written
  case interrupted op _ hp _ =>
    cases op with
    | read count =>
      exact h.finishRead (hnone hp rfl) ⟨fun hret => absurd hret (by decide), fun _ => rfl,
        fun hret => absurd hret (by decide)⟩
    | write id data written => exact h.finishWrite (hnone hp rfl) ..
  case read hp => exact h.setParty (hnone hp rfl) nofun
  case writeCopy hp | link hp | unlink hp | linking hp | block hp | resume hp _ | again hp =>
    exact Handed.setParty h (hnone hp rfl) nofun

end

end PipeSys

/-! ## Every run -/

/-- What every step keeps. -/
structure PipeInv {w : Nat} (s : PipeSys w) : Prop where
  stream : s.Streams
  accounted : s.Accounted
  ends : s.Ends
  handed : s.Handed

theorem PipeInv.create (p : Nat) (sigpipeDefault : Nat → Bool) :
    PipeInv (create w p sigpipeDefault) where
  stream := ⟨rfl, rfl, Nat.zero_le _⟩
  accounted := by
    refine ⟨fun _ _ _ _ h => ?_, fun _ _ _ _ h => ?_, fun _ h => absurd h not_mem_nil,
      fun _ _ _ h => absurd h not_mem_nil⟩
    all_goals cases h
  ends := fun _ => ⟨rfl, rfl⟩
  handed := by
    refine ⟨fun _ _ _ _ _ h => ?_, fun _ => rfl, fun _ _ _ _ _ _ h => absurd h not_mem_nil⟩
    cases h

theorem PipeInv.step {s t : PipeSys w} (h : PipeInv s) (hw : 12 < w)
    (hstep : pipeStep s call = some t) : PipeInv t where
  stream := h.stream.step hw hstep
  accounted := h.accounted.step hstep
  ends := h.ends.step hstep
  handed := h.handed.step h.ends h.stream hw hstep

/-- With counters of any width that the buffer size divides, in every interleaving: what readers
got is a prefix of what writers put in; the pipe holds at most `PIPE_BUF_SIZE` bytes; a write
returns the number of its bytes copied in, or an error if there are none; the bytes handed to a
process are those its reads left in its buffers, in order, with those of a read about to return;
and a read returns the number of its bytes, at most what it asked for, or an error and no bytes,
and if it asked for at least one byte 0 only if every write end was closed and every byte read. -/
theorem pipe_is_stream {w : Nat} (hw : 12 < w) (p : Nat) (sigpipeDefault : Nat → Bool)
    (calls : List PipeCall) (s : PipeSys w)
    (run : exec pipeStep (.create w p sigpipeDefault) calls = some s) :
    s.returned.map Prod.snd <+: s.copied.map Prod.snd ∧
      s.pipe.used ≤ pipeBufSize ∧ s.pipe.used = s.unread ∧
      (∀ id data ret, .wrote id data ret ∈ s.log → WriteResult s.copied id data ret) ∧
      (∀ q, bytesOf q s.returned = got q s.log ++ (s.parties q).phase.taken) ∧
      ∀ q count ret bytes writeEnds unread, .read q count ret bytes writeEnds unread ∈ s.log →
        ReadResult count ret bytes writeEnds unread := by
  have hinv : PipeInv s := exec_invariant_all (fun _ _ _ h hstep => PipeInv.step h hw hstep)
    (PipeInv.create p sigpipeDefault) run
  have hbound := Stream.bound hinv.stream
  rw [length_map, length_map] at hbound
  have hused := hinv.stream.used hw
  refine ⟨⟨_, (Stream.view hinv.stream).symm⟩, ?_, hused, fun id data ret hdone => ?_,
    hinv.handed.handed, hinv.handed.result⟩
  · rw [hused]
    exact hbound
  · exact (hinv.accounted.done id data ret hdone).2.2

/-- A byte goes through the pipe, the writer leaves and the next read finds the end. -/
theorem pipe_is_stream_one_byte :
    ∃ s, exec pipeStep (.create 32 0 fun _ => true)
        [.write 0 .write [7], .step 0, .step 0, .step 0, .close 0 .write,
          .read 0 .read 5, .step 0, .step 0, .read 0 .read 5, .step 0] = some s ∧
      (s.returned, s.log) =
        ([(0, 7)], [.read 0 5 0 [] 0 0, .read 0 5 1 [7] 0 0, .wrote 0 [7] 1]) ∧
      s.returned.map Prod.snd <+: s.copied.map Prod.snd ∧ ReadResult 5 1 [7] 0 0 := by
  refine exists_run_and (by decide +kernel) fun s hrun hlog => ?_
  obtain ⟨hstream, -, -, -, -, hresult⟩ := pipe_is_stream (by decide) 0 (fun _ => true) _ s hrun
  refine ⟨hstream, hresult 0 5 1 [7] 0 0 ?_⟩
  rw [(Prod.mk.inj hlog).2]
  exact mem_cons_of_mem _ mem_cons_self

/-- A read of no bytes returns 0 while a writer is there and a byte is waiting. -/
theorem empty_read_returns_zero :
    ¬ ∀ (calls : List PipeCall) (s : PipeSys 32),
      exec pipeStep (.create 32 0 fun _ => true) calls = some s →
      ∀ q count bytes writeEnds unread, .read q count 0 bytes writeEnds unread ∈ s.log →
        writeEnds = 0 ∧ unread = 0 := by
  intro hclaim
  obtain ⟨s, hrun, hlog⟩ : ∃ s ∈ exec pipeStep (.create 32 0 fun _ => true)
      [.write 0 .write [7], .step 0, .step 0, .step 0, .read 0 .read 0, .step 0, .step 0],
      s.log = [.read 0 0 0 [] 1 1, .wrote 0 [7] 1] := by decide +kernel
  have hzero := hclaim _ s hrun 0 0 [] 1 1 (hlog ▸ mem_cons_self)
  exact absurd hzero.1 (by decide)

end ArcKernel.Uipc
