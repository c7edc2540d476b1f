import ArcKernel.Foundation.Run
import Mathlib.Data.List.FinRange
import Mathlib.Logic.Function.Basic

/-!
# Interrupt lines forwarded to user space (`bsd/sys/sys_driver.c`)

Each of the 256 lines has at most one subscriber and counts the interrupts its
subscriber has not consumed yet.  A wait takes one from the first of the caller's
lines that has any, or parks the caller.  Every step below is one section under
`irq_lock`.

`dispatched` and `waited` are not in the source: they count the interrupts and the
waits of a line since its subscription.
-/

namespace ArcKernel.Irq

open ArcKernel.Foundation Function Option

variable {i : Fin 256} {parked : Nat → Bool} {tid : Nat}

/-! ## Model -/

/-- `struct irq_sub`. -/
structure IrqSub where
  tid : Nat
  pid : Nat
  pending : Nat

structure IrqSys where
  subs : Fin 256 → IrqSub
  parked : Nat → Bool
  dispatched : Fin 256 → Nat
  waited : Fin 256 → Nat

def IrqSys.init : IrqSys := ⟨fun _ => ⟨0, 0, 0⟩, fun _ => false, fun _ => 0, fun _ => 0⟩

/-- What a scan of the lines by `sys_irq_wait` finds. -/
inductive Scan where
  | took (i : Fin 256)
  | unsubscribed
  | blocks

/-- The loop of `sys_irq_wait`. -/
def irqScan (subs : Fin 256 → IrqSub) (tid : Nat) : Scan :=
  match (List.finRange 256).find? fun i => decide ((subs i).tid = tid ∧ 0 < (subs i).pending) with
  | some i => .took i
  | none => if (List.finRange 256).any fun i => (subs i).tid == tid then .blocks else .unsubscribed

/-- `irq_wake_user`; `found` is whether `thread_find` finds the subscriber. -/
def irqWakeUser (s : IrqSys) (i : Fin 256) (found : Bool) : IrqSys :=
  let sub := s.subs i
  if sub.tid = 0 then s
  else
    let pending := if sub.pending < 0xFFFFFFFF then sub.pending + 1 else sub.pending
    let tid := if found then sub.tid else 0
    { s with
      subs := update s.subs i ⟨tid, sub.pid, pending⟩
      parked := if found then update s.parked sub.tid false else s.parked
      dispatched := update s.dispatched i (s.dispatched i + 1) }

/-- `irq_unsubscribe_all`. -/
def irqUnsubscribeAll (s : IrqSys) (pid : Nat) : IrqSys :=
  { s with subs := fun i =>
      if (s.subs i).tid ≠ 0 ∧ (s.subs i).pid = pid then { s.subs i with tid := 0, pid := 0 }
      else s.subs i }

/-- `sys_irq_subscribe`; `granted` is the outcome of the privilege and device
checks. -/
def sysIrqSubscribe (s : IrqSys) (i : Fin 256) (tid pid : Nat) (granted : Bool) : IrqSys :=
  if !granted then s
  else if (s.subs i).tid ≠ 0 then s
  else
    { s with
      subs := update s.subs i { s.subs i with tid := tid, pid := pid }
      dispatched := update s.dispatched i 0
      waited := update s.waited i 0 }

/-- One turn of `sys_irq_wait`. -/
def sysIrqWait (s : IrqSys) (tid : Nat) : IrqSys :=
  match irqScan s.subs tid with
  | .took i =>
      { s with
        subs := update s.subs i { s.subs i with pending := (s.subs i).pending - 1 }
        waited := update s.waited i (s.waited i + 1) }
  | .unsubscribed => s
  | .blocks => { s with parked := update s.parked tid true }

inductive IrqCall where
  | interrupt (i : Fin 256) (found : Bool)
  | subscribe (i : Fin 256) (tid pid : Nat) (granted : Bool)
  | wait (tid : Nat)
  | wake (tid : Nat)
  | exit (pid : Nat)

/-- Thread ids are not zero, and a parked thread waits again only once something
has woken it. -/
def irqStep (s : IrqSys) : IrqCall → Option IrqSys
  | .interrupt i found => some (irqWakeUser s i found)
  | .subscribe i tid pid granted =>
      if tid = 0 then none else some (sysIrqSubscribe s i tid pid granted)
  | .wait tid => if tid = 0 ∨ s.parked tid then none else some (sysIrqWait s tid)
  | .wake tid => some { s with parked := update s.parked tid false }
  | .exit pid => some (irqUnsubscribeAll s pid)

/-! ## Counting -/

/-- A subscription starts with nothing pending, and the count has room for an
interrupt. -/
def IrqCall.Fresh (s : IrqSys) : IrqCall → Prop
  | .interrupt i _ => (s.subs i).tid ≠ 0 → (s.subs i).pending < 0xFFFFFFFF
  | .subscribe i _ _ granted => granted = true → (s.subs i).tid = 0 → (s.subs i).pending = 0
  | _ => True

instance (s : IrqSys) : DecidablePred (IrqCall.Fresh s)
  | .interrupt _ _ => inferInstanceAs (Decidable (_ ≠ _ → _ < _))
  | .subscribe _ _ _ _ => inferInstanceAs (Decidable (_ = _ → _ = _ → _ = _))
  | .wait _ => isTrue trivial
  | .wake _ => isTrue trivial
  | .exit _ => isTrue trivial

/-- What a line with subscriber `sub` has counted. -/
structure Counts (sub : IrqSub) (parked : Bool) (dispatched waited : Nat) : Prop where
  exact : sub.pending + waited = dispatched
  asleep : parked = true → sub.pending = 0

def IrqSys.Inv (s : IrqSys) : Prop :=
  ∀ i, (s.subs i).tid ≠ 0 →
    Counts (s.subs i) (s.parked (s.subs i).tid) (s.dispatched i) (s.waited i)

theorem irqScan_took {subs : Fin 256 → IrqSub}
    (h : irqScan subs tid = .took i) : (subs i).tid = tid ∧ 0 < (subs i).pending := by
  unfold irqScan at h
  split at h
  · cases h
    rename_i hfind
    have := List.find?_some hfind
    exact of_decide_eq_true this
  · split at h <;> cases h

theorem irqScan_blocks {subs : Fin 256 → IrqSub} (h : irqScan subs tid = .blocks)
    (i : Fin 256) (hi : (subs i).tid = tid) : (subs i).pending = 0 := by
  unfold irqScan at h
  split at h
  · cases h
  rename_i hnone
  have := List.find?_eq_none.mp hnone i (List.mem_finRange i)
  simpa [hi] using this

section Steps

variable {s : IrqSys}

/-- Waking one thread wakes no other. -/
theorem parked_of_woken {u : Nat} (h : update parked tid false u = true) : parked u = true := by
  rcases update_cases h with ⟨-, ⟨⟩⟩ | ⟨-, h⟩
  exact h

/-- Other threads may be parked when nothing is pending for them. -/
theorem IrqSys.Inv.setParked (h : s.Inv) (hparked : ∀ j, parked (s.subs j).tid = true →
      s.parked (s.subs j).tid = true ∨ (s.subs j).pending = 0) :
    ({ s with parked := parked } : IrqSys).Inv :=
  fun j hj => ⟨(h j hj).exact, fun hp => (hparked j hp).elim (h j hj).asleep id⟩

theorem irqWakeUser_inv {found : Bool} (h : s.Inv)
    (hfresh : (s.subs i).tid ≠ 0 → (s.subs i).pending < 0xFFFFFFFF) :
    (irqWakeUser s i found).Inv := by
  unfold irqWakeUser
  dsimp only
  split
  · exact h
  rename_i hsub
  rw [if_pos (hfresh hsub)]
  intro j hj
  by_cases hji : j = i
  · subst hji
    simp only [update_self] at hj ⊢
    cases found with
    | false => exact absurd rfl hj
    | true =>
      have := (h j hsub).exact
      refine ⟨by dsimp only; omega, fun hparked => ?_⟩
      simp at hparked
  · simp only [update_of_ne hji] at hj ⊢
    refine ⟨(h j hj).exact, fun hparked => (h j hj).asleep ?_⟩
    split at hparked
    · exact parked_of_woken hparked
    · exact hparked

theorem sysIrqSubscribe_inv {pid : Nat} {granted : Bool} (h : s.Inv)
    (hfresh : granted = true → (s.subs i).tid = 0 → (s.subs i).pending = 0) :
    (sysIrqSubscribe s i tid pid granted).Inv := by
  unfold sysIrqSubscribe
  split
  · exact h
  split
  · exact h
  rename_i hgranted hfree
  have hzero := hfresh (by simpa using hgranted) (not_not.mp hfree)
  intro j hj
  by_cases hji : j = i
  · subst hji
    simp only [update_self] at hj ⊢
    exact ⟨hzero, fun _ => hzero⟩
  · simp only [update_of_ne hji] at hj ⊢
    exact h j hj

theorem sysIrqWait_inv (h : s.Inv) (htid : tid ≠ 0) : (sysIrqWait s tid).Inv := by
  unfold sysIrqWait
  split
  · rename_i i hscan
    obtain ⟨hsub, hpending⟩ := irqScan_took hscan
    intro j hj
    by_cases hji : j = i
    · subst hji
      simp only [update_self] at hj ⊢
      obtain ⟨hexact, hasleep⟩ := h j (by rwa [hsub])
      exact ⟨by dsimp only; omega, fun hparked => by have := hasleep hparked; dsimp only; omega⟩
    · simp only [update_of_ne hji] at hj ⊢
      exact h j hj
  · exact h
  · rename_i hscan
    refine h.setParked fun j hp => ?_
    by_cases heq : (s.subs j).tid = tid
    · exact .inr (irqScan_blocks hscan j heq)
    · exact .inl (by rwa [update_of_ne heq] at hp)

theorem irqStep_inv (s : IrqSys) (call : IrqCall) (t : IrqSys) (h : s.Inv)
    (hfresh : call.Fresh s) (hstep : irqStep s call = some t) : t.Inv := by
  cases call with
  | interrupt i found => exact some.inj hstep ▸ irqWakeUser_inv h hfresh
  | subscribe i tid pid granted =>
    rw [irqStep, ite_none_left_eq_some] at hstep
    exact some.inj hstep.2 ▸ sysIrqSubscribe_inv h hfresh
  | wait tid =>
    rw [irqStep, ite_none_left_eq_some] at hstep
    exact some.inj hstep.2 ▸ sysIrqWait_inv h fun h0 => hstep.1 (.inl h0)
  | wake tid =>
    rw [← some.inj hstep]
    exact h.setParked fun j hp => .inl (parked_of_woken hp)
  | exit pid =>
    rw [← some.inj hstep]
    intro j hj
    simp only [irqUnsubscribeAll] at hj ⊢
    split at hj
    · exact absurd rfl hj
    · rename_i hkept
      rw [if_neg hkept]
      exact h j hj

end Steps

/-- In every run in which each subscription starts with nothing pending and no
count is full when an interrupt arrives, a subscriber has waited at most as often
as its line was interrupted since it subscribed, and exactly as often once it is
parked or its next wait would park it. -/
theorem irq_waits_counted (calls : List IrqCall) (s : IrqSys)
    (hfresh : AllSteps irqStep (fun s call => call.Fresh s) .init calls)
    (hrun : exec irqStep .init calls = some s) (i : Fin 256) (hi : (s.subs i).tid ≠ 0) :
    s.waited i ≤ s.dispatched i ∧
      (s.parked (s.subs i).tid = true ∨ irqScan s.subs (s.subs i).tid = .blocks →
        s.waited i = s.dispatched i) := by
  have hinv : s.Inv := exec_invariant irqStep_inv (fun _ h => absurd rfl h) hfresh hrun
  have hexact := (hinv i hi).exact
  refine ⟨by omega, ?_⟩
  rintro (hparked | hblocks)
  · have := (hinv i hi).asleep hparked
    omega
  · have := irqScan_blocks hblocks i rfl
    omega

/-- A driver takes one interrupt and parks. -/
def driverParks : List IrqCall := [.subscribe 3 7 1 true, .interrupt 3 true, .wait 7, .wait 7]

theorem irq_waits_counted_driver_parks :
    ∃ s, exec irqStep .init driverParks = some s ∧ s.dispatched 3 = 1 ∧
      s.waited 3 = s.dispatched 3 := by
  have hfresh : AllSteps irqStep (fun s call => call.Fresh s) .init driverParks := by decide +kernel
  exact ⟨_, rfl, rfl, (irq_waits_counted driverParks _ hfresh rfl 3 (by decide +kernel)).2
    (.inl (by decide +kernel))⟩

/-- A driver exits with an interrupt pending, and the next subscriber's first wait
succeeds although no interrupt has arrived. -/
theorem pending_interrupt_inherited :
    ∃ s, exec irqStep .init [.subscribe 3 7 1 true, .interrupt 3 true, .exit 1,
      .subscribe 3 8 2 true, .wait 8] = some s ∧
      (s.subs 3).tid = 8 ∧ s.dispatched 3 = 0 ∧ s.waited 3 = 1 :=
  ⟨_, rfl, by decide +kernel, by decide +kernel, by decide +kernel⟩

end ArcKernel.Irq
