import Mathlib.Tactic

/-!
# Runs of a partial step function

Every component of the kernel is modelled as a partial step function
`step : σ → α → Option σ`.  The label `α` carries the call, its arguments and
every outcome the component does not decide itself (whether an allocation
succeeds, what a fresh block contains, which thread moves next), so quantifying
over label lists quantifies over every run.

A run may be restricted by a condition on its steps, tested in the state
*before* the step.  The two invariant rules below are the only inductions over
runs in the development: a safety proof supplies the initial case and one step.
-/

namespace ArcKernel.Foundation

variable {σ α : Type} {step : σ → α → Option σ} {ok ok' : σ → α → Prop} {I : σ → Prop} {s t : σ}
  {a : α} {as bs : List α}

/-- Take the labels in order; `none` when some label has no step. -/
def exec (step : σ → α → Option σ) : σ → List α → Option σ
  | s, [] => some s
  | s, a :: as =>
      match step s a with
      | none => none
      | some t => exec step t as

/-- Every step of the run meets `ok` in the state it starts from. -/
def AllSteps (step : σ → α → Option σ) (ok : σ → α → Prop) : σ → List α → Prop
  | _, [] => True
  | s, a :: as => ok s a ∧ ∀ t, step s a = some t → AllSteps step ok t as

instance AllSteps.decidable (step : σ → α → Option σ) (ok : σ → α → Prop)
    [∀ s a, Decidable (ok s a)] : ∀ s as, Decidable (AllSteps step ok s as)
  | _, [] => isTrue trivial
  | s, a :: as =>
      match hstep : step s a with
      | none => decidable_of_iff (ok s a)
          ⟨fun hok => ⟨hok, fun _ ht => nomatch hstep.symm.trans ht⟩, And.left⟩
      | some t =>
          have := AllSteps.decidable step ok t as
          decidable_of_iff (ok s a ∧ AllSteps step ok t as)
            ⟨fun ⟨hok, hrest⟩ => ⟨hok, fun _ ht => Option.some.inj (hstep.symm.trans ht) ▸ hrest⟩,
              fun ⟨hok, hrest⟩ => ⟨hok, hrest t hstep⟩⟩

/-- A guarded step that was taken. -/
theorem of_guard {c : Prop} [Decidable c] (h : (if c then some s else none) = some t) :
    c ∧ s = t := by
  rwa [Option.ite_none_right_eq_some, Option.some.injEq] at h

@[simp] theorem exec_nil (step : σ → α → Option σ) (s : σ) : exec step s [] = some s := rfl

theorem AllSteps.cons {mid : σ} (hok : ok s a) (hstep : step s a = some mid)
    (h : AllSteps step ok mid as) : AllSteps step ok s (a :: as) :=
  ⟨hok, fun _ ht => Option.some.inj (hstep.symm.trans ht) ▸ h⟩

/-- A condition that each label meets in every state. -/
theorem AllSteps.of_forall (h : ∀ a ∈ as, ∀ s, ok s a) : AllSteps step ok s as := by
  induction as generalizing s with
  | nil => trivial
  | cons a as ih =>
    exact ⟨h a List.mem_cons_self s, fun _ _ => ih fun b hb => h b (List.mem_cons_of_mem _ hb)⟩

theorem exec_cons_eq_some : exec step s (a :: as) = some t ↔
      ∃ mid, step s a = some mid ∧ exec step mid as = some t := by
  constructor
  · intro h
    rw [exec] at h
    split at h
    · simp at h
    · rename_i mid hmid
      exact ⟨mid, hmid, h⟩
  · rintro ⟨mid, hstep, hrest⟩
    rw [exec, hstep]
    exact hrest

/-- A run splits at every cut point of its label list. -/
theorem exec_append_eq_some : exec step s (as ++ bs) = some t ↔
      ∃ mid, exec step s as = some mid ∧ exec step mid bs = some t := by
  induction as generalizing s with
  | nil => simp
  | cons a as ih =>
    rw [List.cons_append, exec_cons_eq_some]
    constructor
    · rintro ⟨next, hstep, hrest⟩
      obtain ⟨mid, hleft, hright⟩ := ih.mp hrest
      exact ⟨mid, exec_cons_eq_some.mpr ⟨next, hstep, hleft⟩, hright⟩
    · rintro ⟨mid, hleft, hright⟩
      obtain ⟨next, hstep, hrest⟩ := exec_cons_eq_some.mp hleft
      exact ⟨next, hstep, ih.mpr ⟨mid, hrest, hright⟩⟩

/-- The condition, at every label of the list and the state reached before it. -/
theorem allSteps_iff : AllSteps step ok s as ↔
      ∀ pre a post t, as = pre ++ a :: post → exec step s pre = some t → ok t a := by
  constructor
  · intro meets pre a post t has run
    induction pre generalizing s as with
    | nil =>
      cases run
      subst has
      exact meets.1
    | cons b pre ih =>
      subst has
      obtain ⟨mid, hstep, hrest⟩ := exec_cons_eq_some.mp run
      exact ih (meets.2 mid hstep) rfl hrest
  · intro h
    induction as generalizing s with
    | nil => trivial
    | cons a as ih =>
      refine ⟨h [] a as s rfl rfl, fun mid hstep => ih fun pre b post t has run => ?_⟩
      exact h (a :: pre) b post t (by rw [has]; rfl) (exec_cons_eq_some.mpr ⟨mid, hstep, run⟩)

/-- The condition carries over to the first part of a label list. -/
theorem AllSteps.left (h : AllSteps step ok s (as ++ bs)) : AllSteps step ok s as :=
  allSteps_iff.mpr fun pre a post t has run =>
    allSteps_iff.mp h pre a (post ++ bs) t (by rw [has, List.append_assoc]; rfl) run

theorem AllSteps.and (h : AllSteps step ok s as) (h' : AllSteps step ok' s as) :
    AllSteps step (fun s a => ok s a ∧ ok' s a) s as :=
  allSteps_iff.mpr fun pre a post t has run =>
    ⟨allSteps_iff.mp h pre a post t has run, allSteps_iff.mp h' pre a post t has run⟩

/-- **Invariant rule.**  What holds at the start and is preserved by every step
that meets the condition holds at the end of every run whose steps meet it. -/
theorem exec_invariant (preserved : ∀ s a t, I s → ok s a → step s a = some t → I t) {s t : σ}
    {as : List α} (start : I s)
    (meets : AllSteps step ok s as) (run : exec step s as = some t) : I t := by
  induction as generalizing s with
  | nil =>
    rw [exec_nil, Option.some.injEq] at run
    exact run ▸ start
  | cons a as ih =>
    obtain ⟨mid, hstep, hrest⟩ := exec_cons_eq_some.mp run
    exact ih (preserved s a mid start meets.1 hstep) (meets.2 mid hstep) hrest

/-- The invariant rule for runs with no condition on their steps. -/
theorem exec_invariant_all (preserved : ∀ s a t, I s → step s a = some t → I t) {s t : σ}
    {as : List α} (start : I s) (run : exec step s as = some t) : I t := by
  have meets : AllSteps step (fun _ _ => True) s as := .of_forall fun _ _ _ => trivial
  exact exec_invariant (fun s a t h _ => preserved s a t h) start meets run

/-! ## Runs on fixed inputs -/

section

variable {o : Option σ} {A B : σ → Prop}

/-- What is read off the state a run reaches says the rest. -/
theorem exists_run (view : ∃ s ∈ o, A s) (rest : ∀ s, o = some s → A s → B s) :
    ∃ s, o = some s ∧ B s := by
  obtain ⟨s, hs, hview⟩ := view
  exact ⟨s, hs, rest s hs hview⟩

theorem exists_run_and (view : ∃ s ∈ o, A s) (rest : ∀ s, o = some s → A s → B s) :
    ∃ s, o = some s ∧ A s ∧ B s :=
  exists_run view fun s hs hview => ⟨hview, rest s hs hview⟩

end

/-! ## Tables -/

/-- What is found in a table after one entry was changed: the new entry, or an old one at
another key. -/
theorem update_cases {κ β : Type} [DecidableEq κ] {f : κ → β} {k x : κ} {b y : β}
    (h : Function.update f k b x = y) : x = k ∧ b = y ∨ x ≠ k ∧ f x = y := by
  by_cases hx : x = k
  · exact .inl ⟨hx, by rwa [hx, Function.update_self] at h⟩
  · exact .inr ⟨hx, by rwa [Function.update_of_ne hx] at h⟩

end ArcKernel.Foundation
