/-!
# Runs of a transition function

A transition function `step : α → σ → Option σ` takes an action and a state; `none` means
that the action is not enabled. This file defines its runs and its reachable states, and
gives the induction principle through which every invariant of a run is proved.
-/

namespace TransitionSystem

variable {σ α : Type _} (step : α → σ → Option σ)

/-- Perform a list of actions, or fail at the first one that is not enabled. -/
def run : List α → σ → Option σ
  | [], s => some s
  | a :: as, s => (step a s).bind (run as)

/-- The states that some finite run from `init` ends in. -/
inductive Reachable (init : σ) : σ → Prop where
  | init : Reachable init init
  | step {s s' : σ} {a : α} : Reachable init s → step a s = some s' → Reachable init s'

variable {step}

/-- A run that starts in a reachable state ends in one. -/
theorem Reachable.run {init s s' : σ} {as : List α} (hs : Reachable step init s)
    (h : run step as s = some s') : Reachable step init s' := by
  induction as generalizing s with
  | nil => cases h; exact hs
  | cons a as ih =>
    obtain ⟨t, ht, h⟩ := Option.bind_eq_some_iff.mp h
    exact ih (hs.step ht) h

/-- What a run from the initial state ends in is reachable. -/
theorem Reachable.of_run {init s : σ} {as : List α}
    (h : TransitionSystem.run step as init = some s) : Reachable step init s :=
  Reachable.init.run h

/-- The state that a run from `init` ends in, for runs that are known to go through. -/
def final (step : α → σ → Option σ) (as : List α) (init : σ)
    (h : (TransitionSystem.run step as init).isSome) : σ :=
  (TransitionSystem.run step as init).get h

theorem Reachable.final {init : σ} {as : List α} (h : (TransitionSystem.run step as init).isSome) :
    Reachable step init (final step as init h) :=
  .of_run (Option.some_get h).symm

/-- A property of the initial state that every step from a reachable state preserves
    holds in every reachable state. -/
theorem Reachable.invariant {init s : σ} {I : σ → Prop} (hs : Reachable step init s)
    (hinit : I init)
    (hstep : ∀ s a s', Reachable step init s → I s → step a s = some s' → I s') : I s := by
  induction hs with
  | init => exact hinit
  | step hs h ih => exact hstep _ _ _ hs ih h

/-! ## Some of the steps -/

/-- The transition function with only those steps that meet a condition. -/
def restrict (allowed : α → σ → Prop) [∀ a s, Decidable (allowed a s)]
    (step : α → σ → Option σ) (a : α) (s : σ) : Option σ :=
  if allowed a s then step a s else none

section
variable {allowed : α → σ → Prop} [∀ a s, Decidable (allowed a s)] {a : α} {s s' : σ}

theorem restrict_eq_some :
    restrict allowed step a s = some s' ↔ allowed a s ∧ step a s = some s' := by
  by_cases ha : allowed a s
  · rw [restrict, if_pos ha, and_iff_right ha]
  · rw [restrict, if_neg ha]
    exact ⟨nofun, fun h => absurd h.1 ha⟩

/-- A run of some of the steps is a run. -/
theorem Reachable.of_restrict {init : σ} (hs : Reachable (restrict allowed step) init s) :
    Reachable step init s := by
  induction hs with
  | init => exact .init
  | step _ h ih => exact ih.step (restrict_eq_some.mp h).2

end

/-! ## One party alone -/

/-- Performing one action alone, at most `n` times, leads to a state with the property. -/
def Finishes (step : α → σ → Option σ) (a : α) (P : σ → Prop) (n : Nat) (s : σ) : Prop :=
  ∃ m ≤ n, ∃ s', TransitionSystem.run step (List.replicate m a) s = some s' ∧ P s'

section
variable {P : σ → Prop} {a : α} {n : Nat} {s s' : σ}

theorem Finishes.now (h : P s) : Finishes step a P n s := ⟨0, Nat.zero_le n, s, rfl, h⟩

theorem Finishes.next (hstep : step a s = some s') (h : Finishes step a P n s') :
    Finishes step a P (n + 1) s := by
  obtain ⟨m, hm, t, ht, hP⟩ := h
  refine ⟨m + 1, Nat.succ_le_succ hm, t, ?_, hP⟩
  rw [List.replicate_succ, TransitionSystem.run, hstep, Option.bind_some, ht]

end

end TransitionSystem
