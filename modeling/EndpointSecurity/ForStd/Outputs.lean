import EndpointSecurity.ForStd.TransitionSystem

/-!
# What the steps of a run put out

A step of a transition system may put something out: a value that a call returns, a line that is
printed. This file collects the outputs of a run, and gives the induction principle for
statements that relate them to the state that the run has reached.

## Key results

- `run_append`: runs can be cut
- `Reachable.exists_run`: every reachable state is the end of a run
- `outputs_invariant`: an invariant of the states and of what has been put out so far
-/

namespace TransitionSystem

variable {σ α β : Type _} {step : α → σ → Option σ} {emit : σ → α → σ → List β}

/-- What the actions of a run put out, each of them `emit` of the state before it, the action and
    the state after it. -/
def outputs (step : α → σ → Option σ) (emit : σ → α → σ → List β) : List α → σ → List β
  | [], _ => []
  | a :: as, s =>
    match step a s with
    | none => []
    | some s' => emit s a s' ++ outputs step emit as s'

/-- A run of one part and then of another. -/
theorem run_append (as bs : List α) (s : σ) :
    run step (as ++ bs) s = (run step as s).bind (run step bs) := by
  induction as generalizing s with
  | nil => rfl
  | cons a as ih =>
    rw [List.cons_append, run, run, Option.bind_assoc]
    congr 1
    funext s'
    exact ih s'

/-- Every reachable state is the end of a run. -/
theorem Reachable.exists_run {init s : σ} (hs : Reachable step init s) :
    ∃ as, TransitionSystem.run step as init = some s := by
  induction hs with
  | init => exact ⟨[], rfl⟩
  | @step t t' a _ hstep ih =>
    obtain ⟨as, hrun⟩ := ih
    refine ⟨as ++ [a], ?_⟩
    rw [run_append, hrun, Option.bind_some, TransitionSystem.run, hstep]
    rfl

/-- What holds of the initial state with nothing put out, and is kept by every step with what
    that step puts out, holds of every run. -/
theorem outputs_invariant {init s : σ} {as : List α} {I : σ → List β → Prop}
    (hrun : run step as init = some s) (hinit : I init [])
    (hstep : ∀ s a s' out, Reachable step init s → I s out → step a s = some s' →
      I s' (out ++ emit s a s')) : I s (outputs step emit as init) := by
  have hgeneral : ∀ as t out, Reachable step init t → I t out → run step as t = some s →
      I s (out ++ outputs step emit as t) := by
    intro as
    induction as with
    | nil =>
      intro t out _ hI hrun
      cases hrun
      rwa [outputs, List.append_nil]
    | cons a as ih =>
      intro t out ht hI hrun
      obtain ⟨t', ht', hrun⟩ := Option.bind_eq_some_iff.mp hrun
      have hlater := ih t' _ (ht.step ht') (hstep t a t' out ht hI ht') hrun
      rwa [outputs, ht', ← List.append_assoc]
  exact hgeneral as init [] .init hinit hrun

end TransitionSystem
