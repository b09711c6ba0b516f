import EndpointSecurity.Ruby.RunLoop
import Mathlib.Tactic.SplitIfs

/-!
# Stop requests and the dispatcher thread

`run` sets `@running` when the new thread gets to it, which may be after `stop` has cleared
it. Then the dispatcher loops on while the caller waits in `join`. When the dispatcher has
set the flag first, a stop request is never lost.

## Key results

- `stop_lost`: the interleaving that loses a stop request
- `stop_kept`: no stop request is lost in a run that never clears the flag too early
-/

namespace EndpointSecurity.RunLoop

open TransitionSystem (Reachable)

/-- A requested stop is in effect: the dispatcher finds its loop condition false whenever it
    tests it, and once the loop body returns it needs no more than three steps of its own to
    finish, so that the caller's `join` returns. -/
def StopInEffect (s : State) : Prop :=
  s.stopRequested → (s.dispatcher = .test → ¬ s.loopCondition) ∧
    ∀ body body' body'', s.dispatcher ≠ .body →
      ∃ n ≤ 3, ∃ s', dispatchAlone ([body, body', body''].take n) s = some s' ∧
        s'.dispatcher = .finished

/-- `start`, then `stop` on the main thread up to its `join`, then the new thread sets
    `@running` and enters its loop. -/
def stopBeforeRun : List Action :=
  [.call false, .caller, .caller, .caller, .dispatcher .returns, .dispatcher .returns]

/-- A stop request can be lost: a state is reachable in which the caller waits in `join` and
    the dispatcher, at its test, finds the condition true, and stays so through every further
    pass through the loop. -/
theorem stop_lost : ¬ ∀ s, Reachable step .init s → StopInEffect s := by
  intro hall
  have h := hall (TransitionSystem.final step stopBeforeRun .init (by decide)) (.final _)
  exact (h (by decide)).1 (by decide) (by decide)

/-- The condition on a step: the caller does not clear `@running` while the new thread has
    yet to set it. -/
def ClearsAfterSet (a : Action) (s : State) : Prop :=
  a = .caller → s.caller = .clearRunning → s.dispatcher ≠ .created

instance (a : Action) (s : State) : Decidable (ClearsAfterSet a s) :=
  inferInstanceAs (Decidable (_ → _ → _))

/-- The steps that meet the condition. -/
def orderedStep (a : Action) (s : State) : Option State :=
  if ClearsAfterSet a s then step a s else none

/-- Once a stop is requested, the flag is down and the dispatcher is past raising it. -/
def FlagDown (s : State) : Prop :=
  s.stopRequested → s.running = false ∧ s.dispatcher ≠ .created

/-- A step of the dispatcher leaves the state `created`, and raises the flag from there only. -/
theorem dispatcherStep_cases {body : Body} {s s' : State} (h : dispatcherStep body s = some s') :
    s'.dispatcher ≠ .created ∧ s'.stopRequested = s.stopRequested ∧
      (s'.running = true → s.running = true ∨ s.dispatcher = .created) := by
  unfold dispatcherStep at h
  cases hpc : s.dispatcher with
  | created => simp only [hpc, Option.some.injEq] at h; subst h; simp
  | openWakeup =>
    simp only [hpc] at h
    split at h <;> cases h <;> simp
  | test => simp only [hpc, Option.some.injEq] at h; subst h; grind
  | body => cases body <;> simp only [hpc, Option.some.injEq] at h <;> subst h <;> simp
  | ensure => simp only [hpc, Option.some.injEq] at h; subst h; simp
  | finished => simp [hpc] at h

/-- A step of the caller leaves the dispatcher alone, and lowers the flag when it requests the
    stop. -/
theorem callerStep_cases {s s' : State} (h : callerStep s = some s') :
    s'.dispatcher = s.dispatcher ∧
      (s'.running = s.running ∧ s'.stopRequested = s.stopRequested ∨
        s.caller = .clearRunning ∧ s'.running = false) := by
  unfold callerStep at h
  cases hpc : s.caller <;> simp only [hpc, Option.some.injEq, reduceCtorEq] at h
  case join =>
    split at h
    · split at h <;> cases h <;> simp
    · cases h
  all_goals subst h; simp

theorem orderedStep_flagDown {a : Action} {s s' : State} (h : FlagDown s)
    (hstep : orderedStep a s = some s') : FlagDown s' := by
  simp only [orderedStep] at hstep
  split_ifs at hstep with hok
  intro hreq
  cases a with
  | dispatcher body =>
    obtain ⟨hpc, hstop, hrun⟩ := dispatcherStep_cases hstep
    have hdown := h (hstop ▸ hreq)
    exact ⟨by grind, hpc⟩
  | call closing =>
    simp only [step] at hstep
    split_ifs at hstep
    cases hstep
    exact h hreq
  | caller =>
    obtain ⟨hpc, ⟨hrun, hstop⟩ | ⟨hclear, hrun⟩⟩ := callerStep_cases hstep
    · rw [hrun, hpc]
      exact h (hstop ▸ hreq)
    · exact ⟨hrun, hpc ▸ hok rfl hclear⟩

/-- With the flag down and the dispatcher past raising it, a requested stop is in effect. -/
theorem FlagDown.stopInEffect {s : State} (h : FlagDown s) : StopInEffect s := by
  intro hreq
  obtain ⟨hrun, hcreated⟩ := h hreq
  refine ⟨fun _ => by simp [State.loopCondition, hrun], fun body body' body'' hbody => ?_⟩
  have hloop : s.loopCondition = false := by simp [State.loopCondition, hrun]
  cases hpc : s.dispatcher with
  | created => exact absurd hpc hcreated
  | openWakeup =>
    cases hclosed : s.closed with
    | true =>
      exact ⟨2, by decide, by simp [dispatchAlone, TransitionSystem.run, step, dispatcherStep, *]⟩
    | false =>
      exact ⟨3, by decide, by
        simp [dispatchAlone, TransitionSystem.run, step, dispatcherStep, State.loopCondition, *]⟩
  | test =>
    exact ⟨2, by decide, by simp [dispatchAlone, TransitionSystem.run, step, dispatcherStep, *]⟩
  | body => exact absurd hpc hbody
  | ensure =>
    exact ⟨1, by decide, by simp [dispatchAlone, TransitionSystem.run, step, dispatcherStep, *]⟩
  | finished => exact ⟨0, by decide, s, rfl, hpc⟩

/-- In every run whose steps all meet the condition, a requested stop is in effect in every
    state reached. -/
theorem stop_kept {s : State} (hs : Reachable orderedStep .init s) : StopInEffect s := by
  have hflag : FlagDown s := by
    apply hs.invariant (I := FlagDown)
    · exact fun hreq => absurd hreq (by decide)
    · exact fun _ _ _ _ h hstep => orderedStep_flagDown h hstep
  exact hflag.stopInEffect

/-- `start`, one pass through the loop, then `close` on the main thread up to its `join`. -/
def stopAfterRun : List Action :=
  [.dispatcher .returns, .dispatcher .returns, .dispatcher .returns, .call true, .caller, .caller,
    .caller, .dispatcher .returns]

theorem stop_kept_close :
    ∃ s, (Reachable orderedStep .init s ∧ s.stopRequested ∧ s.caller = .join ∧
      s.dispatcher = .test) ∧ StopInEffect s :=
  let s := TransitionSystem.final orderedStep stopAfterRun .init (by decide)
  have hs : Reachable orderedStep .init s := .final _
  ⟨s, ⟨hs, by decide, by decide, by decide⟩, stop_kept hs⟩

end EndpointSecurity.RunLoop
