import EndpointSecurity.Spec.ClientLogs

/-!
# Message references are balanced

A callback retains its message once, and one of three paths releases it: the callback itself
when the queue is full, `message_release` for a wrapper, and `client_close_native` for what it
drains. A valid wrapper owns its slot; an invalid one does not get near it again.

## Key results

- `references_balanced`: the statement for every reachable state
-/

namespace EndpointSecurity

open TransitionSystem (Reachable)

variable {cfg : Config} {s s' : State} {p : Nat}

/-- The wrapper that a method is called on. -/
def Call.target : Call → Option Nat
  | .respond p _ | .read p | .retain p | .release p | .autoRelease p | .free p => some p
  | .drain _ | .wake | .close => none

/-- `s'` is `s` but for what has been returned to Ruby: the method has raised, or has returned
    without doing anything. -/
structure State.Untouched (s s' : State) : Prop where
  queue : s'.queue = s.queue
  history : s'.history = s.history
  ruby : s'.ruby = .idle
  result : s'.result = .raised .messageReleased ∨ s'.result = .nil

theorem State.Untouched.release (stats : Stats) (caller : ReleaseCaller)
    (hp : (s.wrapper p).valid = false) : s.Untouched ({ s with stats }.releaseCall p caller) := by
  simp only [releaseCall, hp, Bool.false_eq_true, if_false]
  exact ⟨rfl, rfl, rfl, .inr rfl⟩

/-- A method called on an invalid wrapper touches neither its slot nor a message. -/
theorem callStep_invalid {call : Call} (htarget : call.target = some p)
    (hp : (s.wrapper p).valid = false) (hstep : callStep cfg call s = some s') :
    s.Untouched s' := by
  have huntouched (result : RubyResult) (h : result = .raised .messageReleased ∨ result = .nil) :
      s.Untouched (s.finish result) := ⟨rfl, rfl, rfl, h⟩
  simp only [callStep] at hstep
  split_ifs at hstep
  cases call with
  | respond r verdict | read r | retain r =>
    cases htarget
    simp only [beginCall, hp, Bool.not_false, if_true] at hstep
    split_ifs at hstep
    cases hstep
    exact huntouched _ (.inl rfl)
  | release r =>
    cases htarget
    simp only [beginCall] at hstep
    split_ifs at hstep
    cases hstep
    exact .release s.stats _ hp
  | autoRelease r =>
    cases htarget
    simp only [beginCall] at hstep
    split_ifs at hstep <;> cases hstep
    · exact huntouched _ (.inr rfl)
    · exact .release s.stats _ hp
  | free r =>
    cases htarget
    simp only [beginCall] at hstep
    split_ifs at hstep <;> cases hstep
    all_goals exact .release _ _ hp
  | drain maximum | wake | close => cases htarget

/-- Where a position is when the client is at rest and has no valid wrappers left. -/
theorem SlotsInv.stage_at_rest (h : SlotsInv cfg s) (hclosing : Closing s) (hclosed : s.closed)
    (hidle : s.ruby = .idle) (hinvalid : (s.wrapper p).valid = false) :
    s.history.stage p = .unclaimed ∨ s.history.stage p = .released := by
  have hworked : (s.history.stage p).worked = false := by
    by_contra hworked
    have hholds := h.ruby.held p (by simpa using hworked)
    rw [hidle] at hholds
    cases hholds
  have hqueued : s.history.stage p ≠ .queued :=
    hclosing.emptied hclosed (by rw [hidle]; decide) p
  have htaken : s.history.stage p ≠ .taken := by
    intro hst
    rw [h.ruby.taken p hst] at hinvalid
    cases hinvalid
  have hheld := h.callbacks.not_held_of_quiet (hclosing.quiet_at_rest hclosed hidle) p
  cases hst : s.history.stage p <;> simp_all [Stage.worked, Stage.held]

/-- A message that was retained has been released when its position has. -/
theorem SlotsInv.life_at_rest (h : SlotsInv cfg s) (hquiet : ∀ k, (s.callback k).quiet)
    (hstage : ∀ p, s.history.stage p = .unclaimed ∨ s.history.stage p = .released) (m : Nat) :
    (s.life cfg m).released = (s.life cfg m).retained := by
  rw [State.life]
  cases hpos : (s.callback m).position with
  | none =>
    have hrest := hquiet m
    cases hpc : s.callback m <;> simp only [hpc, CallbackPc.quiet, Bool.false_eq_true] at hrest
    case absent | loadClosed | refuse => rfl
    case leave outcome =>
      cases outcome with
      | refused => rfl
      | dropped | queued => simp at hrest
    case returned outcome =>
      cases outcome with
      | refused | dropped => rfl
      | queued p => simp [hpc, CallbackPc.position] at hpos
  | some p =>
    obtain ⟨hclaimed, -⟩ := h.callbacks.position m p hpos
    simp only [(hstage p).resolve_left hclaimed, Stage.dropped]

/-- Once the client is closed and no wrapper is valid, every message that was retained has been
    released. -/
theorem released_at_rest (hs : Reachable (step cfg) (.init cfg) s) (hclosed : s.closed)
    (hidle : s.ruby = .idle) (hinvalid : ∀ p, (s.wrapper p).valid = false) (m : Nat) :
    (s.history.log m).count .release = (s.history.log m).count .retain := by
  have hslots := reachable_slots hs
  have hclosing := reachable_closing hs
  have hcounts := Life.of_counts ((reachable_logs hs).life m)
  rw [hcounts.retain, hcounts.release,
    hslots.life_at_rest (hclosing.quiet_at_rest hclosed hidle) fun p =>
      hslots.stage_at_rest hclosing hclosed hidle (hinvalid p)]

/-- In every reachable state:
    - a message is retained once and released once at most, and only after it was retained;
    - its release is the last thing that happens to it;
    - the slot of a valid wrapper holds the message it was wrapped around, which has not been
      released unless the wrapper is just being released;
    - what is read through a wrapper is the message it was wrapped around;
    - an invalid wrapper is not being worked on, and its methods touch nothing;
    - once the client is closed, all callbacks have returned and no wrapper is valid, every
      message that was retained has been released. -/
theorem references_balanced (hs : Reachable (step cfg) (.init cfg) s) :
    (∀ m, (s.history.log m).count .retain ≤ 1 ∧
      (s.history.log m).count .release ≤ (s.history.log m).count .retain) ∧
    (∀ m later earlier, s.history.log m = later ++ .release :: earlier → later = []) ∧
    (∀ p, (s.wrapper p).valid → (s.queue.slot p).position = p ∧
      (s.queue.slot p).message = (s.wrapper p).message ∧
      (s.ruby.releasing ≠ some p → .release ∉ s.history.log (s.wrapper p).message)) ∧
    (∀ m p, .read p ∈ s.history.log m → (s.wrapper p).live → (s.wrapper p).message = m) ∧
    (∀ p, (s.wrapper p).live → (s.wrapper p).valid = false →
      (∀ st, s.ruby.holds ≠ some (p, st)) ∧
      ∀ call s', call.target = some p → callStep cfg call s = some s' → s.Untouched s') ∧
    (s.closed → s.ruby = .idle → (∀ k, (s.callback k).resting) →
      (∀ p, (s.wrapper p).valid = false) →
      ∀ m, (s.history.log m).count .release = (s.history.log m).count .retain) := by
  have hslots := reachable_slots hs
  have h := reachable_logs hs
  have hcounts := fun m => Life.of_counts (h.life m)
  refine ⟨fun m => ?_, fun m later earlier hlog => ?_, fun p hp => ?_, fun m p hread hlive => ?_,
    fun p hlive hp => ⟨fun st hholds => ?_, fun call s' htarget hstep =>
      callStep_invalid htarget hp hstep⟩,
    fun hclosed hidle _ hinvalid => released_at_rest hs hclosed hidle hinvalid⟩
  · rw [(hcounts m).retain, (hcounts m).release]
    exact ⟨Bool.toNat_le _, Bool.toNat_le_toNat (hcounts m).retained⟩
  · have hlife := h.life m
    rw [hlog] at hlife
    exact Life.of_release hlife
  · have hst := hslots.ruby.valid p hp
    have hactive : (s.history.stage p).phase.active ∧ (s.history.stage p).full := by
      obtain hst | hrel := hst
      · rw [hst]
        decide
      · obtain ⟨st, hholds, hworked⟩ := RubyPc.holds_of_releasing hrel
        rw [hslots.ruby.holds p st hholds]
        cases st <;> simp_all [Stage.worked, Stage.phase, SeqRing.Phase.active, Stage.full]
    have hslot := hslots.slots.slot p
    obtain ⟨hclaimed, howner, -⟩ := h.wrapped p (h.live p hp)
    refine ⟨hslot.position hactive.1, (hslot.full hactive.2).1.trans howner.symm, fun hrel => ?_⟩
    -- Ruby holds the position, so its message has not been dropped
    have htaken := hst.resolve_right hrel
    rw [howner, ← List.count_eq_zero, (hcounts _).release, State.life_owner hslots hclaimed, htaken]
    rfl
  · obtain ⟨-, howner⟩ := h.proper m _ hread
    rw [(h.wrapped p hlive).2.1, howner]
  · have hst := hslots.ruby.holds p st hholds
    obtain hvalid | hreleased := (h.wrapped p hlive).2.2
    · rw [hvalid] at hp
      cases hp
    · rw [hreleased] at hst
      subst hst
      obtain htaken | hworked := RubyPc.stage_of_holds hholds
      · cases htaken
      · cases hworked

/-- An AUTH message is delivered and released, and then the client is closed. -/
def closeReleased : List Action :=
  callbackSteps 0 19 ++ [Action.call (.drain 1)] ++ List.replicate 9 (Action.ruby {}) ++
    [Action.call (.release 0)] ++ List.replicate 9 (Action.ruby {}) ++ [Action.call .close] ++
    List.replicate 2 (Action.ruby {}) ++ List.replicate 2 (Action.watchdog {}) ++
    List.replicate 7 (Action.ruby {}) ++ List.replicate 2 (Action.watchdog {}) ++
    List.replicate 3 (Action.ruby {})

theorem references_balanced_released :
    let s := TransitionSystem.final (step smallClient) closeReleased (.init smallClient)
      (by decide +kernel)
    (s.history.log 0).count .retain = 1 ∧
      (s.history.log 0).count .release = (s.history.log 0).count .retain := by
  intro s
  have hs : Reachable (step smallClient) (.init smallClient) s := .final _
  refine ⟨by decide +kernel, (references_balanced hs).2.2.2.2.2 (by decide +kernel)
    (by decide +kernel) ((reachable_closing hs).resting (by decide +kernel)) (fun p => ?_) 0⟩
  have hslots := reachable_slots hs
  refine hslots.invalid (fun htaken => ?_) (by decide +kernel)
  -- Only position 0 has ever been claimed
  have hlt := hslots.slots.ring.active_lt (p := p) (by rw [htaken]; rfl)
  obtain rfl : p = 0 := Nat.lt_one_iff.mp (Nat.lt_of_lt_of_le hlt (by decide +kernel))
  revert htaken
  decide +kernel

end EndpointSecurity
