import EndpointSecurity.Spec.ClientSlots
import Mathlib.Data.Finset.Card

/-!
# The stages of a close

`client_close_native` waits for the callbacks, then for the watchdog, then answers what is
left, then empties the queue. The invariant says what may be relied on from each of these
stages on, in the rest of the close and for ever after.

## Key results

- `Closing`: what each stage of a close guarantees
- `reachable_closing`: the invariant holds in every reachable state
-/

namespace EndpointSecurity

open TransitionSystem (Reachable)

/-- The stage of `client_close_native` that a native method is in; 5 is the last one, and the
    stage of all that is not part of a close. -/
def RubyPc.closeStage : RubyPc → Nat
  | .awaitCallbacks => 1
  | .stopWatchdog | .awaitWatchdog => 2
  | .answerOccupied _ | .answerExchange _ | .answerSend _ => 3
  | .closeDequeue _ | .closeExchange _ | .closeSend _ | .closeMessage _ | .queueDisarm _ .close
  | .queueAwait _ .close | .queueStore _ .close => 4
  | _ => 5

/-- Counted in `active_callbacks`. -/
def CallbackPc.inside : CallbackPc → Bool
  | .absent | .returned _ => false
  | _ => true

/-- The callback has not begun yet, or has returned. -/
def CallbackPc.resting : CallbackPc → Bool
  | .absent | .returned _ => true
  | _ => false

/-- The callback does not touch the queue, and will not if the client is closed. -/
def CallbackPc.quiet : CallbackPc → Bool
  | .absent | .loadClosed | .refuse | .leave .refused | .returned _ => true
  | _ => false

/-- The watchdog thread has left `esrb_watchdog_main`. -/
def WatchdogPc.halted : WatchdogPc → Bool
  | .stopped | .asleep | .deleting | .deleted => true
  | _ => false

/-- The invariant of every run. -/
structure Closing (s : State) : Prop where
  active : ∃ inside : Finset Nat, inside.card = s.activeCallbacks ∧
    ∀ k, k ∈ inside ↔ (s.callback k).inside
  closed : s.ruby.closeStage < 5 → s.closed
  quiet : s.closed → 2 ≤ s.ruby.closeStage → ∀ k, (s.callback k).quiet
  stopped : s.watchdogStopped = s.watchdog.halted
  halted : s.closed → 3 ≤ s.ruby.closeStage → s.watchdogStopped
  emptied : s.closed → 5 ≤ s.ruby.closeStage → ∀ p, s.history.stage p ≠ .queued

theorem closing_init (cfg : Config) : Closing (.init cfg) where
  active := ⟨∅, rfl, by simp [State.init, CallbackPc.inside]⟩
  closed := by simp [State.init, RubyPc.closeStage]
  quiet := by simp [State.init]
  stopped := rfl
  halted := by simp [State.init]
  emptied := by simp [State.init]

/-! ## One step -/

variable {cfg : Config} {s s' : State} {k : Nat} {i : Input}

/-- A step of a callback. -/
theorem Closing.callback (h : Closing s) {pc : CallbackPc}
    (hcallback : s'.callback = Function.update s.callback k pc)
    (hactive : ∀ inside : Finset Nat, inside.card = s.activeCallbacks →
      (k ∈ inside ↔ (s.callback k).inside) →
      ∃ inside' : Finset Nat, inside'.card = s'.activeCallbacks ∧ (k ∈ inside' ↔ pc.inside) ∧
        ∀ j, j ≠ k → (j ∈ inside' ↔ j ∈ inside))
    (hquiet : s.closed → (s.callback k).quiet → pc.quiet)
    (hqueued : (s.callback k).quiet → ∀ p, s'.history.stage p = .queued →
      s.history.stage p = .queued)
    (hsame : s'.closed = s.closed ∧ s'.ruby = s.ruby ∧ s'.watchdogStopped = s.watchdogStopped ∧
      s'.watchdog = s.watchdog := by exact ⟨rfl, rfl, rfl, rfl⟩) : Closing s' := by
  obtain ⟨hclosed, hruby, hstopped, hwatchdog⟩ := hsame
  obtain ⟨inside, hcard, hmem⟩ := h.active
  obtain ⟨inside', hcard', hself, hother⟩ := hactive inside hcard (hmem k)
  constructor
  case active =>
    refine ⟨inside', hcard', fun j => ?_⟩
    rw [hcallback]
    rcases eq_or_ne j k with rfl | hne
    · rw [hself, Function.update_self]
    · rw [hother j hne, hmem, Function.update_of_ne hne]
  case closed => rw [hruby, hclosed]; exact h.closed
  case quiet =>
    rw [hruby, hclosed, hcallback]
    intro hc hstage j
    rcases eq_or_ne j k with rfl | hne
    · rw [Function.update_self]
      exact hquiet hc (h.quiet hc hstage j)
    · rw [Function.update_of_ne hne]
      exact h.quiet hc hstage j
  case stopped => rw [hstopped, hwatchdog]; exact h.stopped
  case halted => rw [hclosed, hruby, hstopped]; exact h.halted
  -- A quiet callback queues nothing, and after the wait of the close they are all quiet
  case emptied =>
    rw [hclosed, hruby]
    exact fun hc hstage p hp =>
      h.emptied hc hstage p (hqueued (h.quiet hc (by omega) k) p hp)

/-- A step of a callback that does not change whether it is counted, nor what is queued. -/
theorem Closing.callbackFrame (h : Closing s) {pc : CallbackPc}
    (hcallback : s'.callback = Function.update s.callback k pc)
    (hinside : pc.inside = (s.callback k).inside)
    (hquiet : s.closed → (s.callback k).quiet → pc.quiet)
    (hqueued : (s.callback k).quiet → s'.history.stage = s.history.stage)
    (hsame : s'.closed = s.closed ∧ s'.ruby = s.ruby ∧ s'.watchdogStopped = s.watchdogStopped ∧
      s'.watchdog = s.watchdog ∧ s'.activeCallbacks = s.activeCallbacks := by
        exact ⟨rfl, rfl, rfl, rfl, rfl⟩) : Closing s' := by
  obtain ⟨hclosed, hruby, hstopped, hwatchdog, hactive⟩ := hsame
  refine h.callback hcallback (fun inside hcard hk => ?_) hquiet (fun hq p hp => hqueued hq ▸ hp)
    ⟨hclosed, hruby, hstopped, hwatchdog⟩
  exact ⟨inside, hactive ▸ hcard, hinside ▸ hk, fun _ _ => Iff.rfl⟩

theorem callbackStep_closing (h : Closing s) (hstep : callbackStep cfg k i s = some s') :
    Closing s' := by
  cases hpc : s.callback k with
  -- `active_callbacks` goes up before `closed` is read, so the close cannot miss the callback
  | absent =>
    simp only [callbackStep, hpc, Option.some.injEq] at hstep
    subst hstep
    refine h.callback rfl (fun inside hcard hk => ?_) (fun _ _ => rfl) (fun _ _ => id)
    rw [hpc] at hk
    have hnot : k ∉ inside := fun hmem => absurd (hk.mp hmem) (by rintro ⟨⟩)
    exact ⟨insert k inside, by rw [Finset.card_insert_of_notMem hnot, hcard],
      by simp [CallbackPc.inside], fun j hj => by simp [hj]⟩
  | leave outcome =>
    simp only [callbackStep, hpc, Option.some.injEq] at hstep
    subst hstep
    refine h.callback rfl (fun inside hcard hk => ?_) (fun _ _ => rfl) (fun _ _ => id)
    rw [hpc] at hk
    exact ⟨inside.erase k, by rw [Finset.card_erase_of_mem (hk.mpr rfl), hcard],
      by simp [CallbackPc.inside], fun j hj => by simp [hj]⟩
  -- A callback that begins after the close reads `closed` and is refused
  | loadClosed =>
    simp only [callbackStep, hpc, Option.some.injEq] at hstep
    subst hstep
    refine h.callbackFrame (k := k) rfl ?_ (fun hc _ => ?_) (fun _ => rfl)
    · rw [hpc]
      split <;> rfl
    · rw [if_pos hc]
      rfl
  | refuse | overflow =>
    simp only [callbackStep, hpc, Option.some.injEq] at hstep
    obtain ⟨stats, log, heq⟩ := s.respondUnqueued_eq cfg i k
    rw [heq] at hstep
    subst hstep
    exact h.callbackFrame rfl (by rw [hpc]; rfl) (by simp [hpc, CallbackPc.quiet]) (fun _ => rfl)
  | retain | drop | fill | publishRequest | respond | loadDequeue | loadDepthMax | storeSequence
  | notifyWrite =>
    simp only [callbackStep, hpc, Option.some.injEq] at hstep
    subst hstep
    exact h.callbackFrame rfl (by rw [hpc]; rfl) (by simp [hpc, CallbackPc.quiet])
      (by simp [hpc, CallbackPc.quiet])
  | enqueue pc =>
    simp only [callbackStep, hpc] at hstep
    cases hres : s.queue.enqueue i.spurious pc <;> simp only [hres, Option.some.injEq] at hstep <;>
      subst hstep
    all_goals
      exact h.callbackFrame rfl (by rw [hpc]; rfl) (by simp [hpc, CallbackPc.quiet])
        (by simp [hpc, CallbackPc.quiet])
  | storeOccupied p =>
    simp only [callbackStep, hpc, Option.some.injEq] at hstep
    subst hstep
    split <;>
      exact h.callbackFrame rfl (by rw [hpc]; rfl) (by simp [hpc, CallbackPc.quiet])
        (by simp [hpc, CallbackPc.quiet])
  | arm p pc =>
    simp only [callbackStep, hpc] at hstep
    cases hres : s.requests.arm i.spurious pc <;> simp only [hres, Option.some.injEq] at hstep <;>
      subst hstep
    all_goals
      exact h.callbackFrame rfl (by rw [hpc]; rfl) (by simp [hpc, CallbackPc.quiet])
        (by simp [hpc, CallbackPc.quiet])
  | answer | raiseDepthMax | notify =>
    simp only [callbackStep, hpc] at hstep
    split_ifs at hstep <;> cases hstep <;>
      exact h.callbackFrame rfl (by rw [hpc]; rfl) (by simp [hpc, CallbackPc.quiet])
        (by simp [hpc, CallbackPc.quiet])
  | returned => simp [callbackStep, hpc] at hstep

/-- A step of the watchdog. -/
theorem Closing.watchdogMove (h : Closing s)
    (hstopped : s'.watchdogStopped = s'.watchdog.halted)
    (hmono : s.watchdogStopped → s'.watchdogStopped)
    (hsame : s'.closed = s.closed ∧ s'.ruby = s.ruby ∧ s'.activeCallbacks = s.activeCallbacks ∧
      s'.callback = s.callback ∧ s'.history.stage = s.history.stage := by
        exact ⟨rfl, rfl, rfl, rfl, rfl⟩) : Closing s' := by
  obtain ⟨hclosed, hruby, hactive, hcallback, hstage⟩ := hsame
  refine ⟨?_, ?_, ?_, hstopped, ?_, ?_⟩
  · rw [hactive, hcallback]; exact h.active
  · rw [hclosed, hruby]; exact h.closed
  · rw [hclosed, hruby, hcallback]; exact h.quiet
  · rw [hclosed, hruby]; exact fun hc hst => hmono (h.halted hc hst)
  · rw [hclosed, hruby, hstage]; exact h.emptied

theorem watchdogStep_closing (h : Closing s) (hstep : watchdogStep cfg i s = some s') :
    Closing s' := by
  have hstopped := h.stopped
  cases hpc : s.watchdog with
  | loadRunning | popSequence | loadOccupied | stopped =>
    simp only [watchdogStep, hpc, Option.some.injEq] at hstep
    rw [hpc] at hstopped
    subst hstep
    refine h.watchdogMove (hstopped.trans ?_) id
    dsimp only
    split <;> rfl
  | popLoad | popStore | popRelease | addReader | respond | count | notifyWrite | subReader | wait
  | deleting =>
    simp only [watchdogStep, hpc, Option.some.injEq] at hstep
    rw [hpc] at hstopped
    subst hstep
    exact h.watchdogMove hstopped id
  -- `stopped` is set by the last step of the thread, and nothing resets it
  | exiting =>
    simp only [watchdogStep, hpc, Option.some.injEq] at hstep
    subst hstep
    exact h.watchdogMove rfl (fun _ => rfl)
  | clock | recheck | exchange | notify | asleep =>
    simp only [watchdogStep, hpc] at hstep
    rw [hpc] at hstopped
    split_ifs at hstep <;> cases hstep <;>
      exact h.watchdogMove hstopped id
  | deleted => simp [watchdogStep, hpc] at hstep

/-- A step of a native method. What its new stage promises must hold already or come true. -/
theorem Closing.ruby (h : Closing s)
    (hclosed : s'.ruby.closeStage < 5 → s'.closed)
    (hquiet : s'.closed → 2 ≤ s'.ruby.closeStage → s.closed ∧ 2 ≤ s.ruby.closeStage ∨
      ∀ k, (s.callback k).quiet)
    (hhalted : s'.closed → 3 ≤ s'.ruby.closeStage → s.closed ∧ 3 ≤ s.ruby.closeStage ∨
      s.watchdogStopped)
    (hemptied : s'.closed → 5 ≤ s'.ruby.closeStage → ∀ p, s'.history.stage p ≠ .queued)
    (hsame : s'.callback = s.callback ∧ s'.watchdog = s.watchdog ∧
      s'.watchdogStopped = s.watchdogStopped ∧ s'.activeCallbacks = s.activeCallbacks := by
        exact ⟨rfl, rfl, rfl, rfl⟩) : Closing s' := by
  obtain ⟨hcallback, hwatchdog, hstopped, hactive⟩ := hsame
  refine ⟨?_, hclosed, fun hc hst => ?_, ?_, fun hc hst => ?_, hemptied⟩
  · rw [hactive, hcallback]; exact h.active
  · rw [hcallback]
    rcases hquiet hc hst with ⟨hc, hst⟩ | hquiet
    · exact h.quiet hc hst
    · exact hquiet
  · rw [hwatchdog, hstopped]; exact h.stopped
  · rw [hstopped]
    rcases hhalted hc hst with ⟨hc, hst⟩ | hhalted
    · exact h.halted hc hst
    · exact hhalted

/-- A step of a native method that stays in its stage of a close and queues nothing. -/
theorem Closing.rubyFrame (h : Closing s)
    (hstage : s'.ruby.closeStage = s.ruby.closeStage)
    (hqueued : ∀ p, s'.history.stage p = .queued → s.history.stage p = .queued)
    (hsame : s'.callback = s.callback ∧ s'.watchdog = s.watchdog ∧
      s'.watchdogStopped = s.watchdogStopped ∧ s'.activeCallbacks = s.activeCallbacks ∧
      s'.closed = s.closed := by exact ⟨rfl, rfl, rfl, rfl, rfl⟩) : Closing s' := by
  obtain ⟨hcallback, hwatchdog, hstopped, hactive, hclosed⟩ := hsame
  refine h.ruby ?_ ?_ ?_ ?_ ⟨hcallback, hwatchdog, hstopped, hactive⟩ <;> rw [hstage, hclosed]
  · exact h.closed
  · exact fun hc hst => .inl ⟨hc, hst⟩
  · exact fun hc hst => .inl ⟨hc, hst⟩
  · exact fun hc hst p hp => h.emptied hc hst p (hqueued p hp)

/-- Moving a position on to any other stage queues nothing. -/
theorem queued_of_update {stage : Nat → Stage} {p r : Nat} {st : Stage} (hst : st ≠ .queued)
    (hr : Function.update stage p st r = .queued) : stage r = .queued := by
  rw [Function.update_apply] at hr
  split_ifs at hr
  · exact absurd hr hst
  · exact hr

theorem callStep_closing {call : Call} (h : Closing s) (hstep : callStep cfg call s = some s') :
    Closing s' := by
  simp only [callStep] at hstep
  split_ifs at hstep with hidle
  -- No call but `close` enters a stage of a close
  have hframe : ∀ s', s'.callback = s.callback ∧ s'.watchdog = s.watchdog ∧
      s'.watchdogStopped = s.watchdogStopped ∧ s'.activeCallbacks = s.activeCallbacks ∧
      s'.closed = s.closed → s'.ruby.closeStage = 5 →
      s'.history.stage = s.history.stage → Closing s' := by
    intro s' hsame hstage hst
    exact h.rubyFrame (by rw [hstage, hidle]; rfl) (fun p hp => hst ▸ hp) hsame
  have hrelease : ∀ p caller stats, Closing ({ s with stats }.releaseCall p caller) := by
    intro p caller stats
    simp only [State.releaseCall]
    split_ifs <;> exact hframe _ ⟨rfl, rfl, rfl, rfl, rfl⟩ rfl rfl
  cases call with
  | drain | read | retain =>
    simp only [beginCall] at hstep
    split_ifs at hstep <;> cases hstep <;> exact hframe _ ⟨rfl, rfl, rfl, rfl, rfl⟩ rfl rfl
  | wake =>
    cases hstep
    exact hframe _ ⟨rfl, rfl, rfl, rfl, rfl⟩ rfl rfl
  -- The first step of a close sets `closed`; no callback or watchdog step is awaited yet
  | close =>
    simp only [beginCall] at hstep
    split_ifs at hstep <;> cases hstep
    · exact hframe _ ⟨rfl, rfl, rfl, rfl, rfl⟩ rfl rfl
    · exact h.ruby (fun _ => rfl) (by simp [RubyPc.closeStage]) (by simp [RubyPc.closeStage])
        (by simp [RubyPc.closeStage])
  | respond p verdict =>
    simp only [beginCall] at hstep
    split_ifs at hstep
    · cases hstep
      exact hframe _ ⟨rfl, rfl, rfl, rfl, rfl⟩ rfl rfl
    · split at hstep <;> cases hstep <;> exact hframe _ ⟨rfl, rfl, rfl, rfl, rfl⟩ rfl rfl
  | release p =>
    simp only [beginCall] at hstep
    split_ifs at hstep
    cases hstep
    exact hrelease p .method s.stats
  | autoRelease p =>
    simp only [beginCall] at hstep
    split_ifs at hstep <;> cases hstep
    · exact hframe _ ⟨rfl, rfl, rfl, rfl, rfl⟩ rfl rfl
    · exact hrelease p .method s.stats
  | free p =>
    simp only [beginCall] at hstep
    split_ifs at hstep <;> cases hstep <;> exact hrelease p .free _

/-- With the callbacks quiet, nothing is queued once the taking loop has given up. -/
theorem SlotsInv.emptied (hslots : SlotsInv cfg s) (hquiet : ∀ k, (s.callback k).quiet)
    (hdeq : (s.history.stage s.queue.dequeuePosition).phase ≠ .published) (p : Nat) :
    s.history.stage p ≠ .queued := by
  intro hp
  have hring := hslots.slots.ring
  have hphase : (s.history.stage p).phase = .published := by rw [hp]; rfl
  have hle := hring.queued p (.inr hphase)
  have hlt := hring.active_lt (p := p) (by simp only [hphase]; rfl)
  simp only [Queue.ring_deq, Queue.ring_enq] at hle hlt
  have hdequeued := hring.delivered s.queue.dequeuePosition
  have hunclaimed := hring.unclaimed s.queue.dequeuePosition
  simp only [Queue.ring_deq, Queue.ring_enq, Nat.lt_irrefl, imp_false, not_or]
    at hdequeued hunclaimed
  -- The next position is claimed, hence held by a callback, and no callback is at work
  have hheld : (s.history.stage s.queue.dequeuePosition).held := by
    have hle' : s.queue.dequeuePosition < s.queue.enqueuePosition := hle.trans_lt hlt
    cases hst : s.history.stage s.queue.dequeuePosition <;>
      simp [hst, Stage.phase, Stage.held] at hdeq hdequeued hunclaimed ⊢
    omega
  have hholds := hslots.callbacks.held _ hheld
  have hq := hquiet (s.history.owner s.queue.dequeuePosition)
  cases hpc : s.callback (s.history.owner s.queue.dequeuePosition) <;>
    simp_all [CallbackPc.holds, CallbackPc.quiet]

theorem rubyStep_closing (hslots : SlotsInv cfg s) (h : Closing s)
    (hstep : rubyStep cfg i s = some s') : Closing s' := by
  cases hpc : s.ruby with
  | idle => simp [rubyStep, hpc] at hstep
  | drainClear | drainDepth | stopWatchdog | answerSend | closeSend =>
    simp only [rubyStep, hpc, Option.some.injEq] at hstep
    subst hstep
    exact h.rubyFrame (by rw [hpc]; rfl) (fun _ => id)
  | storeDeleteReady =>
    simp only [rubyStep, hpc, Option.some.injEq] at hstep
    subst hstep
    exact h.rubyFrame (by rw [hpc]; rfl) (fun _ => id)
  | drainRead maximum =>
    simp only [rubyStep, hpc] at hstep
    split_ifs at hstep <;> cases hstep
    · exact h.rubyFrame (by rw [hpc]) (fun _ => id)
    · exact h.rubyFrame (by rw [hpc]; rfl) (fun _ => id)
    · exact h.rubyFrame (by rw [hpc]; rfl) (fun _ => id)
    · exact h.rubyFrame (by rw [hpc]; rfl) (fun _ => id)
    · refine h.rubyFrame ?_ (fun _ => id)
      rcases drainNext_eq maximum.toNat [] with hnext | hnext <;> rw [hnext, hpc] <;> rfl
  | drainDelivered left batch =>
    simp only [rubyStep, hpc, Option.some.injEq] at hstep
    subst hstep
    refine h.rubyFrame ?_ (fun _ => id)
    rcases drainNext_eq (left - 1) batch with hnext | hnext <;> rw [hnext, hpc] <;> rfl
  | drainDequeue left batch pc =>
    simp only [rubyStep, hpc] at hstep
    cases hres : s.queue.dequeue i.spurious pc <;> simp only [hres, Option.some.injEq] at hstep <;>
      subst hstep
    case got =>
      exact h.rubyFrame (by rw [hpc]; rfl) (fun _ => queued_of_update (by simp))
    all_goals exact h.rubyFrame (by rw [hpc]; rfl) (fun _ => id)
  | drainDepthDequeue | answerExchange | closeExchange =>
    simp only [rubyStep, hpc] at hstep
    split_ifs at hstep <;> cases hstep <;>
      exact h.rubyFrame (by rw [hpc]; rfl) (fun _ => id)
  | notify caller =>
    simp only [rubyStep, hpc] at hstep
    split_ifs at hstep <;> cases hstep <;> cases caller <;>
      exact h.rubyFrame (by rw [hpc]; rfl) (fun _ => id)
  | notifyWrite caller =>
    simp only [rubyStep, hpc, Option.some.injEq] at hstep
    subst hstep
    cases caller <;> exact h.rubyFrame (by rw [hpc]; rfl) (fun _ => id)
  | respondClosed p caller | respondExchange p caller =>
    simp only [rubyStep, hpc] at hstep
    split_ifs at hstep <;> cases hstep <;> cases caller <;>
      exact h.rubyFrame (by rw [hpc]; rfl) (fun _ => id)
  | respondSend p caller =>
    simp only [rubyStep, hpc, Option.some.injEq] at hstep
    cases caller with
    | method call answer raises =>
      obtain ⟨result, returned, rfl⟩ := State.of_respondReturn hstep
      exact h.rubyFrame (by rw [hpc]; rfl) (fun _ => id)
    | release caller =>
      subst hstep
      exact h.rubyFrame (by rw [hpc]; rfl) (fun _ => id)
  | disarm | releaseMessage | closeMessage =>
    simp only [rubyStep, hpc, Option.some.injEq] at hstep
    subst hstep
    exact h.rubyFrame (by rw [hpc]; rfl) (fun _ => queued_of_update (by simp))
  | queueDisarm p caller =>
    simp only [rubyStep, hpc, Option.some.injEq] at hstep
    subst hstep
    refine h.rubyFrame ?_ (fun _ => queued_of_update (by simp))
    rw [hpc]
    cases caller <;> rfl
  | awaitReaders | queueAwait | join =>
    simp only [rubyStep, hpc, Option.some.injEq] at hstep
    subst hstep
    split_ifs
    all_goals
      first
      | exact h
      | refine h.rubyFrame ?_ (fun _ => id)
        rw [hpc]
        first | rfl | (rename_i caller _; cases caller <;> rfl)
  | queueStore p caller =>
    simp only [rubyStep, hpc] at hstep
    cases caller <;> cases hstep <;>
      exact h.rubyFrame (by rw [hpc]; rfl) (fun _ => queued_of_update (by simp))
  | awaitCallbacks =>
    have hclosed : s.closed := h.closed (by simp [hpc, RubyPc.closeStage])
    simp only [rubyStep, hpc, Option.some.injEq] at hstep
    subst hstep
    split_ifs with hactive
    · exact h
    · refine h.ruby (fun _ => hclosed) (fun _ _ => .inr fun k => ?_) (by simp [RubyPc.closeStage])
        (by simp [RubyPc.closeStage])
      obtain ⟨inside, hcard, hmem⟩ := h.active
      rw [not_not.mp hactive, Finset.card_eq_zero] at hcard
      have hk := hmem k
      rw [hcard] at hk
      cases hk' : s.callback k <;> simp_all [CallbackPc.inside, CallbackPc.quiet]
  | awaitWatchdog =>
    have hclosed : s.closed := h.closed (by simp [hpc, RubyPc.closeStage])
    simp only [rubyStep, hpc, Option.some.injEq] at hstep
    subst hstep
    split_ifs with hstopped
    · exact h.ruby (fun _ => hclosed) (fun _ _ => .inl ⟨hclosed, by simp [hpc, RubyPc.closeStage]⟩)
        (fun _ _ => .inr hstopped) (by simp [RubyPc.closeStage])
    · exact h
  | answerOccupied index =>
    have hclosed : s.closed := h.closed (by simp [hpc, RubyPc.closeStage])
    simp only [rubyStep, hpc] at hstep
    split_ifs at hstep <;> cases hstep
    · exact h.rubyFrame (by rw [hpc]; rfl) (fun _ => id)
    · exact h.rubyFrame (by rw [hpc]; rfl) (fun _ => id)
    · exact h.ruby (fun _ => hclosed) (fun _ _ => .inl ⟨hclosed, by simp [hpc, RubyPc.closeStage]⟩)
        (fun _ _ => .inl ⟨hclosed, by simp [hpc, RubyPc.closeStage]⟩) (by simp [RubyPc.closeStage])
  | closeDequeue pc =>
    have hclosed : s.closed := h.closed (by simp [hpc, RubyPc.closeStage])
    simp only [rubyStep, hpc] at hstep
    cases hres : s.queue.dequeue i.spurious pc <;> simp only [hres, Option.some.injEq] at hstep <;>
      subst hstep
    case got =>
      exact h.rubyFrame (by rw [hpc]; rfl) (fun _ => queued_of_update (by simp))
    case running => exact h.rubyFrame (by rw [hpc]; rfl) (fun _ => id)
    case none =>
      have hnone := (hslots.taking pc (by rw [hpc]; rfl)).none hslots.slots.ring hres
      have hquiet := h.quiet hclosed (by simp [hpc, RubyPc.closeStage])
      exact h.ruby (fun _ => hclosed) (fun _ _ => .inl ⟨hclosed, by simp [hpc, RubyPc.closeStage]⟩)
        (fun _ _ => .inl ⟨hclosed, by simp [hpc, RubyPc.closeStage]⟩)
        (fun _ _ => hslots.emptied hquiet hnone)

/-- The invariant holds in every reachable state. -/
theorem reachable_closing (hs : Reachable (step cfg) (.init cfg) s) : Closing s := by
  apply hs.invariant (closing_init cfg)
  intro s a s' hs h hstep
  cases a with
  | callback k input => exact callbackStep_closing h hstep
  | watchdog input => exact watchdogStep_closing h hstep
  | call call => exact callStep_closing h hstep
  | ruby input => exact rubyStep_closing (reachable_slots hs) h hstep

/-! ## At rest -/

/-- All callbacks are at rest once `active_callbacks` is zero. -/
theorem Closing.resting (h : Closing s) (hactive : s.activeCallbacks = 0) (k : Nat) :
    (s.callback k).resting := by
  obtain ⟨inside, hcard, hmem⟩ := h.active
  have hout : ¬(s.callback k).inside := by
    rw [← hmem, Finset.card_eq_zero.mp (hcard.trans hactive)]
    exact Finset.notMem_empty k
  cases hpc : s.callback k <;> simp_all [CallbackPc.inside, CallbackPc.resting]

/-- A callback that is quiet holds no position. -/
theorem CallbacksOk.not_held_of_quiet {stage : Nat → Stage} {owner : Nat → Nat}
    {callback : Nat → CallbackPc} (h : CallbacksOk stage owner callback)
    (hquiet : ∀ k, (callback k).quiet) (p : Nat) : (stage p).held = false := by
  by_contra hheld
  have hholds := h.held p (by simpa using hheld)
  have hrest := hquiet (owner p)
  cases hpc : callback (owner p) <;>
    simp [hpc, CallbackPc.holds, CallbackPc.quiet] at hholds hrest

/-- Once the client has been closed, all callbacks are quiet. -/
theorem Closing.quiet_at_rest (h : Closing s) (hclosed : s.closed) (hidle : s.ruby = .idle)
    (k : Nat) : (s.callback k).quiet :=
  h.quiet hclosed (by rw [hidle]; decide) k

end EndpointSecurity
