import EndpointSecurity.Spec.ClientReaders

/-!
# Who answers a message

Seven places in three kinds of threads exchange the answer state of a slot from pending to
answered, and whoever succeeds sends the response. The invariant says who that is, that the
slot stays as it is until the response is sent, and how far a close has got with answering
what the handlers have left.

## Key results

- `Answers`: who has won the exchange of a position, and what is not pending any more
- `reachable_answers`: the invariant holds in every reachable state
-/

namespace EndpointSecurity

open TransitionSystem (Reachable)

/-! ## Between the exchange and the response -/

/-- The position that a callback is about to respond to. -/
def CallbackPc.sends : CallbackPc → Option Nat
  | .respond p => some p
  | _ => none

/-- The position that the watchdog is about to respond to. -/
def WatchdogPc.sends : WatchdogPc → Option Nat
  | .respond entry _ => some entry.position
  | _ => none

/-- The position that a native method is about to respond to. -/
def RubyPc.sends (q : Queue) : RubyPc → Option Nat
  | .respondSend p _ | .closeSend p => some p
  | .answerSend index => some (q.slots index).position
  | _ => none

/-- A thread is about to respond to position `p`. -/
def State.sends (s : State) (p : Nat) : Thread → Prop
  | .callback => ∃ k, (s.callback k).sends = some p
  | .watchdog => s.watchdog.sends = some p
  | .ruby => s.ruby.sends s.queue = some p

/-- The slot is filled and its message is referenced. -/
def Stage.readable (st : Stage) : Bool := st.full && st.referenced

theorem Stage.active_of_readable {st : Stage} (h : st.readable) : st.phase.active := by
  cases st <;> simp_all [readable, full, referenced, phase, SeqRing.Phase.active]

theorem Stage.readable_of_exposed {st : Stage} (h : st.exposed) : st.readable := by
  cases st <;> simp_all [readable, full, referenced, exposed]

theorem Stage.readable_of_occupied {st : Stage} (h : st.occupied) : st.readable := by
  cases st <;> simp_all [readable, full, referenced, occupied]

/-- Whoever has won the exchange of a position is about to respond to it, and finds the slot as
    it was. -/
structure SendingOk (q : Queue) (stage : Nat → Stage) (sending : Nat → Option Thread)
    (sends : Nat → Thread → Prop) : Prop where
  sends : ∀ p t, sending p = some t ↔ sends p t
  answered : ∀ p t, sending p = some t →
    (q.slot p).answerState = .answered ∧ (stage p).readable

/-! ## What a close has answered -/

/-- The index from which on `client_answer_occupied` has not answered yet. -/
def RubyPc.swept (capacity : Nat) : RubyPc → Nat
  | .answerOccupied index | .answerExchange index | .answerSend index => index
  | _ => capacity

/-- The slot that `client_answer_occupied` has found occupied. -/
def RubyPc.sweeping : RubyPc → Option Nat
  | .answerExchange index | .answerSend index => some index
  | _ => none

/-- The position that a native method has seen to, and whose message it is about to release. -/
def RubyPc.settled : RubyPc → Option Nat
  | .disarm p _ | .awaitReaders p _ | .releaseMessage p _ | .closeMessage p => some p
  | _ => none

theorem RubyPc.stage_of_settled {stage : Nat → Stage} {wrapper : Nat → Wrapper} {pc : RubyPc}
    {p : Nat} (h : RubyOk stage wrapper pc) (hp : pc.settled = some p) :
    stage p = .taken ∨ stage p = .disarmed ∨ stage p = .drained := by
  cases pc with
  | disarm r caller => cases hp; exact .inl (h.holds p .taken rfl)
  | awaitReaders r caller | releaseMessage r caller =>
    cases hp
    exact .inr (.inl (h.holds p .disarmed rfl))
  | closeMessage r => cases hp; exact .inr (.inr (h.holds p .drained rfl))
  | _ => cases hp

/-- The invariant of every run. -/
structure Answers (s : State) : Prop where
  sending : SendingOk s.queue s.history.stage s.history.sending s.sends
  sweeping : ∀ index, s.ruby.sweeping = some index → (s.queue.slots index).occupied
  settled : ∀ p, s.ruby.settled = some p → (s.queue.slot p).answerState ≠ .pending
  swept : s.closed → 3 ≤ s.ruby.closeStage → ∀ p, (s.history.stage p).answerable →
    s.queue.index p < s.ruby.swept s.queue.capacity → (s.queue.slot p).answerState ≠ .pending

theorem answers_init (cfg : Config) : Answers (.init cfg) where
  sending := {
    sends p t := by
      cases t <;> simp [State.init, History.init, State.sends, CallbackPc.sends, WatchdogPc.sends,
        RubyPc.sends]
    answered := by simp [State.init, History.init] }
  sweeping := by simp [State.init, RubyPc.sweeping]
  settled := by simp [State.init, RubyPc.settled]
  swept := by simp [State.init]

/-! ## What each operation does to the senders -/

namespace SendingOk

variable {q q' : Queue} {stage stage' : Nat → Stage} {sending : Nat → Option Thread}
  {sends sends' : Nat → Thread → Prop} {p : Nat} {thread : Thread}

/-- A step that leaves the senders and what they find alone. -/
theorem frame (h : SendingOk q stage sending sends) (hsends : ∀ r t, sends' r t ↔ sends r t)
    (hslot : ∀ r t, sends r t → (stage r).readable →
      (q'.slot r).answerState = (q.slot r).answerState ∧ (stage' r).readable) :
    SendingOk q' stage' sending sends' := by
  refine ⟨fun r t => (h.sends r t).trans (hsends r t).symm, fun r t hr => ?_⟩
  obtain ⟨hanswered, hst⟩ := h.answered r t hr
  obtain ⟨hslot, hst'⟩ := hslot r t ((h.sends r t).mp hr) hst
  exact ⟨hslot.trans hanswered, hst'⟩

/-- A position that somebody is about to respond to is answered, as far as the others can see. -/
theorem answered_of_sends (h : SendingOk q stage sending sends) (hp : sends p thread) :
    (q.slot p).answerState = .answered :=
  (h.answered p thread ((h.sends p thread).mpr hp)).1

/-- Nobody is about to respond to a position whose answer is pending. -/
theorem not_sends_of_pending (h : SendingOk q stage sending sends)
    (hpending : (q.slot p).answerState = .pending) (t : Thread) : ¬ sends p t := by
  intro ht
  cases hpending.symm.trans (h.answered_of_sends ht)

/-- A thread wins the exchange of a position. -/
theorem win (h : SendingOk q stage sending sends) {index : Nat} (hindex : q.index p = index)
    (hpending : (q.slots index).answerState = .pending) (hst : (stage p).readable)
    (hsends : ∀ r t, sends' r t ↔ sends r t ∨ r = p ∧ t = thread) :
    SendingOk (q.storeAnswerState index .answered) stage
      (Function.update sending p (some thread)) sends' := by
  subst hindex
  have hnone := h.not_sends_of_pending hpending
  -- Only `p` gains a sender, and it had none while its answer was pending
  refine ⟨fun r t => ?_, fun r t hr => ?_⟩
  · have := h.sends r t
    grind
  · have := h.answered r t
    simp only [Queue.slot, Queue.index_storeAnswerState, Queue.slots_storeAnswerState]
    grind [Queue.slot]

/-- The thread that has won the exchange responds. -/
theorem done (h : SendingOk q stage sending sends) (hp : sends p thread)
    (hsends : ∀ r t, sends' r t ↔ sends r t ∧ ¬ (r = p ∧ t = thread)) :
    SendingOk q stage (Function.update sending p none) sends' := by
  -- The response is the sender's last use of the slot
  have hsome := (h.sends p thread).mpr hp
  refine ⟨fun r t => ?_, fun r t hr => ?_⟩
  · have := h.sends r t
    grind
  · exact h.answered r t (by grind)

end SendingOk

/-- A position that is in another stage by now, or was like the one that has moved on. -/
theorem stage_of_update (P : Stage → Bool) {stage : Nat → Stage} {p r : Nat} {st : Stage}
    (hr : P (Function.update stage p st r)) (hst : P st → P (stage p)) : P (stage r) := by
  rcases eq_or_ne r p with rfl | hne
  · rw [Function.update_self] at hr
    exact hst hr
  · rwa [Function.update_of_ne hne] at hr

/-! ## One step -/

variable {cfg : Config} {s s' : State} {k : Nat} {i : Input}

/-- What a native method is about to respond to depends on the positions in the slots only. -/
theorem RubyPc.sends_congr {q q' : Queue} {pc : RubyPc}
    (h : pc.closeStage = 3 → ∀ j, (q'.slots j).position = (q.slots j).position) :
    pc.sends q' = pc.sends q := by
  cases pc with
  | answerSend index => rw [RubyPc.sends, RubyPc.sends, h rfl]
  | _ => rfl

/-- A step that changes nothing about the slots that matters here, and nothing about who is about
    to respond. -/
theorem Answers.frame (h : Answers s)
    (hsame : s'.queue.capacity = s.queue.capacity ∧ s'.history.stage = s.history.stage ∧
      s'.history.sending = s.history.sending ∧ s'.closed = s.closed ∧ s'.ruby = s.ruby)
    (hslots : ∀ j, (s'.queue.slots j).answerState = (s.queue.slots j).answerState ∧
      (s'.queue.slots j).occupied = (s.queue.slots j).occupied)
    (hsends : ∀ p t, s'.sends p t ↔ s.sends p t) : Answers s' := by
  obtain ⟨hcap, hstage, hsending, hclosed, hruby⟩ := hsame
  have hslot : ∀ p, (s'.queue.slot p).answerState = (s.queue.slot p).answerState := fun p => by
    rw [Queue.slot, Queue.slot, Queue.index, Queue.index, Queue.mask, Queue.mask, hcap,
      (hslots _).1]
  constructor
  case sending =>
    rw [hsending]
    refine h.sending.frame hsends fun r t _ hst => ⟨hslot r, ?_⟩
    rwa [hstage]
  case sweeping =>
    rw [hruby]
    exact fun index hi => (hslots index).2.trans (h.sweeping index hi)
  case settled => simp only [hruby, hslot]; exact h.settled
  case swept =>
    simp only [hclosed, hruby, hstage, hcap, hslot, Queue.index, Queue.mask]
    exact h.swept

/-- A callback goes on, about to respond neither before nor after. -/
theorem State.sends_callback_frame {pc : CallbackPc}
    (hcallback : s'.callback = Function.update s.callback k pc)
    (hpc : pc.sends = (s.callback k).sends)
    (hwatchdog : s'.watchdog = s.watchdog)
    (hruby : s'.ruby.sends s'.queue = s.ruby.sends s.queue) (p : Nat) (t : Thread) :
    s'.sends p t ↔ s.sends p t := by
  cases t with
  | callback =>
    have hsame : ∀ j, (s'.callback j).sends = (s.callback j).sends := fun j => by
      rw [hcallback, Function.update_apply]
      split_ifs with hj
      · rw [hpc, hj]
      · rfl
    simp only [State.sends, hsame]
  | watchdog => rw [State.sends, State.sends, hwatchdog]
  | ruby => rw [State.sends, State.sends, hruby]

/-- A callback goes on without writing to a slot, about to respond neither before nor after. -/
theorem Answers.callbackCalm (h : Answers s) {pc : CallbackPc}
    (hcallback : s'.callback = Function.update s.callback k pc)
    (hpc : pc.sends = (s.callback k).sends)
    (hsame : s'.queue.slots = s.queue.slots ∧ s'.queue.capacity = s.queue.capacity ∧
      s'.history.stage = s.history.stage ∧ s'.history.sending = s.history.sending ∧
      s'.closed = s.closed ∧ s'.watchdog = s.watchdog ∧ s'.ruby = s.ruby := by
        exact ⟨rfl, rfl, rfl, rfl, rfl, rfl, rfl⟩) : Answers s' := by
  obtain ⟨hslots, hcap, hstage, hsending, hclosed, hwatchdog, hruby⟩ := hsame
  refine h.frame ⟨hcap, hstage, hsending, hclosed, hruby⟩ (fun _ => ?_)
    (State.sends_callback_frame hcallback hpc hwatchdog ?_)
  · rw [hslots]
    exact ⟨rfl, rfl⟩
  · rw [hruby]
    exact RubyPc.sends_congr fun _ _ => by rw [hslots]

/-- A callback has won an exchange. -/
theorem State.sends_callback_win {pc : CallbackPc} {p : Nat}
    (hcallback : s'.callback = Function.update s.callback k pc)
    (hold : (s.callback k).sends = none) (hnew : pc.sends = some p)
    (hwatchdog : s'.watchdog = s.watchdog)
    (hruby : s'.ruby.sends s'.queue = s.ruby.sends s.queue) (r : Nat) (t : Thread) :
    s'.sends r t ↔ s.sends r t ∨ r = p ∧ t = .callback := by
  cases t with
  | callback =>
    simp only [State.sends, hcallback]
    constructor
    · -- The callback is `k`, or one that has not changed.
      rintro ⟨j, hj⟩
      grind
    · rintro (⟨j, hj⟩ | ⟨rfl, -⟩)
      · exact ⟨j, by grind⟩
      · exact ⟨k, by grind⟩
  | watchdog => simp [State.sends, hwatchdog]
  | ruby => simp [State.sends, hruby]

/-- A callback has responded. -/
theorem State.sends_callback_done
    (hcallbacks : CallbacksOk s.history.stage s.history.owner s.callback)
    {pc : CallbackPc} {p : Nat} (hcallback : s'.callback = Function.update s.callback k pc)
    (hold : s.callback k = .respond p) (hnew : pc.sends = none)
    (hwatchdog : s'.watchdog = s.watchdog)
    (hruby : s'.ruby.sends s'.queue = s.ruby.sends s.queue) (r : Nat) (t : Thread) :
    s'.sends r t ↔ s.sends r t ∧ ¬ (r = p ∧ t = .callback) := by
  cases t with
  | callback =>
    simp only [State.sends, hcallback]
    have hk := (hcallbacks.position k p (by rw [hold]; rfl)).2
    constructor
    · rintro ⟨j, hj⟩
      have hne : j ≠ k := by grind
      rw [Function.update_of_ne hne] at hj
      refine ⟨⟨j, hj⟩, ?_⟩
      rintro ⟨rfl, -⟩
      -- Two callbacks cannot be at the same position
      have hpc : s.callback j = .respond r := by
        cases hj' : s.callback j <;> simp_all [CallbackPc.sends]
      exact hne ((hcallbacks.position j r (by rw [hpc]; rfl)).2.symm.trans hk)
    · rintro ⟨⟨j, hj⟩, hr⟩
      exact ⟨j, by grind [CallbackPc.sends]⟩
  | watchdog => simp [State.sends, hwatchdog]
  | ruby => simp [State.sends, hruby]

/-- A callback that is at work keeps a close from its third stage. -/
theorem Closing.working (h : Closing s) (hpc : (s.callback k).quiet = false) :
    s.ruby.closeStage ≠ 3 ∧ (s.closed → s.ruby.closeStage < 3) := by
  have hlt : s.closed → s.ruby.closeStage < 2 := by
    intro hc
    by_contra hstage
    have := h.quiet hc (by omega) k
    rw [hpc] at this
    cases this
  refine ⟨fun hstage => ?_, fun hc => (hlt hc).trans (by decide)⟩
  have := hlt (h.closed (by omega))
  omega

/-- A step of a callback that is at work. -/
theorem Answers.callback (h : Answers s) (hclosing : Closing s)
    (hpc : (s.callback k).quiet = false)
    (hsettled : ∀ p, s.ruby.settled = some p →
      (s'.queue.slot p).answerState = (s.queue.slot p).answerState)
    (hsending : SendingOk s'.queue s'.history.stage s'.history.sending s'.sends)
    (hsame : s'.ruby = s.ruby ∧ s'.closed = s.closed := by exact ⟨rfl, rfl⟩) : Answers s' := by
  obtain ⟨hne, hlt⟩ := hclosing.working hpc
  obtain ⟨hruby, hclosed⟩ := hsame
  refine ⟨hsending, fun index hi => ?_, fun p hp => ?_, fun hc hstage => ?_⟩
  · rw [hruby] at hi
    -- A close that sweeps has waited for the callbacks, but one of them is at work.
    cases hr : s.ruby <;> simp [hr, RubyPc.sweeping, RubyPc.closeStage] at hi hne
  · rw [hruby] at hp
    rw [hsettled p hp]
    exact h.settled p hp
  · rw [hclosed] at hc
    rw [hruby] at hstage
    have := hlt hc
    omega

/-- A position that a native method has seen to has left the hands of its callback, and shares its
    slot with none that is still in such hands. -/
theorem SlotsInv.index_ne_of_settled (hslots : SlotsInv cfg s) {p r : Nat}
    (hp : (s.history.stage p).held) (hr : s.ruby.settled = some r) :
    s.queue.index r ≠ s.queue.index p := by
  have hst := RubyPc.stage_of_settled hslots.ruby hr
  have hheld := (Stage.held_iff _).mp hp
  have hne : r ≠ p := by
    rintro rfl
    rcases hst with hst | hst | hst <;> simp [hst] at hheld
  refine hslots.slots.alone ?_ r hne ?_
  · rcases hheld with hheld | hheld | hheld <;> rw [hheld] <;> rfl
  · rcases hst with hst | hst | hst <;> rw [hst] <;> rfl

theorem callbackStep_answers (hslots : SlotsInv cfg s) (hclosing : Closing s) (h : Answers s)
    (hstep : callbackStep cfg k i s = some s') : Answers s' := by
  cases hpc : s.callback k with
  | absent | retain | drop | publishRequest | loadDequeue | loadDepthMax | notifyWrite | leave =>
    simp only [callbackStep, hpc, Option.some.injEq] at hstep
    subst hstep
    exact h.callbackCalm rfl (by rw [hpc]; rfl)
  | loadClosed =>
    simp only [callbackStep, hpc, Option.some.injEq] at hstep
    subst hstep
    split <;> exact h.callbackCalm rfl (by rw [hpc]; rfl)
  | refuse | overflow =>
    simp only [callbackStep, hpc, Option.some.injEq] at hstep
    obtain ⟨stats, log, heq⟩ := s.respondUnqueued_eq cfg i k
    rw [heq] at hstep
    subst hstep
    exact h.callbackCalm rfl (by rw [hpc]; rfl)
  | enqueue pc =>
    have hloop := SeqRing.Ring.ClaimOk.step i.spurious (hslots.claiming k pc hpc)
    simp only [callbackStep, hpc, Queue.enqueue] at hstep
    cases hres : s.queue.ring.claimStep i.spurious pc with
    | running | none =>
      simp only [hres, Option.some.injEq] at hstep
      subst hstep
      exact h.callbackCalm rfl (by rw [hpc]; rfl)
    | got p =>
      simp only [hres, Option.some.injEq] at hstep hloop
      obtain ⟨rfl, hseq⟩ := hloop
      -- Writing the position of the new slot could change what `client_answer_occupied` sends.
      have hfree := fun r hr => hslots.slots.ring.ready_free (p := r) hseq hr
      have hworking := hclosing.working (k := k) (by rw [hpc]; rfl)
      subst hstep
      refine h.callback (k := k) hclosing (by rw [hpc]; rfl) ?_ (h.sending.frame ?_ ?_)
      · grind [Queue.slot]
      · exact State.sends_callback_frame rfl (by rw [hpc]; rfl) rfl
          (RubyPc.sends_congr fun hstage => absurd hstage hworking.1)
      · intro r t _ hst
        have hne : s.queue.index r ≠ s.queue.index s.queue.enqueuePosition :=
          hfree r (Stage.active_of_readable hst)
        refine ⟨by grind [Queue.slot], stage_update Stage.readable hst fun hst' => ?_⟩
        exact absurd rfl (hfree _ (Stage.active_of_readable hst'))
  | fill p =>
    have hst := hslots.callbacks.holds k p .claimed (by rw [hpc]; rfl)
    have halone := hslots.slots.alone (p := p) (by rw [hst]; rfl)
    simp only [callbackStep, hpc, Option.some.injEq] at hstep
    subst hstep
    refine h.callback (k := k) hclosing (by rw [hpc]; rfl) (fun r hr => ?_)
      -- The slot is shared with no position whose message is about to be released
      (h.sending.frame ?_ fun r t _ hr => ⟨?_, ?_⟩)
    · have := hslots.index_ne_of_settled (by rw [hst]; rfl : (s.history.stage p).held) hr
      grind [Queue.slot]
    · refine State.sends_callback_frame rfl (by rw [hpc]; rfl) rfl (RubyPc.sends_congr fun _ => ?_)
      grind
    · -- Nobody responds to a position that is claimed and not filled yet.
      have hne : r ≠ p := by
        rintro rfl
        simp [hst, Stage.readable, Stage.full] at hr
      have := halone r hne (Stage.active_of_readable hr)
      grind [Queue.slot]
    · exact stage_update Stage.readable hr (fun _ => rfl)
  | storeOccupied p =>
    -- The mark says nothing about the answer, so `occupied` may be written at any time
    simp only [callbackStep, hpc, Option.some.injEq] at hstep
    subst hstep
    split <;>
    · refine h.callback (k := k) hclosing (by rw [hpc]; rfl) ?_
        (h.sending.frame ?_ fun r t _ hr => ⟨?_, ?_⟩)
      · grind [Queue.slot]
      · refine State.sends_callback_frame rfl (by rw [hpc]; rfl) rfl
          (RubyPc.sends_congr fun _ => ?_)
        grind
      · grind [Queue.slot]
      · exact stage_update Stage.readable hr (fun _ => rfl)
  | arm p pc =>
    simp only [callbackStep, hpc] at hstep
    cases hres : s.requests.arm i.spurious pc <;> simp only [hres, Option.some.injEq] at hstep <;>
      subst hstep
    all_goals
      exact h.callbackCalm rfl (by rw [hpc]; rfl)
  | answer p =>
    have hst := hslots.callbacks.holds k p .marked (by rw [hpc]; rfl)
    simp only [callbackStep, hpc, State.answer] at hstep
    split_ifs at hstep with hpending <;> cases hstep
    -- The exchange of `esrb_answer` succeeds on a pending answer alone, hence for one thread
    · refine h.callback (k := k) hclosing (by rw [hpc]; rfl) (fun r hr => ?_)
        (h.sending.win rfl hpending (by rw [hst]; rfl) ?_)
      · have := hslots.index_ne_of_settled (by rw [hst]; rfl : (s.history.stage p).held) hr
        grind [Queue.slot]
      · refine State.sends_callback_win rfl (by rw [hpc]; rfl) rfl rfl
          (RubyPc.sends_congr fun _ => ?_)
        grind
    · exact h.callbackCalm rfl (by rw [hpc]; rfl)
  | respond p =>
    simp only [callbackStep, hpc, Option.some.injEq] at hstep
    -- The response follows the exchange; no step of another thread has made the slot change between
    subst hstep
    have hsends : s.sends p .callback := ⟨k, by rw [hpc]; rfl⟩
    refine h.callback (k := k) hclosing (by rw [hpc]; rfl) (fun _ _ => rfl)
      (h.sending.done hsends ?_)
    exact State.sends_callback_done hslots.callbacks rfl hpc rfl rfl rfl
  | raiseDepthMax | notify =>
    simp only [callbackStep, hpc] at hstep
    split_ifs at hstep <;> cases hstep <;> exact h.callbackCalm rfl (by rw [hpc]; rfl)
  | storeSequence p =>
    simp only [callbackStep, hpc, Option.some.injEq] at hstep
    -- Publishing lets Ruby take the position, which does not change its answer
    subst hstep
    refine h.callback (k := k) hclosing (by rw [hpc]; rfl) ?_
      (h.sending.frame ?_ fun r t _ hr => ⟨?_, ?_⟩)
    · grind [Queue.slot]
    · refine State.sends_callback_frame rfl (by rw [hpc]; rfl) rfl (RubyPc.sends_congr fun _ => ?_)
      grind
    · grind [Queue.slot]
    · exact stage_update Stage.readable hr (fun _ => rfl)
  | returned => simp [callbackStep, hpc] at hstep

/-- A position that is not pending is not after somebody else has won an exchange. -/
theorem answered_of_storeAnswered {q : Queue} {p index : Nat}
    (h : (q.slot p).answerState ≠ .pending) :
    ((q.storeAnswerState index .answered).slot p).answerState ≠ .pending := by
  simp only [Queue.slot, Queue.index_storeAnswerState, Queue.slots_storeAnswerState]
  split_ifs
  · simp
  · exact h

/-- The watchdog goes on, about to respond neither before nor after. -/
theorem State.sends_watchdog_frame
    (hsame : s'.callback = s.callback ∧ s'.ruby = s.ruby)
    (hslots : ∀ j, (s'.queue.slots j).position = (s.queue.slots j).position)
    (hpc : s'.watchdog.sends = s.watchdog.sends) (p : Nat) (t : Thread) :
    s'.sends p t ↔ s.sends p t := by
  cases t with
  | callback => rw [State.sends, State.sends, hsame.1]
  | watchdog => rw [State.sends, State.sends, hpc]
  | ruby =>
    have hq : s.ruby.sends s'.queue = s.ruby.sends s.queue := RubyPc.sends_congr fun _ => hslots
    rw [State.sends, State.sends, hsame.2, hq]

/-- The watchdog goes on without writing to a slot. -/
theorem Answers.watchdogCalm (h : Answers s) (hpc : s'.watchdog.sends = s.watchdog.sends)
    (hsame : s'.queue = s.queue ∧ s'.history.stage = s.history.stage ∧
      s'.history.sending = s.history.sending ∧ s'.closed = s.closed ∧ s'.ruby = s.ruby ∧
      s'.callback = s.callback := by exact ⟨rfl, rfl, rfl, rfl, rfl, rfl⟩) : Answers s' := by
  obtain ⟨hqueue, hstage, hsending, hclosed, hruby, hcallback⟩ := hsame
  refine h.frame ⟨by rw [hqueue], hstage, hsending, hclosed, hruby⟩ (fun _ => ?_)
    (State.sends_watchdog_frame ⟨hcallback, hruby⟩ (fun _ => by rw [hqueue]) hpc)
  rw [hqueue]
  exact ⟨rfl, rfl⟩

theorem watchdogStep_answers (hreaders : Readers s) (h : Answers s)
    (hstep : watchdogStep cfg i s = some s') : Answers s' := by
  cases hpc : s.watchdog with
  | popLoad | popStore | popRelease | count | notifyWrite | wait | exiting | deleting =>
    simp only [watchdogStep, hpc, Option.some.injEq] at hstep
    subst hstep
    exact h.watchdogCalm (by rw [hpc]; rfl)
  | loadRunning | popSequence | loadOccupied | stopped =>
    simp only [watchdogStep, hpc, Option.some.injEq] at hstep
    subst hstep
    split <;> exact h.watchdogCalm (by rw [hpc]; rfl)
  | clock | recheck | notify | asleep =>
    simp only [watchdogStep, hpc] at hstep
    split_ifs at hstep <;> cases hstep <;> exact h.watchdogCalm (by rw [hpc]; rfl)
  | addReader entry now | subReader entry =>
    simp only [watchdogStep, hpc, Option.some.injEq] at hstep
    subst hstep
    exact h.frame ⟨rfl, rfl, rfl, rfl, rfl⟩ (by grind)
      (State.sends_watchdog_frame ⟨rfl, rfl⟩ (by grind) (by rw [hpc]; rfl))
  | exchange entry now =>
    -- While the watchdog counts as a reader, its entry still names the position of the slot.
    obtain ⟨hindex, hst⟩ := hreaders.matched entry (by rw [hpc]; rfl)
    simp only [watchdogStep, hpc, State.answer] at hstep
    split_ifs at hstep with hpending <;> cases hstep
    · refine ⟨h.sending.win hindex hpending (Stage.readable_of_exposed hst) fun r t => ?_,
        fun j hj => ?_, fun p hp => answered_of_storeAnswered (h.settled p hp),
        fun hc hstage p hp hidx => answered_of_storeAnswered (h.swept hc hstage p hp hidx)⟩
      · cases t with
        | callback => simp [State.sends]
        | watchdog => simp [State.sends, hpc, WatchdogPc.sends, eq_comm]
        | ruby =>
          have : s.ruby.sends (s.queue.storeAnswerState entry.slot .answered) =
              s.ruby.sends s.queue := RubyPc.sends_congr (by grind)
          simp [State.sends, this]
      · have := h.sweeping j hj
        grind
    · exact h.watchdogCalm (by rw [hpc]; rfl)
  | respond entry now =>
    simp only [watchdogStep, hpc, Option.some.injEq] at hstep
    subst hstep
    have hsends : s.sends entry.position .watchdog := by rw [State.sends, hpc]; rfl
    refine ⟨h.sending.done hsends fun r t => ?_, h.sweeping, h.settled, h.swept⟩
    cases t <;> simp [State.sends, hpc, WatchdogPc.sends, State.sendSlot, State.sendResponse]
    grind
  | deleted => simp [watchdogStep, hpc] at hstep

/-- A native method goes on, about to respond to the same position as before or to none. -/
theorem State.sends_ruby_frame (hsame : s'.callback = s.callback ∧ s'.watchdog = s.watchdog)
    (hruby : s'.ruby.sends s'.queue = s.ruby.sends s.queue) (p : Nat) (t : Thread) :
    s'.sends p t ↔ s.sends p t := by
  cases t with
  | callback => rw [State.sends, State.sends, hsame.1]
  | watchdog => rw [State.sends, State.sends, hsame.2]
  | ruby => rw [State.sends, State.sends, hruby]

/-- A native method has won an exchange. -/
theorem State.sends_ruby_win {p : Nat} (hsame : s'.callback = s.callback ∧ s'.watchdog = s.watchdog)
    (hold : s.ruby.sends s.queue = none) (hnew : s'.ruby.sends s'.queue = some p) (r : Nat)
    (t : Thread) : s'.sends r t ↔ s.sends r t ∨ r = p ∧ t = .ruby := by
  cases t with
  | callback => simp [State.sends, hsame]
  | watchdog => simp [State.sends, hsame]
  | ruby => simp [State.sends, hold, hnew, eq_comm]

/-- A native method has responded. -/
theorem State.sends_ruby_done {p : Nat}
    (hsame : s'.callback = s.callback ∧ s'.watchdog = s.watchdog)
    (hold : s.ruby.sends s.queue = some p) (hnew : s'.ruby.sends s'.queue = none) (r : Nat)
    (t : Thread) : s'.sends r t ↔ s.sends r t ∧ ¬ (r = p ∧ t = .ruby) := by
  cases t with
  | callback => simp [State.sends, hsame]
  | watchdog => simp [State.sends, hsame]
  | ruby =>
    simp only [State.sends, hold, hnew]
    grind

/-- A step of a native method that touches neither the slots nor what anybody is about to respond
    to. -/
theorem Answers.sending_ruby (h : Answers s)
    (hsends : s'.ruby.sends s'.queue = s.ruby.sends s.queue)
    (hsame : s'.callback = s.callback ∧ s'.watchdog = s.watchdog ∧ s'.queue = s.queue ∧
      s'.history.stage = s.history.stage ∧ s'.history.sending = s.history.sending := by
        exact ⟨rfl, rfl, rfl, rfl, rfl⟩) :
    SendingOk s'.queue s'.history.stage s'.history.sending s'.sends := by
  obtain ⟨hcallback, hwatchdog, hqueue, hstage, hsending⟩ := hsame
  have hiff := State.sends_ruby_frame ⟨hcallback, hwatchdog⟩ hsends
  rw [hqueue, hstage, hsending]
  exact h.sending.frame hiff fun _ _ _ hst => ⟨rfl, hst⟩

/-- A step of a native method that exchanges no answer state and sends no response. It may move
    positions on: not from where somebody is about to read them, nor to where they would have to
    be answered again. -/
theorem Answers.rubyMove (h : Answers s)
    (hslots : ∀ j, (s'.queue.slots j).answerState = (s.queue.slots j).answerState)
    (hreadable : ∀ p t, s.sends p t → (s.history.stage p).readable →
      (s'.history.stage p).readable)
    (hanswerable : ∀ p, (s'.history.stage p).answerable → (s.history.stage p).answerable)
    (hsends : s'.ruby.sends s'.queue = s.ruby.sends s.queue) (hsweeping : s'.ruby.sweeping = none)
    (hsettled : ∀ p, s'.ruby.settled = some p → (s.queue.slot p).answerState ≠ .pending)
    (hswept : s.closed → 3 ≤ s'.ruby.closeStage → 3 ≤ s.ruby.closeStage ∧
      s'.ruby.swept s.queue.capacity ≤ s.ruby.swept s.queue.capacity)
    (hsame : s'.callback = s.callback ∧ s'.watchdog = s.watchdog ∧ s'.closed = s.closed ∧
      s'.queue.capacity = s.queue.capacity ∧ s'.history.sending = s.history.sending := by
        exact ⟨rfl, rfl, rfl, rfl, rfl⟩) : Answers s' := by
  obtain ⟨hcallback, hwatchdog, hclosed, hcap, hsending⟩ := hsame
  have hindex : ∀ p, s'.queue.index p = s.queue.index p := fun p => by
    rw [Queue.index, Queue.index, Queue.mask, Queue.mask, hcap]
  have hslot : ∀ p, (s'.queue.slot p).answerState = (s.queue.slot p).answerState := fun p => by
    rw [Queue.slot, Queue.slot, hindex, hslots]
  constructor
  case sending =>
    rw [hsending]
    exact h.sending.frame (State.sends_ruby_frame ⟨hcallback, hwatchdog⟩ hsends)
      fun p t ht hst => ⟨hslot p, hreadable p t ht hst⟩
  case sweeping => simp [hsweeping]
  case settled => simp only [hslot]; exact hsettled
  -- Nothing new has to be answered, and no more slots count as swept than before.
  case swept =>
    intro hc hstage p hp hidx
    rw [hclosed] at hc
    obtain ⟨hstage', hle⟩ := hswept hc hstage
    rw [hslot]
    rw [hindex, hcap] at hidx
    exact h.swept hc hstage' p (hanswerable p hp) (hidx.trans_le hle)

/-- A step of a native method that has nothing to do with answers. -/
theorem Answers.rubyCalm (h : Answers s)
    (hsends : s'.ruby.sends s'.queue = s.ruby.sends s.queue)
    (hcalm : s'.ruby.sweeping = none ∧ s'.ruby.settled = none)
    (hswept : 3 ≤ s'.ruby.closeStage → 3 ≤ s.ruby.closeStage ∧
      s'.ruby.swept s.queue.capacity ≤ s.ruby.swept s.queue.capacity)
    (hsame : s'.callback = s.callback ∧ s'.watchdog = s.watchdog ∧ s'.closed = s.closed ∧
      s'.queue.capacity = s.queue.capacity ∧ s'.history.sending = s.history.sending ∧
      s'.history.stage = s.history.stage ∧ s'.queue.slots = s.queue.slots := by
        exact ⟨rfl, rfl, rfl, rfl, rfl, rfl, rfl⟩) : Answers s' := by
  obtain ⟨hcallback, hwatchdog, hclosed, hcap, hsending, hstage, hslots⟩ := hsame
  refine h.rubyMove (fun _ => by rw [hslots]) (fun _ _ _ => ?_) (fun _ => ?_) hsends hcalm.1
    (by simp [hcalm.2]) (fun _ => hswept) ⟨hcallback, hwatchdog, hclosed, hcap, hsending⟩
  · rw [hstage]
    exact id
  · rw [hstage]
    exact id

/-- A native method begins, or returns at once. -/
theorem Answers.begin (h : Answers s) (hidle : s.ruby = .idle)
    (hcalm : s'.ruby.sweeping = none ∧ s'.ruby.settled = none := by exact ⟨rfl, rfl⟩)
    (hsends : s'.ruby.sends s'.queue = none := by rfl)
    (hswept : s'.ruby.swept s.queue.capacity = s.queue.capacity := by rfl)
    (hsame : s'.callback = s.callback ∧ s'.watchdog = s.watchdog ∧ s'.closed = s.closed ∧
      s'.queue.capacity = s.queue.capacity ∧ s'.history.sending = s.history.sending ∧
      s'.history.stage = s.history.stage ∧ s'.queue.slots = s.queue.slots := by
        exact ⟨rfl, rfl, rfl, rfl, rfl, rfl, rfl⟩) : Answers s' := by
  -- Outside a close every slot counts as swept, before the call and after it
  refine h.rubyCalm (by rw [hsends, hidle]; rfl) hcalm (fun _ => ?_) hsame
  rw [hswept, hidle]
  exact ⟨by decide, Nat.le_refl _⟩

theorem callStep_answers {call : Call} (h : Answers s) (hstep : callStep cfg call s = some s') :
    Answers s' := by
  simp only [callStep] at hstep
  split_ifs at hstep with hidle
  have hrelease : ∀ p caller stats, Answers ({ s with stats }.releaseCall p caller) := by
    intro p caller stats
    simp only [State.releaseCall]
    split_ifs <;> exact h.begin hidle
  cases call with
  | drain | read | retain =>
    simp only [beginCall] at hstep
    split_ifs at hstep <;> cases hstep <;> exact h.begin hidle
  | wake =>
    cases hstep
    exact h.begin hidle
  | close =>
    simp only [beginCall] at hstep
    split_ifs at hstep <;> cases hstep
    · exact h.begin hidle
    · -- A close is about to set `closed`, but is not past any of its stages yet
      exact ⟨h.sending_ruby (by rw [hidle]; rfl),
        by simp [RubyPc.sweeping], by simp [RubyPc.settled], by simp [RubyPc.closeStage]⟩
  | respond p verdict =>
    simp only [beginCall] at hstep
    split_ifs at hstep
    · cases hstep
      exact h.begin hidle
    · split at hstep <;> cases hstep <;> exact h.begin hidle
  | release p =>
    simp only [beginCall] at hstep
    split_ifs at hstep
    cases hstep
    exact hrelease p .method s.stats
  | autoRelease p =>
    simp only [beginCall] at hstep
    split_ifs at hstep <;> cases hstep
    · exact h.begin hidle
    · exact hrelease p .method s.stats
  | free p =>
    simp only [beginCall] at hstep
    split_ifs at hstep <;> cases hstep <;> exact hrelease p .free _

/-- `esrb_respond_slot` returns, the answer of the slot not being pending any more. -/
theorem Answers.respondReturn (h : Answers s) {p : Nat}
    (hpc : s.ruby.sends s.queue = none ∧ s.ruby.closeStage = 5 ∧
      s.ruby.swept s.queue.capacity = s.queue.capacity)
    (hanswered : (s.queue.slot p).answerState ≠ .pending) (sent success : Bool)
    (caller : RespondCaller) : Answers (s.respondReturn cfg p sent success caller) := by
  obtain ⟨hsends, hstage, hswept⟩ := hpc
  cases caller with
  | method =>
    refine h.rubyCalm hsends.symm ⟨rfl, rfl⟩ fun _ => ?_
    -- A method returns to its caller with the slot as the exchange has left it
    rw [hstage, hswept]
    exact ⟨by decide, Nat.le_refl _⟩
  | release caller =>
    refine h.rubyMove (fun _ => rfl) (fun _ _ _ => id) (fun _ => id)
      hsends.symm rfl ?_ fun _ _ => ?_
    -- A release goes on to disarm the slot, whose answer is not pending any more
    · rintro _ ⟨⟩
      exact hanswered
    · rw [hstage, hswept]
      exact ⟨by decide, Nat.le_refl _⟩

/-- Nobody is about to respond to a position whose message is about to be released. -/
theorem not_sends (hslots : SlotsInv cfg s) (hreaders : Readers s) {p : Nat}
    (hp : (∃ caller, s.ruby = .releaseMessage p caller) ∨ s.ruby = .closeMessage p)
    (hruby : s.ruby.sends s.queue = none) (t : Thread) : ¬ s.sends p t := by
  have hst : s.history.stage p = .disarmed ∨ s.history.stage p = .drained := by
    rcases hp with ⟨caller, hp⟩ | hp
    · exact .inl (hslots.ruby.holds p .disarmed (by rw [hp]; rfl))
    · exact .inr (hslots.ruby.holds p .drained (by rw [hp]; rfl))
  intro ht
  cases t with
  | callback =>
    obtain ⟨k, hk⟩ := ht
    have hholds : (s.callback k).holds = some (p, .marked) := by
      cases hpc : s.callback k <;> simp_all [CallbackPc.sends, CallbackPc.holds]
    have := hslots.callbacks.holds k p .marked hholds
    simp [this] at hst
  | watchdog =>
    obtain ⟨e, he, rfl⟩ : ∃ e, s.watchdog.matched = some e ∧ e.position = p := by
      cases hpc : s.watchdog <;>
        simp_all [State.sends, WatchdogPc.sends, WatchdogPc.matched]
    -- `message_release` has waited for the readers, and the watchdog would be one.
    rcases hp with ⟨caller, hp⟩ | hp
    · exact hreaders.kept _ caller e hp he rfl
    · have hexposed := (hreaders.matched e he).2
      rw [hslots.ruby.holds e.position .drained (by rw [hp]; rfl)] at hexposed
      cases hexposed
  | ruby => rw [State.sends, hruby] at ht; cases ht

/-- When the callbacks are quiet, what may still have to be answered is marked as occupied. -/
theorem SlotsInv.occupied_of_answerable (hslots : SlotsInv cfg s)
    (hquiet : ∀ k, (s.callback k).quiet) {p : Nat} (hp : (s.history.stage p).answerable) :
    (s.queue.slot p).occupied := by
  apply (hslots.slots.slot p).occupied
  cases hst : s.history.stage p <;> simp [hst, Stage.answerable, Stage.occupied] at hp ⊢
  -- A slot that is filled and not marked yet is in the hands of a callback
  have hholds := hslots.callbacks.held p (by rw [hst]; rfl)
  have hq := hquiet (s.history.owner p)
  cases hpc : s.callback (s.history.owner p) <;>
    simp_all [CallbackPc.holds, CallbackPc.quiet]

/-- `client_answer_occupied` has found a slot occupied by this position. -/
theorem Answers.occupant (hslots : SlotsInv cfg s) (h : Answers s) {index : Nat}
    (hsweeping : s.ruby.sweeping = some index) :
    s.queue.index (s.queue.slots index).position = index ∧
      (s.history.stage (s.queue.slots index).position).occupied := by
  obtain ⟨hindex, hst⟩ := hslots.slots.occupied_position (h.sweeping index hsweeping)
  refine ⟨hindex, hst.resolve_right fun hunreferenced => ?_⟩
  have hholds := hslots.ruby.held _ (by rw [hunreferenced]; rfl)
  cases hpc : s.ruby <;> simp [hpc, RubyPc.sweeping, RubyPc.holds] at hsweeping hholds

/-- `client_answer_occupied` is done with a slot. -/
theorem swept_succ {q : Queue} {stage : Nat → Stage} {index : Nat}
    (h : ∀ p, (stage p).answerable → q.index p < index → (q.slot p).answerState ≠ .pending)
    (hself : ∀ p, (stage p).answerable → q.index p = index →
      (q.slots index).answerState ≠ .pending) (p : Nat) (hp : (stage p).answerable)
    (hidx : q.index p < index + 1) : (q.slot p).answerState ≠ .pending := by
  rcases Nat.lt_succ_iff_lt_or_eq.mp hidx with hlt | heq
  · exact h p hp hlt
  · rw [Queue.slot, heq]
    exact hself p hp heq

/-- What a close has answered so far, from its third stage on. -/
theorem Answers.swept_lt (h : Answers s) (hclosing : Closing s) {bound : Nat}
    (hstage : 3 ≤ s.ruby.closeStage ∧ s.ruby.closeStage ≤ 4)
    (hbound : s.ruby.swept s.queue.capacity = bound) :
    ∀ p, (s.history.stage p).answerable → s.queue.index p < bound →
      (s.queue.slot p).answerState ≠ .pending := by
  intro p hp hidx
  rw [← hbound] at hidx
  exact h.swept (hclosing.closed (by omega)) hstage.1 p hp hidx

theorem rubyStep_answers (hslots : SlotsInv cfg s) (hclosing : Closing s) (hreaders : Readers s)
    (h : Answers s) (hstep : rubyStep cfg i s = some s') : Answers s' := by
  cases hpc : s.ruby with
  | idle => simp [rubyStep, hpc] at hstep
  | drainClear | drainDepth | stopWatchdog | storeDeleteReady =>
    simp only [rubyStep, hpc, Option.some.injEq] at hstep
    subst hstep
    exact h.rubyCalm (by rw [hpc]; rfl) ⟨rfl, rfl⟩ (by simp [hpc, RubyPc.closeStage, RubyPc.swept])
  | drainRead maximum =>
    simp only [rubyStep, hpc] at hstep
    split_ifs at hstep <;> cases hstep
    · exact h.rubyCalm (by rw [hpc]) ⟨rfl, rfl⟩ (by simp [hpc, RubyPc.closeStage, RubyPc.swept])
    · exact h.rubyCalm (by rw [hpc]; rfl) ⟨rfl, rfl⟩
        (by simp [hpc, State.finish, RubyPc.closeStage, RubyPc.swept])
    · exact h.rubyCalm (by rw [hpc]; rfl) ⟨rfl, rfl⟩
        (by simp [hpc, State.finish, RubyPc.closeStage, RubyPc.swept])
    · exact h.rubyCalm (by rw [hpc]; rfl) ⟨rfl, rfl⟩
        (by simp [hpc, State.finish, RubyPc.closeStage, RubyPc.swept])
    · rcases drainNext_eq maximum.toNat [] with hnext | hnext <;> rw [hnext] <;>
        exact h.rubyCalm (by rw [hpc]; rfl) ⟨rfl, rfl⟩
          (by simp [hpc, RubyPc.closeStage, RubyPc.swept])
  | drainDelivered left batch =>
    simp only [rubyStep, hpc, Option.some.injEq] at hstep
    subst hstep
    rcases drainNext_eq (left - 1) batch with hnext | hnext <;> rw [hnext] <;>
      exact h.rubyCalm (by rw [hpc]; rfl) ⟨rfl, rfl⟩
        (by simp [hpc, RubyPc.closeStage, RubyPc.swept])
  | drainDepthDequeue =>
    simp only [rubyStep, hpc, State.finish] at hstep
    split_ifs at hstep <;> cases hstep <;>
      exact h.rubyCalm (by rw [hpc]; rfl) ⟨rfl, rfl⟩
        (by simp [hpc, RubyPc.closeStage, RubyPc.swept])
  | notify caller =>
    simp only [rubyStep, hpc] at hstep
    split_ifs at hstep <;> cases hstep <;> cases caller <;>
      exact h.rubyCalm (by rw [hpc]; rfl) ⟨rfl, rfl⟩
        (by simp [hpc, RubyPc.closeStage, RubyPc.swept, State.notifyReturn, State.finish])
  | notifyWrite caller =>
    simp only [rubyStep, hpc, Option.some.injEq] at hstep
    subst hstep
    cases caller <;>
      exact h.rubyCalm (by rw [hpc]; rfl) ⟨rfl, rfl⟩
        (by simp [hpc, RubyPc.closeStage, RubyPc.swept, State.notifyReturn, State.finish])
  | awaitCallbacks | join =>
    simp only [rubyStep, hpc, Option.some.injEq] at hstep
    subst hstep
    split_ifs
    all_goals
      first
      | exact h
      | exact h.rubyCalm (by rw [hpc]; rfl) ⟨rfl, rfl⟩
          (by simp [hpc, RubyPc.closeStage, RubyPc.swept])
  | awaitReaders p caller =>
    simp only [rubyStep, hpc, Option.some.injEq] at hstep
    subst hstep
    split_ifs
    · exact h
    · refine h.rubyMove (fun _ => rfl) (fun _ _ _ => id) (fun _ => id) (by rw [hpc]; rfl) rfl ?_
        (by simp [hpc, RubyPc.closeStage, RubyPc.swept])
      -- Still settled: the wait for the readers changes no answer
      rintro _ ⟨⟩
      exact h.settled p (by rw [hpc]; rfl)
  | queueAwait p caller =>
    simp only [rubyStep, hpc, Option.some.injEq] at hstep
    subst hstep
    split_ifs
    · exact h
    · refine h.rubyCalm (by rw [hpc]; rfl) ⟨rfl, rfl⟩ ?_
      cases caller <;> simp [hpc, RubyPc.closeStage, RubyPc.swept]
  | drainDequeue left batch pc =>
    have hloop := SeqRing.Ring.TakeOk.step i.spurious (hslots.taking pc (by rw [hpc]; rfl))
    simp only [rubyStep, hpc, Queue.dequeue] at hstep
    cases hres : s.queue.ring.takeStep i.spurious pc with
    | running | none =>
      simp only [hres, Option.some.injEq] at hstep
      subst hstep
      exact h.rubyCalm (by rw [hpc]; rfl) ⟨rfl, rfl⟩
        (by simp [hpc, RubyPc.closeStage, RubyPc.swept])
    | got p =>
      simp only [hres, Option.some.injEq] at hstep hloop
      obtain ⟨rfl, hseq⟩ := hloop
      have hp := (hslots.slots.take (.inl rfl) hseq).1
      subst hstep
      refine h.rubyMove (fun _ => rfl) (fun r _ _ hr => ?_) (fun r hr => ?_) (by rw [hpc]; rfl) rfl
        (by simp [RubyPc.settled]) (by simp [hpc, RubyPc.closeStage, RubyPc.swept])
      -- A position that Ruby takes stays readable and as answerable as it was
      · exact stage_update Stage.readable hr fun _ => rfl
      · exact stage_of_update Stage.answerable hr fun _ => by rw [Queue.ring_deq, hp]; rfl
  | closeDequeue pc =>
    have hloop := SeqRing.Ring.TakeOk.step i.spurious (hslots.taking pc (by rw [hpc]; rfl))
    simp only [rubyStep, hpc, Queue.dequeue] at hstep
    cases hres : s.queue.ring.takeStep i.spurious pc with
    | running | none =>
      simp only [hres, Option.some.injEq] at hstep
      subst hstep
      exact h.rubyCalm (by rw [hpc]; rfl) ⟨rfl, rfl⟩
        (by simp [hpc, RubyPc.closeStage, RubyPc.swept])
    | got p =>
      simp only [hres, Option.some.injEq] at hstep hloop
      obtain ⟨rfl, hseq⟩ := hloop
      have hp := (hslots.slots.take (.inr rfl) hseq).1
      subst hstep
      refine h.rubyMove (fun _ => rfl) (fun r _ _ hr => ?_) (fun r hr => ?_) (by rw [hpc]; rfl) rfl
        (by simp [RubyPc.settled]) (by simp [hpc, RubyPc.closeStage, RubyPc.swept])
      · exact stage_update Stage.readable hr fun _ => rfl
      · exact stage_of_update Stage.answerable hr fun _ => by rw [Queue.ring_deq, hp]; rfl
  | respondClosed p caller =>
    have hst := hslots.ruby.holds p .taken (by rw [hpc]; rfl)
    simp only [rubyStep, hpc] at hstep
    split_ifs at hstep with hclosed <;> cases hstep
    · -- The close that has gone before has answered every slot
      have hanswered := h.swept hclosed (by simp [hpc, RubyPc.closeStage]) p (by rw [hst]; rfl)
        (by simpa [hpc, RubyPc.swept] using hslots.slots.index_lt p)
      exact h.respondReturn (by rw [hpc]; exact ⟨rfl, rfl, rfl⟩) hanswered ..
    · exact h.rubyCalm (by rw [hpc]; rfl) ⟨rfl, rfl⟩
        (by simp [hpc, RubyPc.closeStage, RubyPc.swept])
  | respondExchange p caller =>
    have hst := hslots.ruby.holds p .taken (by rw [hpc]; rfl)
    simp only [rubyStep, hpc, State.answer] at hstep
    split_ifs at hstep with hpending <;> cases hstep
    · refine ⟨h.sending.win rfl hpending (by rw [hst]; rfl) ?_, by simp [RubyPc.sweeping],
        by simp [RubyPc.settled], ?_⟩
      · exact State.sends_ruby_win ⟨rfl, rfl⟩ (by rw [hpc]; rfl) rfl
      · intro hc _ r hr hidx
        exact answered_of_storeAnswered (h.swept hc (by simp [hpc, RubyPc.closeStage]) r hr
          (by rw [hpc]; exact hidx))
    · -- The exchange has been lost: the state was not pending, and never becomes so again.
      exact h.respondReturn (by rw [hpc]; exact ⟨rfl, rfl, rfl⟩) hpending ..
  | respondSend p caller =>
    have hsends : s.sends p .ruby := by rw [State.sends, hpc]; rfl
    -- The sender has won the exchange, so nothing is pending at its position
    have hanswered := h.sending.answered_of_sends hsends
    have hswept : s.closed → ∀ r, (s.history.stage r).answerable →
        s.queue.index r < s.queue.capacity → (s.queue.slot r).answerState ≠ .pending := by
      intro hc r hr hidx
      exact h.swept hc (by simp [hpc, RubyPc.closeStage]) r hr (by rw [hpc]; exact hidx)
    have hold : s.ruby.sends s.queue = some p := by rw [hpc]; rfl
    simp only [rubyStep, hpc, Option.some.injEq] at hstep
    -- `message_respond` returns to Ruby; `message_release` goes on with the same position
    cases caller with
    | method call answer raises =>
      obtain ⟨result, returned, rfl⟩ := State.of_respondReturn hstep
      exact ⟨h.sending.done hsends (State.sends_ruby_done ⟨rfl, rfl⟩ hold rfl),
        by simp [RubyPc.sweeping], by simp [RubyPc.settled], fun hc _ => hswept hc⟩
    | release caller =>
      subst hstep
      refine ⟨h.sending.done hsends (State.sends_ruby_done ⟨rfl, rfl⟩ hold rfl),
        by simp [State.respondReturn, RubyPc.sweeping], ?_, fun hc _ => hswept hc⟩
      rintro _ ⟨⟩ hpending
      cases hanswered.symm.trans hpending
  | disarm p caller =>
    -- From here on the watchdog finds no occupied slot, and nobody has to answer it
    have hst := hslots.ruby.holds p .taken (by rw [hpc]; rfl)
    simp only [rubyStep, hpc, Option.some.injEq] at hstep
    subst hstep
    refine h.rubyMove (by grind) (fun r _ _ hr => ?_) (fun r hr => ?_) (by rw [hpc]; rfl) rfl ?_
      (by simp [hpc, RubyPc.closeStage, RubyPc.swept])
    · exact stage_update Stage.readable hr fun _ => rfl
    · exact stage_of_update Stage.answerable hr (by simp [Stage.answerable])
    · rintro _ ⟨⟩
      exact h.settled p (by rw [hpc]; rfl)
  | releaseMessage p caller =>
    have hst := hslots.ruby.holds p .disarmed (by rw [hpc]; rfl)
    simp only [rubyStep, hpc, Option.some.injEq] at hstep
    subst hstep
    refine h.rubyMove (fun _ => rfl) (fun r t ht hr => ?_) (fun r hr => ?_) (by rw [hpc]; rfl) rfl
      (by simp [RubyPc.settled]) (by simp [hpc, RubyPc.closeStage, RubyPc.swept])
    · -- Nobody reads the message that is released.
      have hne : r ≠ p := by
        rintro rfl
        exact not_sends hslots hreaders (.inl ⟨caller, hpc⟩) (by rw [hpc]; rfl) t ht
      change (Function.update s.history.stage p .unreferenced r).readable
      rwa [Function.update_of_ne hne]
    · exact stage_of_update Stage.answerable hr (by simp [Stage.answerable])
  | queueDisarm p caller =>
    have hst := hslots.ruby.holds p .unreferenced (by rw [hpc]; rfl)
    -- The message is gone, so nothing about this slot is readable any more
    simp only [rubyStep, hpc, Option.some.injEq] at hstep
    subst hstep
    refine h.rubyMove (by grind) (fun r _ _ hr => ?_) (fun r hr => ?_) (by rw [hpc]; rfl) rfl
      (by simp [RubyPc.settled]) ?_
    · exact stage_update Stage.readable hr (by rw [hst]; simp [Stage.readable, Stage.referenced])
    · exact stage_of_update Stage.answerable hr (by simp [Stage.answerable])
    · cases caller <;> simp [hpc, RubyPc.closeStage, RubyPc.swept]
  | queueStore p caller =>
    have hst := hslots.ruby.holds p .cleared (by rw [hpc]; rfl)
    simp only [rubyStep, hpc] at hstep
    cases caller <;> cases hstep
    all_goals
      refine h.rubyMove ?_ (fun r _ _ hr => ?_) (fun r hr => ?_) (by rw [hpc]; rfl) rfl ?_ ?_
      · grind [State.releaseReturn, State.finish]
      · exact stage_update Stage.readable hr (by rw [hst]; simp [Stage.readable, Stage.referenced])
      · exact stage_of_update Stage.answerable hr (by simp [Stage.answerable])
      · simp [RubyPc.settled, State.releaseReturn, State.finish]
      · simp [hpc, RubyPc.closeStage, RubyPc.swept, State.releaseReturn, State.finish]
  | awaitWatchdog =>
    simp only [rubyStep, hpc, Option.some.injEq] at hstep
    subst hstep
    split_ifs
    · -- The close enters its third stage, and has not swept any slot
      exact ⟨h.sending_ruby (by rw [hpc]; rfl),
        by simp [RubyPc.sweeping], by simp [RubyPc.settled], by simp [RubyPc.swept]⟩
    · exact h
  | answerOccupied index =>
    have hclosed : s.closed := hclosing.closed (by simp [hpc, RubyPc.closeStage])
    have hquiet := hclosing.quiet hclosed (by simp [hpc, RubyPc.closeStage])
    have hswept := h.swept_lt hclosing (by simp [hpc, RubyPc.closeStage])
      (by rw [hpc]; rfl : s.ruby.swept s.queue.capacity = index)
    simp only [rubyStep, hpc] at hstep
    split_ifs at hstep with hlt hocc <;> cases hstep
    · refine ⟨h.sending_ruby (by rw [hpc]; rfl), ?_,
        by simp [RubyPc.settled], fun _ _ => hswept⟩
      rintro _ ⟨⟩
      exact hocc
    · -- No callback is at work, hence a slot that is not marked has nothing to answer
      refine ⟨h.sending_ruby (by rw [hpc]; rfl),
        by simp [RubyPc.sweeping], by simp [RubyPc.settled],
        fun _ _ => swept_succ hswept fun p hp hidx => ?_⟩
      exact absurd (hidx ▸ hslots.occupied_of_answerable hquiet hp) hocc
    -- The loop has come to the end of the slots: all of them are swept
    · refine h.rubyCalm (by rw [hpc]; rfl) ⟨rfl, rfl⟩
        fun _ => ?_
      rw [hpc]
      exact ⟨Nat.le_refl _, Nat.le_of_not_lt hlt⟩
  | answerExchange index =>
    have hswept := h.swept_lt hclosing (by simp [hpc, RubyPc.closeStage])
      (by rw [hpc]; rfl : s.ruby.swept s.queue.capacity = index)
    obtain ⟨hindex, hst⟩ := h.occupant hslots (by rw [hpc]; rfl : s.ruby.sweeping = some index)
    have hreadable := Stage.readable_of_occupied hst
    have hocc := h.sweeping index (by rw [hpc]; rfl)
    simp only [rubyStep, hpc, State.answer] at hstep
    split_ifs at hstep with hpending <;> cases hstep
    · refine ⟨h.sending.win hindex hpending hreadable
        (State.sends_ruby_win ⟨rfl, rfl⟩ (by rw [hpc]; rfl) ?_), ?_, by simp [RubyPc.settled], ?_⟩
      · simp only [RubyPc.sends, Queue.slots_storeAnswerState, if_pos]
      · rintro _ ⟨⟩
        simpa only [Queue.slots_storeAnswerState, if_pos] using hocc
      · exact fun _ _ p hp hidx => answered_of_storeAnswered (hswept p hp hidx)
    -- Somebody else has won the exchange, hence the slot is answered all the same
    · exact ⟨h.sending_ruby (by rw [hpc]; rfl),
        by simp [RubyPc.sweeping], by simp [RubyPc.settled],
        fun _ _ => swept_succ hswept fun _ _ _ => hpending⟩
  | answerSend index =>
    have hswept := h.swept_lt hclosing (by simp [hpc, RubyPc.closeStage])
      (by rw [hpc]; rfl : s.ruby.swept s.queue.capacity = index)
    obtain ⟨hindex, -⟩ := h.occupant hslots (by rw [hpc]; rfl : s.ruby.sweeping = some index)
    have hsends : s.sends (s.queue.slots index).position .ruby := by rw [State.sends, hpc]; rfl
    have hanswered := h.sending.answered_of_sends hsends
    rw [Queue.slot, hindex] at hanswered
    simp only [rubyStep, hpc, Option.some.injEq] at hstep
    subst hstep
    refine ⟨h.sending.done hsends (State.sends_ruby_done ⟨rfl, rfl⟩ (by rw [hpc]; rfl) rfl),
      by simp [RubyPc.sweeping], by simp [RubyPc.settled],
      fun _ _ => swept_succ hswept fun _ _ _ hpending => ?_⟩
    cases hanswered.symm.trans hpending
  | closeExchange p =>
    have hst := hslots.ruby.holds p .drained (by rw [hpc]; rfl)
    have hswept := h.swept_lt hclosing (by simp [hpc, RubyPc.closeStage])
      (by rw [hpc]; rfl : s.ruby.swept s.queue.capacity = s.queue.capacity)
    simp only [rubyStep, hpc, State.answer] at hstep
    split_ifs at hstep with hpending <;> cases hstep
    · -- `client_answer_occupied` has answered every slot before the queue is drained.
      exact absurd hpending (hswept p (by rw [hst]; rfl) (hslots.slots.index_lt p))
    · refine ⟨h.sending_ruby (by rw [hpc]; rfl),
        by simp [RubyPc.sweeping], ?_, fun _ _ => hswept⟩
      -- The message that the close has dequeued may be released now
      rintro _ ⟨⟩
      exact hpending
  | closeSend p =>
    have hswept := h.swept_lt hclosing (by simp [hpc, RubyPc.closeStage])
      (by rw [hpc]; rfl : s.ruby.swept s.queue.capacity = s.queue.capacity)
    have hsends : s.sends p .ruby := by rw [State.sends, hpc]; rfl
    have hanswered := h.sending.answered_of_sends hsends
    simp only [rubyStep, hpc, Option.some.injEq] at hstep
    subst hstep
    refine ⟨h.sending.done hsends (State.sends_ruby_done ⟨rfl, rfl⟩ (by rw [hpc]; rfl) rfl),
      by simp [RubyPc.sweeping], ?_, fun _ _ => hswept⟩
    rintro _ ⟨⟩ hpending
    cases hanswered.symm.trans hpending
  | closeMessage p =>
    simp only [rubyStep, hpc, Option.some.injEq] at hstep
    subst hstep
    refine h.rubyMove (fun _ => rfl) (fun r t ht hr => ?_) (fun r hr => ?_) (by rw [hpc]; rfl) rfl
      (by simp [RubyPc.settled]) (by simp [hpc, RubyPc.closeStage, RubyPc.swept])
    -- A position that the close has drained is in the hands of nobody else
    · have hne : r ≠ p := by
        rintro rfl
        exact not_sends hslots hreaders (.inr hpc) (by rw [hpc]; rfl) t ht
      change (Function.update s.history.stage p .unreferenced r).readable
      rwa [Function.update_of_ne hne]
    · exact stage_of_update Stage.answerable hr (by simp [Stage.answerable])

/-- The invariant holds in every reachable state. -/
theorem reachable_answers (hs : Reachable (step cfg) (.init cfg) s) : Answers s := by
  apply hs.invariant (answers_init cfg)
  intro s a s' hs h hstep
  have hslots := reachable_slots hs
  have hclosing := reachable_closing hs
  have hreaders := reachable_readers hs
  cases a with
  | callback k input => exact callbackStep_answers hslots hclosing h hstep
  | watchdog input => exact watchdogStep_answers hreaders h hstep
  | call call => exact callStep_answers h hstep
  | ruby input => exact rubyStep_answers hslots hclosing hreaders h hstep

end EndpointSecurity
