import EndpointSecurity.ForStd.Tally
import EndpointSecurity.Spec.ClientDelivery

/-!
# What the counters of a client add up to

`stats` reports how many messages have been dropped, delivered and timed out. The callbacks, the
watchdog and the native methods add to these counters at different moments and without a lock;
all the same every message that has got past the queue's check for room is in exactly one of
them or still in the queue, and `timeouts` counts the messages that the watchdog has answered.

## Key results

- `Counted`: what `dropped` and `timeouts` count
- `stats_account_for_messages`: where every message of a run has gone
-/

namespace EndpointSecurity

open TransitionSystem (Reachable run)

variable {cfg : Config} {s s' : State} {k : Nat} {i : Input}

/-- A callback that has found the queue full and not counted this yet. -/
def CallbackPc.dropping : CallbackPc → Bool
  | .overflow | .drop => true
  | _ => false

/-- A callback that has counted its message in `dropped`. -/
def CallbackPc.hasDropped : CallbackPc → Bool
  | .leave .dropped | .returned .dropped => true
  | _ => false

/-- The watchdog has answered message `m`. -/
def State.expired (s : State) (m : Nat) : Bool :=
  (s.history.log m).any MessageEvent.byWatchdog

/-- The answers of the watchdog that it has not counted in `timeouts` yet. -/
def WatchdogPc.uncounted : WatchdogPc → Nat
  | .count _ => 1
  | _ => 0

/-- What the two counters count. -/
structure Counted (s : State) : Prop where
  dropped : Tally s.stats.dropped fun k => (s.callback k).hasDropped
  timeouts : Tally (s.stats.timeouts + s.watchdog.uncounted) fun m => s.expired m

theorem counted_init (cfg : Config) : Counted (.init cfg) where
  dropped := Tally.zero fun k => by simp [State.init, CallbackPc.hasDropped]
  timeouts := Tally.zero fun m => by simp [State.expired, State.init, History.init]

/-! ## One step -/

/-- A step that times nothing out: it records nothing in the name of the watchdog, and counts in
    `timeouts` only what has been waiting for it. -/
structure State.Untimed (s s' : State) : Prop where
  timeouts : s'.stats.timeouts + s'.watchdog.uncounted = s.stats.timeouts + s.watchdog.uncounted
  adds : s.history.Adds (fun _ e => e.byWatchdog = false) s'.history

theorem State.Untimed.expired (h : s.Untimed s') (m : Nat) : s'.expired m = s.expired m := by
  rcases h.adds m with hlog | ⟨e, hlog, he⟩
  · rw [State.expired, State.expired, hlog]
  · rw [State.expired, State.expired, hlog, List.any_cons, he, Bool.false_or]

/-- A step of a thread that neither drops a message nor times one out. -/
theorem Counted.frame (h : Counted s) (huntimed : s.Untimed s')
    (hdropped : ∀ k, (s'.callback k).hasDropped = (s.callback k).hasDropped)
    (hstats : s'.stats.dropped = s.stats.dropped) : Counted s' := by
  constructor
  case dropped =>
    rw [hstats]
    exact h.dropped.congr fun k => by rw [hdropped]
  case timeouts =>
    rw [huntimed.timeouts]
    exact h.timeouts.congr fun m => by rw [huntimed.expired]

/-- The response to a message that cannot be queued is the callback's own. -/
theorem State.respondUnqueued_untimed (cfg : Config) (s : State) (i : Input) (m : Nat) :
    s.Untimed (s.respondUnqueued cfg i m) ∧
      (s.respondUnqueued cfg i m).stats.dropped = s.stats.dropped := by
  unfold State.respondUnqueued
  split_ifs
  · exact ⟨⟨rfl, .of_record rfl rfl⟩, rfl⟩
  · exact ⟨⟨rfl, .of_eq rfl⟩, rfl⟩

theorem callbackStep_untimed (hstep : callbackStep cfg k i s = some s') : s.Untimed s' := by
  cases hpc : s.callback k with
  | absent | loadClosed | fill | storeOccupied | publishRequest | loadDequeue | loadDepthMax
  | storeSequence | notifyWrite | leave =>
    simp only [callbackStep, hpc, Option.some.injEq] at hstep
    subst hstep
    exact ⟨rfl, .of_eq rfl⟩
  | refuse | overflow =>
    simp only [callbackStep, hpc, Option.some.injEq] at hstep
    -- The response of a callback that has no slot carries no mark of the watchdog
    obtain ⟨⟨htimeouts, hadds⟩, -⟩ := s.respondUnqueued_untimed cfg i k
    subst hstep
    exact ⟨htimeouts, hadds⟩
  | retain | drop | respond =>
    simp only [callbackStep, hpc, Option.some.injEq] at hstep
    subst hstep
    exact ⟨rfl, .of_record rfl rfl⟩
  -- Claiming a position counts nothing: the message is counted in the depth from here on
  | enqueue pc =>
    simp only [callbackStep, hpc, Queue.enqueue] at hstep
    cases hres : s.queue.ring.claimStep i.spurious pc <;>
      simp only [hres, Option.some.injEq] at hstep <;> subst hstep <;>
      exact ⟨rfl, .of_eq rfl⟩
  | arm p pc =>
    simp only [callbackStep, hpc] at hstep
    cases hres : s.requests.arm i.spurious pc <;>
      simp only [hres, Option.some.injEq] at hstep <;> subst hstep <;>
      exact ⟨rfl, .of_eq rfl⟩
  | answer | notify | raiseDepthMax =>
    simp only [callbackStep, hpc] at hstep
    split_ifs at hstep <;> cases hstep <;> exact ⟨rfl, .of_eq rfl⟩
  | returned => simp [callbackStep, hpc] at hstep

/-- A callback drops its message in one step, and counts it in that step. -/
theorem callbackStep_dropped (hstep : callbackStep cfg k i s = some s') :
    (s'.callback k).hasDropped = (s.callback k).hasDropped ∧
        s'.stats.dropped = s.stats.dropped ∨
      (s.callback k).hasDropped = false ∧ (s'.callback k).hasDropped ∧
        s'.stats.dropped = s.stats.dropped + 1 := by
  have hkept : ∀ pc : CallbackPc, s'.callback = Function.update s.callback k pc →
      pc.hasDropped = (s.callback k).hasDropped → s'.stats.dropped = s.stats.dropped →
      (s'.callback k).hasDropped = (s.callback k).hasDropped ∧
        s'.stats.dropped = s.stats.dropped := by
    intro pc hcallback hpc hstats
    rw [hcallback, Function.update_self]
    exact ⟨hpc, hstats⟩
  cases hpc : s.callback k with
  | absent | retain | fill | publishRequest | loadDequeue | loadDepthMax | storeSequence
  | notifyWrite | respond =>
    simp only [callbackStep, hpc, Option.some.injEq] at hstep
    subst hstep
    exact .inl (hpc ▸ hkept _ rfl (by rw [hpc]; rfl) rfl)
  | loadClosed | storeOccupied =>
    simp only [callbackStep, hpc, Option.some.injEq] at hstep
    subst hstep
    exact .inl (hpc ▸ hkept _ rfl (by rw [hpc]; split_ifs <;> rfl) rfl)
  | refuse | overflow =>
    simp only [callbackStep, hpc, Option.some.injEq] at hstep
    obtain ⟨stats, log, heq⟩ := s.respondUnqueued_eq cfg i k
    obtain ⟨-, hdropped⟩ := s.respondUnqueued_untimed cfg i k
    rw [heq] at hstep hdropped
    subst hstep
    exact .inl (hpc ▸ hkept _ rfl (by rw [hpc]; rfl) hdropped)
  -- The one step of a callback that adds to `dropped`
  | drop =>
    simp only [callbackStep, hpc, Option.some.injEq] at hstep
    subst hstep
    exact .inr ⟨rfl, by simp [CallbackPc.hasDropped], rfl⟩
  | leave outcome =>
    simp only [callbackStep, hpc, Option.some.injEq] at hstep
    subst hstep
    exact .inl (hpc ▸ hkept _ rfl (by rw [hpc]; cases outcome <;> rfl) rfl)
  | enqueue pc =>
    simp only [callbackStep, hpc, Queue.enqueue] at hstep
    cases hres : s.queue.ring.claimStep i.spurious pc <;>
      simp only [hres, Option.some.injEq] at hstep <;> subst hstep <;>
      exact .inl (hpc ▸ hkept _ rfl (by rw [hpc]; rfl) rfl)
  | arm p pc =>
    simp only [callbackStep, hpc] at hstep
    cases hres : s.requests.arm i.spurious pc <;>
      simp only [hres, Option.some.injEq] at hstep <;> subst hstep <;>
      exact .inl (hpc ▸ hkept _ rfl (by rw [hpc]; rfl) rfl)
  | answer | notify | raiseDepthMax =>
    simp only [callbackStep, hpc] at hstep
    split_ifs at hstep <;> cases hstep <;>
      exact .inl (hpc ▸ hkept _ rfl (by rw [hpc]; rfl) rfl)
  | returned => simp [callbackStep, hpc] at hstep

theorem callbackStep_counted (h : Counted s) (hstep : callbackStep cfg k i s = some s') :
    Counted s' := by
  have huntimed := callbackStep_untimed hstep
  obtain ⟨-, -, -, -, hother⟩ := callbackStep_steady hstep
  rcases callbackStep_dropped hstep with ⟨hsame, hstats⟩ | ⟨hold, hnew, hstats⟩
  · refine h.frame huntimed (fun j => ?_) hstats
    rcases eq_or_ne j k with rfl | hne
    · exact hsame
    · rw [hother j hne]
  · constructor
    case dropped =>
      rw [hstats]
      refine h.dropped.succ (b := k) (by simp [hold]) fun j => ?_
      rcases eq_or_ne j k with rfl | hne
      · simp [hnew]
      · simp [hother j hne, hne]
    case timeouts =>
      rw [huntimed.timeouts]
      exact h.timeouts.congr fun m => by rw [huntimed.expired]

/-- The watchdog times a message out with its response, and counts that in its next step. -/
theorem watchdogStep_timeouts (hstep : watchdogStep cfg i s = some s') :
    s'.stats.dropped = s.stats.dropped ∧ (s.Untimed s' ∨
      ∃ m e, s'.history.log = (s.history.record m e).log ∧ e.byWatchdog ∧
        s'.stats.timeouts + s'.watchdog.uncounted =
          s.stats.timeouts + s.watchdog.uncounted + 1) := by
  cases hpc : s.watchdog with
  | popLoad | popStore | popRelease | addReader | notifyWrite | subReader | wait | exiting
  | deleting =>
    simp only [watchdogStep, hpc, Option.some.injEq] at hstep
    subst hstep
    exact ⟨rfl, .inl ⟨by rw [hpc]; rfl, .of_eq rfl⟩⟩
  | loadRunning | popSequence | loadOccupied | stopped =>
    simp only [watchdogStep, hpc, Option.some.injEq] at hstep
    subst hstep
    exact ⟨rfl, .inl ⟨by rw [hpc]; dsimp only; split_ifs <;> rfl, .of_eq rfl⟩⟩
  | clock | recheck | exchange | notify | asleep =>
    simp only [watchdogStep, hpc] at hstep
    split_ifs at hstep <;> cases hstep <;> exact ⟨rfl, .inl ⟨by rw [hpc]; rfl, .of_eq rfl⟩⟩
  -- The response goes out before it is counted, so it leaves `uncounted` at one
  | respond entry now =>
    simp only [watchdogStep, hpc, Option.some.injEq] at hstep
    subst hstep
    exact ⟨rfl, .inr ⟨_, _, rfl, rfl, rfl⟩⟩
  -- `timeouts` takes over what `uncounted` has held since the response
  | count entry =>
    simp only [watchdogStep, hpc, Option.some.injEq] at hstep
    subst hstep
    exact ⟨rfl, .inl ⟨by rw [hpc]; rfl, .of_eq rfl⟩⟩
  | deleted => simp [watchdogStep, hpc] at hstep

/-- A message that is answered now has not been answered before. -/
theorem Logs.unanswered {m : Nat} {e : MessageEvent} {log : List MessageEvent}
    (h : Logs cfg s) (hlog : s.history.log m = e :: log) (he : e.isRespond) :
    log.any MessageEvent.byWatchdog = false := by
  have hcounts := (Life.of_counts (h.life m)).respond
  have hle : (s.life cfg m).answered.toNat ≤ 1 := Bool.toNat_le _
  -- Every message has at most one response, and the new one is that response
  rw [hlog, responses, List.countP_cons_of_pos he] at hcounts
  have hnone : log.countP MessageEvent.isRespond = 0 := by omega
  rw [List.countP_eq_zero] at hnone
  rw [List.any_eq_false]
  intro e' hmem hby
  apply hnone e' hmem
  cases e' <;> first | rfl | cases hby

theorem watchdogStep_counted (hs' : Reachable (step cfg) (.init cfg) s') (h : Counted s)
    (hstep : watchdogStep cfg i s = some s') : Counted s' := by
  have hcallback := (watchdogStep_steady hstep).callback
  obtain ⟨hdropped, huntimed | ⟨m, e, hlog, he, hstats⟩⟩ := watchdogStep_timeouts hstep
  · exact h.frame huntimed (fun k => by rw [hcallback]) hdropped
  -- The entry is recorded for its own message alone
  · have hself : s'.history.log m = e :: s.history.log m := by
      rw [hlog]
      exact Function.update_self ..
    have hnew : s.expired m = false :=
      (reachable_logs hs').unanswered hself (by cases e <;> first | rfl | cases he)
    constructor
    case dropped =>
      rw [hdropped]
      exact h.dropped.congr fun k => by rw [hcallback]
    case timeouts =>
      rw [hstats]
      refine h.timeouts.succ (b := m) (by simp [hnew]) fun r => ?_
      rcases eq_or_ne r m with rfl | hne
      · simp [State.expired, hself, he]
      · have hkept : s'.history.log r = s.history.log r := by
          rw [hlog]
          exact Function.update_of_ne hne ..
        simp [State.expired, hkept, hne]

/-- A native method records nothing in the name of the watchdog. -/
theorem State.Aside.expired (h : s.Aside s') {a : Action} (hstep : step cfg a s = some s')
    (m : Nat) : s'.expired m = s.expired m := by
  rw [State.expired, State.expired, Bool.eq_iff_iff, List.any_eq_true, List.any_eq_true]
  constructor
  · rintro ⟨e, he, hby⟩
    obtain hold | hother := h.history.log m e he
    · exact ⟨e, hold, hby⟩
    · rw [hby] at hother
      cases hother
  · rintro ⟨e, he, hby⟩
    exact ⟨e, ((step_records hstep).suffix m).subset he, hby⟩

/-- A step of a native method. -/
theorem Counted.aside (h : Counted s) {a : Action} (hstep : step cfg a s = some s')
    (haside : s.Aside s') (hstats : s'.stats.timeouts = s.stats.timeouts ∧
      s'.stats.dropped = s.stats.dropped) : Counted s' := by
  constructor
  case dropped =>
    rw [hstats.2, haside.callback]
    exact h.dropped
  -- A release or a response of Ruby is recorded, but never as one of the watchdog
  case timeouts =>
    rw [hstats.1, haside.watchdog]
    exact h.timeouts.congr fun m => by rw [haside.expired hstep]

theorem callStep_stats {call : Call} (hstep : callStep cfg call s = some s') :
    s'.stats.timeouts = s.stats.timeouts ∧ s'.stats.dropped = s.stats.dropped := by
  have hrelease : ∀ p caller stats, ({ s with stats }.releaseCall p caller).stats = stats := by
    intro p caller stats
    simp only [State.releaseCall]
    split_ifs <;> rfl
  simp only [callStep] at hstep
  split_ifs at hstep
  cases call with
  | drain | close | retain | read =>
    simp only [beginCall] at hstep
    split_ifs at hstep <;> cases hstep <;> exact ⟨rfl, rfl⟩
  | wake =>
    cases hstep
    exact ⟨rfl, rfl⟩
  | respond p verdict =>
    simp only [beginCall] at hstep
    split_ifs at hstep
    · cases hstep
      exact ⟨rfl, rfl⟩
    · split at hstep <;> cases hstep <;> exact ⟨rfl, rfl⟩
  | release p =>
    simp only [beginCall] at hstep
    split_ifs at hstep
    cases hstep
    rw [hrelease p .method s.stats]
    exact ⟨rfl, rfl⟩
  | autoRelease p =>
    simp only [beginCall] at hstep
    split_ifs at hstep <;> cases hstep
    · exact ⟨rfl, rfl⟩
    · rw [hrelease p .method s.stats]
      exact ⟨rfl, rfl⟩
  | free p =>
    simp only [beginCall] at hstep
    split_ifs at hstep <;> cases hstep <;> rw [hrelease] <;> exact ⟨rfl, rfl⟩

theorem rubyStep_stats (hstep : rubyStep cfg i s = some s') :
    s'.stats.timeouts = s.stats.timeouts ∧ s'.stats.dropped = s.stats.dropped := by
  cases hpc : s.ruby with
  | idle => simp [rubyStep, hpc] at hstep
  | drainDelivered | drainClear | drainDepth | stopWatchdog | storeDeleteReady | disarm
  | queueDisarm | answerSend | closeSend | releaseMessage | closeMessage =>
    simp only [rubyStep, hpc, Option.some.injEq] at hstep
    subst hstep
    exact ⟨rfl, rfl⟩
  | drainRead | drainDepthDequeue | answerOccupied | answerExchange | closeExchange =>
    simp only [rubyStep, hpc] at hstep
    split_ifs at hstep <;> cases hstep <;> exact ⟨rfl, rfl⟩
  | awaitReaders | queueAwait | awaitCallbacks | awaitWatchdog | join =>
    simp only [rubyStep, hpc, Option.some.injEq] at hstep
    subst hstep
    split_ifs <;> exact ⟨rfl, rfl⟩
  | notify caller =>
    simp only [rubyStep, hpc] at hstep
    split_ifs at hstep <;> cases hstep
    · cases caller <;> exact ⟨rfl, rfl⟩
    · exact ⟨rfl, rfl⟩
  | notifyWrite caller =>
    simp only [rubyStep, hpc, Option.some.injEq] at hstep
    subst hstep
    cases caller <;> exact ⟨rfl, rfl⟩
  | drainDequeue left batch pc | closeDequeue pc =>
    simp only [rubyStep, hpc, Queue.dequeue] at hstep
    cases hres : s.queue.ring.takeStep i.spurious pc <;>
      simp only [hres, Option.some.injEq] at hstep <;> subst hstep <;> exact ⟨rfl, rfl⟩
  | respondClosed p caller | respondExchange p caller =>
    simp only [rubyStep, hpc] at hstep
    split_ifs at hstep <;> cases hstep <;> cases caller <;> exact ⟨rfl, rfl⟩
  | respondSend p caller =>
    simp only [rubyStep, hpc, Option.some.injEq] at hstep
    subst hstep
    cases caller <;> exact ⟨rfl, rfl⟩
  | queueStore p caller =>
    simp only [rubyStep, hpc] at hstep
    cases caller <;> cases hstep <;> exact ⟨rfl, rfl⟩

/-! ## All steps -/

theorem reachable_counted (hs : Reachable (step cfg) (.init cfg) s) : Counted s := by
  apply hs.invariant (counted_init cfg)
  intro t a t' ht h hstep
  cases a with
  | callback k input => exact callbackStep_counted h hstep
  | watchdog input => exact watchdogStep_counted (ht.step (a := .watchdog input) hstep) h hstep
  | call call => exact h.aside (a := .call call) hstep (callStep_aside hstep) (callStep_stats hstep)
  | ruby input =>
    exact h.aside (a := .ruby input) hstep (rubyStep_aside hstep) (rubyStep_stats hstep)

/-- The callbacks that have claimed a position are as many as the positions that have been
    claimed. -/
theorem SlotsInv.claimed_tally (h : SlotsInv cfg s) :
    Tally s.queue.enqueuePosition fun k => (s.callback k).position.isSome := by
  -- The positions below the enqueue position have an owner each, and no two the same one
  have hclaimed : ∀ p, p < s.queue.enqueuePosition ↔ s.history.stage p ≠ .unclaimed := by
    intro p
    rw [← Nat.not_le, ne_eq, not_iff_not]
    refine (h.slots.ring.unclaimed p).symm.trans ⟨Stage.unclaimed_of_phase, fun hst => ?_⟩
    simp only [hst]
    rfl
  refine Tally.of_range (f := s.history.owner) (fun k => ⟨fun hk => ?_, ?_⟩) ?_
  · obtain ⟨p, hp⟩ := Option.isSome_iff_exists.mp hk
    obtain ⟨hst, howner⟩ := h.callbacks.position k p hp
    exact ⟨p, (hclaimed p).mpr hst, howner⟩
  · rintro ⟨p, hp, rfl⟩
    rw [h.callbacks.claimed p ((hclaimed p).mp hp)]
    rfl
  · intro p hp q hq heq
    have hp' := h.callbacks.claimed p ((hclaimed p).mp hp)
    have hq' := h.callbacks.claimed q ((hclaimed q).mp hq)
    rw [heq, hq'] at hp'
    exact (Option.some.inj hp').symm

/-- A callback that has found the queue full has not claimed a position. -/
theorem CallbackPc.position_of_full {pc : CallbackPc} (h : pc.dropping ∨ pc.hasDropped) :
    pc.position = none := by
  cases pc with
  | leave outcome | returned outcome =>
    cases outcome <;> first | rfl | simp [dropping, hasDropped] at h
  | overflow | drop => rfl
  | _ => simp [dropping, hasDropped] at h

/-- The callbacks that have found the queue full and not counted this yet are callbacks that are
    under way. -/
theorem Closing.dropping_tally (h : Closing s) :
    ∃ dropping ≤ s.activeCallbacks, Tally dropping fun k => (s.callback k).dropping := by
  have hactive : Tally s.activeCallbacks fun k => (s.callback k).inside := h.active
  refine hactive.part fun k hk => ?_
  cases hpc : s.callback k <;> simp_all [CallbackPc.dropping, CallbackPc.inside]

/-- In every reachable state:
    - `timeouts`, and the answer that the watchdog has sent and is about to count, count the
      messages that the watchdog has answered, each of which has had no other response;
    - as long as the client has not been closed, every callback that has found room in the queue
      or found it full is counted once: in `dropped` or as one that is about to count itself there,
      in `delivered`, as the one that `__drain` has in its hands, or in the depth of the queue;
    - once it has been closed, `delivered` counts no more than have been dequeued. -/
theorem stats_account_for_messages (hs : Reachable (step cfg) (.init cfg) s) :
    Tally (s.stats.timeouts + s.watchdog.uncounted) (fun m => s.expired m) ∧
    (∀ m, s.expired m → responses (s.history.log m) = 1) ∧
    (s.closed = false → ∃ dropping ≤ s.activeCallbacks,
      (Tally dropping fun k => (s.callback k).dropping) ∧
      Tally (dropping + s.stats.dropped + s.stats.delivered + s.ruby.uncounted +
          Queue.depth s.queue.enqueuePosition s.queue.dequeuePosition)
        fun k => ((s.callback k).dropping ∨ (s.callback k).hasDropped) ∨
          (s.callback k).position.isSome) ∧
    s.stats.delivered + s.ruby.uncounted ≤ s.queue.dequeuePosition := by
  have hslots := reachable_slots hs
  have hcounted := reachable_counted hs
  obtain ⟨as, hrun⟩ := hs.exists_run
  obtain ⟨n, hdelivered⟩ := run_delivered hrun
  refine ⟨hcounted.timeouts, fun m hm => ?_, fun hopen => ?_, ?_⟩
  · have hcounts := (Life.of_counts ((reachable_logs hs).life m)).respond
    have hle : (s.life cfg m).answered.toNat ≤ 1 := Bool.toNat_le _
    obtain ⟨e, he, hby⟩ := List.any_eq_true.mp hm
    have hpos : 0 < responses (s.history.log m) :=
      List.countP_pos_iff.mpr ⟨e, he, by cases e <;> first | rfl | cases hby⟩
    omega
  · have hall := hdelivered.all hopen
    have hdelivered := hdelivered.counted
    have hring := hslots.slots.ring
    have hle : s.queue.dequeuePosition ≤ s.queue.enqueuePosition := hring.deq_le
    have hlap := hring.enq_le
    have hsize := cfg.capacity.lt_size
    simp only [Queue.ring_enq, Queue.ring_deq, Queue.ring_capacity, hslots.slots.capacity] at hlap
    obtain ⟨dropping, hactive, hdropping⟩ := (reachable_closing hs).dropping_tally
    have hfull := hdropping.or hcounted.dropped fun k => by
      cases s.callback k <;> simp [CallbackPc.dropping, CallbackPc.hasDropped]
    have htally := hfull.or hslots.claimed_tally fun k hk => by
      simp [CallbackPc.position_of_full hk]
    have hsum : dropping + s.stats.dropped + s.stats.delivered + s.ruby.uncounted +
        Queue.depth s.queue.enqueuePosition s.queue.dequeuePosition =
        dropping + s.stats.dropped + s.queue.enqueuePosition := by
      rw [Queue.depth, sizeSub_eq hle (by omega)]
      omega
    refine ⟨dropping, hactive, hdropping, ?_⟩
    rw [hsum]
    exact htally
  · rw [hdelivered.counted]
    exact hdelivered.dequeued

/-- An AUTH message has timed out and is in the hands of a drain, a second message waits in the
    queue, and a third has found it full and not been counted yet. -/
def dropThird : List Action :=
  callbackSteps 0 19 ++ List.replicate 14 (Action.watchdog { clock := 900 }) ++
    callbackSteps 1 14 ++ callbackSteps 3 6 ++ [Action.call (.drain 1)] ++
    List.replicate 5 (Action.ruby {})

theorem stats_account_for_third :
    let s := TransitionSystem.final (step smallClient) dropThird (.init smallClient)
      (by decide +kernel)
    Tally 1 (fun m => s.expired m) ∧ ∃ dropping ≤ s.activeCallbacks,
      Tally dropping (fun k => (s.callback k).dropping) ∧
      Tally (dropping + 2) fun k => ((s.callback k).dropping ∨ (s.callback k).hasDropped) ∨
        (s.callback k).position.isSome := by
  intro s
  have hs : Reachable (step smallClient) (.init smallClient) s := .final _
  obtain ⟨htimeouts, -, hcounted, -⟩ := stats_account_for_messages hs
  have htimeouts' : s.stats.timeouts + s.watchdog.uncounted = 1 := by decide +kernel
  have hdropped : s.stats.dropped = 0 := by decide +kernel
  have hsum : s.stats.delivered + s.ruby.uncounted +
      Queue.depth s.queue.enqueuePosition s.queue.dequeuePosition = 2 := by decide +kernel
  obtain ⟨dropping, hactive, hdropping, htally⟩ := hcounted (by decide +kernel)
  refine ⟨htimeouts' ▸ htimeouts, dropping, hactive, hdropping, ?_⟩
  rw [← hsum]
  simpa only [hdropped, Nat.add_zero, Nat.add_assoc] using htally

end EndpointSecurity
