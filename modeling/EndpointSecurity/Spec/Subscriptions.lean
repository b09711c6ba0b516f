import EndpointSecurity.Ruby.Subscriptions

/-!
# `@subscriptions` and the native subscriptions

A probe that can subscribe an event and then cannot unsubscribe it leaves the event behind:
`probe_event` rescues the error and answers that the event is not supported. The event is then
natively subscribed and in no list of the client. This file proves that nothing else separates
`@subscriptions` from the set of events that Endpoint Security delivers.

## Key results

- `Probing`: what the native set is while a call probes events outside `@subscriptions`
- `call_mirrored_iff`: a call keeps the two sets equal iff each of its probes was undone
- `mirrored_iff_probes_undone`: the same for whole runs, from the constructor on
-/

namespace EndpointSecurity.Subscriptions

variable {ε : Type} [DecidableEq ε]

/-- `@subscriptions` and the native subscriptions are the same set. -/
def State.Mirrored (s : State ε) : Prop :=
  ∀ event, event ∈ s.subscriptions ↔ event ∈ s.native

/-- The last probe of the current call that subscribed the event could not unsubscribe it. -/
def State.LeftBehind (s : State ε) (event : ε) : Prop :=
  s.probed.lookup event = some false

/-- For each event, the last probe of the current call that subscribed it, if there is one,
    unsubscribed it. -/
def State.ProbesUndone (s : State ε) : Prop :=
  ∀ event, ¬ s.LeftBehind event

instance (s : State ε) (event : ε) : Decidable (s.LeftBehind event) :=
  inferInstanceAs (Decidable (_ = _))

/-! ## One probe -/

/-- A probe is refused, or done and undone, or done and not undone. -/
theorem probeEvent_cases (cfg : Config ε) (event : ε) (s : State ε) :
    probeEvent cfg event s = (false, { s with nativeCalls := s.nativeCalls + 1 }) ∨
    probeEvent cfg event s = (true, { s with
      native := (s.native ∪ {event}) \ {event}
      nativeCalls := s.nativeCalls + 1 + 1
      probed := (event, true) :: s.probed }) ∨
    probeEvent cfg event s = (false, { s with
      native := s.native ∪ {event}
      nativeCalls := s.nativeCalls + 1 + 1
      probed := (event, false) :: s.probed }) := by
  by_cases hsub : cfg.outcome s.nativeCalls
  · by_cases hunsub : cfg.outcome (s.nativeCalls + 1)
    · exact .inr (.inl (by simp [probeEvent, esSubscribe, esUnsubscribe, hsub, hunsub]))
    · exact .inr (.inr (by simp [probeEvent, esSubscribe, esUnsubscribe, hsub, hunsub]))
  · exact .inl (by simp [probeEvent, esSubscribe, hsub])

@[simp] theorem probeEvent_subscriptions (cfg : Config ε) (event : ε) (s : State ε) :
    (probeEvent cfg event s).2.subscriptions = s.subscriptions := by
  rcases probeEvent_cases cfg event s with h | h | h <;> rw [h]

@[simp] theorem probeEvent_probeCache (cfg : Config ε) (event : ε) (s : State ε) :
    (probeEvent cfg event s).2.probeCache = s.probeCache := by
  rcases probeEvent_cases cfg event s with h | h | h <;> rw [h]

theorem leftBehind_cons {s : State ε} {native : Finset ε} {nativeCalls : Nat} {event other : ε}
    {unsubscribed : Bool} :
    State.LeftBehind { s with
      native := native
      nativeCalls := nativeCalls
      probed := (event, unsubscribed) :: s.probed } other ↔
    if other = event then unsubscribed = false else s.LeftBehind other := by
  unfold State.LeftBehind
  by_cases h : other = event
  · simp [h]
  · rw [List.lookup_cons, beq_false_of_ne h, if_neg h]

/-- A probe that answers "supported" has left nothing behind. -/
theorem probeEvent_true {cfg : Config ε} {event : ε} {s : State ε}
    (h : (probeEvent cfg event s).1 = true) :
    ¬ (probeEvent cfg event s).2.LeftBehind event := by
  rcases probeEvent_cases cfg event s with hs | hs | hs <;> rw [hs] at h ⊢
  · cases h
  · simp [leftBehind_cons]
  · cases h

/-- Another event is left behind after a probe iff it was before. -/
theorem probeEvent_leftBehind_ne (cfg : Config ε) {event other : ε} (s : State ε)
    (h : other ≠ event) :
    (probeEvent cfg event s).2.LeftBehind other ↔ s.LeftBehind other := by
  rcases probeEvent_cases cfg event s with hs | hs | hs <;> rw [hs]
  · exact Iff.rfl
  · rw [leftBehind_cons, if_neg h]
  · rw [leftBehind_cons, if_neg h]

/-! ## The native set while a call probes -/

/-- Natively subscribed are the events of `base` and those that probes left behind, which
    are not in `base`. -/
structure Probing (base : List ε) (s : State ε) : Prop where
  native_iff : ∀ event, event ∈ s.native ↔ event ∈ base ∨ s.LeftBehind event
  outside : ∀ event, s.LeftBehind event → event ∉ base

/-- A call starts with no event left behind. -/
theorem Probing.start {s : State ε} (h : s.Mirrored) :
    Probing s.subscriptions { s with probed := [] } := by
  have hnone : ∀ event, ¬ State.LeftBehind { s with probed := [] } event := fun event hleft => by
    simp [State.LeftBehind] at hleft
  exact ⟨fun event => by rw [← h event]; simp [hnone event],
    fun event hleft => absurd hleft (hnone event)⟩

theorem Probing.mirrored_iff {s : State ε} (h : Probing s.subscriptions s) :
    s.Mirrored ↔ s.ProbesUndone := by
  constructor
  · intro hm event hleft
    have hnative : event ∈ s.native := (h.native_iff event).mpr (.inr hleft)
    exact h.outside event hleft ((hm event).mpr hnative)
  · intro hundone event
    rw [h.native_iff event]
    simp [hundone event]

/-- Probing an event outside `base` keeps the form of the native set, whatever the two native
    calls come to. -/
theorem Probing.probeEvent {base : List ε} {s : State ε} {event : ε} (cfg : Config ε)
    (h : Probing base s) (hevent : event ∉ base) :
    Probing base (probeEvent cfg event s).2 := by
  rcases probeEvent_cases cfg event s with hs | hs | hs <;> rw [hs]
  · exact ⟨h.native_iff, h.outside⟩
  · constructor
    · intro other
      by_cases ho : other = event
      · simp [leftBehind_cons, ho, hevent]
      · simp [leftBehind_cons, ho, h.native_iff other]
    · intro other hleft
      rw [leftBehind_cons] at hleft
      split at hleft
      · cases hleft
      · exact h.outside other hleft
  · constructor
    · intro other
      by_cases ho : other = event
      · simp [leftBehind_cons, ho]
      · simp [leftBehind_cons, ho, h.native_iff other]
    · intro other hleft
      rw [leftBehind_cons] at hleft
      split at hleft
      next ho => exact ho ▸ hevent
      next => exact h.outside other hleft

/-- Neither the cache nor the list of subscriptions matters to the form of the native set. -/
theorem Probing.congr {base : List ε} {s t : State ε} (h : Probing base s)
    (hnative : t.native = s.native) (hprobed : t.probed = s.probed) : Probing base t :=
  ⟨fun event => by rw [hnative, State.LeftBehind, hprobed]; exact h.native_iff event,
    fun event hleft => h.outside event (by rwa [State.LeftBehind, hprobed] at hleft)⟩

/-! ## `Array#reject` -/

section Reject

variable {p : ε → State ε → Bool × State ε}

omit [DecidableEq ε] in
theorem reject_cons (event : ε) (events : List ε) (s : State ε) :
    reject p (event :: events) s =
      (if (p event s).1 then (reject p events (p event s).2).1
        else event :: (reject p events (p event s).2).1,
      (reject p events (p event s).2).2) := rfl

omit [DecidableEq ε] in
/-- What every test keeps, `reject` keeps. -/
theorem reject_invariant {I : State ε → Prop} (events : List ε)
    (htest : ∀ event ∈ events, ∀ s, I s → I (p event s).2) {s : State ε} (h : I s) :
    I (reject p events s).2 := by
  induction events generalizing s with
  | nil => exact h
  | cons event events ih =>
    rw [reject_cons]
    exact ih (fun e he => htest e (.tail _ he)) (htest event (.head _) s h)

omit [DecidableEq ε] in
/-- What a test that accepts an event establishes of the event, and later tests keep, holds of
    every event that is not rejected. -/
theorem reject_kept {Q : ε → State ε → Prop}
    (haccept : ∀ event s, (p event s).1 = true → Q event (p event s).2)
    (hkeep : ∀ event other s, Q event s → Q event (p other s).2) {events : List ε}
    {s : State ε} {event : ε} (hmem : event ∈ events)
    (hkept : event ∉ (reject p events s).1) : Q event (reject p events s).2 := by
  induction events generalizing s with
  | nil => cases hmem
  | cons first rest ih =>
    rw [reject_cons] at hkept ⊢
    rcases List.mem_cons.mp hmem with rfl | hmem
    · -- Rejected when its own test fails; otherwise the remaining tests keep `Q`.
      by_cases haccepted : (p event s).1
      · exact reject_invariant rest (fun other _ t => hkeep event other t)
          (haccept event s haccepted)
      · rw [if_neg haccepted] at hkept
        exact absurd (List.mem_cons_self ..) hkept
    · refine ih hmem fun hrest => hkept ?_
      split
      · exact hrest
      · exact .tail _ hrest

end Reject

theorem mem_without {events other : List ε} {event : ε} :
    event ∈ without events other ↔ event ∈ events ∧ event ∉ other := by
  simp [without]

/-! ## The check for supported events -/

/-- While `subscribe` checks the events, each event left behind is cached as unsupported. -/
structure Checking (cfg : Config ε) (base : List ε) (s : State ε) : Prop
    extends Probing base s where
  subscriptions : s.subscriptions = base
  cached : ∀ event, s.LeftBehind event → cfg.probe ≠ .off ∧ s.probeCache event = some false

theorem Checking.start (cfg : Config ε) {s : State ε} (h : s.Mirrored) :
    Checking cfg s.subscriptions { s with probed := [] } :=
  ⟨.start h, rfl, fun event hleft => by simp [State.LeftBehind] at hleft⟩

theorem Checking.probeIntoCache {cfg : Config ε} {base : List ε} {s : State ε} {event : ε}
    (h : Checking cfg base s) (hevent : event ∉ base) (hprobe : cfg.probe ≠ .off) :
    Checking cfg base (probeIntoCache cfg event s).2 where
  toProbing := (h.toProbing.probeEvent cfg hevent).congr rfl rfl
  subscriptions := (probeEvent_subscriptions cfg event s).trans h.subscriptions
  cached other hleft := by
    refine ⟨hprobe, ?_⟩
    by_cases ho : other = event
    · -- Had the probe answered "supported", it would have left nothing behind.
      subst ho
      have hfalse : (Subscriptions.probeEvent cfg other s).1 = false := by
        by_contra htrue
        exact probeEvent_true (by simpa using htrue) hleft
      simp [Subscriptions.probeIntoCache, hfalse]
    · have hbefore := (probeEvent_leftBehind_ne cfg s ho).mp hleft
      simp [Subscriptions.probeIntoCache, ho, (h.cached other hbefore).2]

theorem Checking.supportedEvent {cfg : Config ε} {base : List ε} {s : State ε} {event : ε}
    (h : Checking cfg base s) (hevent : event ∉ base) :
    Checking cfg base (supportedEvent cfg event s).2 := by
  unfold Subscriptions.supportedEvent
  split
  · exact h
  · split
    · exact h
    next hprobe =>
      split
      · exact h
      · exact h.probeIntoCache hevent hprobe

/-- What is known of an event that `subscribe` takes to be supported. -/
def Accepted (cfg : Config ε) (event : ε) (s : State ε) : Prop :=
  cfg.probe = .off ∨ s.probeCache event = some true

theorem supportedEvent_accepted (cfg : Config ε) (event : ε) (s : State ε)
    (h : (supportedEvent cfg event s).1 = true) :
    Accepted cfg event (supportedEvent cfg event s).2 := by
  unfold supportedEvent at h ⊢
  split at h
  · cases h
  next havailable =>
    rw [if_neg havailable]
    split at h
    next hoff => exact .inl hoff
    next hoff =>
      rw [if_neg hoff]
      split at h
      next cached hcached => exact .inr (by simpa [hcached] using h)
      next hcached =>
        right
        have hsupported : (probeEvent cfg event s).1 = true := h
        simp [probeIntoCache, hsupported]

/-- An entry of the cache is never replaced. -/
theorem supportedEvent_keeps (cfg : Config ε) (event other : ε) (s : State ε)
    (h : Accepted cfg event s) : Accepted cfg event (supportedEvent cfg other s).2 := by
  unfold supportedEvent
  split
  · exact h
  · split
    · exact h
    · split
      · exact h
      next hcached =>
        refine h.imp_right fun htrue => ?_
        have hne : event ≠ other := fun he => by rw [he, hcached] at htrue; cases htrue
        simp [probeIntoCache, hne, htrue]

/-- An event that passed the check was not left behind by it. -/
theorem Checking.not_leftBehind {cfg : Config ε} {base : List ε} {s : State ε} {event : ε}
    (h : Checking cfg base s) (haccepted : Accepted cfg event s) : ¬ s.LeftBehind event := by
  intro hleft
  obtain ⟨hprobe, hcached⟩ := h.cached event hleft
  rcases haccepted with hoff | htrue
  · exact hprobe hoff
  · rw [hcached] at htrue
    cases htrue

/-! ## One call -/

/-- After the probes of the `rescue` clause, too, only what probes left behind is natively
    subscribed beside `@subscriptions`. -/
theorem probing_subscribeFailed {cfg : Config ε} {events : List ε} {s : State ε}
    (h : Probing s.subscriptions s) (hevents : ∀ event ∈ events, event ∉ s.subscriptions) :
    Probing (subscribeFailed cfg events s).2.subscriptions (subscribeFailed cfg events s).2 := by
  have hrun : (subscribeFailed cfg events s).2 = (reject (probeEvent cfg) events s).2 := rfl
  have hinv := reject_invariant (p := probeEvent cfg)
    (I := fun t => t.subscriptions = s.subscriptions ∧ Probing s.subscriptions t) events
    (fun event hevent t ht => ⟨(probeEvent_subscriptions cfg event t).trans ht.1,
      ht.2.probeEvent cfg (hevents event hevent)⟩) ⟨rfl, h⟩
  rw [hrun, hinv.1]
  exact hinv.2

/-- A native subscription of events that were not left behind adds the same events to both
    sets. -/
theorem Probing.subscribed {events : List ε} {s t : State ε} (h : Probing s.subscriptions s)
    (hevents : ∀ event ∈ events, ¬ s.LeftBehind event)
    (hsubs : t.subscriptions = (s.subscriptions ++ events).eraseDups)
    (hnative : t.native = s.native ∪ events.toFinset) (hprobed : t.probed = s.probed) :
    Probing t.subscriptions t := by
  have hleft : ∀ event, t.LeftBehind event ↔ s.LeftBehind event := fun event => by
    rw [State.LeftBehind, hprobed, State.LeftBehind]
  constructor
  · intro event
    rw [hnative, hsubs, hleft event]
    simp only [Finset.mem_union, List.mem_toFinset, List.mem_eraseDups, List.mem_append,
      h.native_iff event]
    tauto
  · intro event hl
    rw [hsubs, List.mem_eraseDups, List.mem_append]
    rw [hleft event] at hl
    rintro (hs | he)
    · exact h.outside event hl hs
    · exact hevents event he hl

theorem probing_subscribeSupported {cfg : Config ε} {events : List ε} {s : State ε}
    (h : Probing s.subscriptions s)
    (hevents : ∀ event ∈ events, event ∉ s.subscriptions ∧ ¬ s.LeftBehind event) :
    Probing (subscribeSupported cfg events s).2.subscriptions
      (subscribeSupported cfg events s).2 := by
  unfold subscribeSupported
  split
  · exact h
  · by_cases hnative : cfg.outcome s.nativeCalls
    · simp only [esSubscribe, hnative, ↓reduceIte]
      have hleft := fun event hevent => (hevents event hevent).2
      exact Probing.subscribed (s := s) (t := { s with
        native := s.native ∪ events.toFinset
        nativeCalls := s.nativeCalls + 1
        subscriptions := (s.subscriptions ++ events).eraseDups }) h hleft rfl rfl rfl
    · -- A native call that fails only counts itself.
      simp only [esSubscribe, hnative, Bool.false_eq_true, ↓reduceIte]
      exact probing_subscribeFailed (h.congr rfl rfl) fun event hevent => (hevents event hevent).1

/-- `subscribe`, called while the sets are equal, leaves `@subscriptions` and what its probes
    left behind natively subscribed, on each of its paths. -/
theorem probing_subscribe (cfg : Config ε) (events : List ε) (skipUnsupported : Bool)
    {s : State ε} (h : s.Mirrored) :
    Probing (subscribe cfg events skipUnsupported { s with probed := [] }).2.subscriptions
      (subscribe cfg events skipUnsupported { s with probed := [] }).2 := by
  have hcheck := reject_invariant (p := supportedEvent cfg) (I := Checking cfg s.subscriptions)
    (without events s.subscriptions)
    (fun event hevent t ht => ht.supportedEvent (mem_without.mp hevent).2) (.start cfg h)
  have hprobing := hcheck.toProbing
  unfold subscribe
  dsimp only
  split
  · dsimp only
    rwa [hcheck.subscriptions]
  · refine probing_subscribeSupported (by rwa [hcheck.subscriptions]) fun event hevent => ?_
    -- What is handed to `__subscribe` was not subscribed and passed the check.
    obtain ⟨hmem, hkept⟩ := mem_without.mp hevent
    rw [hcheck.subscriptions]
    exact ⟨(mem_without.mp hmem).2, hcheck.not_leftBehind
      (reject_kept (supportedEvent_accepted cfg) (supportedEvent_keeps cfg) hmem hkept)⟩

/-- `unsubscribe` probes nothing, and takes the same events from both sets or none. -/
theorem mirrored_unsubscribe (cfg : Config ε) (events : List ε) {s : State ε}
    (h : s.Mirrored) : (unsubscribe cfg events s).2.Mirrored := by
  unfold unsubscribe
  split
  · exact h
  · by_cases hnative : cfg.outcome s.nativeCalls
    · intro event
      simp [esUnsubscribe, hnative, mem_without, h event]
    · intro event
      simp [esUnsubscribe, hnative, h event]

omit [DecidableEq ε] in
theorem mirrored_unsubscribeAll (cfg : Config ε) {s : State ε} (h : s.Mirrored) :
    (unsubscribeAll cfg s).2.Mirrored := by
  unfold unsubscribeAll
  by_cases hnative : cfg.outcome s.nativeCalls
  · intro event
    simp [esUnsubscribeAll, hnative]
  · intro event
    simp [esUnsubscribeAll, hnative, h event]

theorem unsubscribe_probed (cfg : Config ε) (events : List ε) (s : State ε) :
    (unsubscribe cfg events s).2.probed = s.probed := by
  unfold unsubscribe esUnsubscribe
  grind

omit [DecidableEq ε] in
theorem unsubscribeAll_probed (cfg : Config ε) (s : State ε) :
    (unsubscribeAll cfg s).2.probed = s.probed := by
  unfold unsubscribeAll esUnsubscribeAll
  grind

theorem probesUndone_of_probed {s : State ε} (h : s.probed = []) : s.ProbesUndone :=
  fun event hleft => by simp [State.LeftBehind, h] at hleft

/-- One call that starts with equal sets ends with equal sets iff each of its probes was
    undone. -/
theorem call_mirrored_iff (cfg : Config ε) (c : Call ε) {s : State ε} (h : s.Mirrored) :
    (call cfg c s).2.Mirrored ↔ (call cfg c s).2.ProbesUndone := by
  have hs : State.Mirrored { s with probed := [] } := h
  cases c with
  | subscribe events skipUnsupported =>
    exact (probing_subscribe cfg events skipUnsupported h).mirrored_iff
  | unsubscribe events =>
    exact iff_of_true (mirrored_unsubscribe cfg events hs)
      (probesUndone_of_probed (unsubscribe_probed cfg events _))
  | unsubscribeAll =>
    exact iff_of_true (mirrored_unsubscribeAll cfg hs)
      (probesUndone_of_probed (unsubscribeAll_probed cfg _))

/-! ## Runs -/

theorem Probing.probeAll (cfg : Config ε) (events : List ε) {s : State ε}
    (h : Probing [] s) (hsubs : s.subscriptions = []) :
    Probing [] (probeAll cfg events s) ∧ (probeAll cfg events s).subscriptions = [] := by
  induction events generalizing s with
  | nil => exact ⟨h, hsubs⟩
  | cons event events ih =>
    unfold Subscriptions.probeAll
    split
    · exact ih ((h.probeEvent cfg List.not_mem_nil).congr rfl rfl)
        ((probeEvent_subscriptions cfg event s).trans hsubs)
    · exact ih h hsubs

/-- The constructor leaves the sets equal iff each probe of `probe: :eager` was undone. -/
theorem newClient_mirrored_iff (cfg : Config ε) (probeCache : ε → Option Bool) :
    (newClient cfg probeCache).Mirrored ↔ (newClient cfg probeCache).ProbesUndone := by
  have hinit : State.Mirrored
      { subscriptions := [], probeCache, native := ∅, nativeCalls := 0,
        probed := ([] : List (ε × Bool)) } :=
    fun event => by simp
  unfold newClient
  dsimp only
  split
  · obtain ⟨hprobing, hsubs⟩ := Probing.probeAll cfg cfg.all (Probing.start hinit) rfl
    exact Probing.mirrored_iff (hsubs.symm ▸ hprobing)
  · exact iff_of_true hinit (probesUndone_of_probed rfl)

/-- From equal sets on: they stay equal throughout iff every call undoes its probes. The first
    call that leaves an event behind is also the first after which the sets differ. -/
theorem statesAfter_mirrored_iff (cfg : Config ε) (calls : List (Call ε)) {s : State ε}
    (h : s.Mirrored) :
    (∀ t ∈ statesAfter cfg calls s, t.Mirrored) ↔
      ∀ t ∈ statesAfter cfg calls s, t.ProbesUndone := by
  induction calls generalizing s with
  | nil => simp [statesAfter]
  | cons c calls ih =>
    simp only [statesAfter, List.forall_mem_cons]
    constructor
    · rintro ⟨hc, hrest⟩
      exact ⟨(call_mirrored_iff cfg c h).mp hc, (ih hc).mp hrest⟩
    · rintro ⟨hc, hrest⟩
      have hm := (call_mirrored_iff cfg c h).mpr hc
      exact ⟨hm, (ih hm).mpr hrest⟩

/-- For every probe mode, cache, pattern of failures and sequence of calls: `@subscriptions`
    is the native set after the constructor and after every call iff no probe of the run left
    an event subscribed. -/
theorem mirrored_iff_probes_undone (cfg : Config ε) (probeCache : ε → Option Bool)
    (calls : List (Call ε)) :
    (∀ s ∈ observed cfg probeCache calls, s.Mirrored) ↔
      ∀ s ∈ observed cfg probeCache calls, s.ProbesUndone := by
  simp only [observed, List.forall_mem_cons]
  constructor
  · rintro ⟨hnew, hrest⟩
    exact ⟨(newClient_mirrored_iff cfg probeCache).mp hnew,
      (statesAfter_mirrored_iff cfg calls hnew).mp hrest⟩
  · rintro ⟨hnew, hrest⟩
    have hm := (newClient_mirrored_iff cfg probeCache).mpr hnew
    exact ⟨hm, (statesAfter_mirrored_iff cfg calls hm).mpr hrest⟩

/-- A client that probes lazily subscribes to one event. The probe's `es_subscribe` succeeds,
    its `es_unsubscribe` fails: the event is reported as unsupported and stays natively
    subscribed. -/
theorem subscription_left_behind :
    ¬ ∀ (cfg : Config Nat) (probeCache : Nat → Option Bool) (calls : List (Call Nat)),
      ∀ s ∈ statesAfter cfg calls (newClient cfg probeCache), s.Mirrored := by
  intro h
  have hm := h ⟨.lazy, [9], fun _ => true, fun _ => "notify_exec", fun n => n ≠ 1⟩
    (fun _ => none) [.subscribe [9] true] _ (List.mem_cons_self ..) 9
  revert hm
  decide

end EndpointSecurity.Subscriptions
