import EndpointSecurity.Native.ResponseMethods
import EndpointSecurity.Ruby.EventType
import EndpointSecurity.Spec.AuthOnce
import EndpointSecurity.Spec.ClientDelivery

/-!
# Cached verdicts

`allow!` and `deny!` look up whether an event may be cached before they ask Endpoint Security to
cache a verdict, and `respond` accepts only one kind of event, which may be. What they have checked
is the message that their slot held then. All other responses send the configured default verdict,
with `default_cache` as the cache flag whatever the event.

## Key results

- `cached_uncacheable`: a cached default verdict for an event that may not be cached
- `cached_after_release`: a verdict that reaches another message than the one that was checked
- `cached_cacheable_iff`: the configurations under which neither can happen, as long as no message
  is released while its response method runs Ruby code
-/

namespace EndpointSecurity

open TransitionSystem (Reachable restrict restrict_eq_some)

/-- The cache flag of a response. -/
def Response.cached : Response → Bool
  | .auth _ cache | .flags _ cache => cache

/-- No response asks Endpoint Security to cache a verdict on an event that may not be cached. -/
def CachesProperly (cfg : Config) (s : State) : Prop :=
  ∀ m client sender response, .respond client sender response ∈ s.history.log m →
    response.cached → cfg.cacheable (cfg.arrivals m).eventType

/-- A client that caches its default verdict, and AUTH messages of type `auth_rename`. -/
def cachingClient : Config := { smallClient with
  defaultCache := true
  authOpen := EventType.authOpen
  cacheable := EventType.cacheable
  arrivals _ := ⟨7, .auth, 6, 1000⟩ }

/-- The client is closed, and a message arrives. -/
def arriveClosed (m : Nat) : List Action := .call .close :: callbackSteps m 3

/-- A default verdict is cached although the event may not be. -/
theorem cached_uncacheable : ¬ ∀ cfg : Config, cfg.cacheable = EventType.cacheable →
    cfg.authOpen = EventType.authOpen → ∀ s, Reachable (splitStep cfg) (.init cfg) s →
      CachesProperly cfg s.client := by
  intro hall
  have h := hall cachingClient rfl rfl
    (TransitionSystem.final (splitStep cachingClient) ((arriveClosed 0).map .client)
      (.init cachingClient) (by decide +kernel)) (.final _) 0 7 .callback (.auth .allow true)
    (by decide +kernel) rfl
  revert h
  decide +kernel

/-- A client that does not cache its default verdict. Its third message is of type `auth_rename`,
    the others of type `auth_exec`, which may be cached. -/
def releasingClient : Config := { cachingClient with
  defaultCache := false
  arrivals m := ⟨7, .auth, if m = 2 then 6 else 0, 1000⟩ }

/-- `allow!` is called for the first message, which is released while `EventType` is asked. Its slot
    goes to the third message. -/
def releaseWhileAsked : List SplitAction :=
  (callbackSteps 0 19 ++ callbackSteps 1 18 ++ List.replicate 9 (Action.watchdog {}) ++
    [Action.call (.drain 2)] ++ List.replicate 13 (Action.ruby {})).map SplitAction.client ++
  [SplitAction.check 0 (.auth .allow true)] ++
  ([Action.call (.release 0)] ++ List.replicate 9 (Action.ruby {}) ++
    callbackSteps 2 18).map SplitAction.client ++
  [SplitAction.respondSlot 0] ++ List.replicate 3 (SplitAction.client (.ruby {}))

/-- A verdict that may be cached for one message is cached for another, for which it may not be. -/
theorem cached_after_release : ∃ s,
    Reachable (splitStep releasingClient) (.init releasingClient) s ∧
      ¬CachesProperly releasingClient s.client := by
  refine ⟨TransitionSystem.final (splitStep releasingClient) releaseWhileAsked
    (.init releasingClient) (by decide +kernel), .final _, fun hproper => ?_⟩
  have h := hproper 2 7 (.ruby 0) (.auth .allow true) (by decide +kernel) rfl
  revert h
  decide +kernel

/-! ## The answers of the response methods -/

variable {cfg : Config} {s s' : State} {i : Input} {m p : Nat}

/-- The cache flag of a response is that of its answer. -/
@[simp] theorem Config.response_cached (m : Nat) (a : Answer) :
    (cfg.response m a).cached = a.cache := by
  unfold Config.response
  split_ifs <;> rfl

/-- The response methods ask for a cached verdict only where it may be cached, except when they
    send the default one. -/
theorem Config.cacheable_of_check (hopen : cfg.cacheable cfg.authOpen) {verdict : Verdict}
    {answer : Answer} (hcheck : cfg.check m verdict = .ok answer) (hcache : answer.cache) :
    cfg.cacheable (cfg.arrivals m).eventType ∨ answer = cfg.defaultAnswer := by
  cases verdict with
  | default =>
    cases hcheck
    exact .inr rfl
  | auth result cache =>
    simp only [Config.check] at hcheck
    split_ifs at hcheck with hauth hbad hstrict <;> cases hcheck
    · cases hcache
    · simp only [Bool.and_eq_true, Bool.not_eq_true', not_and, Bool.not_eq_false] at hbad
      exact .inl (hbad hcache)
  | flags flags cache =>
    simp only [Config.check] at hcheck
    split_ifs at hcheck with hbad
    cases hcheck
    simp only [Bool.or_eq_true, decide_eq_true_eq, not_or, ne_eq, not_not] at hbad
    exact .inl (hbad.2 ▸ hopen)

/-- The position and the caller of `esrb_respond_slot`. -/
def RubyPc.responding : RubyPc → Option (Nat × RespondCaller)
  | .respondClosed p caller | .respondExchange p caller | .respondSend p caller =>
    some (p, caller)
  | _ => none

/-- The answers of the response methods have passed their check. -/
structure Checked (cfg : Config) (s : State) : Prop where
  responding : ∀ p call answer raises,
    s.ruby.responding = some (p, .method call answer raises) →
      ∃ verdict, cfg.check (s.wrapper p).message verdict = .ok answer
  sent : ∀ m client call response, .respond client (.ruby call) response ∈ s.history.log m →
    ∃ verdict answer, cfg.check m verdict = .ok answer ∧ response = cfg.response m answer

theorem checked_init (cfg : Config) : Checked cfg (.init cfg) where
  responding := by simp [State.init, RubyPc.responding]
  sent := by simp [State.init, History.init]

/-- What is recorded in the name of a response method has passed the check. -/
theorem Checked.sent_of_adds (hslots : SlotsInv cfg s) (hlogs : Logs cfg s) (h : Checked cfg s)
    (hadds : s.history.Adds (s.Records cfg) s'.history) {client call : Nat} {response : Response}
    (hmem : .respond client (.ruby call) response ∈ s'.history.log m) :
    ∃ verdict answer, cfg.check m verdict = .ok answer ∧ response = cfg.response m answer := by
  rcases hadds.mem hmem with hold | hnew
  · exact h.sent m client call response hold
  · obtain ⟨p, answer, raises, hpc, rfl, rfl⟩ := hnew client call response rfl
    obtain ⟨verdict, hcheck⟩ := h.responding p call answer raises (by rw [hpc]; rfl)
    -- The slot of the call holds the message of its wrapper
    have hst := hslots.ruby.holds p .taken (by rw [hpc]; rfl)
    have hmessage := ((hslots.slots.slot p).full (by rw [hst]; rfl)).1
    have hwrapped := (hlogs.wrapped p (hlogs.live p (hslots.ruby.taken p hst))).2.1
    rw [hwrapped, ← hmessage] at hcheck
    exact ⟨verdict, answer, hcheck, rfl⟩

theorem Checked.background (h : Checked cfg s) (hback : s.Background s') : Checked cfg s' where
  responding := by
    rw [hback.ruby, hback.wrapper]
    exact h.responding
  sent m client call response hmem := by
    rcases hback.adds.mem hmem with hold | hnew
    · exact h.sent m client call response hold
    · cases hnew

/-- A response method that begins has checked the message in its slot. -/
theorem callStep_responding {call : Nat} {what : Call} {answer : Answer} {raises : Bool}
    (hstep : callStep cfg what s = some s')
    (hresponding : s'.ruby.responding = some (p, .method call answer raises)) :
    s.ruby = .idle ∧ (s.wrapper p).valid ∧ s'.wrapper = s.wrapper ∧
      ∃ verdict, cfg.check (s.queue.slot p).message verdict = .ok answer := by
  simp only [callStep] at hstep
  split_ifs at hstep with hidle
  have hrelease : ∀ r caller stats,
      ({ s with stats }.releaseCall r caller).ruby.responding ≠
        some (p, .method call answer raises) := by
    intro r caller stats
    simp only [State.releaseCall]
    split_ifs <;> simp [RubyPc.responding, State.releaseReturn, State.finish]
  cases what with
  | drain | close | retain | read =>
    simp only [beginCall] at hstep
    split_ifs at hstep <;> cases hstep <;> simp [RubyPc.responding, State.finish] at hresponding
  | wake =>
    cases hstep
    simp [RubyPc.responding] at hresponding
  | respond r verdict =>
    simp only [beginCall] at hstep
    split_ifs at hstep with hlive hvalid
    · cases hstep
      simp [RubyPc.responding, State.finish] at hresponding
    · split at hstep
      · cases hstep
        simp [RubyPc.responding, State.finish] at hresponding
      · next answer' hcheck =>
        cases hstep
        simp only [RubyPc.responding, Option.some.injEq, Prod.mk.injEq,
          RespondCaller.method.injEq] at hresponding
        obtain ⟨rfl, -, rfl, -⟩ := hresponding
        exact ⟨hidle, by simpa using hvalid, rfl, verdict, hcheck⟩
  | release r =>
    simp only [beginCall] at hstep
    split_ifs at hstep
    cases hstep
    exact absurd hresponding (hrelease r .method s.stats)
  | autoRelease r =>
    simp only [beginCall] at hstep
    split_ifs at hstep <;> cases hstep
    · simp [RubyPc.responding, State.finish] at hresponding
    · exact absurd hresponding (hrelease r .method s.stats)
  | free r =>
    simp only [beginCall] at hstep
    split_ifs at hstep <;> cases hstep <;> exact absurd hresponding (hrelease r .free _)

theorem drainNext_responding (left : Nat) (batch : List Nat) :
    (drainNext left batch).responding = none := by
  unfold drainNext
  split_ifs <;> rfl

/-- A response method that goes on keeps its answer and the wrappers. -/
theorem rubyStep_responding {call : Nat} {answer : Answer} {raises : Bool}
    (hstep : rubyStep cfg i s = some s')
    (hresponding : s'.ruby.responding = some (p, .method call answer raises)) :
    s.ruby.responding = some (p, .method call answer raises) ∧ s'.wrapper = s.wrapper := by
  have hreturn : ∀ {t : State} {r sent success caller},
      (t.respondReturn cfg r sent success caller).ruby.responding ≠
        some (p, .method call answer raises) := by
    intro t r sent success caller
    cases caller <;> simp [State.respondReturn, State.finish, RubyPc.responding]
  cases hpc : s.ruby with
  | idle => simp [rubyStep, hpc] at hstep
  | respondClosed r caller | respondExchange r caller =>
    simp only [rubyStep, hpc] at hstep
    split_ifs at hstep <;> cases hstep <;>
      first
      | exact absurd hresponding hreturn
      | exact ⟨hresponding, rfl⟩
  | respondSend r caller =>
    simp only [rubyStep, hpc, Option.some.injEq] at hstep
    subst hstep
    exact absurd hresponding hreturn
  | drainDelivered =>
    simp only [rubyStep, hpc, Option.some.injEq] at hstep
    subst hstep
    simp [drainNext_responding] at hresponding
  | drainRead maximum =>
    simp only [rubyStep, hpc] at hstep
    split_ifs at hstep <;> cases hstep
    · simp [RubyPc.responding] at hresponding
    · simp [RubyPc.responding, State.finish] at hresponding
    · simp [RubyPc.responding, State.finish] at hresponding
    · simp [RubyPc.responding, State.finish] at hresponding
    · rw [drainNext_responding] at hresponding
      cases hresponding
  | drainDepthDequeue | answerOccupied | answerExchange | closeExchange =>
    simp only [rubyStep, hpc] at hstep
    split_ifs at hstep <;> cases hstep <;> simp [RubyPc.responding, State.finish] at hresponding
  | drainClear | drainDepth | stopWatchdog | storeDeleteReady | disarm | queueDisarm
  | answerSend | closeSend | releaseMessage | closeMessage =>
    simp only [rubyStep, hpc, Option.some.injEq] at hstep
    subst hstep
    simp [RubyPc.responding] at hresponding
  | awaitReaders | queueAwait | awaitCallbacks | awaitWatchdog | join =>
    simp only [rubyStep, hpc, Option.some.injEq] at hstep
    subst hstep
    split_ifs at hresponding <;> simp [hpc, RubyPc.responding] at hresponding
  | notify caller =>
    simp only [rubyStep, hpc] at hstep
    split_ifs at hstep <;> cases hstep
    · cases caller <;> simp [State.notifyReturn, State.finish, RubyPc.responding] at hresponding
    · simp [RubyPc.responding] at hresponding
  | notifyWrite caller =>
    simp only [rubyStep, hpc, Option.some.injEq] at hstep
    subst hstep
    cases caller <;> simp [State.notifyReturn, State.finish, RubyPc.responding] at hresponding
  | drainDequeue left batch pc | closeDequeue pc =>
    simp only [rubyStep, hpc, Queue.dequeue] at hstep
    cases hres : s.queue.ring.takeStep i.spurious pc <;>
      simp only [hres, Option.some.injEq] at hstep <;> subst hstep <;>
      simp [RubyPc.responding] at hresponding
  | queueStore r caller =>
    simp only [rubyStep, hpc] at hstep
    cases caller <;> cases hstep <;>
      simp [RubyPc.responding, State.releaseReturn, State.finish] at hresponding

/-- The answers have passed their check in every reachable state. -/
theorem reachable_checked (hs : Reachable (step cfg) (.init cfg) s) : Checked cfg s := by
  apply hs.invariant (checked_init cfg)
  intro s a s' hs h hstep
  have hslots := reachable_slots hs
  have hlogs := reachable_logs hs
  cases a with
  | callback k input => exact h.background (callbackStep_records hstep)
  | watchdog input => exact h.background (watchdogStep_records hstep)
  | call call =>
    refine ⟨fun p c answer raises hresponding => ?_, fun m client c response hmem => ?_⟩
    · obtain ⟨hidle, hvalid, hwrapper, verdict, hcheck⟩ := callStep_responding hstep hresponding
      have hst := hslots.taken_of_valid hidle hvalid
      have hmessage := ((hslots.slots.slot p).full (by rw [hst]; rfl)).1
      have hwrapped := (hlogs.wrapped p (hlogs.live p hvalid)).2.1
      rw [hwrapper, hwrapped, ← hmessage]
      exact ⟨verdict, hcheck⟩
    · exact h.sent_of_adds hslots hlogs (step_records hstep) hmem
  | ruby input =>
    refine ⟨fun p c answer raises hresponding => ?_, fun m client c response hmem => ?_⟩
    · obtain ⟨hresponding, hwrapper⟩ := rubyStep_responding hstep hresponding
      rw [hwrapper]
      exact h.responding p c answer raises hresponding
    · exact h.sent_of_adds hslots hlogs (step_records hstep) hmem

/-! ## When no verdict is cached wrongly -/

/-- Every response has the default answer, or one that has passed the check. -/
theorem response_cases (hs : Reachable (step cfg) (.init cfg) s) {client : Nat} {sender : Sender}
    {response : Response} (hmem : .respond client sender response ∈ s.history.log m) :
    response = cfg.response m cfg.defaultAnswer ∨
      ∃ verdict answer, cfg.check m verdict = .ok answer ∧ response = cfg.response m answer := by
  cases sender with
  | ruby call => exact .inr ((reachable_checked hs).sent m client call response hmem)
  | _ => exact .inl (((reachable_logs hs).proper m _ hmem).2 nofun)

/-- Only AUTH messages are responded to. -/
theorem isAuth_of_respond (hs : Reachable (step cfg) (.init cfg) s) {client : Nat}
    {sender : Sender} {response : Response}
    (hmem : .respond client sender response ∈ s.history.log m) : cfg.isAuth m := by
  have hlife := Life.of_counts ((reachable_logs hs).life m)
  have hpos : 0 < responses (s.history.log m) := List.countP_pos_iff.mpr ⟨_, hmem, rfl⟩
  apply hlife.auth
  cases hanswered : (s.life cfg m).answered with
  | true => rfl
  | false => simp [hlife.respond, hanswered] at hpos

/-- A message that arrives at a closed client gets the default verdict. -/
theorem arriveClosed_logs (cfg : Config) (m : Nat) (hauth : cfg.isAuth m) :
    ∃ s, Reachable (step cfg) (.init cfg) s ∧ .respond (cfg.arrivals m).client .callback
      (cfg.response m cfg.defaultAnswer) ∈ s.history.log m := by
  have hrun : ∃ s, TransitionSystem.run (step cfg) (arriveClosed m) (.init cfg) = some s ∧
      .respond (cfg.arrivals m).client .callback (cfg.response m cfg.defaultAnswer) ∈
        s.history.log m := by
    simp [arriveClosed, callbackSteps, TransitionSystem.run, List.replicate, step, callStep,
      beginCall, callbackStep, State.init, State.respondUnqueued, hauth, State.sendResponse,
      History.record]
  obtain ⟨s, hrun, hmem⟩ := hrun
  exact ⟨s, .of_run hrun, hmem⟩

/-- A response method calls `esrb_respond_slot` only while its message has not been released. -/
def RespondsInTime : SplitAction → SplitState → Prop
  | .respondSlot j, s => (s.responding[j]?).all fun r => (s.client.wrapper r.position).valid
  | _, _ => True

instance (a : SplitAction) (s : SplitState) : Decidable (RespondsInTime a s) := by
  unfold RespondsInTime
  split <;> infer_instance

/-- The response methods that run Ruby code have checked the message of their position. -/
def SplitState.Checked (cfg : Config) (s : SplitState) : Prop :=
  ∀ r ∈ s.responding, ∃ k, (s.client.callback k).position = some r.position ∧
    cfg.check k r.verdict = .ok r.answer

/-- A message that has not been released is the one that a callback has claimed its position for. -/
theorem message_of_valid (hs : Reachable (step cfg) (.init cfg) s) (hidle : s.ruby = .idle)
    (hvalid : (s.wrapper p).valid) :
    (s.callback (s.queue.slot p).message).position = some p := by
  have hslots := reachable_slots hs
  have hst := hslots.taken_of_valid hidle hvalid
  rw [((hslots.slots.slot p).full (by rw [hst]; rfl)).1]
  exact hslots.callbacks.claimed p (by simp [hst])

/-- A response method that goes on in time does what it would do if it were called only now. -/
theorem respondSlot_eq (hs : Reachable (step cfg) (.init cfg) s) (hidle : s.ruby = .idle)
    {r : Responding} {k : Nat} (hposition : (s.callback k).position = some r.position)
    (hcheck : cfg.check k r.verdict = .ok r.answer) (hvalid : (s.wrapper r.position).valid) :
    step cfg (.call (.respond r.position r.verdict)) s = some (s.respondSlot r) := by
  have hlive := (reachable_logs hs).live r.position hvalid
  have howner := (reachable_slots hs).callbacks.position
  have hmessage : (s.queue.slot r.position).message = k :=
    (howner _ _ (message_of_valid hs hidle hvalid)).2.symm.trans (howner k _ hposition).2
  simp only [step, callStep, if_pos hidle, beginCall, hlive, hvalid, hmessage, hcheck]
  rw [State.respondSlot, hmessage]
  rfl

/-- As long as the response methods go on in time, the client runs as if each of them made its
    check and its call in one step. -/
theorem reachable_client {s : SplitState}
    (hs : Reachable (restrict RespondsInTime (splitStep cfg)) (.init cfg) s) :
    Reachable (step cfg) (.init cfg) s.client ∧ s.Checked cfg := by
  apply hs.invariant ⟨.init, by simp [SplitState.Checked, SplitState.init]⟩
  rintro s a s' - ⟨hclient, hchecked⟩ hstep
  obtain ⟨hintime, hstep⟩ := restrict_eq_some.mp hstep
  have hkept : ∀ {a : Action} {t : State}, step cfg a s.client = some t → ∀ r ∈ s.responding,
      ∃ k, (t.callback k).position = some r.position ∧ cfg.check k r.verdict = .ok r.answer := by
    intro a t hstep r hr
    obtain ⟨k, hposition, hcheck⟩ := hchecked r hr
    exact ⟨k, step_position hstep hposition, hcheck⟩
  cases a with
  | client action =>
    obtain ⟨t, hnext, rfl⟩ := Option.map_eq_some_iff.mp hstep
    exact ⟨hclient.step hnext, hkept hnext⟩
  | check p verdict =>
    simp only [splitStep] at hstep
    split_ifs at hstep with hvalid
    split at hstep
    · cases hstep
    · next answer hcheck =>
      obtain ⟨t, hread, rfl⟩ := Option.map_eq_some_iff.mp hstep
      have hidle : s.client.ruby = .idle := by
        by_contra hbusy
        simp [step, callStep, hbusy] at hread
      refine ⟨hclient.step hread, fun r hr => ?_⟩
      rcases List.mem_append.mp hr with hr | hr
      · exact hkept hread r hr
      · obtain rfl := List.mem_singleton.mp hr
        exact ⟨_, step_position hread (message_of_valid hclient hidle hvalid), hcheck⟩
  | respondSlot j =>
    simp only [splitStep] at hstep
    cases hr : s.responding[j]? with
    | none => simp [hr] at hstep
    | some r =>
      simp only [hr] at hstep
      split_ifs at hstep with hidle
      cases hstep
      have hvalid : (s.client.wrapper r.position).valid := by
        simpa [RespondsInTime, hr] using hintime
      obtain ⟨k, hposition, hcheck⟩ := hchecked r (List.mem_of_getElem? hr)
      have hcall := respondSlot_eq hclient hidle hposition hcheck hvalid
      exact ⟨hclient.step hcall, fun r hr => hkept hcall r (List.mem_of_mem_eraseIdx hr)⟩
  | raise j =>
    cases hstep
    exact ⟨hclient, fun r hr => hchecked r (List.mem_of_mem_eraseIdx hr)⟩

/-- Of the runs of a client, those in which no response method runs Ruby code. -/
theorem reachable_split (hs : Reachable (step cfg) (.init cfg) s) :
    Reachable (restrict RespondsInTime (splitStep cfg)) (.init cfg)
      { client := s, responding := [] } := by
  induction hs with
  | init => exact .init
  | @step s s' a _ hstep ih =>
    refine ih.step (a := .client a) (restrict_eq_some.mpr ⟨trivial, ?_⟩)
    rw [splitStep, hstep]
    rfl

/-- Verdicts are cached properly in every run of a client whose response methods go on in time
    exactly if its default verdict is not to be cached, or all AUTH messages it gets are of types
    that may be cached. -/
theorem cached_cacheable_iff (htable : cfg.cacheable = EventType.cacheable)
    (hauthOpen : cfg.authOpen = EventType.authOpen) :
    (∀ s, Reachable (restrict RespondsInTime (splitStep cfg)) (.init cfg) s →
      CachesProperly cfg s.client) ↔
      cfg.defaultCache = false ∨ ∀ m, cfg.isAuth m → cfg.cacheable (cfg.arrivals m).eventType := by
  have hopen : cfg.cacheable cfg.authOpen := by
    rw [htable, hauthOpen]
    decide
  constructor
  · intro hall
    cases hdefault : cfg.defaultCache with
    | false => exact .inl rfl
    | true =>
      refine .inr fun m hauth => ?_
      obtain ⟨s, hs, hmem⟩ := arriveClosed_logs cfg m hauth
      exact hall _ (reachable_split hs) m _ _ _ hmem (by simp [Config.defaultAnswer, hdefault])
  · intro hcfg s hs m client sender response hmem hcached
    obtain ⟨hclient, -⟩ := reachable_client hs
    have hauth := isAuth_of_respond hclient hmem
    -- The default answer is only cached where every AUTH message may be
    have hdefault : cfg.defaultCache → cfg.cacheable (cfg.arrivals m).eventType := by
      intro hcache
      rcases hcfg with hfalse | hall
      · simp [hfalse] at hcache
      · exact hall m hauth
    rcases response_cases hclient hmem with rfl | ⟨verdict, answer, hcheck, rfl⟩
    · exact hdefault (by simpa [Config.defaultAnswer] using hcached)
    · rw [Config.response_cached] at hcached
      rcases cfg.cacheable_of_check hopen hcheck hcached with hcacheable | rfl
      · exact hcacheable
      · exact hdefault hcached

/-- `allow!` is called and goes on in time, on a client that does not cache its default verdict. -/
def allowInTime : List SplitAction :=
  (callbackSteps 0 19 ++ [Action.call (.drain 1)] ++
    List.replicate 9 (Action.ruby {})).map SplitAction.client ++
  [SplitAction.check 0 (.auth .allow true), .respondSlot 0] ++
  List.replicate 3 (SplitAction.client (.ruby {}))

theorem cached_cacheable_iff_in_time :
    CachesProperly releasingClient
      (TransitionSystem.final (restrict RespondsInTime (splitStep releasingClient)) allowInTime
        (.init releasingClient) (by decide +kernel)).client :=
  (@cached_cacheable_iff releasingClient rfl rfl).mpr (.inl rfl) _ (.final _)

end EndpointSecurity
