import Mathlib.Data.Finset.SDiff
import Mathlib.Data.Finset.Lattice.Basic
import Mathlib.Data.Finset.Insert

/-!
# Subscribing to events (`client.rb`, `client.c`)

`Client#subscribe`, `#unsubscribe` and `#unsubscribe_all` keep a list `@subscriptions` beside
the set of events that Endpoint Security has subscribed the client to. An event is supported
when its availability is in the table of this macOS version and, unless `probe: :off` is
given, a probe of it succeeded: a native subscription of this one event, taken back at once.
The results of the probes are shared by all clients.

`EventType.value` is one to one, so an event stands for its SDK value here. Each native call
succeeds with its full effect or fails without one; which of them succeed is a parameter.
-/

namespace EndpointSecurity.Subscriptions

/-- The option `probe:` of the constructor. -/
inductive Probe where
  | lazy
  | eager
  | off
  deriving DecidableEq, Repr

variable {ε : Type} [DecidableEq ε]

/-- What the calls of one client depend on. -/
structure Config (ε : Type) where
  probe : Probe
  /-- `EventType.all` -/
  all : List ε
  /-- `Availability.supported_event?` -/
  available : ε → Bool
  /-- `Symbol#to_s` -/
  symbol : ε → String
  /-- Whether the native call with this number, counted from the constructor, succeeds. -/
  outcome : Nat → Bool

structure State (ε : Type) where
  /-- `@subscriptions` -/
  subscriptions : List ε
  /-- `Availability.probe_cache` -/
  probeCache : ε → Option Bool
  /-- The events to which Endpoint Security has subscribed the client. -/
  native : Finset ε
  /-- The number of native calls made so far. -/
  nativeCalls : Nat
  /-- History variable: the events that a probe of the current Ruby call has subscribed, each
      with whether the probe could unsubscribe it, latest first. -/
  probed : List (ε × Bool)

/-- What the methods raise; `UnsupportedEventError` is a subclass of `SubscriptionError`. -/
inductive RubyError where
  | unsupportedEventError (message : String)
  | subscriptionError (message : String)
  deriving DecidableEq, Repr

/-! ## Native calls -/

/-- `es_subscribe` -/
def esSubscribe (cfg : Config ε) (events : List ε) (s : State ε) : Bool × State ε :=
  if cfg.outcome s.nativeCalls then
    (true, { s with
      native := s.native ∪ events.toFinset
      nativeCalls := s.nativeCalls + 1 })
  else (false, { s with nativeCalls := s.nativeCalls + 1 })

/-- `es_unsubscribe` -/
def esUnsubscribe (cfg : Config ε) (events : List ε) (s : State ε) : Bool × State ε :=
  if cfg.outcome s.nativeCalls then
    (true, { s with
      native := s.native \ events.toFinset
      nativeCalls := s.nativeCalls + 1 })
  else (false, { s with nativeCalls := s.nativeCalls + 1 })

/-- `es_unsubscribe_all` -/
def esUnsubscribeAll (cfg : Config ε) (s : State ε) : Bool × State ε :=
  if cfg.outcome s.nativeCalls then
    (true, { s with native := ∅, nativeCalls := s.nativeCalls + 1 })
  else (false, { s with nativeCalls := s.nativeCalls + 1 })

/-! ## Probing -/

/-- `Client#probe_event`: the `rescue` clause covers both native calls. -/
def probeEvent (cfg : Config ε) (event : ε) (s : State ε) : Bool × State ε :=
  let (subscribed, s) := esSubscribe cfg [event] s
  if subscribed then
    let (unsubscribed, s) := esUnsubscribe cfg [event] s
    (unsubscribed, { s with probed := (event, unsubscribed) :: s.probed })
  else (false, s)

/-- `Availability.probe_cache[event] = probe_event(event)` -/
def probeIntoCache (cfg : Config ε) (event : ε) (s : State ε) : Bool × State ε :=
  let (supported, s) := probeEvent cfg event s
  (supported, { s with
    probeCache := fun other => if other = event then some supported else s.probeCache other })

/-- `Client#supported_event?` -/
def supportedEvent (cfg : Config ε) (event : ε) (s : State ε) : Bool × State ε :=
  if !cfg.available event then (false, s)
  else if cfg.probe = .off then (true, s)
  else
    match s.probeCache event with
    | some supported => (supported, s)
    | none => probeIntoCache cfg event s

/-- `Array#reject` with a predicate that changes the state. -/
def reject (test : ε → State ε → Bool × State ε) : List ε → State ε → List ε × State ε
  | [], s => ([], s)
  | event :: events, s =>
    let (kept, s) := test event s
    let (rejected, s) := reject test events s
    (if kept then rejected else event :: rejected, s)

/-! ## The methods of `Client` -/

/-- `"…: #{events.join(", ")}…"` -/
def join (cfg : Config ε) (events : List ε) : String :=
  ", ".intercalate (events.map cfg.symbol)

/-- `Array#-` -/
def without (events other : List ε) : List ε :=
  events.filter (· ∉ other)

/-- The `rescue` clause of `Client#subscribe`: which events a native subscription of them all
    failed for is found by probing each of them. -/
def subscribeFailed (cfg : Config ε) (events : List ε) (s : State ε) :
    Except RubyError (List ε) × State ε :=
  let (failed, s) := reject (probeEvent cfg) events s
  let failed := if failed.isEmpty then events else failed
  (.error (.subscriptionError
    s!"failed to subscribe: {join cfg failed} (es_subscribe failed)"), s)

/-- `Client#subscribe` from `events -= unsupported` on. -/
def subscribeSupported (cfg : Config ε) (events : List ε) (s : State ε) :
    Except RubyError (List ε) × State ε :=
  if events.isEmpty then (.ok s.subscriptions, s)
  else
    let (subscribed, s) := esSubscribe cfg events s
    if subscribed then
      -- `@subscriptions |= events`
      let s := { s with subscriptions := (s.subscriptions ++ events).eraseDups }
      (.ok s.subscriptions, s)
    else subscribeFailed cfg events s

/-- `Client#subscribe` -/
def subscribe (cfg : Config ε) (events : List ε) (skipUnsupported : Bool) (s : State ε) :
    Except RubyError (List ε) × State ε :=
  let events := without events s.subscriptions
  let (unsupported, s) := reject (supportedEvent cfg) events s
  if !skipUnsupported && !unsupported.isEmpty then
    (.error (.unsupportedEventError s!"unsupported events: {join cfg unsupported}"), s)
  else subscribeSupported cfg (without events unsupported) s

/-- `Client#unsubscribe` -/
def unsubscribe (cfg : Config ε) (events : List ε) (s : State ε) :
    Except RubyError (List ε) × State ε :=
  if events.isEmpty then (.ok s.subscriptions, s)
  else
    let (unsubscribed, s) := esUnsubscribe cfg events s
    if unsubscribed then
      let s := { s with subscriptions := without s.subscriptions events }
      (.ok s.subscriptions, s)
    else (.error (.subscriptionError "es_unsubscribe failed"), s)

/-- `Client#unsubscribe_all` -/
def unsubscribeAll (cfg : Config ε) (s : State ε) : Except RubyError (List ε) × State ε :=
  let (unsubscribed, s) := esUnsubscribeAll cfg s
  if unsubscribed then (.ok [], { s with subscriptions := [] })
  else (.error (.subscriptionError "es_unsubscribe_all failed"), s)

/-! ## Runs -/

inductive Call (ε : Type) where
  | subscribe (events : List ε) (skipUnsupported : Bool)
  | unsubscribe (events : List ε)
  | unsubscribeAll

/-- One Ruby call: what it returns or raises, and the state after it. -/
def call (cfg : Config ε) (c : Call ε) (s : State ε) : Except RubyError (List ε) × State ε :=
  let s := { s with probed := [] }
  match c with
  | .subscribe events skipUnsupported => subscribe cfg events skipUnsupported s
  | .unsubscribe events => unsubscribe cfg events s
  | .unsubscribeAll => unsubscribeAll cfg s

/-- The loop of the constructor for `probe: :eager`. -/
def probeAll (cfg : Config ε) : List ε → State ε → State ε
  | [], s => s
  | event :: events, s =>
    probeAll cfg events (if cfg.available event then (probeIntoCache cfg event s).2 else s)

/-- What `Client.new` leaves, up to its own call of `subscribe`. -/
def newClient (cfg : Config ε) (probeCache : ε → Option Bool) : State ε :=
  let s : State ε :=
    { subscriptions := [], probeCache := probeCache, native := ∅, nativeCalls := 0,
      probed := [] }
  if cfg.probe = .eager then probeAll cfg cfg.all s else s

/-- The states after each of the calls. -/
def statesAfter (cfg : Config ε) : List (Call ε) → State ε → List (State ε)
  | [], _ => []
  | c :: calls, s => (call cfg c s).2 :: statesAfter cfg calls (call cfg c s).2

/-- The states that a client is in after its constructor and after each call. -/
def observed (cfg : Config ε) (probeCache : ε → Option Bool) (calls : List (Call ε)) :
    List (State ε) :=
  newClient cfg probeCache :: statesAfter cfg calls (newClient cfg probeCache)

end EndpointSecurity.Subscriptions
