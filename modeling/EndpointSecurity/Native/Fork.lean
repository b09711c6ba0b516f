import EndpointSecurity.Native.Finalizers

/-!
# Processes and `fork` (`client.c`, `message.c`, `mute.c`, `field.c`)

A client remembers the process that has initialised it in `owner_pid`. After a `fork` the child
has a copy of the memory of the client, of its slots and of its messages, and none of the other
threads. Each native method decides for itself whether it may go on: most of them through
`get_client`, `get_open_client`, `mute_client`, `get_message` or `get_view`.

This file has every native method of `Client`, `Message` and the views, with the check it makes
first and what it does once the check has passed. What that is, for a method that touches the
slots or the native message, is `callStep`; the other methods call functions of Endpoint
Security on the client, and these calls are recorded.
-/

namespace EndpointSecurity.Fork

/-! ## Endpoint Security -/

/-- The functions that the methods of a client call. Responses to a message and releases of it
    are in the message's log. -/
inductive EsFunction where
  | newClient | subscribe | unsubscribe | unsubscribeAll | subscriptions
  | mutePath | mutePathEvents | unmutePath | unmutePathEvents
  | muteProcess | muteProcessEvents | unmuteProcess | unmuteProcessEvents
  | unmuteAllPaths | unmuteAllTargetPaths | invertMuting | mutingInverted | clearCache
  | mutedPathsEvents | mutedProcessesEvents
  deriving DecidableEq, Repr

/-- Every function but `es_new_client` is given the client. -/
def EsFunction.actsOnClient (f : EsFunction) : Bool := f ≠ .newClient

/-! ## Errors -/

/-- What a native method raises. -/
inductive Error where
  /-- `ForkedClientError`, raised for a client or for a message. -/
  | forkedClient
  | forkedMessage
  /-- The arguments of `initialize` are refused, or memory or a pipe is missing. -/
  | notInitialized
  | raised (error : RubyError)
  deriving DecidableEq, Repr

/-- The text of a `ForkedClientError`. -/
def Error.text : Error → Option String
  | .forkedClient => some "Endpoint Security clients cannot be used after fork"
  | .forkedMessage => some "Endpoint Security messages cannot be used after fork"
  | .notInitialized => none
  | .raised error => some error.text

/-- A `ForkedClientError` -/
def Error.forked : Error → Bool
  | .forkedClient | .forkedMessage => true
  | .notInitialized | .raised _ => false

/-! ## The state of a process -/

structure State where
  /-- `getpid()` -/
  pid : Nat
  /-- `client->owner_pid` -/
  ownerPid : Nat
  /-- The client, its slots and the wrappers of its messages, in the memory of this process. -/
  objects : Finalizers.State
  /-- `initialize` has given the client new slots. -/
  renewed : Bool
  /-- What the latest method has raised through one of its checks. -/
  raised : Option Error
  /-- The functions of Endpoint Security called for the client, latest first. -/
  esCalls : List EsFunction

/-- The child's copy of a client: no thread of the parent runs in it. -/
def fork (ownerPid pid : Nat) (s : EndpointSecurity.State) : State where
  pid := pid
  ownerPid := ownerPid
  objects := .init { s with ruby := .idle }
  renewed := false
  raised := none
  esCalls := []

namespace State

/-- The client, whose memory has not been freed. -/
def client (s : State) : EndpointSecurity.State := s.objects.process

def raise (s : State) (error : Error) : State := { s with raised := some error }

def returns (s : State) : State := { s with raised := none }

def callEs (s : State) (f : EsFunction) : State :=
  { s.returns with esCalls := f :: s.esCalls }

/-- A step of the model of a single process. -/
def within (s : State) (next : Option Finalizers.State) : Option State :=
  next.map fun objects => { s.returns with objects }

/-! ## The checks -/

/-- `message_owned_here` -/
def messageOwnedHere (s : State) : Bool := s.ownerPid = s.pid

/-- `get_message` -/
def getMessage (s : State) (p : Nat) : Except Error Unit :=
  if !s.messageOwnedHere then .error .forkedMessage
  else if !(s.client.wrapper p).valid then .error (.raised .messageReleased)
  else .ok ()

/-- `esrb_message_valid_object` and `get_view` -/
def getView (s : State) (p : Nat) : Except Error Unit :=
  if !s.messageOwnedHere then .error .forkedMessage
  else if !(s.client.wrapper p).valid then .error (.raised .messageReleased)
  else .ok ()

/-- `get_client` -/
def getClient (s : State) : Except Error Unit :=
  if s.ownerPid ≠ s.pid then .error .forkedClient else .ok ()

/-- `get_open_client` -/
def getOpenClient (s : State) : Except Error Unit :=
  match s.getClient with
  | .error error => .error error
  | .ok _ => if s.client.closed then .error (.raised .clientClosed) else .ok ()

/-- `mute_client` -/
def muteClient (s : State) : Except Error Unit :=
  if s.ownerPid ≠ s.pid then .error .forkedClient
  else if s.client.closed then .error (.raised .clientClosed)
  else .ok ()

/-- The rest of a method, or what its check raises. -/
def checked (s : State) (check : Except Error Unit) (rest : State → Option State) :
    Option State :=
  match check with
  | .error error => some (s.raise error)
  | .ok _ => rest s

/-- A native method of the model of a single process. -/
def viaCall (cfg : Config) (call : Call) (s : State) : Option State :=
  s.within (s.objects.within (callStep cfg call s.client))

end State

/-! ## The methods of `Client` -/

inductive ClientMethod where
  /-- `initialize`; whether its arguments and resources suffice to create a client. -/
  | nativeInitialize (accepted : Bool)
  | close
  | closed
  | wakeupFd
  | wake
  | drain (maximum : Nat)
  | subscribe
  /-- `__unsubscribe`, with `nil` for all events. -/
  | unsubscribe (all : Bool)
  | subscriptions
  | stats
  /-- The action is `:mute`, and a list of events that is not empty is given. -/
  | mutePath (mute events : Bool)
  | muteProcess (mute events : Bool)
  | unmuteAllPaths (target : Bool)
  | invertMuting
  | mutingInverted
  | clearCache
  | mutedPaths
  | mutedProcesses
  | auditTokenForPid
  deriving DecidableEq, Repr

/-- `client_initialize` makes no check of the process. Up to `owner_pid = getpid()` it allocates
    slots of its own; the slots that the messages point to stay as they are. -/
def clientInitialize (accepted : Bool) (s : State) : Option State :=
  if accepted then
    some { s.callEs .newClient with ownerPid := s.pid, renewed := true }
  else some (s.raise .notInitialized)

/-- `client_close` -/
def clientClose (cfg : Config) (s : State) : Option State :=
  s.checked s.getClient fun s =>
    (if s.client.closed then s else s.callEs .unsubscribeAll).viaCall cfg .close

/-- A method of `client.c` that reads the client only. -/
def query (check : Except Error Unit) (s : State) : Option State :=
  s.checked check fun s => some s.returns

/-- A method that calls one function of Endpoint Security on the client. -/
def forward (check : Except Error Unit) (f : EsFunction) (s : State) : Option State :=
  s.checked check fun s => some (s.callEs f)

def ClientMethod.run (cfg : Config) (s : State) : ClientMethod → Option State
  | .nativeInitialize accepted => clientInitialize accepted s
  | .close => clientClose cfg s
  | .closed => query s.getClient s
  | .wakeupFd => query s.getOpenClient s
  | .wake => s.checked s.getClient (State.viaCall cfg .wake)
  | .drain maximum => s.checked s.getOpenClient (State.viaCall cfg (.drain maximum))
  | .subscribe => forward s.getOpenClient .subscribe s
  | .unsubscribe all =>
    forward s.getOpenClient (if all then .unsubscribeAll else .unsubscribe) s
  | .subscriptions => forward s.getOpenClient .subscriptions s
  | .stats => query s.getClient s
  | .mutePath mute events => forward s.muteClient (match mute, events with
      | true, false => .mutePath
      | true, true => .mutePathEvents
      | false, false => .unmutePath
      | false, true => .unmutePathEvents) s
  | .muteProcess mute events => forward s.muteClient (match mute, events with
      | true, false => .muteProcess
      | true, true => .muteProcessEvents
      | false, false => .unmuteProcess
      | false, true => .unmuteProcessEvents) s
  | .unmuteAllPaths target =>
    forward s.muteClient (if target then .unmuteAllTargetPaths else .unmuteAllPaths) s
  | .invertMuting => forward s.muteClient .invertMuting s
  | .mutingInverted => forward s.muteClient .mutingInverted s
  | .clearCache => forward s.muteClient .clearCache s
  | .mutedPaths => forward s.muteClient .mutedPathsEvents s
  | .mutedProcesses => forward s.muteClient .mutedProcessesEvents s
  -- `audit_token_for_pid` does not look at the client.
  | .auditTokenForPid => some s.returns

/-! ## The methods of `Message` and of the views -/

inductive MessageMethod where
  | version | eventType | actionType | auth | deadline | machTime | seqNum | globalSeqNum
  | time | process | thread | event | result | rawEventBytes | rawPointer | timeLeft
  | answered
  /-- `allow!`, `deny!`, `respond` and `__respond_default!` -/
  | respond (verdict : Verdict)
  | retain
  | release
  | valid
  | warnOnTruncatedPath
  | autoRelease
  deriving DecidableEq, Repr

/-- `message_release`, as `release!` and `__auto_release!` call it: in another process it only
    invalidates the wrapper. -/
def messageRelease (cfg : Config) (call : Call) (p : Nat) (s : State) : Option State :=
  let w := s.client.wrapper p
  if !w.valid then some s.returns
  else if !s.messageOwnedHere then
    some { s.returns with objects := { s.objects with process := { s.client with
      wrapper := Function.update s.client.wrapper p { w with valid := false } } } }
  else s.viaCall cfg call

/-- A check that `release!` and `valid?` make themselves. -/
def State.ownedHere (s : State) : Except Error Unit :=
  if !s.messageOwnedHere then .error .forkedMessage else .ok ()

/-- A method of the message of position `p`. -/
def MessageMethod.run (cfg : Config) (p : Nat) (s : State) : MessageMethod → Option State
  | .version | .eventType | .actionType | .auth | .deadline | .machTime | .seqNum
  | .globalSeqNum | .time | .process | .thread | .event | .result | .rawEventBytes
  | .timeLeft => s.checked (s.getMessage p) (State.viaCall cfg (.read p))
  | .rawPointer | .answered | .warnOnTruncatedPath => query (s.getMessage p) s
  | .respond verdict => s.checked (s.getMessage p) (State.viaCall cfg (.respond p verdict))
  | .retain => s.checked (s.getMessage p) (State.viaCall cfg (.retain p))
  | .release => s.checked s.ownedHere (messageRelease cfg (.release p) p)
  | .valid => query s.ownedHere s
  | .autoRelease =>
    if (s.client.wrapper p).held then some s.returns
    else messageRelease cfg (.autoRelease p) p s

inductive ViewMethod where
  | readField | fieldNames | schemaName | warnOnTruncatedPath | execValues
  deriving DecidableEq, Repr

/-- A method of a view of the message of position `p`. -/
def ViewMethod.run (cfg : Config) (p : Nat) (s : State) : ViewMethod → Option State
  | .readField | .execValues => s.checked (s.getView p) (State.viaCall cfg (.read p))
  | .fieldNames | .schemaName => query (s.getView p) s
  -- The view asks its message.
  | .warnOnTruncatedPath => s.checked (s.getView p) (query (s.getMessage p))

/-! ## The free functions -/

/-- `message_free` -/
def messageFree (cfg : Config) (p : Nat) (s : State) : Option State :=
  let w := s.client.wrapper p
  if s.messageOwnedHere then s.within (Finalizers.step cfg (.freeMessage p) s.objects)
  else some { s with objects := { s.objects with process := { s.client with
    wrapper := Function.update s.client.wrapper p { w with valid := false, live := false } } } }

/-- `client_free`; `owner_pid` is zero before the client is initialised. -/
def clientFree (cfg : Config) (s : State) : Option State :=
  if s.ownerPid = 0 ∨ s.ownerPid = s.pid then s.within (Finalizers.step cfg .freeClient s.objects)
  else some { s with objects := { s.objects with
    process := { s.client with watchdogRunning := false, closed := true }
    memory := .freed } }

/-! ## Runs -/

inductive Operation where
  | client (method : ClientMethod)
  /-- A method of the message of position `p`. -/
  | message (p : Nat) (method : MessageMethod)
  /-- A method of a view of the message of position `p`. -/
  | view (p : Nat) (method : ViewMethod)
  /-- The native method that has been called goes on. -/
  | native (input : Input)
  | freeMessage (p : Nat)
  | freeClient
  | destroy
  deriving DecidableEq, Repr

/-- An operation on the client or on one of its messages. Nothing follows the freeing of the
    client, since its messages are freed before it; and what the owner of a client that was
    initialised twice does is not followed. -/
def step (cfg : Config) (op : Operation) (s : State) : Option State :=
  if s.renewed ∨ s.objects.memory = .freed then none
  else match op with
  | .client method => method.run cfg s
  | .message p method => if (s.client.wrapper p).live then method.run cfg p s else none
  | .view p method => if (s.client.wrapper p).live then method.run cfg p s else none
  | .native input => s.within (Finalizers.step cfg (.native input) s.objects)
  | .freeMessage p => if (s.client.wrapper p).live then messageFree cfg p s else none
  | .freeClient => clientFree cfg s
  | .destroy => s.within (Finalizers.step cfg .destroy s.objects)

/-- An operation in a process that is not the owner of the client. -/
def childStep (cfg : Config) (op : Operation) (s : State) : Option State :=
  if s.pid = s.ownerPid then none else step cfg op s

end EndpointSecurity.Fork
