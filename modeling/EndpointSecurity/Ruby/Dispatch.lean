import EndpointSecurity.ForStd.Raising
import EndpointSecurity.Native.Message

/-!
# Dispatching messages to handlers (`client.rb`, `message.c`)

`Client#run` drains a batch of messages and dispatches them one after the other. A handler is any
program that calls methods of the messages it has been given and of the client, goes on as their
results tell it, and in the end returns or raises. Messages are numbered in the order in which
they are drained.

The native methods run under the global VM lock, each of them as one step here. What happens
between two of them is a parameter: other threads use messages that have been retained, and the
watchdog answers messages that are due.
-/

namespace EndpointSecurity.Dispatch

/-- What is raised. -/
inductive Error where
  | native (error : RubyError)
  /-- `NoMethodError` -/
  | noMethod
  /-- `__mute_process` fails. -/
  | muting
  /-- Any other `StandardError` of a handler. -/
  | other (number : Nat)
  deriving DecidableEq, Repr

/-- `esrb_message_t`, with the answer state of its slot. -/
structure MessageState where
  valid : Bool := true
  held : Bool := false
  answered : Bool := false
  deriving DecidableEq, Repr

structure State where
  message : Nat → MessageState
  /-- The number of messages drained. -/
  drained : Nat
  /-- The number of messages that `dispatch` has been called with. -/
  given : Nat
  closed : Bool
  /-- The timeouts that the native client has counted. -/
  timeouts : Nat
  /-- The number of native methods called. -/
  calls : Nat
  running : Bool
  dispatching : Bool
  closeAfterDispatch : Bool
  errors : Nat
  reportedTimeouts : Nat
  /-- The messages that handlers have been called with. -/
  handled : List Nat
  /-- The errors that the error handler has been called with. -/
  reported : List Error

/-- A client that `Client#initialize` has just returned. -/
def State.init : State where
  message _ := {}
  drained := 0
  given := 0
  closed := false
  timeouts := 0
  calls := 0
  running := false
  dispatching := false
  closeAfterDispatch := false
  errors := 0
  reportedTimeouts := 0
  handled := []
  reported := []

/-- The methods of a message. -/
inductive Method where
  | retain
  | release
  /-- `allow!`, `deny!`, `respond` or `__respond_default!` -/
  | respond (verdict : Verdict)
  /-- Any method of the message, or of a view of it, that reads the native message. -/
  | read
  /-- `answered?` -/
  | answered
  /-- `valid?` -/
  | valid
  deriving DecidableEq, Repr

/-- What a method of a message returns; what is in its fields does not change. -/
inductive Value where
  | self
  | nil
  | bool (value : Bool)
  | field
  deriving DecidableEq, Repr

/-- A block: it calls methods of the messages that the client's handlers have been given so
    far, or closes the client, and goes on with what that returns or raises. -/
inductive Program where
  | done
  | raise (error : Error)
  | call (m : Nat) (method : Method) (next : Except Error Value → Program)
  | close (next : Program)

/-- What happens between two native methods that the dispatcher calls. -/
inductive Interference where
  /-- Another thread releases a message that has been retained. -/
  | release (m : Nat)
  /-- Another thread responds to a message that has been retained. -/
  | respond (m : Nat) (verdict : Verdict)
  /-- The watchdog answers a message. -/
  | timeout (m : Nat)
  deriving DecidableEq, Repr

/-- A client and its surroundings. -/
structure Client where
  /-- The options of the native client; its messages are numbered as they are drained. -/
  native : Config
  /-- `start` has created the thread that the dispatcher runs on. -/
  started : Bool
  /-- `@mute_es_clients` -/
  muteEsClients : Bool
  /-- What `es_client?` gives for the process of a message, unless it has none. -/
  esClient : Nat → Option (Except Error Bool)
  /-- `__mute_process` for the process of a message, when the client is open. -/
  muteProcess : Nat → Except Error Unit
  /-- `@handlers`, by the SDK value of the event -/
  handlers : Nat → Option (Nat → Program)
  onError : Option (Error → Program)
  onTimeout : Option Program
  /-- What happens just before the native method call with this number. -/
  before : Nat → List Interference
  /-- Whether Endpoint Security accepts the response of the method call with this number. -/
  accepts : Nat → Bool

namespace Client

variable (c : Client)

/-! ## Native methods -/

/-- The answer state of the slot of an AUTH message is pending. -/
def pending (m : Nat) (s : State) : Bool := c.native.isAuth m && !(s.message m).answered

/-- Change what the wrapper of message `m` holds. -/
def update (m : Nat) (f : MessageState → MessageState) (s : State) : State :=
  { s with message := Function.update s.message m (f (s.message m)) }

/-- `esrb_respond_slot`, and whether it has sent a response. -/
def respondSlot (m : Nat) (s : State) : Bool × State :=
  if !s.closed && c.pending m s then (true, update m (fun w => { w with answered := true }) s)
  else (false, s)

/-- `message_release` -/
def messageRelease (m : Nat) (s : State) : State :=
  if (s.message m).valid then update m (fun w => { w with valid := false }) (c.respondSlot m s).2
  else s

/-- `client_close_native`: it answers the messages in all occupied slots. -/
def nativeClose (s : State) : State :=
  if s.closed then s
  else
    { s with
      closed := true
      message := fun m =>
        let w := s.message m
        if w.valid && c.pending m s then { w with answered := true } else w }

def interfere (s : State) : Interference → State
  | .release m => if (s.message m).held then c.messageRelease m s else s
  | .respond m verdict =>
    if (s.message m).held && (s.message m).valid && (c.native.check m verdict).isOk then
      (c.respondSlot m s).2
    else s
  | .timeout m =>
    if (s.message m).valid && !s.closed && c.pending m s then
      { update m (fun w => { w with answered := true }) s with timeouts := s.timeouts + 1 }
    else s

/-- What happens before the next native method call. -/
def disturb (s : State) : State :=
  { (c.before s.calls).foldl c.interfere s with calls := s.calls + 1 }

/-- `get_message` -/
def getMessage (m : Nat) : Raising State Error Unit := do
  let s ← Raising.get
  if (s.message m).valid then pure () else Raising.raise (.native .messageReleased)

/-- The response methods. -/
def respond (m : Nat) (verdict : Verdict) : Raising State Error Value := do
  match c.native.check m verdict with
  | .error error => Raising.raise (.native error)
  | .ok _ =>
    let s ← Raising.get
    let sent := (c.respondSlot m s).1
    let success := c.accepts s.calls
    Raising.modify fun s => (c.respondSlot m s).2
    if sent && !success && verdict ≠ .default then Raising.raise (.native .responseFailed)
    else pure (.bool (sent && success))

/-- A method of message `m` is called. -/
def call (m : Nat) (method : Method) : Raising State Error Value := do
  -- Other threads may release or answer messages before the method looks at its own.
  Raising.modify c.disturb
  match method with
  | .retain =>
    getMessage m
    Raising.modify (update m fun w => { w with held := true })
    pure .self
  | .release =>
    Raising.modify (c.messageRelease m)
    pure .nil
  | .respond verdict =>
    getMessage m
    c.respond m verdict
  | .read =>
    getMessage m
    pure .field
  | .answered =>
    getMessage m
    let s ← Raising.get
    pure (.bool (s.message m).answered)
  -- Unlike the other readers, `valid?` does not raise for a released message.
  | .valid =>
    let s ← Raising.get
    pure (.bool (s.message m).valid)

/-- `__mute_process` -/
def nativeMuteProcess (m : Nat) : Raising State Error Unit := do
  Raising.modify c.disturb
  let s ← Raising.get
  if s.closed then Raising.raise (.native .clientClosed) else Raising.ofExcept (c.muteProcess m)

/-- `Client#close`, on the dispatcher's thread. -/
def close (s : State) : State :=
  if c.started && s.dispatching then { s with running := false, closeAfterDispatch := true }
  else c.nativeClose { s with running := false }

/-! ## Handlers -/

/-- A block is called. It has `nil` in the place of a message that no handler was given. -/
def exec : Program → Raising State Error Unit
  | .done => pure ()
  | .raise error => Raising.raise error
  | .call m method next => fun s =>
    if m < s.given then
      let (result, s) := c.call m method s
      exec (next result) s
    else exec (next (.error .noMethod)) s
  | .close next => fun s => exec next (c.close (c.disturb s))

/-! ## Dispatching -/

/-- `@mute_es_clients && message.process.es_client?`, and then `mute_process`. -/
def muteEsClient (m : Nat) : Raising State Error Bool := do
  if !c.muteEsClients then pure false
  else
    let _ ← c.call m .read
    match c.esClient m with
    | none => Raising.raise .noMethod
    | some esClient =>
      let _ ← c.call m .read
      if ← Raising.ofExcept esClient then
        let _ ← c.call m .read
        let _ ← c.call m .read
        c.nativeMuteProcess m
        pure true
      else pure false

/-- `handler&.call(message)`, with the handler for the event of message `m`. -/
def callHandler (m : Nat) : Raising State Error Unit := do
  let _ ← c.call m .read
  match c.handlers (c.native.arrivals m).eventType with
  | none => pure ()
  | some handler =>
    Raising.modify fun s => { s with handled := s.handled ++ [m] }
    c.exec (handler m)

/-- The body of `Client#dispatch`. -/
def body (m : Nat) : Raising State Error Unit := do
  if ← c.muteEsClient m then pure () else c.callHandler m

/-- `message.__respond_default! if message.auth? && !message.answered?` -/
def answerDefault (m : Nat) : Raising State Error Unit := do
  let _ ← c.call m .read
  if c.native.isAuth m then
    if (← c.call m .answered) ≠ .bool true then
      let _ ← c.call m (.respond .default)

/-- `@error_handler&.call(e)` -/
def callErrorHandler (error : Error) : Raising State Error Unit := do
  match c.onError with
  | none => pure ()
  | some handler =>
    Raising.modify fun s => { s with reported := s.reported ++ [error] }
    c.exec (handler error)

/-- The `rescue` clause of `Client#dispatch`. -/
def rescueClause (m : Nat) (error : Error) : Raising State Error Unit := do
  Raising.modify fun s => { s with errors := s.errors + 1 }
  c.answerDefault m
  c.callErrorHandler error

/-- `message.__auto_release!` -/
def autoRelease (m : Nat) (s : State) : State :=
  if (s.message m).held then s else c.messageRelease m s

/-- The `ensure` clause of `Client#dispatch`. -/
def ensureClause (m : Nat) (s : State) : State :=
  let s := { c.autoRelease m (c.disturb s) with dispatching := false }
  if s.closeAfterDispatch then c.nativeClose { s with closeAfterDispatch := false } else s

/-- `Client#dispatch` begins with the next message. -/
def enter (s : State) : State := { s with dispatching := true, given := s.given + 1 }

/-- `Client#dispatch`, called with the next message. -/
def dispatch : Raising State Error Unit := fun s =>
  (((c.body s.given).rescue (c.rescueClause s.given)).ensure (c.ensureClause s.given)) (enter s)

/-! ## The dispatcher loop -/

/-- `@timeout_handler&.call` -/
def callTimeoutHandler : Raising State Error Unit :=
  match c.onTimeout with
  | none => pure ()
  | some handler => c.exec handler

/-- `Client#report_timeouts` -/
def reportTimeouts : Raising State Error Unit := do
  Raising.modify c.disturb
  let s ← Raising.get
  Raising.times (s.timeouts - s.reportedTimeouts) c.callTimeoutHandler
  Raising.modify fun state => { state with reportedTimeouts := s.timeouts }

/-- `__drain` gives the next `n` messages. -/
def drain (n : Nat) (s : State) : State := { s with drained := s.drained + n }

/-- The loop of `Client#run`, for as many iterations as there are batches of these sizes. -/
def loop : List Nat → Raising State Error Unit
  | [] => pure ()
  | n :: batches => do
    let s ← Raising.get
    if s.running && !s.closed then
      Raising.modify (drain n)
      Raising.times n c.dispatch
      c.reportTimeouts
      loop batches
    else pure ()

/-- `@running = true`, and the loop. -/
def run (batches : List Nat) : Except Error Unit × State :=
  c.loop batches { State.init with running := true }

end Client

end EndpointSecurity.Dispatch
