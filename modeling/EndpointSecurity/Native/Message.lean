import EndpointSecurity.Native.Deadline
import EndpointSecurity.Native.Watchdog

/-!
# Messages and their answers (`client.c`, `message.c`)

What the code reads of an `es_message_t`, the options of a client that decide how a message
is answered, the checks of the Ruby response methods, and the log of what has been done with
a message.
-/

namespace EndpointSecurity

/-- `es_action_type_t`; a value that the code has no name for is kept as it is. -/
inductive ActionType where
  | auth | notify | other (value : Nat)
  deriving DecidableEq, Repr

/-- A call of the handler block: an `es_message_t` and the native client it is for. -/
structure Message where
  client : Nat
  actionType : ActionType
  eventType : Nat
  deadline : Nat
  deriving DecidableEq, Repr

/-- `message->action_type == ES_ACTION_TYPE_AUTH` -/
def Message.isAuth (m : Message) : Bool := m.actionType = .auth

/-- `es_auth_result_t`. -/
inductive AuthResult where
  | allow | deny
  deriving DecidableEq, Repr

/-- The verdict that `esrb_send_response` is given. -/
structure Answer where
  result : AuthResult
  flags : Nat
  cache : Bool
  deriving DecidableEq, Repr

/-- The call that `esrb_send_response` makes: `es_respond_auth_result` or
    `es_respond_flags_result`. -/
inductive Response where
  | auth (result : AuthResult) (cache : Bool)
  | flags (flags : Nat) (cache : Bool)
  deriving DecidableEq, Repr

/-- The options of a client and what surrounds it. -/
structure Config where
  capacity : Capacity
  defaultAuth : AuthResult
  defaultCache : Bool
  strictCache : Bool
  margin : Margin
  minMarginTicks : Nat
  /-- The number of bytes the wakeup pipe has room for. -/
  pipeLimit : Nat
  pipeLimit_pos : 0 < pipeLimit
  /-- `ES_EVENT_TYPE_AUTH_OPEN` -/
  authOpen : Nat
  /-- `EventType.cacheable?` -/
  cacheable : Nat → Bool
  /-- The message that the `k`-th call of the handler block is for. -/
  arrivals : Nat → Message

/-- The flags that go with a result: `UINT32_MAX` to allow everything, zero to deny. -/
def AuthResult.flags : AuthResult → Nat
  | .allow => 2 ^ 32 - 1
  | .deny => 0

namespace Config

/-- The configured default answer. -/
def defaultAnswer (cfg : Config) : Answer :=
  { result := cfg.defaultAuth, flags := cfg.defaultAuth.flags, cache := cfg.defaultCache }

/-- `esrb_send_response`: the native call for an answer to message `m`. -/
def response (cfg : Config) (m : Nat) (a : Answer) : Response :=
  if (cfg.arrivals m).eventType = cfg.authOpen then .flags a.flags a.cache
  else .auth a.result a.cache

/-- `message->action_type == ES_ACTION_TYPE_AUTH` for message `m`. -/
def isAuth (cfg : Config) (m : Nat) : Bool := (cfg.arrivals m).isAuth

end Config

/-! ## The response methods of `Message` -/

/-- The errors raised to Ruby. -/
inductive RubyError where
  | clientClosed
  | messageReleased
  | authRequired
  | authOpenRequired
  | nonCacheable
  | responseFailed
  /-- `NUM2LONG` -/
  | notLong
  -- `rb_ary_new_capa`
  | negativeArray
  | arrayTooBig
  | noMemory
  deriving DecidableEq, Repr

/-- The class of an error. -/
def RubyError.className : RubyError → String
  | .clientClosed => "EndpointSecurity::ClientError"
  | .messageReleased => "EndpointSecurity::MessageInvalidatedError"
  | .authRequired | .authOpenRequired | .responseFailed => "EndpointSecurity::MessageError"
  | .nonCacheable => "EndpointSecurity::NonCacheableEventError"
  | .notLong => "RangeError"
  | .negativeArray | .arrayTooBig => "ArgumentError"
  | .noMemory => "NoMemoryError"

/-- The text of an error, without the code that a failed response appends. -/
def RubyError.text : RubyError → String
  | .clientClosed => "client is closed"
  | .messageReleased => "message has been released"
  | .authRequired => "authorization responses require an AUTH event"
  | .authOpenRequired => "flags responses are only valid for AUTH_OPEN"
  | .nonCacheable => "event cannot be cached"
  | .responseFailed => "Endpoint Security response failed"
  | .notLong => "bignum too big to convert into 'long'"
  | .negativeArray => "negative array size (or size too big)"
  | .arrayTooBig => "array size too big"
  | .noMemory => "failed to allocate memory"

/-- `LONG_MAX` -/
def longMax : Nat := 9223372036854775807

/-- The most elements that an array of Ruby has room for: `LONG_MAX / sizeof(VALUE)`. -/
def arrayMax : Nat := longMax / 8

/-- `NUM2LONG` takes the number. -/
def isLong (n : Int) : Bool := -longMax - 1 ≤ n ∧ n ≤ longMax

/-- A call of a response method. -/
inductive Verdict where
  /-- `allow!` or `deny!` -/
  | auth (result : AuthResult) (cache : Bool)
  /-- `respond` -/
  | flags (flags : Nat) (cache : Bool)
  /-- `__respond_default!` -/
  | default
  deriving DecidableEq, Repr

/-- What the response methods do before `esrb_respond_slot`: check the message and settle
    whether the verdict is cached. -/
def Config.check (cfg : Config) (m : Nat) : Verdict → Except RubyError Answer
  | .auth result cache =>
    if !cfg.isAuth m then .error .authRequired
    else if cache && !cfg.cacheable (cfg.arrivals m).eventType then
      if cfg.strictCache then .error .nonCacheable
      else .ok { result, flags := result.flags, cache := false }
    else .ok { result, flags := result.flags, cache }
  | .flags flags cache =>
    if !cfg.isAuth m || (cfg.arrivals m).eventType ≠ cfg.authOpen then .error .authOpenRequired
    else .ok { result := .allow, flags, cache }
  | .default => .ok cfg.defaultAnswer

/-! ## What happens to a message -/

/-- Who sends a response. -/
inductive Sender where
  | callback
  /-- `answer_due` with this entry and this clock reading. -/
  | watchdog (entry : Entry) (now : Nat)
  /-- The response method call with this number. -/
  | ruby (call : Nat)
  /-- `message_release` -/
  | release
  /-- `client_close_native` -/
  | close
  deriving DecidableEq, Repr

/-- The native calls on a message and the reads of its fields. -/
inductive MessageEvent where
  | retain
  | release
  /-- Ruby reads a field through the wrapper of this position. -/
  | read (wrapper : Nat)
  /-- A response through this native client. -/
  | respond (client : Nat) (sender : Sender) (response : Response)
  deriving DecidableEq, Repr

def MessageEvent.isRespond : MessageEvent → Bool
  | .respond .. => true
  | _ => false

/-- The number of responses in a message's log. -/
def responses (log : List MessageEvent) : Nat := log.countP MessageEvent.isRespond

end EndpointSecurity
