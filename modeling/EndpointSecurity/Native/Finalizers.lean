import EndpointSecurity.Native.ClientThreads

/-!
# The free functions (`client.c`, `message.c`)

A message marks its client, so the collector does not free the client while a message of it is
in use. When a client and its messages become unreachable together, or the process exits, their
free functions run one after another in an order that nobody chooses. `client_free` closes the
client if it is open, and then destroys the queue and the client; the threads of the client are
gone by then.
-/

namespace EndpointSecurity.Finalizers

/-- How far `client_free` has got. -/
inductive ClientMemory where
  | allocated
  /-- In `client_close_native`. -/
  | closing
  /-- The slots and the client have been freed. -/
  | freed
  deriving DecidableEq, Repr

structure State where
  /-- The client, its threads and the wrappers of its messages. What is in the memory of the client
      means nothing once it is freed. -/
  process : EndpointSecurity.State
  memory : ClientMemory
  /-- Freed memory has been read; no step reads it. -/
  useAfterFree : Bool

/-- The client and its wrappers have become unreachable. -/
def State.init (process : EndpointSecurity.State) : State :=
  { process, memory := .allocated, useAfterFree := false }

inductive Action where
  /-- The callback, watchdog or native method in progress makes a step. -/
  | callback (k : Nat) (input : Input)
  | watchdog (input : Input)
  | native (input : Input)
  /-- The collector calls `client_free`. -/
  | freeClient
  /-- `client_close_native` has returned to `client_free`, which frees the client. -/
  | destroy
  /-- The collector calls `message_free`. -/
  | freeMessage (p : Nat)
  deriving DecidableEq, Repr

/-- `message_free` once the client has been freed: both `message_free` and `message_release` read
    `valid` first, and then `message->client->owner_pid`. -/
def freeStale (p : Nat) (s : State) : Option State :=
  let w := s.process.wrapper p
  if w.live then some { s with
    process := { s.process with
      wrapper := Function.update s.process.wrapper p { w with valid := false, live := false } }
    useAfterFree := s.useAfterFree || w.valid }
  else none

/-- A step of the client, whose threads exist until it is freed. -/
def State.within (s : State) (next : Option EndpointSecurity.State) : Option State :=
  if s.memory = .freed then none else next.map fun process => { s with process }

def step (cfg : Config) (a : Action) (s : State) : Option State :=
  match a with
  | .callback k input => s.within (callbackStep cfg k input s.process)
  | .watchdog input => s.within (watchdogStep cfg input s.process)
  | .native input => s.within (rubyStep cfg input s.process)
  | .freeClient =>
    if s.memory = .allocated then
      (callStep cfg .close s.process).map fun process => { s with process, memory := .closing }
    else none
  | .destroy =>
    if s.memory = .closing ∧ s.process.ruby = .idle then some { s with memory := .freed }
    else none
  | .freeMessage p =>
    match s.memory with
    | .allocated => s.within (callStep cfg (.free p) s.process)
    | .closing => none
    | .freed => freeStale p s

/-- Everything has been freed. -/
def State.allFreed (s : State) : Prop :=
  s.memory = .freed ∧ ∀ p, (s.process.wrapper p).live = false

end EndpointSecurity.Finalizers
