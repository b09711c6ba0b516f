import EndpointSecurity.Native.Message

/-!
# The state of a client (`client.h`)

A client is shared by any number of calls of the handler block (`handle_message`), by its
watchdog thread and by the Ruby threads. This file has the shared memory, the program counters
of the three kinds of threads and the history variables that the statements about runs
refer to.

Each step of a thread makes one access to an atomic word, or one call to Endpoint Security,
or one read of the clock, together with the accesses to ordinary memory around it. The native
methods of Ruby run under the global VM lock, one at a time; all of them together are one
thread here.
-/

namespace EndpointSecurity

open SeqRing (Phase LoopPc LoopResult)

/-! ## Positions and messages -/

/-- How far a queue position has got. -/
inductive Stage where
  | unclaimed
  /-- Claimed by a callback; the fields of the slot are not written yet. -/
  | claimed
  | filled
  /-- `occupied` is set, and the slot is not published yet. -/
  | marked
  /-- Published and not dequeued. -/
  | queued
  /-- Dequeued by `__drain` and held by a `Message`. -/
  | taken
  /-- Dequeued by `client_close_native`. -/
  | drained
  /-- `message_release` has cleared `occupied`. -/
  | disarmed
  /-- `es_release_message` has been called on its message. -/
  | unreferenced
  /-- `esrb_queue_release` has cleared `occupied`. -/
  | cleared
  | released
  deriving DecidableEq, Repr

namespace Stage

/-- The phase of the slot queue that a stage belongs to. -/
def phase : Stage → Phase
  | .unclaimed => .unclaimed
  | .claimed | .filled | .marked => .claimed
  | .queued => .published
  | .taken | .drained | .disarmed | .unreferenced | .cleared => .taken
  | .released => .released

/-- The slot has been filled and not been given back yet. -/
def full : Stage → Bool
  | .filled | .marked | .queued | .taken | .drained | .disarmed | .unreferenced | .cleared => true
  | .unclaimed | .claimed | .released => false

/-- The message is referenced. -/
def referenced : Stage → Bool
  | .claimed | .filled | .marked | .queued | .taken | .drained | .disarmed => true
  | .unclaimed | .unreferenced | .cleared | .released => false

/-- The slot is full and may still have to be answered. -/
def answerable : Stage → Bool
  | .filled | .marked | .queued | .taken | .drained => true
  | .unclaimed | .claimed | .disarmed | .unreferenced | .cleared | .released => false

/-- The slot is marked as occupied. -/
def occupied : Stage → Bool
  | .marked | .queued | .taken | .drained => true
  | .unclaimed | .claimed | .filled | .disarmed | .unreferenced | .cleared | .released => false

end Stage

/-- The three kinds of threads. -/
inductive Thread where
  | callback | watchdog | ruby
  deriving DecidableEq, Repr

/-- A response method that has returned to Ruby. -/
structure Returned where
  call : Nat
  message : Nat
  response : Response
  value : Bool
  deriving DecidableEq, Repr

/-- What has happened in a run. No step reads any of it. -/
structure History where
  /-- How far each position has got. -/
  stage : Nat → Stage
  /-- The message that a claimed position is for. -/
  owner : Nat → Nat
  /-- The time at which the message of a position is due, as its callback has computed it. -/
  fireAt : Nat → Nat
  /-- Who has won the exchange of a position's answer state and has yet to respond. -/
  sending : Nat → Option Thread
  /-- The request that a position has been armed with. -/
  ticket : Nat → Option Nat
  /-- How far each request has got. -/
  ticketPhase : Nat → Phase
  /-- The position that a request has been made for. -/
  ticketPosition : Nat → Nat
  /-- What has happened to each message, newest first. -/
  log : Nat → List MessageEvent
  /-- The number of response methods called. -/
  calls : Nat
  /-- The response methods that have returned. -/
  returned : List Returned

namespace History

def init : History where
  stage _ := .unclaimed
  owner _ := 0
  fireAt _ := 0
  sending _ := none
  ticket _ := none
  ticketPhase _ := .unclaimed
  ticketPosition _ := 0
  log _ := []
  calls := 0
  returned := []

/-- Position `p` enters a stage. -/
def enter (h : History) (p : Nat) (stage : Stage) : History :=
  { h with stage := Function.update h.stage p stage }

/-- Position `p` is claimed for message `m`. -/
def claim (h : History) (m p : Nat) : History :=
  { h.enter p .claimed with owner := Function.update h.owner p m }

/-- Something happens to message `m`. -/
def record (h : History) (m : Nat) (e : MessageEvent) : History :=
  { h with log := Function.update h.log m (e :: h.log m) }

/-- A thread has won the exchange of the answer state of position `p`, or has responded. -/
def send (h : History) (p : Nat) (thread : Option Thread) : History :=
  { h with sending := Function.update h.sending p thread }

/-- The callback that has claimed position `p` computes when its message is due. -/
def due (h : History) (p fireAt : Nat) : History :=
  { h with fireAt := Function.update h.fireAt p fireAt }

/-- Position `p` is armed with request `t`. -/
def arm (h : History) (p t : Nat) : History :=
  { h with
    ticket := Function.update h.ticket p (some t)
    ticketPhase := Function.update h.ticketPhase t .claimed
    ticketPosition := Function.update h.ticketPosition t p }

/-- Request `t` gets further. -/
def passTicket (h : History) (t : Nat) (phase : Phase) : History :=
  { h with ticketPhase := Function.update h.ticketPhase t phase }

end History

/-! ## Program counters -/

/-- What a call of `handle_message` has come to. -/
inductive Outcome where
  /-- The client was closed. -/
  | refused
  /-- The queue was full. -/
  | dropped
  | queued (p : Nat)
  deriving DecidableEq, Repr

/-- Program counter of a call of `handle_message`. -/
inductive CallbackPc where
  | absent
  | loadClosed
  | refuse
  | retain
  | enqueue (pc : LoopPc)
  /-- `esrb_queue_enqueue` has returned `NULL`. -/
  | overflow
  | drop
  | fill (p : Nat)
  | storeOccupied (p : Nat)
  | arm (p : Nat) (pc : LoopPc)
  | publishRequest (p t : Nat)
  /-- `esrb_watchdog_arm` has returned false; `client_answer_slot` is next. -/
  | answer (p : Nat)
  | respond (p : Nat)
  | loadDequeue (p : Nat)
  | loadDepthMax (p depth : Nat)
  | raiseDepthMax (p depth maximum : Nat)
  | storeSequence (p : Nat)
  | notify (p : Nat)
  | notifyWrite (p : Nat)
  | leave (outcome : Outcome)
  | returned (outcome : Outcome)
  deriving DecidableEq, Repr

/-- Program counter of the watchdog thread: `esrb_watchdog_main` and what follows it in
    `client_native_main`. -/
inductive WatchdogPc where
  | loadRunning
  | popLoad
  | popSequence (t : Nat)
  | popStore (t : Nat)
  | popRelease (t : Nat) (request : Entry)
  | clock
  | loadOccupied (entry : Entry) (now : Nat)
  | addReader (entry : Entry) (now : Nat)
  | recheck (entry : Entry) (now : Nat)
  | exchange (entry : Entry) (now : Nat)
  | respond (entry : Entry) (now : Nat)
  /-- The response is sent, and `timeouts` not incremented yet. -/
  | count (entry : Entry)
  | notify (entry : Entry)
  | notifyWrite (entry : Entry)
  | subReader (entry : Entry)
  | wait
  | exiting
  /-- `watchdog_stopped` is set, and `delete_ready` is to be tested under the mutex. -/
  | stopped
  /-- In `pthread_cond_wait` -/
  | asleep
  | deleting
  | deleted
  deriving DecidableEq, Repr

/-- Who has called `message_release`: a method of the message, or `message_free`. -/
inductive ReleaseCaller where
  | method | free
  deriving DecidableEq, Repr

/-- Who has called `esrb_respond_slot`. -/
inductive RespondCaller where
  /-- Response method call number `call`; `raises` when it raises on a failed response. -/
  | method (call : Nat) (answer : Answer) (raises : Bool)
  /-- `message_release`, with the configured default answer. -/
  | release (caller : ReleaseCaller)
  deriving DecidableEq, Repr

/-- The answer that `esrb_respond_slot` is called with. -/
def RespondCaller.answer (cfg : Config) : RespondCaller → Answer
  | .method _ answer _ => answer
  | .release _ => cfg.defaultAnswer

/-- The sender of the response of `esrb_respond_slot`. -/
def RespondCaller.sender : RespondCaller → Sender
  | .method call _ _ => .ruby call
  | .release _ => .release

/-- Who has called `esrb_queue_release`. -/
inductive QueueReleaseCaller where
  | release (caller : ReleaseCaller)
  | close
  deriving DecidableEq, Repr

/-- Which method has called `esrb_notify`; `__drain` has a batch to return. -/
inductive NotifyCaller where
  | drain (batch : List Nat)
  | wake
  | close
  deriving DecidableEq, Repr

/-- Program counter of the native methods called from Ruby. -/
inductive RubyPc where
  | idle
  -- `client_drain`
  | drainRead (maximum : Int)
  | drainDequeue (left : Nat) (batch : List Nat) (pc : LoopPc)
  | drainDelivered (left : Nat) (batch : List Nat)
  | drainClear (batch : List Nat)
  | drainDepth (batch : List Nat)
  | drainDepthDequeue (batch : List Nat) (enqueued : Nat)
  -- `esrb_notify`
  | notify (caller : NotifyCaller)
  | notifyWrite (caller : NotifyCaller)
  -- `esrb_respond_slot`
  | respondClosed (p : Nat) (caller : RespondCaller)
  | respondExchange (p : Nat) (caller : RespondCaller)
  | respondSend (p : Nat) (caller : RespondCaller)
  -- The rest of `message_release`
  | disarm (p : Nat) (caller : ReleaseCaller)
  | awaitReaders (p : Nat) (caller : ReleaseCaller)
  | releaseMessage (p : Nat) (caller : ReleaseCaller)
  -- `esrb_queue_release`
  | queueDisarm (p : Nat) (caller : QueueReleaseCaller)
  | queueAwait (p : Nat) (caller : QueueReleaseCaller)
  | queueStore (p : Nat) (caller : QueueReleaseCaller)
  -- `client_close_native`
  | awaitCallbacks
  | stopWatchdog
  | awaitWatchdog
  | answerOccupied (i : Nat)
  | answerExchange (i : Nat)
  | answerSend (i : Nat)
  | closeDequeue (pc : LoopPc)
  | closeExchange (p : Nat)
  | closeSend (p : Nat)
  | closeMessage (p : Nat)
  | storeDeleteReady
  | join
  deriving DecidableEq, Repr

/-! ## The state -/

/-- The counters that `stats` reports. -/
structure Stats where
  dropped : Nat := 0
  delivered : Nat := 0
  timeouts : Nat := 0
  responseErrors : Nat := 0
  deleteErrors : Nat := 0
  leakedMessages : Nat := 0
  deriving DecidableEq, Repr

/-- `esrb_message_t`, for the position of the slot it is wrapped around. -/
structure Wrapper where
  /-- The Ruby object exists. -/
  live : Bool := false
  valid : Bool := false
  held : Bool := false
  /-- The message it was wrapped around; no step reads it. -/
  message : Nat := 0
  deriving DecidableEq, Repr

/-- What a native method returns to Ruby. -/
inductive RubyResult where
  | nil
  | bool (value : Bool)
  | messages (batch : List Nat)
  | raised (error : RubyError)
  deriving DecidableEq, Repr

structure State where
  queue : Queue
  requests : Requests
  heap : Heap
  notified : Bool
  /-- The number of bytes in the wakeup pipe. -/
  pipe : Nat
  closed : Bool
  activeCallbacks : Nat
  watchdogRunning : Bool
  watchdogStopped : Bool
  deleteReady : Bool
  /-- The thread of the client was asleep when the condition was last broadcast, and has not gone
      on since. -/
  signalled : Bool
  stats : Stats
  wrapper : Nat → Wrapper
  callback : Nat → CallbackPc
  watchdog : WatchdogPc
  ruby : RubyPc
  /-- What the latest native method has returned. -/
  result : RubyResult
  history : History

/-- A client that `client_initialize` has just returned. -/
def State.init (cfg : Config) : State where
  queue := .init cfg.capacity
  requests := .init cfg.capacity
  heap := .init cfg.capacity
  notified := false
  pipe := 0
  closed := false
  activeCallbacks := 0
  watchdogRunning := true
  watchdogStopped := false
  deleteReady := false
  signalled := false
  stats := {}
  wrapper _ := {}
  callback _ := .absent
  watchdog := .loadRunning
  ruby := .idle
  result := .nil
  history := .init

end EndpointSecurity
