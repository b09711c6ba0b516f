import EndpointSecurity.ForStd.TransitionSystem

/-!
# Starting and stopping the dispatcher (`client.rb`)

`Client#start` creates a thread that executes `Client#run`; `Client#stop` and `Client#close`,
called on another thread, ask it to end and wait for it. The two threads share `@running` and
whether the native client is closed. `Thread.new` returns before the new thread has executed
anything, so the dispatcher starts at the assignment `@running = true` of `run`.

The handlers run inside the loop body, on the dispatcher thread. They may themselves call
`stop` or `close`, and the body may raise. `Thread#join` raises what has ended the thread, and
then `close` does not get to the native close.
-/

namespace EndpointSecurity.RunLoop

/-- What one execution of the body of the loop of `Client#run` comes to. -/
inductive Body where
  | returns
  /-- `__drain`, the error handler or the timeout handler raises. -/
  | raises
  /-- A handler calls `stop`: `@running = false`, wake, and no `join` on its own thread. -/
  | stops
  /-- A handler calls `close`: `@running = false`, and the native close after the dispatch. -/
  | closes
  deriving DecidableEq, Repr

/-- Program counter of `Client#run` on the new thread. -/
inductive DispatcherPc where
  /-- The thread exists; `@running = true` is next. -/
  | created
  /-- `IO.for_fd(__wakeup_fd)`, which raises when the client is closed. -/
  | openWakeup
  /-- `while @running && !closed?` -/
  | test
  | body
  /-- The `ensure` clause, `@running = false`. -/
  | ensure
  | finished
  deriving DecidableEq, Repr

/-- Program counter of `Client#stop` or `Client#close` on another thread. -/
inductive CallerPc where
  | idle
  /-- `@running = false` -/
  | clearRunning
  /-- `__wake unless closed?` -/
  | testClosed
  | wake
  /-- `@thread&.join` -/
  | join
  /-- `__native_close`, in `close` only -/
  | nativeClose
  | returned
  /-- `join` has raised the exception that has ended the dispatcher. -/
  | raised
  deriving DecidableEq, Repr

structure State where
  running : Bool
  closed : Bool
  dispatcher : DispatcherPc
  caller : CallerPc
  /-- The call is one of `close`, not of `stop`. -/
  closing : Bool
  /-- The caller has executed `@running = false`; no step reads it. -/
  stopRequested : Bool
  /-- An exception ends `run`. -/
  raised : Bool
  deriving DecidableEq, Repr

/-- An open client whose `start` has just returned. -/
def State.init : State where
  running := false
  closed := false
  dispatcher := .created
  caller := .idle
  closing := false
  stopRequested := false
  raised := false

/-- The loop condition of `run`. Only the dispatcher closes the client before the caller's
    `join` returns, so the two reads may count as one. -/
def State.loopCondition (s : State) : Bool := s.running && !s.closed

inductive Action where
  | dispatcher (body : Body)
  /-- Another thread calls `stop` or `close`. -/
  | call (closing : Bool)
  | caller
  deriving DecidableEq, Repr

/-- The next step of `run`. -/
def dispatcherStep (body : Body) (s : State) : Option State :=
  match s.dispatcher with
  | .created => some { s with running := true, dispatcher := .openWakeup }
  | .openWakeup =>
    if s.closed then some { s with raised := true, dispatcher := .ensure }
    else some { s with dispatcher := .test }
  | .test => some { s with dispatcher := if s.loopCondition then .body else .ensure }
  | .body =>
    match body with
    | .returns => some { s with dispatcher := .test }
    | .raises => some { s with raised := true, dispatcher := .ensure }
    | .stops => some { s with running := false, dispatcher := .test }
    | .closes => some { s with running := false, closed := true, dispatcher := .test }
  | .ensure => some { s with running := false, dispatcher := .finished }
  | .finished => none

/-- The next step of `stop` or `close`. -/
def callerStep (s : State) : Option State :=
  match s.caller with
  | .clearRunning => some { s with running := false, stopRequested := true, caller := .testClosed }
  | .testClosed => some { s with caller := if s.closed then .join else .wake }
  | .wake => some { s with caller := .join }
  | .join =>
    if s.dispatcher = .finished then
      if s.raised then some { s with caller := .raised }
      else some { s with caller := if s.closing then .nativeClose else .returned }
    else none
  | .nativeClose => some { s with closed := true, caller := .returned }
  | .idle | .returned | .raised => none

def step : Action → State → Option State
  | .dispatcher body, s => dispatcherStep body s
  | .call closing, s =>
    if s.caller = .idle then some { s with caller := .clearRunning, closing } else none
  | .caller, s => callerStep s

/-- Let the dispatcher run alone, its bodies turning out as listed. -/
def dispatchAlone (bodies : List Body) (s : State) : Option State :=
  TransitionSystem.run step (bodies.map .dispatcher) s

end EndpointSecurity.RunLoop
