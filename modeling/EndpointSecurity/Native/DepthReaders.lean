import EndpointSecurity.Native.QueueThreads

/-!
# Depth readers

`esrb_queue_depth` loads the two counters of the queue one after the other and subtracts. Its
callers (`Client#stats`) and `esrb_queue_dequeue` both run under the global VM lock, so no
dequeue step falls between the two loads; producers and releases may. A single reader that
starts over for ever stands for all of them.
-/

namespace EndpointSecurity.DepthReaders

/-- Program counter of the reader. -/
inductive ReaderPc where
  | idle
  /-- `enqueued` is loaded, `dequeued` is not. -/
  | loadDequeue (enqueued : Nat)
  deriving DecidableEq, Repr

structure State where
  threads : QueueThreads.State
  reader : ReaderPc
  /-- The depths that the calls of `esrb_queue_publish` have computed, newest first; no step
      reads it. -/
  computed : List Nat
  /-- The values that the calls of `esrb_queue_depth` have returned; no step reads it. -/
  returned : List Nat

def State.init (c : Capacity) : State where
  threads := .init c
  reader := .idle
  computed := []
  returned := []

inductive Action where
  | thread (a : QueueThreads.Action)
  | reader
  deriving DecidableEq, Repr

/-- Is this a step of `esrb_queue_dequeue`? -/
def dequeues (a : QueueThreads.Action) (t : QueueThreads.State) : Bool :=
  match a with
  | .consumer j _ =>
    match t.consumer j with
    | .idle | .dequeue _ => true
    | .empty | .holding _ | .awaitReaders _ | .storeSequence _ | .released _ => false
  | .producer _ _ _ | .interfere _ _ _ _ => false

/-- The depth that this step computes, if it is the first of an `esrb_queue_publish`. -/
def computes (a : QueueThreads.Action) (t : QueueThreads.State) : List Nat :=
  match a with
  | .producer k _ _ =>
    match t.producer k with
    | .loadDequeue p _ => [t.queue.publishDepth p t.queue.dequeuePosition]
    | _ => []
  | .consumer _ _ | .interfere _ _ _ _ => []

def step : Action → State → Option State
  | .thread a, s =>
    if s.reader ≠ .idle ∧ dequeues a s.threads then none
    else (QueueThreads.step a s.threads).map fun threads =>
      { s with threads, computed := computes a s.threads ++ s.computed }
  | .reader, s =>
    match s.reader with
    | .idle => some { s with reader := .loadDequeue s.threads.queue.enqueuePosition }
    | .loadDequeue enqueued => some { s with
        reader := .idle
        returned := Queue.depth enqueued s.threads.queue.dequeuePosition :: s.returned }

/-- Is this producer inside `esrb_queue_publish`? -/
def publishing : QueueThreads.ProducerPc → Bool
  | .loadDequeue _ _ | .loadDepthMax _ _ _ | .raiseDepthMax _ _ _ _ | .storeSequence _ _ => true
  | .idle | .enqueue _ | .refused | .storePosition _ | .fill _ | .published _ => false

end EndpointSecurity.DepthReaders
