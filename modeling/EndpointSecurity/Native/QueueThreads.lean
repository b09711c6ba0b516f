import EndpointSecurity.Native.Queue
import EndpointSecurity.ForStd.FifoLog

/-!
# Producers and consumers of one queue

Any number of threads calling the functions of `queue.c` on one queue. A producer thread runs
`esrb_queue_enqueue`, writes the fields of the slot it gets and runs `esrb_queue_publish`; a
consumer thread runs `esrb_queue_dequeue`, holds the slot for as long as it likes and runs
`esrb_queue_release`. Threads are numbered and each makes one pass, so any number of passes
may be in progress at once. Other parties (the watchdog, responders) may change `occupied`,
`answer_state` and `readers` of any slot at any time.
-/

namespace EndpointSecurity

open SeqRing (LoopPc)
open FifoLog (Event)

/-- The fields that a producer writes to its slot. -/
structure Payload where
  message : Nat
  client : Nat
  fireAt : Nat
  deriving DecidableEq, Repr

/-- The payload that a slot holds. -/
def Slot.payload (s : Slot) : Payload := ⟨s.message, s.client, s.fireAt⟩

namespace QueueThreads

/-- Program counter of a producer. -/
inductive ProducerPc where
  | idle
  | enqueue (pc : LoopPc)
  /-- `esrb_queue_enqueue` has returned `NULL`. -/
  | refused
  | storePosition (p : Nat)
  /-- `esrb_queue_enqueue` has returned the slot. -/
  | fill (p : Nat)
  | loadDequeue (p : Nat) (x : Payload)
  | loadDepthMax (p : Nat) (x : Payload) (depth : Nat)
  | raiseDepthMax (p : Nat) (x : Payload) (depth maximum : Nat)
  | storeSequence (p : Nat) (x : Payload)
  | published (p : Nat)
  deriving DecidableEq, Repr

/-- Program counter of a consumer. -/
inductive ConsumerPc where
  | idle
  | dequeue (pc : LoopPc)
  /-- `esrb_queue_dequeue` has returned `NULL`. -/
  | empty
  /-- `esrb_queue_dequeue` has returned the slot; `esrb_queue_release` is not called yet. -/
  | holding (p : Nat)
  | awaitReaders (p : Nat)
  | storeSequence (p : Nat)
  | released (p : Nat)
  deriving DecidableEq, Repr

structure State where
  queue : Queue
  producer : Nat → ProducerPc
  consumer : Nat → ConsumerPc
  /-- What has happened to the positions, newest first; no step reads it. -/
  log : List (Event Nat Nat Payload)

/-- A fresh queue and no thread running. -/
def State.init (c : Capacity) : State where
  queue := .init c
  producer _ := .idle
  consumer _ := .idle
  log := []

inductive Action where
  /-- Producer `k` makes a step; `x` is what it wants to queue. -/
  | producer (k : Nat) (spurious : Bool) (x : Payload)
  /-- Consumer `j` makes a step. -/
  | consumer (j : Nat) (spurious : Bool)
  /-- Another party writes to the slot with index `i`. -/
  | interfere (i : Nat) (occupied : Bool) (answerState : AnswerState) (readers : Nat)
  deriving DecidableEq, Repr

/-- The next step of producer `k`. -/
def producerStep (k : Nat) (spurious : Bool) (x : Payload) (s : State) : Option State :=
  let goto pc := Function.update s.producer k pc
  match s.producer k with
  | .idle => some { s with producer := goto (.enqueue .load) }
  | .enqueue pc =>
    -- One step is one pass of the loop, up to its next atomic access.
    match s.queue.enqueue spurious pc with
    | .running pc' => some { s with producer := goto (.enqueue pc') }
    | .got p => some { s with
        queue := s.queue.advanceEnqueue p, producer := goto (.storePosition p),
        log := .claim k p :: s.log }
    | .none => some { s with producer := goto .refused }
  | .storePosition p => some { s with
      queue := s.queue.storePosition p, producer := goto (.fill p) }
  | .fill p => some { s with
      queue := s.queue.storeFields p x.message x.client x.fireAt,
      producer := goto (.loadDequeue p x) }
  | .loadDequeue p x => some { s with
      producer := goto (.loadDepthMax p x (s.queue.publishDepth p s.queue.dequeuePosition)) }
  | .loadDepthMax p x depth => some { s with
      producer := goto (.raiseDepthMax p x depth s.queue.depthMax) }
  | .raiseDepthMax p x depth maximum =>
    -- A failed exchange loads the maximum that it has found, and the loop tests it again.
    if depth > maximum then
      if s.queue.depthMax = maximum ∧ !spurious then some { s with
        queue := s.queue.storeDepthMax depth, producer := goto (.storeSequence p x) }
      else some { s with producer := goto (.raiseDepthMax p x depth s.queue.depthMax) }
    else some { s with producer := goto (.storeSequence p x) }
  | .storeSequence p x => some { s with
      queue := s.queue.storePublished p, producer := goto (.published p),
      log := .publish k p x :: s.log }
  | .refused | .published _ => none

/-- The next step of consumer `j`. -/
def consumerStep (j : Nat) (spurious : Bool) (s : State) : Option State :=
  let goto pc := Function.update s.consumer j pc
  match s.consumer j with
  | .idle => some { s with consumer := goto (.dequeue .load) }
  | .dequeue pc =>
    -- The slot is read once it is taken: the exchange has made it this consumer's.
    match s.queue.dequeue spurious pc with
    | .running pc' => some { s with consumer := goto (.dequeue pc') }
    | .got p => some { s with
        queue := s.queue.advanceDequeue p, consumer := goto (.holding p),
        log := .deliver j p (s.queue.slot p).payload :: s.log }
    | .none => some { s with consumer := goto .empty }
  | .holding p => some { s with
      queue := s.queue.storeOccupied p false, consumer := goto (.awaitReaders p) }
  -- `esrb_queue_disarm` spins until no reader is left.
  | .awaitReaders p =>
    if (s.queue.slot p).readers ≠ 0 then some s
    else some { s with consumer := goto (.storeSequence p) }
  | .storeSequence p => some { s with
      queue := s.queue.storeReleased p, consumer := goto (.released p),
      log := .release j p :: s.log }
  | .empty | .released _ => none

def step : Action → State → Option State
  | .producer k spurious x, s => producerStep k spurious x s
  | .consumer j spurious, s => consumerStep j spurious s
  | .interfere i occupied answerState readers, s => some { s with
      queue := s.queue.modify i fun slot => { slot with occupied, answerState, readers } }

/-! ## Who holds which slot -/

/-- The position that a producer has claimed and not yet published. -/
def ProducerPc.holds : ProducerPc → Option Nat
  | .storePosition p | .fill p | .loadDequeue p _ | .loadDepthMax p _ _
  | .raiseDepthMax p _ _ _ | .storeSequence p _ => some p
  | .idle | .enqueue _ | .refused | .published _ => none

/-- The position that a consumer has been given and not yet released. -/
def ConsumerPc.holds : ConsumerPc → Option Nat
  | .holding p | .awaitReaders p | .storeSequence p => some p
  | .idle | .dequeue _ | .empty | .released _ => none

/-- A thread that may hold a slot. -/
inductive Party where
  | producer (k : Nat)
  | consumer (j : Nat)
  deriving DecidableEq, Repr

def State.holds (s : State) : Party → Option Nat
  | .producer k => (s.producer k).holds
  | .consumer j => (s.consumer j).holds

end QueueThreads
end EndpointSecurity
