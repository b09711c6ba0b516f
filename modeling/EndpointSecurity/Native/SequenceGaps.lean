import Mathlib.Logic.Function.Basic
import Mathlib.Data.Fintype.Sum
import Mathlib.Tactic.DeriveFintype

/-!
# Sequence gaps (`client.c`)

Endpoint Security numbers the messages it delivers, and `record_sequence_gaps` counts the
numbers that never came. Messages of version 4 and up carry one number for all events;
messages of version 2 and 3 one for each event type.
-/

namespace EndpointSecurity.SequenceGaps

/-- The fields of `es_message_t` that are read here. -/
structure Message where
  version : Nat
  eventType : Int
  seqNum : UInt64
  globalSeqNum : UInt64
  deriving DecidableEq, Repr

/-- The streams of numbers: one for all events, and one for each of the `ES_EVENT_TYPE_LAST`
    event types. -/
inductive Stream (eventTypeLast : Nat) where
  | global
  | event (index : Fin eventTypeLast)
  deriving DecidableEq, Repr, Fintype

/-- What is kept of a stream: `last_global_seq` and `seen_global_seq`, or `last_event_seq[i]`
    and `seen_event_seq[i]`. -/
structure Tally where
  last : UInt64
  seen : Bool
  deriving DecidableEq, Repr

/-- The part of `esrb_client_t` that concerns sequence numbers and drops. -/
structure Stats (eventTypeLast : Nat) where
  tally : Stream eventTypeLast → Tally
  seqGaps : UInt64
  dropped : UInt64

variable {eventTypeLast : Nat}

/-- What `client_initialize` stores. -/
def Stats.init : Stats eventTypeLast where
  tally _ := ⟨0, false⟩
  seqGaps := 0
  dropped := 0

/-- The branch of `record_sequence_gaps` that a message takes, and the number it reads there. -/
def Message.stream (eventTypeLast : Nat) (m : Message) : Option (Stream eventTypeLast × UInt64) :=
  if m.version ≥ 4 then some (.global, m.globalSeqNum)
  else if m.version ≥ 2 ∧ m.eventType ≥ 0 then
    if h : m.eventType.toNat < eventTypeLast then some (.event ⟨m.eventType.toNat, h⟩, m.seqNum)
    else none
  else none

/-- Is there a gap, given what the two exchanges returned? -/
def isGap (seen : Bool) (previous number : UInt64) : Bool := seen && number > previous + 1

/-- `atomic_fetch_add` on `seq_gaps`. -/
def Stats.addGaps (s : Stats eventTypeLast) (amount : UInt64) : Stats eventTypeLast :=
  { s with seqGaps := s.seqGaps + amount }

/-- Store `number` as the last one of a stream. -/
def Stats.exchangeLast (s : Stats eventTypeLast) (k : Stream eventTypeLast) (number : UInt64) :
    Stats eventTypeLast :=
  { s with tally := Function.update s.tally k { s.tally k with last := number } }

/-- Mark a stream as seen. -/
def Stats.exchangeSeen (s : Stats eventTypeLast) (k : Stream eventTypeLast) :
    Stats eventTypeLast :=
  { s with tally := Function.update s.tally k { s.tally k with seen := true } }

/-- `record_sequence_gaps` when nobody interferes. -/
def recordSequenceGaps (s : Stats eventTypeLast) (m : Message) : Stats eventTypeLast :=
  -- Below version 2, or with an event type out of range, nothing is recorded.
  match m.stream eventTypeLast with
  | some (k, number) =>
    let previous := (s.tally k).last
    let s := s.exchangeLast k number
    let seen := (s.tally k).seen
    let s := s.exchangeSeen k
    if isGap seen previous number then s.addGaps (number - previous - 1) else s
  | none => s

/-- `handle_message` on a client that is or is not closed; `refused` says that
    `esrb_queue_enqueue` has returned `NULL`. -/
def handleMessage (closed : Bool) (s : Stats eventTypeLast) (m : Message) (refused : Bool) :
    Stats eventTypeLast :=
  if closed then s
  else
    let s := recordSequenceGaps s m
    if refused then { s with dropped := s.dropped + 1 } else s

/-- Messages handled one after another on an open client. -/
def handleAll (ms : List (Message × Bool)) : Stats eventTypeLast :=
  ms.foldl (fun s m => handleMessage false s m.1 m.2) .init

/-! ## Concurrent callbacks -/

/-- Program counter of one call of `handle_message`, up to the end of
    `record_sequence_gaps`. -/
inductive RecordPc (eventTypeLast : Nat) where
  | idle
  | loadClosed
  | exchangeLast (k : Stream eventTypeLast) (number : UInt64)
  | exchangeSeen (k : Stream eventTypeLast) (number previous : UInt64)
  | addGaps (amount : UInt64)
  /-- Nothing that follows in `handle_message` touches the sequence numbers. -/
  | done
  deriving DecidableEq, Repr

structure State (eventTypeLast : Nat) where
  stats : Stats eventTypeLast
  closed : Bool
  callback : Nat → RecordPc eventTypeLast
  /-- The numbers that have been stored as the last ones of a stream, newest first, and by which
      call each was; no step reads it. -/
  stored : Stream eventTypeLast → List (Nat × UInt64)

def State.init : State eventTypeLast where
  stats := .init
  closed := false
  callback _ := .idle
  stored _ := []

inductive Action where
  /-- Call `k` of `handle_message` makes a step. -/
  | callback (k : Nat)
  /-- `client_close` sets `closed`. -/
  | close
  deriving DecidableEq, Repr

/-- The next step of call `k`, which handles `m`. -/
def callbackStep (k : Nat) (m : Message) (s : State eventTypeLast) :
    Option (State eventTypeLast) :=
  let goto pc := Function.update s.callback k pc
  match s.callback k with
  | .idle => some { s with callback := goto .loadClosed }
  | .loadClosed =>
    if s.closed then some { s with callback := goto .done }
    else
      match m.stream eventTypeLast with
      | some (stream, number) => some { s with callback := goto (.exchangeLast stream number) }
      | none => some { s with callback := goto .done }
  | .exchangeLast stream number => some { s with
      stats := s.stats.exchangeLast stream number
      callback := goto (.exchangeSeen stream number (s.stats.tally stream).last)
      stored := Function.update s.stored stream ((k, number) :: s.stored stream) }
  | .exchangeSeen stream number previous => some { s with
      stats := s.stats.exchangeSeen stream
      callback := goto <|
        -- `previous` was loaded by the first exchange, `seen` is by this one.
        if isGap (s.stats.tally stream).seen previous number then
          .addGaps (number - previous - 1)
        else .done }
  | .addGaps amount => some { s with
      stats := s.stats.addGaps amount, callback := goto .done }
  | .done => none

/-- Any number of calls of `handle_message`; call `k` handles `messages k`. -/
def step (messages : Nat → Message) : Action → State eventTypeLast →
    Option (State eventTypeLast)
  | .callback k, s => callbackStep k (messages k) s
  | .close, s => some { s with closed := true }

end EndpointSecurity.SequenceGaps
