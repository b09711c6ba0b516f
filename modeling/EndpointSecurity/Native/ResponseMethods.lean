import EndpointSecurity.Native.ClientThreads

/-!
# Response methods that run Ruby code (`message.c`)

`respond` converts its flags with `NUM2UINT`, which may call `to_int`, and `allow!` and `deny!` ask
`EventType` whether the event may be cached. They have checked their message before that, and
`esrb_respond_slot`, which they call after it, checks neither the message nor the position of the
slot. Meanwhile other native methods may be called, by that Ruby code itself or by another thread.

A call of `respond` in the transition function of the client checks and goes on in one step. Here
the check and the call of `esrb_respond_slot` are two steps, with any others between them.
-/

namespace EndpointSecurity

/-- A response method that has checked its message and not called `esrb_respond_slot` yet. -/
structure Responding where
  position : Nat
  verdict : Verdict
  /-- What the check has come to. -/
  answer : Answer
  deriving DecidableEq, Repr

/-- A client, and the response methods that are running Ruby code. -/
structure SplitState where
  client : State
  responding : List Responding

def SplitState.init (cfg : Config) : SplitState where
  client := .init cfg
  responding := []

/-- `respond_slot` goes on with whatever message is in the slot now. -/
def State.respondSlot (s : State) (r : Responding) : State :=
  let m := (s.queue.slot r.position).message
  { s with
    ruby := .respondClosed r.position
      (.method s.history.calls r.answer (r.verdict ≠ .default))
    history := { s.history.record m (.read r.position) with calls := s.history.calls + 1 } }

inductive SplitAction where
  | client (action : Action)
  /-- `respond`, `allow!` or `deny!` checks its message. -/
  | check (p : Nat) (verdict : Verdict)
  /-- The `j`-th of the response methods that are running Ruby code calls `esrb_respond_slot`. -/
  | respondSlot (j : Nat)
  /-- The Ruby code that it runs raises. -/
  | raise (j : Nat)
  deriving DecidableEq, Repr

def splitStep (cfg : Config) : SplitAction → SplitState → Option SplitState
  | .client action, s => (step cfg action s.client).map fun client => { s with client }
  | .check p verdict, s =>
    -- A method whose check fails raises at once, and is a step of the client.
    if (s.client.wrapper p).valid then
      match cfg.check (s.client.queue.slot p).message verdict with
      | .error _ => none
      | .ok answer => (step cfg (.call (.read p)) s.client).map fun client =>
        { client, responding := s.responding ++ [⟨p, verdict, answer⟩] }
    else none
  | .respondSlot j, s =>
    match s.responding[j]? with
    | none => none
    | some r =>
      if s.client.ruby = .idle then
        some { client := s.client.respondSlot r, responding := s.responding.eraseIdx j }
      else none
  | .raise j, s => some { s with responding := s.responding.eraseIdx j }

end EndpointSecurity
