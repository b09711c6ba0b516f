import EndpointSecurity.Codegen.EventTypes

/-!
# Events that the running macOS has (`lib/endpoint_security/availability.rb`)

`EVENT_MIN_OS` has the version of every event as text. It is compared with the version of the
running system as RubyGems compares versions: number by number, and what one of them does not
have is zero.
-/

namespace EndpointSecurity.Availability

open Codegen

/-- `Gem::Version#segments` of a text of numerals, where `number` is the one being read. -/
def segmentsFrom (number : Option Nat) : List Char → List Nat
  | [] => number.toList
  | c :: rest =>
    if isDecimal c then
      segmentsFrom (some (10 * number.getD 0 + (c.toNat - '0'.toNat))) rest
    else number.toList ++ segmentsFrom none rest

/-- `Gem::Version.new(text)`; the empty text is version 0. -/
def version (text : String) : List Nat := segmentsFrom none text.toList

/-- `Gem::Version#>=` -/
def atLeast : List Nat → List Nat → Bool
  | [], bs => bs.all (· == 0)
  | _ :: _, [] => true
  | a :: as, b :: bs => if a = b then atLeast as bs else b < a

/-- `EVENT_MIN_OS`, as `EmitRuby#availability` writes it: of two entries of one symbol the
    literal has the later. -/
def eventMinOs (ir : EventTypes) : List (String × String) :=
  ir.events.foldl (fun entries event => Hash.store event.symbol event.minimumOs entries) []

/-- `Availability.supported_event?` on a macOS of the version `runtime`; `none` is the
    `KeyError`. -/
def supportedEvent (ir : EventTypes) (runtime : List Nat) (event : String) : Option Bool :=
  ((eventMinOs ir).lookup event).map fun minimum => atLeast runtime (version minimum)

end EndpointSecurity.Availability
