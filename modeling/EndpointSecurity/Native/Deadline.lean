import EndpointSecurity.Native.Queue

/-!
# When the watchdog answers in the handler's place (`client.c`)

An AUTH message whose handler takes too long is answered some time before its deadline. All
times are `uint64_t` ticks of the absolute clock.
-/

namespace EndpointSecurity

/-- The option `deadline_margin`, a double from 0 to 1 and hence a fraction. -/
structure Margin where
  num : Nat
  den : Nat
  den_pos : 0 < den
  le_one : num ≤ den

/-- `UINT64_MAX` -/
def uint64Max : Nat := 2 ^ 64 - 1

/-- Multiplication of `uint64_t` values. -/
def uint64Mul (a b : Nat) : Nat := a * b % 2 ^ 64

/-- The computation of `min_margin_ticks` in `client_initialize` from the option
    `min_margin_ns` and the two fields of the time base. -/
def minMarginTicksOf (minMarginNs numer denom : Nat) : Nat :=
  if minMarginNs > uint64Max / denom then uint64Max else uint64Mul minMarginNs denom / numer

/-- The share of the remaining time that is kept as a margin: the exact product, truncated. -/
def Margin.share (m : Margin) (remaining : Nat) : Nat := remaining * m.num / m.den

/-- `deadline_fire_time`, with the clock reading it makes. -/
def deadlineFireTime (margin : Margin) (minMarginTicks now deadline : Nat) : Nat :=
  if deadline ≤ now then now
  else
    let remaining := sizeSub deadline now
    let advance := if margin.num = margin.den then remaining else margin.share remaining
    let advance := if advance < minMarginTicks then minMarginTicks else advance
    if advance ≥ remaining then now else sizeSub deadline advance

end EndpointSecurity
