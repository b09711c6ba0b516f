import EndpointSecurity.Native.Deadline

/-!
# The arithmetic of the fallback time

`deadline_fire_time` works in `uint64_t` ticks and converts a double product back to them. The
bounds hold because the fire time is `now` plus what the larger of the two margins leaves of
the remaining time, where a margin that exceeds the remaining time leaves nothing.

## Key results

- `deadlineFireTime_eq`: the fire time in closed form
- `fire_time_safe`: nothing wraps, the margins are kept, and the order of deadlines is kept
-/

namespace EndpointSecurity

/-! ## Arithmetic that fails instead of wrapping -/

/-- The difference of two `uint64_t` values, if there is one. -/
def checkedSub (a b : Nat) : Option Nat := if b ≤ a then some (a - b) else none

/-- A natural number as a `uint64_t`, if it fits. -/
def checkedFit (a : Nat) : Option Nat := if a < 2 ^ 64 then some a else none

/-- The quotient of two `uint64_t` values, if the divisor is not zero. -/
def checkedDiv (a b : Nat) : Option Nat := if b = 0 then none else some (a / b)

/-- `min_margin_ticks`, with every operation checked. -/
def minMarginTicksChecked (minMarginNs numer denom : Nat) : Option Nat := do
  let limit ← checkedDiv uint64Max denom
  if minMarginNs > limit then pure uint64Max
  else
    let product ← checkedFit (minMarginNs * denom)
    checkedDiv product numer

/-- The margin share of `deadline_fire_time`; the conversion of the product is checked. -/
def checkedShare (margin : Margin) (remaining : Nat) : Option Nat :=
  if margin.num = margin.den then pure remaining else checkedFit (margin.share remaining)

/-- `deadline_fire_time`, with every operation checked. -/
def deadlineFireTimeChecked (margin : Margin) (minMarginTicks now deadline : Nat) :
    Option Nat :=
  if deadline ≤ now then pure now
  else do
    let remaining ← checkedSub deadline now
    let advance ← checkedShare margin remaining
    let advance := if advance < minMarginTicks then minMarginTicks else advance
    if advance ≥ remaining then pure now else checkedSub deadline advance

theorem checkedSub_of_le {a b : Nat} (hle : b ≤ a) : checkedSub a b = some (a - b) := if_pos hle

theorem checkedFit_of_lt {a : Nat} (hlt : a < 2 ^ 64) : checkedFit a = some a := if_pos hlt

theorem checkedDiv_of_pos {a b : Nat} (hpos : 0 < b) : checkedDiv a b = some (a / b) :=
  if_neg (by omega)

/-! ## The minimum margin -/

section
variable {minMarginNs numer denom : Nat}

/-- Below the limit the product fits. -/
theorem mul_lt_of_le_limit (hdenom : 0 < denom) (hle : minMarginNs ≤ uint64Max / denom) :
    minMarginNs * denom < 2 ^ 64 := by
  have hmul : minMarginNs * denom ≤ uint64Max := (Nat.le_div_iff_mul_le hdenom).mp hle
  simp only [uint64Max] at hmul
  omega

/-- The conversion is exact, or saturated. -/
theorem minMarginTicksOf_eq (hdenom : 0 < denom) :
    minMarginTicksOf minMarginNs numer denom =
      if minMarginNs > uint64Max / denom then uint64Max else minMarginNs * denom / numer := by
  unfold minMarginTicksOf uint64Mul
  split_ifs with hgt
  · rfl
  · rw [Nat.mod_eq_of_lt (mul_lt_of_le_limit hdenom (Nat.not_lt.mp hgt))]

theorem minMarginTicksChecked_eq (hnumer : 0 < numer) (hdenom : 0 < denom) :
    minMarginTicksChecked minMarginNs numer denom =
      some (minMarginTicksOf minMarginNs numer denom) := by
  rw [minMarginTicksOf_eq hdenom]
  simp only [minMarginTicksChecked, checkedDiv_of_pos hdenom, Option.bind_eq_bind,
    Option.bind_some]
  split_ifs with hgt
  · rfl
  · rw [checkedFit_of_lt (mul_lt_of_le_limit hdenom (Nat.not_lt.mp hgt)), Option.bind_some,
      checkedDiv_of_pos hnumer]

/-- The minimum margin is a `uint64_t`. -/
theorem minMarginTicksOf_lt (hdenom : 0 < denom) :
    minMarginTicksOf minMarginNs numer denom < 2 ^ 64 := by
  rw [minMarginTicksOf_eq hdenom]
  split_ifs with hgt
  · decide
  · have := mul_lt_of_le_limit hdenom (Nat.not_lt.mp hgt)
    have := Nat.div_le_self (minMarginNs * denom) numer
    omega

/-- The minimum margin is not cut short, unless the exact one does not fit. -/
theorem le_minMarginTicksOf (hdenom : 0 < denom) (hfit : minMarginNs * denom / numer < 2 ^ 64) :
    minMarginNs * denom / numer ≤ minMarginTicksOf minMarginNs numer denom := by
  rw [minMarginTicksOf_eq hdenom]
  split_ifs with hgt
  · rw [uint64Max]
    omega
  · exact Nat.le_refl _

end

/-! ## The margin share -/

namespace Margin

variable (m : Margin)

/-- The share is at most the whole. -/
theorem share_le (remaining : Nat) : m.share remaining ≤ remaining :=
  Nat.div_le_of_le_mul (by
    rw [Nat.mul_comm m.den]
    exact Nat.mul_le_mul_left remaining m.le_one)

/-- The special case of `deadline_fire_time` for a margin of one changes nothing. -/
theorem share_one (h : m.num = m.den) (remaining : Nat) : m.share remaining = remaining := by
  rw [share, h, Nat.mul_div_cancel _ m.den_pos]

/-- One more tick to go adds at most one tick to the share. -/
theorem share_succ_le (remaining : Nat) : m.share (remaining + 1) ≤ m.share remaining + 1 := by
  rw [share, share, ← Nat.add_div_right _ m.den_pos, Nat.succ_mul]
  exact Nat.div_le_div_right (Nat.add_le_add_left m.le_one _)

/-- What the share leaves grows with the remaining time. -/
theorem sub_share_mono {a b : Nat} (hle : a ≤ b) : a - m.share a ≤ b - m.share b := by
  induction hle with
  | refl => exact Nat.le_refl _
  | @step b hle ih =>
    have hsucc : m.share (b + 1) ≤ m.share b + 1 := m.share_succ_le b
    have hle' : m.share b ≤ b := m.share_le b
    simp only [Nat.succ_eq_add_one]
    omega

end Margin

/-! ## The fire time -/

section
variable {margin : Margin} {minMarginTicks now deadline : Nat}

/-- The two ways to compute the margin agree. -/
theorem Margin.advance_eq (m : Margin) (remaining : Nat) :
    (if m.num = m.den then remaining else m.share remaining) = m.share remaining := by
  split_ifs with hone
  · rw [m.share_one hone]
  · rfl

/-- Raising the margin to the minimum. -/
theorem raise_eq_max (a b : Nat) : (if a < b then b else a) = max a b := by
  split_ifs with hlt <;> omega

/-- The fire time is `now` plus what the larger margin leaves of the remaining time. -/
theorem deadlineFireTime_eq (hdeadline : deadline < 2 ^ 64) :
    deadlineFireTime margin minMarginTicks now deadline =
      now + (deadline - now - max (margin.share (deadline - now)) minMarginTicks) := by
  rcases Nat.lt_or_ge now deadline with hfuture | hpast
  · have hremaining : sizeSub deadline now = deadline - now := sizeSub_eq (by omega) (by omega)
    simp only [deadlineFireTime, if_neg (Nat.not_le.mpr hfuture), hremaining, margin.advance_eq,
      raise_eq_max]
    split_ifs with hall
    · omega
    · rw [sizeSub_eq (by omega) (by omega)]
      omega
  · rw [deadlineFireTime, if_pos hpast]
    omega

/-- The conversion of the margin share is in range. -/
theorem checkedShare_eq {remaining : Nat} (hlt : remaining < 2 ^ 64) :
    checkedShare margin remaining = some (margin.share remaining) := by
  unfold checkedShare
  split_ifs with hone
  · rw [margin.share_one hone]
    rfl
  · exact checkedFit_of_lt (Nat.lt_of_le_of_lt (margin.share_le remaining) hlt)

theorem deadlineFireTimeChecked_eq (hdeadline : deadline < 2 ^ 64) :
    deadlineFireTimeChecked margin minMarginTicks now deadline =
      some (deadlineFireTime margin minMarginTicks now deadline) := by
  rw [deadlineFireTime_eq hdeadline]
  rcases Nat.lt_or_ge now deadline with hfuture | hpast
  · simp only [deadlineFireTimeChecked, if_neg (Nat.not_le.mpr hfuture),
      checkedSub_of_le (Nat.le_of_lt hfuture),
      checkedShare_eq (Nat.lt_of_le_of_lt (Nat.sub_le ..) hdeadline), Option.bind_eq_bind,
      Option.bind_some, raise_eq_max]
    split_ifs with hall
    · exact congrArg some (by omega)
    · rw [checkedSub_of_le (by omega)]
      exact congrArg some (by omega)
  · rw [deadlineFireTimeChecked, if_pos hpast]
    exact congrArg some (by omega)

end

/-- The fallback time is safe and keeps the order of the deadlines. For every margin from zero
    to one, every minimum margin, clock reading and 64-bit deadline, and every positive time base,

    * no operation of the two computations wraps or divides by zero,
    * the minimum margin in ticks is not below the exact conversion unless that does not fit,
    * the fire time is `now` for a deadline that has passed, and otherwise between `now` and
      the deadline,
    * the time left at the fire time is the larger margin, or all there is,
    * an earlier deadline does not get a later fire time. -/
theorem fire_time_safe {margin : Margin} {minMarginNs numer denom now deadline : Nat}
    (hnumer : 0 < numer) (hdenom : 0 < denom) (hdeadline : deadline < 2 ^ 64) :
    let ticks := minMarginTicksOf minMarginNs numer denom
    let fireAt := deadlineFireTime margin ticks now deadline
    minMarginTicksChecked minMarginNs numer denom = some ticks ∧ ticks < 2 ^ 64 ∧
    deadlineFireTimeChecked margin ticks now deadline = some fireAt ∧
    (minMarginNs * denom / numer < 2 ^ 64 → minMarginNs * denom / numer ≤ ticks) ∧
    (deadline ≤ now → fireAt = now) ∧
    (now < deadline → now ≤ fireAt ∧ fireAt ≤ deadline ∧
      min (deadline - now) (max (margin.share (deadline - now)) ticks) ≤ deadline - fireAt) ∧
    (∀ later, deadline ≤ later → later < 2 ^ 64 →
      fireAt ≤ deadlineFireTime margin ticks now later) := by
  intro ticks fireAt
  have hfire : fireAt = now + (deadline - now - max (margin.share (deadline - now)) ticks) :=
    deadlineFireTime_eq hdeadline
  refine ⟨minMarginTicksChecked_eq hnumer hdenom, minMarginTicksOf_lt hdenom,
    deadlineFireTimeChecked_eq hdeadline, le_minMarginTicksOf hdenom, fun _ => by omega,
    fun _ => by omega, ?_⟩
  intro later hle hlater
  have hshare : deadline - now - margin.share (deadline - now) ≤
      later - now - margin.share (later - now) :=
    margin.sub_share_mono (Nat.sub_le_sub_right hle now)
  rw [hfire, deadlineFireTime_eq hlater]
  omega

/-- A fifth of the remaining time is more than the minimum of five microseconds. -/
theorem fire_time_safe_fifth :
    deadlineFireTimeChecked ⟨1, 5, by decide, by decide⟩ (minMarginTicksOf 5000 125 3) 1000 2000 =
      some 1800 ∧
    min (2000 - 1000) (max 200 (minMarginTicksOf 5000 125 3)) ≤ 2000 - 1800 := by
  have h := @fire_time_safe ⟨1, 5, by decide, by decide⟩ 5000 125 3 1000 2000 (by decide)
    (by decide) (by decide)
  exact ⟨h.2.2.1, (h.2.2.2.2.2.1 (by decide)).2.2⟩

end EndpointSecurity
