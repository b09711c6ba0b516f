import EndpointSecurity.Native.Message

/-!
# What may be done with a message

The contract of Endpoint Security as far as a single message goes: it may be used without being
retained only while the handler block runs, it is retained once and released once at most, it
is neither read nor answered after its release, and an AUTH message is answered once at most.

## Key results

- `Life.of_counts`: what the log of a message that keeps the contract adds up to
- `Life.of_release`: a release is the last thing that happens to it
-/

namespace EndpointSecurity

/-- How far a message has got. -/
structure Life where
  retained : Bool := false
  released : Bool := false
  answered : Bool := false
  deriving DecidableEq, Repr

namespace Life

/-- How far a message gets by an event, if the contract allows it. -/
def step (isAuth : Bool) (life : Life) : MessageEvent → Option Life
  | .retain =>
    if !life.retained && !life.released then some { life with retained := true } else none
  | .release =>
    if life.retained && !life.released then some { life with released := true } else none
  | .read _ => if life.retained && !life.released then some life else none
  | .respond .. =>
    if isAuth && !life.answered && !life.released then some { life with answered := true } else none

/-- How far a message with this log, newest event first, has got. -/
def of (isAuth : Bool) : List MessageEvent → Option Life
  | [] => some {}
  | e :: log => (of isAuth log).bind fun life => life.step isAuth e

variable {isAuth : Bool} {life life' : Life} {e : MessageEvent} {log : List MessageEvent}

theorem of_cons (hlog : of isAuth log = some life) (hstep : life.step isAuth e = some life') :
    of isAuth (e :: log) = some life' := by
  rw [of, hlog, Option.bind_some, hstep]

/-- Nothing happens to a message that has been released. -/
theorem step_released (h : life.released) : life.step isAuth e = none := by
  cases e <;> simp [step, h]

/-- The events of a log that keeps the contract, in numbers. -/
structure Counts (isAuth : Bool) (log : List MessageEvent) (life : Life) : Prop where
  retain : log.count .retain = life.retained.toNat
  release : log.count .release = life.released.toNat
  respond : responses log = life.answered.toNat
  retained : life.released → life.retained
  auth : life.answered → isAuth

theorem Counts.step (h : Counts isAuth log life) (hstep : life.step isAuth e = some life') :
    Counts isAuth (e :: log) life' := by
  obtain ⟨hretain, hrelease, hrespond, hretained, hauth⟩ := h
  cases e with
  | retain =>
    simp only [Life.step] at hstep
    split_ifs at hstep with hallowed
    cases hstep
    simp only [Bool.and_eq_true, Bool.not_eq_true'] at hallowed
    refine ⟨?_, ?_, hrespond, fun _ => rfl, hauth⟩
    · rw [List.count_cons_self, hretain, hallowed.1]
      rfl
    · rw [← hrelease, List.count_cons_of_ne (by simp)]
  | release =>
    simp only [Life.step] at hstep
    split_ifs at hstep with hallowed
    cases hstep
    simp only [Bool.and_eq_true, Bool.not_eq_true'] at hallowed
    refine ⟨?_, ?_, hrespond, fun _ => hallowed.1, hauth⟩
    · rw [← hretain, List.count_cons_of_ne (by simp)]
    · rw [List.count_cons_self, hrelease, hallowed.2]
      rfl
  | read p =>
    simp only [Life.step] at hstep
    split_ifs at hstep
    cases hstep
    refine ⟨?_, ?_, hrespond, hretained, hauth⟩
    · rw [← hretain, List.count_cons_of_ne (by simp)]
    · rw [← hrelease, List.count_cons_of_ne (by simp)]
  | respond client sender response =>
    simp only [Life.step] at hstep
    split_ifs at hstep with hallowed
    cases hstep
    simp only [Bool.and_eq_true, Bool.not_eq_true'] at hallowed
    refine ⟨?_, ?_, ?_, hretained, fun _ => hallowed.1.1⟩
    · rw [← hretain, List.count_cons_of_ne (by simp)]
    · rw [← hrelease, List.count_cons_of_ne (by simp)]
    · rw [responses, List.countP_cons_of_pos rfl, ← responses, hrespond, hallowed.1.2]
      rfl

theorem of_counts (h : of isAuth log = some life) : Counts isAuth log life := by
  induction log generalizing life with
  | nil =>
    cases h
    exact ⟨rfl, rfl, rfl, nofun, nofun⟩
  | cons e log ih =>
    obtain ⟨before, hbefore, hstep⟩ := Option.bind_eq_some_iff.mp h
    exact (ih hbefore).step hstep

/-- A release is the last thing that happens to a message. -/
theorem of_release {later : List MessageEvent}
    (h : of isAuth (later ++ .release :: log) = some life) : later = [] := by
  induction later generalizing life with
  | nil => rfl
  | cons e later ih =>
    obtain ⟨before, hbefore, hstep⟩ := Option.bind_eq_some_iff.mp h
    cases ih hbefore
    -- The message is released, so the event `e` cannot have happened
    obtain ⟨retained, -, hrelease⟩ := Option.bind_eq_some_iff.mp hbefore
    have hreleased : before.released := by
      simp only [step] at hrelease
      split_ifs at hrelease
      cases hrelease
      rfl
    rw [step_released hreleased] at hstep
    cases hstep

end Life
end EndpointSecurity
