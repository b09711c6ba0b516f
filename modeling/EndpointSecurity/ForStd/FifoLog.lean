import EndpointSecurity.ForStd.SeqRing

/-!
# Logs of a queue with reusable cells

A log (newest event first) of the claims, publications, deliveries and releases of a queue's
positions. `Legal` says which logs a first-in-first-out queue with exclusively held cells may
produce; the lemmas draw the consequences that do not depend on how the queue is built.

The producers have type `ι`, the consumers type `κ`, and `α` is what is queued.
-/

namespace FifoLog

open SeqRing (Phase)

/-- What happens to a position. -/
inductive Event (ι κ α : Type _) where
  | claim (producer : ι) (position : Nat)
  | publish (producer : ι) (position : Nat) (item : α)
  | deliver (consumer : κ) (position : Nat) (item : α)
  | release (consumer : κ) (position : Nat)
  deriving DecidableEq, Repr

variable {ι κ α : Type _}

namespace Event

def position : Event ι κ α → Nat
  | .claim _ p | .publish _ p _ | .deliver _ p _ | .release _ p => p

/-- The phase that an event puts its position in. -/
def phase : Event ι κ α → Phase
  | .claim .. => .claimed
  | .publish .. => .published
  | .deliver .. => .taken
  | .release .. => .released

end Event

/-- The phase of each position after a log. -/
def phaseOf : List (Event ι κ α) → Nat → Phase
  | [] => fun _ => .unclaimed
  | e :: es => Function.update (phaseOf es) e.position e.phase

/-- The number of deliveries in a log. -/
def delivered : List (Event ι κ α) → Nat
  | [] => 0
  | .deliver .. :: es => delivered es + 1
  | _ :: es => delivered es

/-- The delivered positions, oldest first. -/
def deliveries : List (Event ι κ α) → List Nat
  | [] => []
  | .deliver _ p _ :: es => deliveries es ++ [p]
  | _ :: es => deliveries es

/-- The logs of a FIFO queue whose position `p` occupies the cell `cell p`: a claim takes a
    fresh position whose cell nobody uses, the claimer publishes it once, positions are
    delivered in order with the item that was published, and a delivered position is released
    once, by the one who got it. -/
def Legal (cell : Nat → Nat) : List (Event ι κ α) → Prop
  | [] => True
  | e :: es => Legal cell es ∧ match e with
    | .claim _ p => phaseOf es p = .unclaimed ∧
        ∀ q, (phaseOf es q).active → cell q ≠ cell p
    | .publish k p _ => phaseOf es p = .claimed ∧ .claim k p ∈ es
    | .deliver _ p x => phaseOf es p = .published ∧ p = delivered es ∧ ∃ k, .publish k p x ∈ es
    | .release j p => phaseOf es p = .taken ∧ ∃ x, .deliver j p x ∈ es

variable {cell : Nat → Nat} {es newer older : List (Event ι κ α)}

theorem phaseOf_cons (e : Event ι κ α) :
    phaseOf (e :: es) = Function.update (phaseOf es) e.position e.phase := rfl

@[simp, grind =] theorem phaseOf_claim (k : ι) (p q : Nat) :
    phaseOf (.claim k p :: es) q = if q = p then .claimed else phaseOf es q :=
  Function.update_apply ..

@[simp, grind =] theorem phaseOf_publish (k : ι) (p q : Nat) (x : α) :
    phaseOf (.publish k p x :: es) q = if q = p then .published else phaseOf es q :=
  Function.update_apply ..

@[simp, grind =] theorem phaseOf_deliver (j : κ) (p q : Nat) (x : α) :
    phaseOf (.deliver j p x :: es) q = if q = p then .taken else phaseOf es q :=
  Function.update_apply ..

@[simp, grind =] theorem phaseOf_release (j : κ) (p q : Nat) :
    phaseOf (.release j p :: es) q = if q = p then .released else phaseOf es q :=
  Function.update_apply ..

theorem Legal.of_append (h : Legal cell (newer ++ older)) : Legal cell older := by
  induction newer with
  | nil => exact h
  | cons e newer ih => exact ih h.1

/-- Positions are delivered in the order `0, 1, 2, …`, each exactly once. -/
theorem Legal.deliveries_eq (h : Legal cell es) : deliveries es = List.range (delivered es) := by
  induction es with
  | nil => rfl
  | cons e es ih =>
    cases e with
    | deliver j p x =>
      obtain ⟨hes, -, hp, -⟩ := h
      rw [deliveries, delivered, List.range_succ, ih hes, hp]
    | claim | publish | release => exact ih h.1

/-- A delivery hands over what a producer published at that position before. -/
theorem Legal.published_before {j : κ} {p : Nat} {x : α}
    (h : Legal cell (newer ++ .deliver j p x :: older)) : ∃ k, .publish k p x ∈ older :=
  h.of_append.2.2.2

/-- A position is claimed before it is published, by the one who publishes it. -/
theorem Legal.claimed_before {k : ι} {p : Nat} {x : α}
    (h : Legal cell (newer ++ .publish k p x :: older)) : .claim k p ∈ older :=
  h.of_append.2.2

/-- A position that any event is about is no longer unclaimed. -/
theorem Legal.phaseOf_ne_unclaimed {e : Event ι κ α} (h : Legal cell es) (he : e ∈ es) :
    phaseOf es e.position ≠ .unclaimed := by
  induction es with
  | nil => cases he
  | cons e' es ih =>
    rw [phaseOf_cons, Function.update_apply]
    split_ifs with heq
    · cases e' <;> simp [Event.phase]
    · rcases List.mem_cons.mp he with rfl | he
      · exact absurd rfl heq
      · exact ih h.1 he

/-- Nobody claims a position that somebody has claimed before. -/
theorem Legal.claim_unique {k k' : ι} {p : Nat} (h : Legal cell es) (hk : .claim k p ∈ es)
    (hk' : .claim k' p ∈ es) : k = k' := by
  induction es with
  | nil => cases hk
  | cons e es ih =>
    rcases List.mem_cons.mp hk with rfl | hmem <;> rcases List.mem_cons.mp hk' with heq | hmem'
    · cases heq; rfl
    · exact absurd h.2.1 (h.1.phaseOf_ne_unclaimed (e := .claim k' p) hmem')
    · subst heq
      exact absurd h.2.1 (h.1.phaseOf_ne_unclaimed (e := .claim k p) hmem)
    · exact ih h.1 hmem hmem'

/-- A position that has been published is not claimed again. -/
theorem Legal.phaseOf_ne_claimed {k : ι} {p : Nat} {x : α} (h : Legal cell es)
    (hk : .publish k p x ∈ es) : phaseOf es p ≠ .claimed := by
  induction es with
  | nil => cases hk
  | cons e es ih =>
    rcases List.mem_cons.mp hk with rfl | hmem
    · simp
    · have hne := h.1.phaseOf_ne_unclaimed hmem
      have hih := ih h.1 hmem
      cases e with
      | claim k' p' =>
        have := h.2.1
        simp only [Event.position] at hne
        grind
      | publish | deliver | release => grind

/-- What a position has been published with is unique. -/
theorem Legal.publish_unique {k k' : ι} {p : Nat} {x x' : α} (h : Legal cell es)
    (hk : .publish k p x ∈ es) (hk' : .publish k' p x' ∈ es) : k = k' ∧ x = x' := by
  induction es with
  | nil => cases hk
  | cons e es ih =>
    rcases List.mem_cons.mp hk with rfl | hmem <;> rcases List.mem_cons.mp hk' with heq | hmem'
    · cases heq; exact ⟨rfl, rfl⟩
    · exact absurd h.2.1 (h.1.phaseOf_ne_claimed hmem')
    · subst heq
      exact absurd h.2.1 (h.1.phaseOf_ne_claimed hmem)
    · exact ih h.1 hmem hmem'

/-- Every delivered position is below the number of deliveries. -/
theorem Legal.deliver_lt {j : κ} {p : Nat} {x : α} (h : Legal cell es)
    (hj : .deliver j p x ∈ es) : p < delivered es := by
  induction es with
  | nil => cases hj
  | cons e es ih =>
    rcases List.mem_cons.mp hj with rfl | hmem
    · have := h.2.2.1
      simp only [delivered]
      omega
    · have := ih h.1 hmem
      cases e <;> simp only [delivered] <;> omega

/-- Nobody is given a position that somebody has been given before. -/
theorem Legal.deliver_unique {j j' : κ} {p : Nat} {x x' : α} (h : Legal cell es)
    (hj : .deliver j p x ∈ es) (hj' : .deliver j' p x' ∈ es) : j = j' ∧ x = x' := by
  induction es with
  | nil => cases hj
  | cons e es ih =>
    rcases List.mem_cons.mp hj with rfl | hmem <;> rcases List.mem_cons.mp hj' with heq | hmem'
    · cases heq; exact ⟨rfl, rfl⟩
    · exact absurd (h.1.deliver_lt hmem') (by have := h.2.2.1; omega)
    · subst heq
      exact absurd (h.1.deliver_lt hmem) (by have := h.2.2.1; omega)
    · exact ih h.1 hmem hmem'

end FifoLog
