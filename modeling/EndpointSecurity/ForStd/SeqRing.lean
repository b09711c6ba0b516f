import Mathlib.Logic.Function.Basic
import Mathlib.Tactic.SplitIfs

/-!
# Rings with a sequence word in every cell

A bounded queue for any number of producers and consumers. Positions count up for ever;
position `p` lives in the cell `p &&& (capacity - 1)`, and a sequence word in each cell says
what may be done with it next:

* `seq = p`: position `p` may be claimed, or has been and is not published yet,
* `seq = p + 1`: position `p` has been published, or has been taken and is not released yet,
* `seq = p + capacity`: position `p` has been released.

A producer *claims* the next position and later *publishes* it; a consumer *takes* the next
position and later *releases* it. Claiming and taking are retry loops (`claimStep`,
`takeStep`) that read the words one at a time.

## Key results

- `Inv.claim`, `Inv.publish`, `Inv.take`, `Inv.release`: the four operations keep the invariant
- `Inv.active_unique`: two positions in use never share a cell
- `Inv.claimAlone_returns`, `Inv.takeAlone_returns`: run alone, the two loops come to an end
- `Ready`, `Filled`: what a party that has tested a sequence word still knows after any
  number of steps of the others
-/

namespace SeqRing

/-- What has happened to a position so far. -/
inductive Phase where
  | unclaimed | claimed | published | taken | released
  deriving DecidableEq, Repr

/-- Claimed by a producer and not yet released by a consumer. -/
def Phase.active : Phase → Bool
  | .claimed | .published | .taken => true
  | .unclaimed | .released => false

/-- The shared words of a ring. -/
structure Ring where
  capacity : Nat
  /-- The next position to claim. -/
  enq : Nat
  /-- The next position to take. -/
  deq : Nat
  /-- The sequence word of each cell. -/
  seq : Nat → Nat

namespace Ring

/-- The cell of a position. -/
def index (r : Ring) (p : Nat) : Nat := p &&& (r.capacity - 1)

/-- A ring whose positions are all unclaimed. -/
def empty (capacity : Nat) : Ring := { capacity, enq := 0, deq := 0, seq := fun i => i }

/-- Claim the next position. -/
def claim (r : Ring) : Ring := { r with enq := r.enq + 1 }

/-- Publish the claimed position `p`. -/
def publish (r : Ring) (p : Nat) : Ring :=
  { r with seq := Function.update r.seq (r.index p) (p + 1) }

/-- Take the next position. -/
def take (r : Ring) : Ring := { r with deq := r.deq + 1 }

/-- Release the taken position `p`. -/
def release (r : Ring) (p : Nat) : Ring :=
  { r with seq := Function.update r.seq (r.index p) (p + r.capacity) }

section
variable (r : Ring) (p q : Nat)

@[simp, grind =] theorem claim_capacity : r.claim.capacity = r.capacity := rfl
@[simp, grind =] theorem claim_enq : r.claim.enq = r.enq + 1 := rfl
@[simp, grind =] theorem claim_deq : r.claim.deq = r.deq := rfl
@[simp, grind =] theorem claim_seq : r.claim.seq p = r.seq p := rfl
@[simp, grind =] theorem claim_index : r.claim.index p = r.index p := rfl
@[simp, grind =] theorem publish_capacity : (r.publish q).capacity = r.capacity := rfl
@[simp, grind =] theorem publish_enq : (r.publish q).enq = r.enq := rfl
@[simp, grind =] theorem publish_deq : (r.publish q).deq = r.deq := rfl
@[simp, grind =] theorem publish_seq :
    (r.publish q).seq p = if p = r.index q then q + 1 else r.seq p :=
  Function.update_apply ..
@[simp, grind =] theorem publish_index : (r.publish q).index p = r.index p := rfl
@[simp, grind =] theorem take_capacity : r.take.capacity = r.capacity := rfl
@[simp, grind =] theorem take_enq : r.take.enq = r.enq := rfl
@[simp, grind =] theorem take_deq : r.take.deq = r.deq + 1 := rfl
@[simp, grind =] theorem take_seq : r.take.seq p = r.seq p := rfl
@[simp, grind =] theorem take_index : r.take.index p = r.index p := rfl
@[simp, grind =] theorem release_capacity : (r.release q).capacity = r.capacity := rfl
@[simp, grind =] theorem release_enq : (r.release q).enq = r.enq := rfl
@[simp, grind =] theorem release_deq : (r.release q).deq = r.deq := rfl
@[simp, grind =] theorem release_seq :
    (r.release q).seq p = if p = r.index q then q + r.capacity else r.seq p :=
  Function.update_apply ..
@[simp, grind =] theorem release_index : (r.release q).index p = r.index p := rfl

end

end Ring

/-! ## The claiming and the taking loop -/

/-- Program counter of a claiming or a taking loop. -/
inductive LoopPc where
  /-- About to load the position counter. -/
  | load
  /-- About to load the sequence word of the cell of `position`. -/
  | test (position : Nat)
  /-- About to compare the position counter with `position` and advance it. -/
  | exchange (position : Nat)
  deriving DecidableEq, Repr

/-- What one step of a loop comes to. -/
inductive LoopResult where
  | running (pc : LoopPc)
  /-- The counter has been advanced past `position`, which is now the caller's. -/
  | got (position : Nat)
  /-- The loop has given up: the ring is full (claiming) or empty (taking). -/
  | none
  deriving DecidableEq, Repr

/-- One step of the claiming loop; `spurious` makes a weak compare-and-set fail. -/
def Ring.claimStep (r : Ring) (spurious : Bool) : LoopPc → LoopResult
  | .load => .running (.test r.enq)
  | .test p =>
    let difference : Int := (r.seq (r.index p) : Int) - (p : Int)
    if difference = 0 then .running (.exchange p)
    else if difference < 0 then .none
    else .running .load
  | .exchange p => if r.enq = p ∧ !spurious then .got p else .running (.test r.enq)

/-- One step of the taking loop. -/
def Ring.takeStep (r : Ring) (spurious : Bool) : LoopPc → LoopResult
  | .load => .running (.test r.deq)
  | .test p =>
    let difference : Int := (r.seq (r.index p) : Int) - ((p + 1 : Nat) : Int)
    if difference = 0 then .running (.exchange p)
    else if difference < 0 then .none
    else .running .load
  | .exchange p => if r.deq = p ∧ !spurious then .got p else .running (.test r.deq)

/-! ## The ring invariant -/

/-- The shared words agree with the phase of every position. -/
structure Inv (r : Ring) (phase : Nat → Phase) : Prop where
  pow : r.capacity.isPowerOfTwo
  two_le : 2 ≤ r.capacity
  deq_le : r.deq ≤ r.enq
  unclaimed : ∀ p, phase p = .unclaimed ↔ r.enq ≤ p
  queued : ∀ p, phase p = .claimed ∨ phase p = .published → r.deq ≤ p
  delivered : ∀ p, phase p = .taken ∨ phase p = .released → p < r.deq
  fits : ∀ p, (phase p).active → r.enq ≤ p + r.capacity
  seq_fresh : ∀ p, p < r.capacity → r.enq ≤ p → r.seq (r.index p) = p
  seq_claimed : ∀ p, phase p = .claimed → r.seq (r.index p) = p
  seq_full : ∀ p, phase p = .published ∨ phase p = .taken → r.seq (r.index p) = p + 1
  seq_released : ∀ p, phase p = .released → r.enq ≤ p + r.capacity →
    r.seq (r.index p) = p + r.capacity

variable {r : Ring} {phase : Nat → Phase}

/-- In a ring whose capacity is a power of two, masking is reduction. -/
theorem Ring.index_eq_mod (h : r.capacity.isPowerOfTwo) (p : Nat) :
    r.index p = p % r.capacity := by
  obtain ⟨k, hk⟩ := h
  rw [index, hk, Nat.and_two_pow_sub_one_eq_mod]

/-- The empty ring satisfies the invariant. -/
theorem Inv.empty {capacity : Nat} (hpow : capacity.isPowerOfTwo) (h2 : 2 ≤ capacity) :
    Inv (Ring.empty capacity) (fun _ => .unclaimed) where
  pow := hpow
  two_le := h2
  deq_le := Nat.le_refl _
  unclaimed p := by simp [Ring.empty]
  queued := by simp
  delivered := by simp
  fits := by simp [Phase.active]
  seq_fresh p hp _ := by
    simp only [Ring.index_eq_mod (r := Ring.empty capacity) hpow]
    exact Nat.mod_eq_of_lt hp
  seq_claimed := by simp
  seq_full := by simp
  seq_released := by simp

namespace Inv

/-- A position in use has been claimed. -/
theorem active_lt (h : Inv r phase) {p : Nat} (hp : (phase p).active) : p < r.enq := by
  by_contra hlt
  rw [(h.unclaimed p).mpr (by omega)] at hp
  cases hp

/-- Two positions that share a cell are a multiple of the capacity apart. -/
theorem add_le_of_index_eq (h : Inv r phase) {p q : Nat} (hpq : r.index p = r.index q)
    (hlt : p < q) : p + r.capacity ≤ q := by
  rw [Ring.index_eq_mod h.pow, Ring.index_eq_mod h.pow] at hpq
  have hdvd : r.capacity ∣ q - p :=
    Nat.dvd_of_mod_eq_zero (Nat.sub_mod_eq_zero_of_mod_eq hpq.symm)
  have := Nat.le_of_dvd (by omega) hdvd
  omega

/-- No two positions in use share a cell. -/
theorem active_unique (h : Inv r phase) {p q : Nat} (hp : (phase p).active)
    (hq : (phase q).active) (hpq : r.index p = r.index q) : p = q := by
  have := h.active_lt hp
  have := h.active_lt hq
  have := h.fits p hp
  have := h.fits q hq
  rcases Nat.lt_trichotomy p q with hlt | heq | hlt
  · have := h.add_le_of_index_eq hpq hlt
    omega
  · exact heq
  · have := h.add_le_of_index_eq hpq.symm hlt
    omega

/-- A position that is in use is the latest one in its cell. -/
theorem le_of_active (h : Inv r phase) {p q : Nat} (hp : (phase p).active)
    (hq : phase q ≠ .unclaimed) (hpq : r.index p = r.index q) : q ≤ p := by
  have hlt : q < r.enq := Nat.lt_of_not_le fun hle => hq ((h.unclaimed q).mpr hle)
  have hfits := h.fits p hp
  by_contra hgt
  have := h.add_le_of_index_eq hpq (Nat.lt_of_not_le hgt)
  omega

/-- A claimed position that is not in use has been released. -/
theorem released_of_not_active (h : Inv r phase) {p : Nat} (hp : p < r.enq)
    (hact : ¬ (phase p).active) : phase p = .released := by
  cases hph : phase p with
  | unclaimed => exact absurd ((h.unclaimed p).mp hph) (by omega)
  | released => rfl
  | claimed | published | taken => simp [hph, Phase.active] at hact

/-- The sequence word of a position in use is one of its two values in use. -/
theorem seq_active (h : Inv r phase) {p : Nat} (hp : (phase p).active) :
    r.seq (r.index p) = p ∨ r.seq (r.index p) = p + 1 := by
  cases hph : phase p with
  | claimed => exact .inl (h.seq_claimed p hph)
  | published => exact .inr (h.seq_full p (.inl hph))
  | taken => exact .inr (h.seq_full p (.inr hph))
  | unclaimed | released => simp [hph, Phase.active] at hp

/-- When the cell of the next position to claim says so, nobody uses that cell. -/
theorem ready_free (h : Inv r phase) (hseq : r.seq (r.index r.enq) = r.enq) {p : Nat}
    (hp : (phase p).active) : r.index p ≠ r.index r.enq := by
  intro heq
  have hle := h.add_le_of_index_eq heq (h.active_lt hp)
  have := h.two_le
  rw [← heq] at hseq
  rcases h.seq_active hp with hs | hs <;> omega

/-- When the next position to claim is not ready, the position one lap before it is in use
    and its cell lags behind. -/
theorem blocked (h : Inv r phase) (hseq : r.seq (r.index r.enq) ≠ r.enq) :
    ∃ p, p + r.capacity = r.enq ∧ (phase p).active := by
  rcases Nat.lt_or_ge r.enq r.capacity with hlt | hge
  · exact absurd (h.seq_fresh _ hlt (Nat.le_refl _)) hseq
  · have := h.two_le
    refine ⟨r.enq - r.capacity, by omega, ?_⟩
    by_contra hact
    have hidx : r.index (r.enq - r.capacity) = r.index r.enq := by
      rw [Ring.index_eq_mod h.pow, Ring.index_eq_mod h.pow, ← Nat.add_mod_right]
      congr 1
      omega
    have hrel := h.released_of_not_active (p := r.enq - r.capacity) (by omega) hact
    have := h.seq_released _ hrel (by omega)
    rw [hidx] at this
    omega

/-- When the cell of the next position to take says so, that position is published. -/
theorem filled_published (h : Inv r phase) (hseq : r.seq (r.index r.deq) = r.deq + 1) :
    phase r.deq = .published := by
  have hle := h.deq_le
  by_cases hlt : r.deq < r.enq
  · cases hph : phase r.deq with
    | published => rfl
    | claimed => have := h.seq_claimed _ hph; omega
    | unclaimed => have := (h.unclaimed _).mp hph; omega
    | taken => have := h.delivered _ (.inl hph); omega
    | released => have := h.delivered _ (.inr hph); omega
  · -- Everything claimed has been taken, so the cell is still ready or one lap behind
    have heq : r.deq = r.enq := by omega
    rw [heq] at hseq
    obtain ⟨p, hp, hact⟩ := h.blocked (by omega)
    have hidx : r.index p = r.index r.enq := by
      rw [Ring.index_eq_mod h.pow, Ring.index_eq_mod h.pow, ← hp, Nat.add_mod_right]
    have := h.two_le
    rcases h.seq_active hact with hs | hs <;> rw [hidx] at hs <;> omega

/-- No more positions wait to be taken than the ring has cells. -/
theorem enq_le (h : Inv r phase) : r.enq ≤ r.deq + r.capacity := by
  rcases Nat.lt_or_ge r.deq r.enq with hlt | hge
  · apply h.fits
    cases hph : phase r.deq with
    | claimed | published | taken => rfl
    | unclaimed => exact absurd ((h.unclaimed _).mp hph) (by omega)
    | released => exact absurd (h.delivered _ (.inr hph)) (by omega)
  · omega

/-- The latest position that has been claimed in the cell of a claimed one. -/
theorem exists_latest (h : Inv r phase) {p : Nat} (hp : p < r.enq) :
    ∃ q, r.index q = r.index p ∧ (q = p ∨ p + r.capacity ≤ q) ∧ q < r.enq ∧
      r.enq ≤ q + r.capacity := by
  have h2 := h.two_le
  have hmod : ∀ j, r.index (p + r.capacity * j) = r.index p := fun j => by
    rw [Ring.index_eq_mod h.pow, Ring.index_eq_mod h.pow, Nat.add_mul_mod_self_left]
  obtain ⟨j, hj, hlast⟩ : ∃ j, p + r.capacity * j < r.enq ∧
      r.enq ≤ p + r.capacity * j + r.capacity := by
    refine ⟨(r.enq - 1 - p) / r.capacity, ?_, ?_⟩
    · have := Nat.mul_div_le (r.enq - 1 - p) r.capacity
      omega
    · have := Nat.lt_mul_div_succ (r.enq - 1 - p) (show 0 < r.capacity by omega)
      rw [Nat.mul_add] at this
      omega
  refine ⟨p + r.capacity * j, hmod j, ?_, hj, hlast⟩
  rcases Nat.eq_zero_or_pos j with rfl | hj0
  · exact .inl rfl
  · exact .inr (Nat.add_le_add_left (Nat.le_mul_of_pos_right _ hj0) p)

/-- The sequence word of a position that has been taken is ahead of it from then on. -/
theorem seq_lt_deq (h : Inv r phase) {p : Nat} (hp : p < r.deq) : p < r.seq (r.index p) := by
  have hle := h.deq_le
  have h2 := h.two_le
  -- The latest position that has been claimed in the same cell decides
  obtain ⟨q, hidx, hq, hlt, hlast⟩ := h.exists_latest (p := p) (by omega)
  rw [← hidx]
  cases hph : phase q with
  | unclaimed => exact absurd ((h.unclaimed _).mp hph) (by omega)
  | claimed =>
    have := h.seq_claimed _ hph
    have := h.queued _ (.inl hph)
    omega
  | published =>
    have := h.seq_full _ (.inl hph)
    omega
  | taken =>
    have := h.seq_full _ (.inr hph)
    omega
  | released =>
    have := h.seq_released _ hph hlast
    omega

/-- A position in use leaves no other position's sequence word in its cell: not that of a
    position not yet claimed, and not that of a position released within the last lap. -/
theorem index_ne_of_recent (h : Inv r phase) {p q : Nat} (hp : (phase p).active)
    (hq : ¬ (phase q).active) (hrecent : q < r.capacity ∨ phase q = .released)
    (hle : r.enq ≤ q + r.capacity) : r.index q ≠ r.index p := by
  intro heq
  have hlt := h.active_lt hp
  have hfits := h.fits p hp
  rcases Nat.lt_trichotomy p q with hpq | rfl | hpq
  · have := h.add_le_of_index_eq heq.symm hpq
    rcases hrecent with hq' | hq'
    · omega
    · have := h.delivered q (.inr hq')
      have := h.deq_le
      omega
  · exact hq hp
  · have := h.add_le_of_index_eq heq hpq
    omega

end Inv

/-! ## The four operations -/

/-- Claiming the next position, when its cell is ready, keeps the invariant. -/
theorem Inv.claim (h : Inv r phase) (hseq : r.seq (r.index r.enq) = r.enq) :
    Inv r.claim (Function.update phase r.enq .claimed) where
  pow := h.pow
  two_le := h.two_le
  deq_le := Nat.le_succ_of_le h.deq_le
  unclaimed p := by have := h.unclaimed p; grind
  queued p hp := by have := h.queued p; have := h.deq_le; grind
  delivered p hp := by have := h.delivered p; grind
  fits p hp := by
    rcases eq_or_ne p r.enq with rfl | hne
    · have := h.two_le
      simp only [Ring.claim_enq, Ring.claim_capacity]
      omega
    · rw [Function.update_of_ne hne] at hp
      have hle := h.fits p hp
      have hfree := h.ready_free hseq hp
      -- A position in use exactly one lap back would share the cell of the new one
      have : r.enq ≠ p + r.capacity := by
        intro heq
        apply hfree
        rw [Ring.index_eq_mod h.pow, Ring.index_eq_mod h.pow, heq, Nat.add_mod_right]
      simp only [Ring.claim_enq, Ring.claim_capacity]
      omega
  seq_fresh p hp hle := h.seq_fresh p hp (by simp only [Ring.claim_enq] at hle; omega)
  seq_claimed p hp := by have := h.seq_claimed p; grind
  seq_full p hp := by have := h.seq_full p; grind
  seq_released p hp hle := by have := h.seq_released p; grind

/-- Publishing a claimed position keeps the invariant. -/
theorem Inv.publish (h : Inv r phase) {p : Nat} (hp : phase p = .claimed) :
    Inv (r.publish p) (Function.update phase p .published) where
  pow := h.pow
  two_le := h.two_le
  deq_le := h.deq_le
  unclaimed q := by have := h.unclaimed q; grind
  queued q hq := by have := h.queued q; grind
  delivered q hq := by have := h.delivered q; grind
  fits q hq := by have := h.fits q; grind [Phase.active]
  seq_fresh q hq hle := by
    have := h.seq_fresh q hq hle
    have hph := (h.unclaimed q).mpr hle
    have := h.index_ne_of_recent (p := p) (q := q) (by simp [hp, Phase.active])
      (by simp [hph, Phase.active]) (.inl hq) (by simp at hle; omega)
    grind
  seq_claimed q hq := by
    have := h.seq_claimed q
    have := h.active_unique (p := q) (q := p)
    grind [Phase.active]
  seq_full q hq := by
    have := h.seq_full q
    have := h.active_unique (p := q) (q := p)
    grind [Phase.active]
  seq_released q hq hle := by
    have hne : q ≠ p := by grind
    rw [Function.update_of_ne hne] at hq
    have := h.seq_released q hq hle
    have := h.index_ne_of_recent (p := p) (q := q) (by simp [hp, Phase.active])
      (by simp [hq, Phase.active]) (.inr hq) hle
    grind

/-- Taking the next position, when its cell is filled, keeps the invariant. -/
theorem Inv.take (h : Inv r phase) (hseq : r.seq (r.index r.deq) = r.deq + 1) :
    Inv r.take (Function.update phase r.deq .taken) := by
  have hpub := h.filled_published hseq
  have hlt : r.deq < r.enq := h.active_lt (by simp [hpub, Phase.active])
  constructor
  case pow => exact h.pow
  case two_le => exact h.two_le
  case deq_le => exact hlt
  case unclaimed => intro p; have := h.unclaimed p; grind
  case queued => intro p hp; have := h.queued p; grind
  case delivered => intro p hp; have := h.delivered p; grind
  case fits => intro p hp; have := h.fits p; grind [Phase.active]
  case seq_fresh => intro p hp hle; exact h.seq_fresh p hp hle
  case seq_claimed => intro p hp; have := h.seq_claimed p; grind
  case seq_full => intro p hp; have := h.seq_full p; grind
  case seq_released => intro p hp hle; have := h.seq_released p; grind

/-- Releasing a taken position keeps the invariant. -/
theorem Inv.release (h : Inv r phase) {p : Nat} (hp : phase p = .taken) :
    Inv (r.release p) (Function.update phase p .released) where
  pow := h.pow
  two_le := h.two_le
  deq_le := h.deq_le
  unclaimed q := by have := h.unclaimed q; grind
  queued q hq := by have := h.queued q; grind
  delivered q hq := by have := h.delivered q; grind
  fits q hq := by have := h.fits q; grind [Phase.active]
  seq_fresh q hq hle := by
    have := h.seq_fresh q hq hle
    have hph := (h.unclaimed q).mpr hle
    have := h.index_ne_of_recent (p := p) (q := q) (by simp [hp, Phase.active])
      (by simp [hph, Phase.active]) (.inl hq) (by simp at hle; omega)
    grind
  seq_claimed q hq := by
    have := h.seq_claimed q
    have := h.active_unique (p := q) (q := p)
    grind [Phase.active]
  seq_full q hq := by
    have := h.seq_full q
    have := h.active_unique (p := q) (q := p)
    grind [Phase.active]
  seq_released q hq hle := by
    rcases eq_or_ne q p with rfl | hne
    · simp
    · rw [Function.update_of_ne hne] at hq
      have := h.seq_released q hq hle
      have := h.index_ne_of_recent (p := p) (q := q) (by simp [hp, Phase.active])
        (by simp [hq, Phase.active]) (.inr hq) hle
      grind

/-! ## What a tested sequence word is worth later

A loop compares the counter with a position whose word it tested some time ago. Other
parties may have done anything in between; what survives is that the position is ready (or
filled) unless the counter has moved past it, in which case the exchange fails. -/

/-- Position `p` is ready to be claimed, unless it has been claimed already. -/
def Ready (r : Ring) (p : Nat) : Prop := p < r.enq ∨ p = r.enq ∧ r.seq (r.index p) = p

/-- Position `p` is ready to be taken, unless it has been taken already. -/
def Filled (r : Ring) (p : Nat) : Prop := p < r.deq ∨ p = r.deq ∧ r.seq (r.index p) = p + 1

/-- What a claiming loop knows at each program point. -/
def Ring.ClaimOk (r : Ring) : LoopPc → Prop
  | .load => True
  | .test p => p ≤ r.enq
  | .exchange p => Ready r p

/-- What a taking loop knows at each program point. -/
def Ring.TakeOk (r : Ring) : LoopPc → Prop
  | .load => True
  | .test p => p ≤ r.deq
  | .exchange p => Filled r p

section Loops
variable {pc : LoopPc} {spurious : Bool}

/-- A step of the claiming loop keeps what the loop knows; it gets the next position, and
    only when that position is ready. -/
theorem Ring.ClaimOk.step (spurious : Bool) (hok : r.ClaimOk pc) :
    match r.claimStep spurious pc with
    | .running pc' => r.ClaimOk pc'
    | .got p => p = r.enq ∧ r.seq (r.index r.enq) = r.enq
    | .none => True := by
  cases pc with
  | load => exact Nat.le_refl _
  | test p =>
    simp only [Ring.ClaimOk] at hok
    simp only [Ring.claimStep]
    split_ifs with hdiff hneg
    · simp only [Ring.ClaimOk, Ready]
      omega
    · trivial
    · trivial
  | exchange p =>
    simp only [Ring.ClaimOk, Ready] at hok
    simp only [Ring.claimStep]
    split_ifs with hcas
    · obtain ⟨rfl, -⟩ := hcas
      exact ⟨rfl, by omega⟩
    · exact Nat.le_refl _

/-- A step of the taking loop keeps what the loop knows; it gets the next position, and
    only when that position is filled. -/
theorem Ring.TakeOk.step (spurious : Bool) (hok : r.TakeOk pc) :
    match r.takeStep spurious pc with
    | .running pc' => r.TakeOk pc'
    | .got p => p = r.deq ∧ r.seq (r.index r.deq) = r.deq + 1
    | .none => True := by
  cases pc with
  | load => exact Nat.le_refl _
  | test p =>
    simp only [Ring.TakeOk] at hok
    simp only [Ring.takeStep]
    split_ifs with hdiff hneg
    · simp only [Ring.TakeOk, Filled]
      omega
    · trivial
    · trivial
  | exchange p =>
    simp only [Ring.TakeOk, Filled] at hok
    simp only [Ring.takeStep]
    split_ifs with hcas
    · obtain ⟨rfl, -⟩ := hcas
      exact ⟨rfl, by omega⟩
    · exact Nat.le_refl _

/-- The taking loop gives up only when the next position to take is not published. -/
theorem Ring.TakeOk.none (h : Inv r phase) (hok : r.TakeOk pc)
    (hnone : r.takeStep spurious pc = .none) : phase r.deq ≠ .published := by
  intro hpub
  have hseq := h.seq_full _ (.inl hpub)
  cases pc with
  | load => cases hnone
  | test p =>
    simp only [Ring.TakeOk] at hok
    simp only [Ring.takeStep] at hnone
    split_ifs at hnone with hdiff hneg
    rcases Nat.lt_or_eq_of_le hok with hlt | rfl
    · have := h.seq_lt_deq hlt
      omega
    · omega
  | exchange p =>
    simp only [Ring.takeStep] at hnone
    split_ifs at hnone

theorem Ring.ClaimOk.claim (hok : r.ClaimOk pc) : r.claim.ClaimOk pc := by
  cases pc with
  | load => trivial
  | test p => exact Nat.le_succ_of_le hok
  | exchange p =>
    simp only [Ring.ClaimOk, Ready, Ring.claim_enq] at hok ⊢
    omega

theorem Ring.ClaimOk.publish (h : Inv r phase) {q : Nat} (hq : (phase q).active)
    (hok : r.ClaimOk pc) : (r.publish q).ClaimOk pc := by
  cases pc with
  | load => trivial
  | test p => exact hok
  | exchange p =>
    have := h.ready_free (p := q)
    simp only [Ring.ClaimOk, Ready] at hok ⊢
    grind

theorem Ring.ClaimOk.take (hok : r.ClaimOk pc) : r.take.ClaimOk pc := by
  cases pc <;> exact hok

theorem Ring.ClaimOk.release (h : Inv r phase) {q : Nat} (hq : (phase q).active)
    (hok : r.ClaimOk pc) : (r.release q).ClaimOk pc := by
  cases pc with
  | load => trivial
  | test p => exact hok
  | exchange p =>
    have := h.ready_free (p := q)
    simp only [Ring.ClaimOk, Ready] at hok ⊢
    grind

theorem Ring.TakeOk.claim (hok : r.TakeOk pc) : r.claim.TakeOk pc := by
  cases pc <;> exact hok

theorem Ring.TakeOk.take (hok : r.TakeOk pc) : r.take.TakeOk pc := by
  cases pc with
  | load => trivial
  | test p => exact Nat.le_succ_of_le hok
  | exchange p =>
    simp only [Ring.TakeOk, Filled, Ring.take_deq] at hok ⊢
    omega

/-- The cell of a filled position is left alone by whoever uses another position. -/
theorem Inv.filled_index_ne (h : Inv r phase) (hseq : r.seq (r.index r.deq) = r.deq + 1)
    {q : Nat} (hq : (phase q).active) (hpub : phase q ≠ .published) :
    r.index r.deq ≠ r.index q := by
  intro heq
  have hfilled := h.filled_published hseq
  have := h.active_unique (by simp [hfilled, Phase.active]) hq heq
  exact hpub (this ▸ hfilled)

theorem Ring.TakeOk.publish (h : Inv r phase) {q : Nat} (hq : phase q = .claimed)
    (hok : r.TakeOk pc) : (r.publish q).TakeOk pc := by
  cases pc with
  | load => trivial
  | test p => exact hok
  | exchange p =>
    have hne := fun hseq => h.filled_index_ne hseq (q := q) (by simp [hq, Phase.active])
      (by simp [hq])
    simp only [Ring.TakeOk, Filled] at hok ⊢
    grind

theorem Ring.TakeOk.release (h : Inv r phase) {q : Nat} (hq : phase q = .taken)
    (hok : r.TakeOk pc) : (r.release q).TakeOk pc := by
  cases pc with
  | load => trivial
  | test p => exact hok
  | exchange p =>
    have hne := fun hseq => h.filled_index_ne hseq (q := q) (by simp [hq, Phase.active])
      (by simp [hq])
    simp only [Ring.TakeOk, Filled] at hok ⊢
    grind

end Loops

/-! ## The claiming loop run alone -/

/-- Run the claiming loop while nobody else moves; each element of the list says whether
    the compare-and-set of that step, if it has one, fails spuriously. `none` when the loop
    has not come to an end yet. -/
def Ring.claimAlone (r : Ring) : List Bool → LoopPc → Option LoopResult
  | [], _ => none
  | spurious :: rest, pc =>
    match r.claimStep spurious pc with
    | .running pc' => r.claimAlone rest pc'
    | result => some result

/-- The program points of a claiming loop that nobody disturbs. -/
def Ring.Undisturbed (r : Ring) : LoopPc → Prop
  | .load => True
  | .test p => p = r.enq
  | .exchange p => p = r.enq ∧ r.seq (r.index r.enq) = r.enq

/-- Undisturbed, the loop claims the next position if its cell is ready and gives up if its
    cell lags behind. -/
theorem Ring.Undisturbed.result (hle : r.seq (r.index r.enq) ≤ r.enq) {spurious : List Bool}
    {l : LoopPc} {result : LoopResult} (hl : r.Undisturbed l)
    (hrun : r.claimAlone spurious l = some result) :
    result = .got r.enq ∧ r.seq (r.index r.enq) = r.enq ∨
      result = .none ∧ r.seq (r.index r.enq) ≠ r.enq := by
  induction spurious generalizing l with
  | nil => cases hrun
  | cons sp rest ih =>
    cases l with
    | load => exact ih (l := .test r.enq) rfl hrun
    | test p =>
      cases hl
      simp only [Ring.claimAlone, Ring.claimStep] at hrun
      split_ifs at hrun with hdiff hneg
      · exact ih (l := .exchange r.enq) ⟨rfl, by omega⟩ hrun
      · cases hrun
        exact .inr ⟨rfl, by omega⟩
      · omega
    | exchange p =>
      obtain ⟨rfl, hready⟩ := hl
      simp only [Ring.claimAlone, Ring.claimStep] at hrun
      split_ifs at hrun with hcas
      · cases hrun
        exact .inl ⟨rfl, hready⟩
      · exact ih (l := .test r.enq) rfl hrun

/-- The cell of the next position to claim is ready or lags behind; it is never ahead. -/
theorem Inv.seq_enq_le (h : Inv r phase) : r.seq (r.index r.enq) ≤ r.enq := by
  by_cases hready : r.seq (r.index r.enq) = r.enq
  · exact Nat.le_of_eq hready
  · obtain ⟨p, hp, hact⟩ := h.blocked hready
    have hidx : r.index p = r.index r.enq := by
      rw [Ring.index_eq_mod h.pow, Ring.index_eq_mod h.pow, ← hp, Nat.add_mod_right]
    have := h.two_le
    rcases h.seq_active hact with hs | hs <;> rw [hidx] at hs <;> omega

/-- The sequence word of the cell of a position lags behind the position and runs ahead of the
    positions that have been claimed by one lap at most. -/
theorem Inv.seq_bounds (h : Inv r phase) {p : Nat} (hp : p ≤ r.enq) :
    p ≤ r.seq (r.index p) + r.capacity ∧ r.seq (r.index p) ≤ r.enq + r.capacity := by
  rcases Nat.lt_or_eq_of_le hp with hlt | rfl
  · obtain ⟨q, hidx, hq, hqlt, hlast⟩ := h.exists_latest hlt
    rw [← hidx]
    cases hph : phase q with
    | unclaimed => exact absurd ((h.unclaimed _).mp hph) (by omega)
    | released =>
      have := h.seq_released _ hph hlast
      omega
    | claimed | published | taken =>
      have := h.seq_active (p := q) (by rw [hph]; rfl)
      omega
  · have hle := h.seq_enq_le
    refine ⟨?_, by omega⟩
    by_cases hready : r.seq (r.index r.enq) = r.enq
    · omega
    · -- The cell is one lap behind
      obtain ⟨p, hlap, hact⟩ := h.blocked hready
      have hidx : r.index p = r.index r.enq := by
        rw [Ring.index_eq_mod h.pow, Ring.index_eq_mod h.pow, ← hlap, Nat.add_mod_right]
      have := h.seq_active hact
      rw [hidx] at this
      omega

/-- A freshly loaded position is tested once: the exchange succeeds or the loop gives up. -/
theorem Inv.claimAlone_test (h : Inv r phase) (rest : List Bool) :
    ∃ result, r.claimAlone (false :: false :: rest) (.test r.enq) = some result := by
  have hle := h.seq_enq_le
  simp only [Ring.claimAlone, Ring.claimStep]
  split_ifs with hdiff hneg
  · exact ⟨.got r.enq, by simp⟩
  · exact ⟨.none, rfl⟩
  · -- A sequence word ahead of the counter would send the loop back to its load
    omega

theorem Inv.claimAlone_load (h : Inv r phase) (rest : List Bool) :
    ∃ result, r.claimAlone (false :: false :: false :: rest) .load = some result :=
  h.claimAlone_test rest

theorem Inv.claimAlone_exchange (h : Inv r phase) (p : Nat) (rest : List Bool) :
    ∃ result, r.claimAlone (false :: false :: false :: rest) (.exchange p) = some result := by
  by_cases hp : r.enq = p
  · exact ⟨.got p, by simp [Ring.claimAlone, Ring.claimStep, hp]⟩
  · obtain ⟨result, hresult⟩ := h.claimAlone_test rest
    exact ⟨result, by simpa [Ring.claimAlone, Ring.claimStep, hp] using hresult⟩

/-- Run alone and without spurious failures, the claiming loop comes to an end within four
    accesses, whatever position it holds. -/
theorem Inv.claimAlone_returns (h : Inv r phase) (pc : LoopPc) :
    ∃ result, r.claimAlone (List.replicate 4 false) pc = some result := by
  cases pc with
  | load => exact h.claimAlone_load [false]
  | exchange p => exact h.claimAlone_exchange p [false]
  | test p =>
    simp only [List.replicate, Ring.claimAlone, Ring.claimStep]
    split_ifs with hdiff hneg
    · exact h.claimAlone_exchange p []
    · exact ⟨.none, rfl⟩
    · exact h.claimAlone_load []

/-! ## The taking loop run alone -/

/-- Run the taking loop while nobody else moves. -/
def Ring.takeAlone (r : Ring) : List Bool → LoopPc → Option LoopResult
  | [], _ => none
  | spurious :: rest, pc =>
    match r.takeStep spurious pc with
    | .running pc' => r.takeAlone rest pc'
    | result => some result

/-- The cell of the next position to take is filled or lags behind; it is never ahead. -/
theorem Inv.seq_deq_le (h : Inv r phase) : r.seq (r.index r.deq) ≤ r.deq + 1 := by
  rcases Nat.lt_or_eq_of_le h.deq_le with hlt | heq
  · cases hph : phase r.deq with
    | unclaimed => exact absurd ((h.unclaimed _).mp hph) (by omega)
    | claimed => exact Nat.le_succ_of_le (Nat.le_of_eq (h.seq_claimed _ hph))
    | published => exact Nat.le_of_eq (h.seq_full _ (.inl hph))
    | taken => exact absurd (h.delivered _ (.inl hph)) (Nat.lt_irrefl _)
    | released => exact absurd (h.delivered _ (.inr hph)) (Nat.lt_irrefl _)
  · -- Everything claimed has been taken: the cell is that of the next position to claim
    rw [heq]
    exact Nat.le_succ_of_le h.seq_enq_le

/-- A freshly loaded position is tested once. -/
theorem Inv.takeAlone_test (h : Inv r phase) (rest : List Bool) :
    ∃ result, r.takeAlone (false :: false :: rest) (.test r.deq) = some result := by
  have hle := h.seq_deq_le
  simp only [Ring.takeAlone, Ring.takeStep]
  split_ifs with hdiff hneg
  · exact ⟨.got r.deq, by simp⟩
  · exact ⟨.none, rfl⟩
  · omega

theorem Inv.takeAlone_load (h : Inv r phase) (rest : List Bool) :
    ∃ result, r.takeAlone (false :: false :: false :: rest) .load = some result :=
  h.takeAlone_test rest

theorem Inv.takeAlone_exchange (h : Inv r phase) (p : Nat) (rest : List Bool) :
    ∃ result, r.takeAlone (false :: false :: false :: rest) (.exchange p) = some result := by
  by_cases hp : r.deq = p
  · exact ⟨.got p, by simp [Ring.takeAlone, Ring.takeStep, hp]⟩
  · obtain ⟨result, hresult⟩ := h.takeAlone_test rest
    exact ⟨result, by simpa [Ring.takeAlone, Ring.takeStep, hp] using hresult⟩

/-- Run alone and without spurious failures, the taking loop comes to an end within four
    accesses, whatever position it holds. -/
theorem Inv.takeAlone_returns (h : Inv r phase) (pc : LoopPc) :
    ∃ result, r.takeAlone (List.replicate 4 false) pc = some result := by
  cases pc with
  | load => exact h.takeAlone_load [false]
  | exchange p => exact h.takeAlone_exchange p [false]
  | test p =>
    simp only [List.replicate, Ring.takeAlone, Ring.takeStep]
    split_ifs with hdiff hneg
    · exact h.takeAlone_exchange p []
    · exact ⟨.none, rfl⟩
    · exact h.takeAlone_load []

/-! ## How far a loop still has to go -/

/-- The accesses that are left to the claiming loop while nobody else moves. -/
def Ring.claimRank (r : Ring) : LoopPc → Nat
  | .load => 3
  | .test p => if p = r.enq then 2 else 4
  | .exchange p => if p = r.enq then 1 else 3

/-- The accesses that are left to the taking loop while nobody else moves. -/
def Ring.takeRank (r : Ring) : LoopPc → Nat
  | .load => 3
  | .test p => if p = r.deq then 2 else 4
  | .exchange p => if p = r.deq then 1 else 3

theorem Ring.claimRank_bounds (r : Ring) (pc : LoopPc) :
    0 < r.claimRank pc ∧ r.claimRank pc ≤ 4 := by
  cases pc <;> simp only [claimRank] <;> (try split_ifs) <;> decide

theorem Ring.takeRank_bounds (r : Ring) (pc : LoopPc) :
    0 < r.takeRank pc ∧ r.takeRank pc ≤ 4 := by
  cases pc <;> simp only [takeRank] <;> (try split_ifs) <;> decide

/-- Every pass of the claiming loop brings it closer to its end: only a position that has been
    overtaken is given up, and the one that is loaded instead has not been. -/
theorem Inv.claimRank_lt (h : Inv r phase) {pc pc' : LoopPc}
    (hstep : r.claimStep false pc = .running pc') : r.claimRank pc' < r.claimRank pc := by
  have hle := h.seq_enq_le
  cases pc with
  | load =>
    cases hstep
    simp [Ring.claimRank]
  | test p =>
    simp only [Ring.claimStep] at hstep
    split_ifs at hstep with hdiff hneg
    · cases hstep
      simp only [Ring.claimRank]
      split_ifs <;> omega
    · cases hstep
      have hne : p ≠ r.enq := by
        rintro rfl
        omega
      simp [Ring.claimRank, hne]
  | exchange p =>
    simp only [Ring.claimStep] at hstep
    split_ifs at hstep with hcas
    cases hstep
    have hne : p ≠ r.enq := fun heq => hcas ⟨heq.symm, rfl⟩
    simp [Ring.claimRank, hne]

/-- Every pass of the taking loop brings it closer to its end. -/
theorem Inv.takeRank_lt (h : Inv r phase) {pc pc' : LoopPc}
    (hstep : r.takeStep false pc = .running pc') : r.takeRank pc' < r.takeRank pc := by
  have hle := h.seq_deq_le
  cases pc with
  | load =>
    cases hstep
    simp [Ring.takeRank]
  | test p =>
    simp only [Ring.takeStep] at hstep
    split_ifs at hstep with hdiff hneg
    · cases hstep
      simp only [Ring.takeRank]
      split_ifs <;> omega
    · cases hstep
      have hne : p ≠ r.deq := by
        rintro rfl
        omega
      simp [Ring.takeRank, hne]
  | exchange p =>
    simp only [Ring.takeStep] at hstep
    split_ifs at hstep with hcas
    cases hstep
    have hne : p ≠ r.deq := fun heq => hcas ⟨heq.symm, rfl⟩
    simp [Ring.takeRank, hne]

/-! ## Refusals -/

/-- Run alone from its start, the claiming loop gives up only when the position one lap
    before the next one is still in use. -/
theorem Inv.claimAlone_none (h : Inv r phase) {spurious : List Bool}
    (hrun : r.claimAlone spurious .load = some .none) :
    ∃ p, p + r.capacity = r.enq ∧ (phase p).active := by
  rcases Ring.Undisturbed.result h.seq_enq_le (l := .load) trivial hrun with ⟨hgot, _⟩ | ⟨_, hne⟩
  · cases hgot
  · exact h.blocked hne

end SeqRing
