import EndpointSecurity.ForStd.SeqRing
import Mathlib.Algebra.Group.Nat.Defs

/-!
# The slot queue (`queue.c`)

`esrb_queue_t` is a ring of slots between the Endpoint Security callbacks, which enqueue, and
the Ruby dispatcher, which dequeues and much later releases. This file has its data, the
single shared-memory accesses of its functions, and its two retry loops.

A C slot pointer is represented by the queue position it was obtained for: `slot q p` is the
slot that the pointer points to. The position counters are `size_t` and advance once per
event; they are natural numbers here, and every `size_t` difference of two of them is taken
modulo `2 ^ 64`. The retry loops compare a position with a sequence word by the sign of an
`intptr_t` difference. By `Queue.difference_eq` that is the one of the natural numbers, unless
`2 ^ 62` positions are claimed between the load of the position and its test.
-/

namespace EndpointSecurity

open SeqRing (Ring LoopPc LoopResult)

/-- Subtraction of `size_t` values. -/
def sizeSub (a b : Nat) : Nat := (a % 2 ^ 64 + 2 ^ 64 - b % 2 ^ 64) % 2 ^ 64

theorem sizeSub_eq {a b : Nat} (hle : b ≤ a) (hlt : a - b < 2 ^ 64) : sizeSub a b = a - b := by
  simp only [sizeSub]
  omega

/-- `(intptr_t)a - (intptr_t)b` of `size_t` values. -/
def intptrSub (a b : Nat) : Int :=
  (((a % 2 ^ 64 : Nat) : Int) - ((b % 2 ^ 64 : Nat) : Int)).bmod (2 ^ 64)

theorem intptrSub_eq {a b : Nat} (hlt : a < b + 2 ^ 63) (hle : b ≤ a + 2 ^ 63) :
    intptrSub a b = (a : Int) - b := by
  have hmod : intptrSub a b = ((a : Int) - b).bmod (2 ^ 64) := by
    rw [intptrSub, Int.natCast_emod, Int.natCast_emod, Int.emod_sub_bmod, Int.sub_emod_bmod]
  rw [hmod]
  apply Int.bmod_eq_of_le <;> omega

/-- The `ESRB_ANSWER_*` constants. -/
inductive AnswerState where
  | pending | answered | notAuth
  deriving DecidableEq, Repr

/-- `esrb_slot_t`. Messages and native clients are numbered; `calloc` leaves zeroes, which
    nobody reads. The field `watchdog_index` belongs to the watchdog thread alone and is kept
    with its heap. -/
structure Slot where
  sequence : Nat
  occupied : Bool := false
  message : Nat := 0
  client : Nat := 0
  position : Nat := 0
  fireAt : Nat := 0
  answerState : AnswerState := .notAuth
  readers : Nat := 0
  deriving DecidableEq, Repr

/-- `esrb_queue_t`. -/
structure Queue where
  capacity : Nat
  slots : Nat → Slot
  enqueuePosition : Nat
  dequeuePosition : Nat
  depthMax : Nat

/-- The capacities that `esrb_queue_init` accepts. -/
structure Capacity where
  val : Nat
  lt_size : val < 2 ^ 64
  two_le : 2 ≤ val
  pow : val.isPowerOfTwo

/-- The check of `esrb_queue_init`: reject anything below two or with more than one bit. -/
def Capacity.check (capacity : Nat) : Bool :=
  !(capacity < 2 || (capacity &&& (capacity - 1)) != 0)

/-- The check lets exactly the powers of two from two on pass. -/
theorem Capacity.check_iff (capacity : Nat) :
    check capacity ↔ 2 ≤ capacity ∧ capacity.isPowerOfTwo := by
  rcases Nat.lt_or_ge capacity 2 with hlt | hge
  · simp only [check, hlt, decide_true, Bool.true_or, Bool.not_true, Bool.false_eq_true, false_iff,
      not_and]
    omega
  · simp [check, Nat.not_lt.mpr hge, hge,
      Nat.and_sub_one_eq_zero_iff_isPowerOfTwo (n := capacity) (by omega)]

theorem Capacity.two_lt_size : 2 < 2 ^ 64 := by decide

theorem Capacity.two_le_two : 2 ≤ 2 := Nat.le_refl 2

theorem Capacity.two_pow : (2).isPowerOfTwo := ⟨1, rfl⟩

namespace Queue

/-- `esrb_queue_init`, once the capacity is accepted and the slots are allocated. -/
def init (c : Capacity) : Queue where
  capacity := c.val
  slots index := { sequence := index }
  enqueuePosition := 0
  dequeuePosition := 0
  depthMax := 0

/-- The field `mask`. -/
def mask (q : Queue) : Nat := q.capacity - 1

/-- The index of the slot for a position. -/
def index (q : Queue) (position : Nat) : Nat := position &&& q.mask

/-- What the slot pointer obtained for `position` points to. -/
def slot (q : Queue) (position : Nat) : Slot := q.slots (q.index position)

/-- Write to the slot with index `i`. -/
def modify (q : Queue) (i : Nat) (f : Slot → Slot) : Queue :=
  { q with slots := Function.update q.slots i (f (q.slots i)) }

/-- The words of the queue that its two loops race on. -/
def ring (q : Queue) : Ring where
  capacity := q.capacity
  enq := q.enqueuePosition
  deq := q.dequeuePosition
  seq i := (q.slots i).sequence

/-! ## The accesses of the queue functions -/

/-- One step of the loop of `esrb_queue_enqueue`. -/
def enqueue (q : Queue) (spurious : Bool) (pc : LoopPc) : LoopResult := q.ring.claimStep spurious pc

/-- One step of the loop of `esrb_queue_dequeue`. -/
def dequeue (q : Queue) (spurious : Bool) (pc : LoopPc) : LoopResult := q.ring.takeStep spurious pc

/-- The exchange of `esrb_queue_enqueue` has succeeded on `position`. -/
def advanceEnqueue (q : Queue) (position : Nat) : Queue :=
  { q with enqueuePosition := position + 1 }

/-- The exchange of `esrb_queue_dequeue` has succeeded on `position`. -/
def advanceDequeue (q : Queue) (position : Nat) : Queue :=
  { q with dequeuePosition := position + 1 }

/-- `slot->position = position`, the last statement of `esrb_queue_enqueue`. -/
def storePosition (q : Queue) (position : Nat) : Queue :=
  q.modify (q.index position) fun s => { s with position }

/-- The depth that `esrb_queue_publish` computes from the loaded dequeue position. -/
def publishDepth (q : Queue) (position dequeued : Nat) : Nat :=
  sizeSub ((q.slot position).position + 1) dequeued

/-- The exchange of `esrb_queue_publish` that raises `depth_max`. -/
def storeDepthMax (q : Queue) (depth : Nat) : Queue := { q with depthMax := depth }

/-- The last store of `esrb_queue_publish`. -/
def storePublished (q : Queue) (position : Nat) : Queue :=
  q.modify (q.index position) fun s => { s with sequence := s.position + 1 }

/-- A store to `slot->occupied`. -/
def storeOccupied (q : Queue) (position : Nat) (occupied : Bool) : Queue :=
  q.modify (q.index position) fun s => { s with occupied }

/-- The last store of `esrb_queue_release`. -/
def storeReleased (q : Queue) (position : Nat) : Queue :=
  q.modify (q.index position) fun s => { s with sequence := s.position + q.capacity }

/-- The plain stores of a producer between its claim and its publication. -/
def storeFields (q : Queue) (position message client fireAt : Nat) : Queue :=
  q.modify (q.index position) fun s => { s with message, client, fireAt }

/-- A store to `slot->answer_state`. -/
def storeAnswerState (q : Queue) (i : Nat) (answerState : AnswerState) : Queue :=
  q.modify i fun s => { s with answerState }

/-- A store to `slot->readers`. -/
def storeReaders (q : Queue) (i readers : Nat) : Queue :=
  q.modify i fun s => { s with readers }

/-- `esrb_queue_depth` from its two loads. -/
def depth (enqueued dequeued : Nat) : Nat := sizeSub enqueued dequeued

/-! ## What each access leaves of the queue -/

section
variable (q : Queue) (p i j a b c : Nat) (o : Bool) (s : AnswerState)

/-- Writing to a slot changes no other slot. -/
@[grind =] theorem slots_modify (f : Slot → Slot) :
    (q.modify i f).slots j = if j = i then f (q.slots i) else q.slots j :=
  Function.update_apply ..

/-- Writing through a slot pointer. -/
@[simp] theorem slot_modify_self (f : Slot → Slot) :
    (q.modify (q.index p) f).slot p = f (q.slot p) :=
  Function.update_self ..

/-- A write that leaves a field alone leaves it alone in every slot. -/
theorem field_modify {β : Type _} (field : Slot → β) {f : Slot → Slot}
    (hf : ∀ s, field (f s) = field s) : field ((q.modify i f).slots j) = field (q.slots j) := by
  rw [slots_modify]
  split_ifs with hj
  · rw [hf, hj]
  · rfl

theorem field_slot_modify {β : Type _} (field : Slot → β) {f : Slot → Slot}
    (hf : ∀ s, field (f s) = field s) : field ((q.modify i f).slot p) = field (q.slot p) :=
  q.field_modify i (q.index p) field hf

/-- What each store leaves in the slots. -/
@[grind =] theorem slots_advanceEnqueue : (q.advanceEnqueue p).slots j = q.slots j := rfl
@[grind =] theorem slots_advanceDequeue : (q.advanceDequeue p).slots j = q.slots j := rfl
@[grind =] theorem slots_storeDepthMax : (q.storeDepthMax a).slots j = q.slots j := rfl
@[grind =] theorem slots_storePosition : (q.storePosition p).slots j =
    if j = q.index p then { q.slots j with position := p } else q.slots j := by
  rw [storePosition, slots_modify]
  split_ifs with hj <;> simp [hj]
@[grind =] theorem slots_storePublished : (q.storePublished p).slots j =
    if j = q.index p then { q.slots j with sequence := (q.slots j).position + 1 }
    else q.slots j := by
  rw [storePublished, slots_modify]
  split_ifs with hj <;> simp [hj]
@[grind =] theorem slots_storeOccupied : (q.storeOccupied p o).slots j =
    if j = q.index p then { q.slots j with occupied := o } else q.slots j := by
  rw [storeOccupied, slots_modify]
  split_ifs with hj <;> simp [hj]
@[grind =] theorem slots_storeReleased : (q.storeReleased p).slots j =
    if j = q.index p then { q.slots j with sequence := (q.slots j).position + q.capacity }
    else q.slots j := by
  rw [storeReleased, slots_modify]
  split_ifs with hj <;> simp [hj]
@[grind =] theorem slots_storeFields : (q.storeFields p a b c).slots j =
    if j = q.index p then { q.slots j with message := a, client := b, fireAt := c }
    else q.slots j := by
  rw [storeFields, slots_modify]
  split_ifs with hj <;> simp [hj]
@[grind =] theorem slots_storeAnswerState : (q.storeAnswerState i s).slots j =
    if j = i then { q.slots j with answerState := s } else q.slots j := by
  rw [storeAnswerState, slots_modify]
  split_ifs with hj <;> simp [hj]
@[grind =] theorem slots_storeReaders : (q.storeReaders i a).slots j =
    if j = i then { q.slots j with readers := a } else q.slots j := by
  rw [storeReaders, slots_modify]
  split_ifs with hj <;> simp [hj]

/-- No store moves the slots about. -/
@[simp, grind =] theorem index_advanceEnqueue : (q.advanceEnqueue a).index p = q.index p := rfl
@[simp, grind =] theorem index_advanceDequeue : (q.advanceDequeue a).index p = q.index p := rfl
@[simp, grind =] theorem index_storeDepthMax : (q.storeDepthMax a).index p = q.index p := rfl
@[simp, grind =] theorem index_storePosition : (q.storePosition a).index p = q.index p := rfl
@[simp, grind =] theorem index_storePublished : (q.storePublished a).index p = q.index p := rfl
@[simp, grind =] theorem index_storeOccupied : (q.storeOccupied a o).index p = q.index p := rfl
@[simp, grind =] theorem index_storeReleased : (q.storeReleased a).index p = q.index p := rfl
@[simp, grind =] theorem index_storeFields (d : Nat) :
    (q.storeFields a b c d).index p = q.index p := rfl
@[simp, grind =] theorem index_storeAnswerState :
    (q.storeAnswerState i s).index p = q.index p := rfl
@[simp, grind =] theorem index_storeReaders : (q.storeReaders i a).index p = q.index p := rfl

/-- Two writes to the same slot. -/
theorem modify_modify (f g : Slot → Slot) : (q.modify i f).modify i g = q.modify i (g ∘ f) := by
  simp [modify]

/-- A write that leaves the sequence words alone is not seen by the loops. -/
theorem ring_modify {f : Slot → Slot} (hf : (f (q.slots i)).sequence = (q.slots i).sequence) :
    (q.modify i f).ring = q.ring := by
  have hseq : (fun j => ((q.modify i f).slots j).sequence) = fun j => (q.slots j).sequence := by
    funext j
    rw [slots_modify]
    split_ifs with hj
    · rw [hf, hj]
    · rfl
  simp only [ring, hseq]
  rfl

/-- Writing a sequence word. -/
theorem ring_modify_sequence {f : Slot → Slot} {v : Nat} (hf : (f (q.slots i)).sequence = v) :
    (q.modify i f).ring = { q.ring with seq := Function.update q.ring.seq i v } := by
  have hseq : (fun j => ((q.modify i f).slots j).sequence) =
      Function.update (fun j => (q.slots j).sequence) i v := by
    funext j
    rw [slots_modify, Function.update_apply]
    split_ifs with hj
    · exact hf
    · rfl
  simp only [ring, hseq]
  rfl

@[simp, grind =] theorem ring_capacity : q.ring.capacity = q.capacity := rfl
@[simp, grind =] theorem ring_enq : q.ring.enq = q.enqueuePosition := rfl
@[simp, grind =] theorem ring_deq : q.ring.deq = q.dequeuePosition := rfl
@[simp, grind =] theorem ring_seq : q.ring.seq i = (q.slots i).sequence := rfl
@[simp, grind =] theorem ring_index : q.ring.index p = q.index p := rfl

@[simp] theorem ring_storePosition : (q.storePosition p).ring = q.ring := q.ring_modify _ rfl
@[simp] theorem ring_storeFields : (q.storeFields p a b c).ring = q.ring := q.ring_modify _ rfl
@[simp] theorem ring_storeOccupied : (q.storeOccupied p o).ring = q.ring := q.ring_modify _ rfl
@[simp] theorem ring_storeAnswerState : (q.storeAnswerState i s).ring = q.ring :=
  q.ring_modify _ rfl
@[simp] theorem ring_storeReaders : (q.storeReaders i a).ring = q.ring := q.ring_modify _ rfl
@[simp] theorem ring_storeDepthMax : (q.storeDepthMax a).ring = q.ring := rfl

/-- The queue's enqueue position advances as the ring's does. -/
theorem ring_advanceEnqueue : (q.advanceEnqueue q.enqueuePosition).ring = q.ring.claim := rfl

/-- The queue's dequeue position advances as the ring's does. -/
theorem ring_advanceDequeue : (q.advanceDequeue q.dequeuePosition).ring = q.ring.take := rfl

variable {q p}

/-- Writing to the slot of a position in use leaves the slots of all others in use alone. -/
theorem slot_modify_of_ne {phase : Nat → SeqRing.Phase} {r : Nat} (h : SeqRing.Inv q.ring phase)
    (f : Slot → Slot) (hp : (phase p).active) (hr : (phase r).active) (hne : r ≠ p) :
    (q.modify (q.index p) f).slot r = q.slot r := by
  have hidx : q.index r ≠ q.index p := fun heq => hne (h.active_unique hr hp heq)
  change (q.modify (q.index p) f).slots (q.index r) = _
  rw [slots_modify, if_neg hidx]
  rfl

/-- The differences that the two loops test are those of the natural numbers, also for a position
    that has been loaded some time ago. -/
theorem difference_eq {phase : Nat → SeqRing.Phase} (h : SeqRing.Inv q.ring phase)
    (hcapacity : q.capacity ≤ 2 ^ 62) (hp : p ≤ q.enqueuePosition)
    (hrecent : q.enqueuePosition < p + 2 ^ 62) :
    intptrSub (q.slot p).sequence p = ((q.slot p).sequence : Int) - p ∧
      intptrSub (q.slot p).sequence (p + 1) = ((q.slot p).sequence : Int) - (p + 1 : Nat) := by
  obtain ⟨hbehind, hahead⟩ := h.seq_bounds hp
  have hbehind : p ≤ (q.slot p).sequence + q.capacity := hbehind
  have hahead : (q.slot p).sequence ≤ q.enqueuePosition + q.capacity := hahead
  exact ⟨intptrSub_eq (by omega) (by omega), intptrSub_eq (by omega) (by omega)⟩

/-- The last store of `esrb_queue_publish` publishes the position kept in the slot. -/
theorem ring_storePublished (hpos : (q.slot p).position = p) :
    (q.storePublished p).ring = q.ring.publish p :=
  q.ring_modify_sequence _ (congrArg (· + 1) hpos)

/-- The last store of `esrb_queue_release` releases the position kept in the slot. -/
theorem ring_storeReleased (hpos : (q.slot p).position = p) :
    (q.storeReleased p).ring = q.ring.release p :=
  q.ring_modify_sequence _ (congrArg (· + q.capacity) hpos)

end
end Queue
end EndpointSecurity
