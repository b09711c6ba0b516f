import EndpointSecurity.Native.Queue

/-!
# The watchdog's request ring and heap (`watchdog.c`)

The callbacks arm an AUTH message by publishing a request in a bounded ring; the watchdog
thread pops the requests and keeps them in a binary heap ordered by the time at which they
are due. This file has the two data structures, the single shared-memory accesses of the
ring and the functions on the heap, which the watchdog thread alone uses.

A slot pointer stored in an entry is represented by the index of the slot it points to.
-/

namespace EndpointSecurity

open SeqRing (Ring LoopPc LoopResult)

/-- `esrb_watchdog_entry_t`. -/
structure Entry where
  slot : Nat
  position : Nat
  fireAt : Nat
  /-- The message whose callback has armed the entry; no step reads it. -/
  message : Nat
  deriving DecidableEq, Repr

/-! ## The request ring -/

/-- `esrb_watchdog_request_t`. -/
structure Request where
  sequence : Nat
  entry : Entry := ⟨0, 0, 0, 0⟩
  deriving DecidableEq, Repr

/-- The part of `esrb_watchdog_t` through which requests are passed on. -/
structure Requests where
  capacity : Nat
  requests : Nat → Request
  enqueuePosition : Nat
  dequeuePosition : Nat

namespace Requests

/-- `esrb_watchdog_init`, once the memory is allocated. -/
def init (c : Capacity) : Requests where
  capacity := c.val
  requests index := { sequence := index }
  enqueuePosition := 0
  dequeuePosition := 0

/-- The index of the request for a position, `position & mask`. -/
def index (r : Requests) (position : Nat) : Nat := position &&& (r.capacity - 1)

def request (r : Requests) (position : Nat) : Request := r.requests (r.index position)

/-- The words of the ring that arming and popping race on. -/
def ring (r : Requests) : Ring where
  capacity := r.capacity
  enq := r.enqueuePosition
  deq := r.dequeuePosition
  seq i := (r.requests i).sequence

/-- One step of the loop of `esrb_watchdog_arm`. -/
def arm (r : Requests) (spurious : Bool) (pc : LoopPc) : LoopResult := r.ring.claimStep spurious pc

/-- The exchange of `esrb_watchdog_arm` has succeeded on `position`. -/
def advanceEnqueue (r : Requests) (position : Nat) : Requests :=
  { r with enqueuePosition := position + 1 }

/-- The stores with which `esrb_watchdog_arm` ends: the fields, then the sequence word. -/
def publish (r : Requests) (position : Nat) (entry : Entry) : Requests :=
  { r with requests :=
      Function.update r.requests (r.index position) { sequence := position + 1, entry } }

/-- The test of `request_pop`. -/
def ready (r : Requests) (position : Nat) : Bool := (r.request position).sequence == position + 1

/-- The store to the dequeue position in `request_pop`. -/
def advanceDequeue (r : Requests) (position : Nat) : Requests :=
  { r with dequeuePosition := position + 1 }

/-- The last store of `request_pop`. -/
def release (r : Requests) (position : Nat) : Requests :=
  let request := { r.request position with sequence := position + r.capacity }
  { r with requests := Function.update r.requests (r.index position) request }

section
variable (r : Requests) (p : Nat) (e : Entry)

@[simp] theorem ring_enq : r.ring.enq = r.enqueuePosition := rfl
@[simp] theorem ring_deq : r.ring.deq = r.dequeuePosition := rfl

theorem ring_advanceEnqueue : (r.advanceEnqueue r.enqueuePosition).ring = r.ring.claim := rfl
theorem ring_advanceDequeue : (r.advanceDequeue r.dequeuePosition).ring = r.ring.take := rfl

/-- Writing a request. -/
theorem ring_update (i : Nat) (q : Request) :
    ({ r with requests := Function.update r.requests i q } : Requests).ring =
      { r.ring with seq := Function.update r.ring.seq i q.sequence } := by
  simp only [ring]
  congr 1
  funext j
  rw [Function.update_apply, Function.update_apply]
  split_ifs <;> rfl

theorem ring_publish : (r.publish p e).ring = r.ring.publish p := r.ring_update ..
theorem ring_release : (r.release p).ring = r.ring.release p := r.ring_update ..

end
end Requests

/-! ## The heap -/

/-- The part of `esrb_watchdog_t` that the watchdog thread owns, and the field
    `watchdog_index` of every slot. -/
structure Heap where
  capacity : Nat
  size : Nat
  entries : Nat → Entry
  watchdogIndex : Nat → Nat

namespace Heap

/-- `SIZE_MAX`, the `watchdog_index` of a slot that is not in the heap. -/
def sizeMax : Nat := 2 ^ 64 - 1

/-- `esrb_watchdog_init` and `esrb_queue_init`. -/
def init (c : Capacity) : Heap where
  capacity := c.val
  size := 0
  entries _ := ⟨0, 0, 0, 0⟩
  watchdogIndex _ := sizeMax

/-- Write an entry and its slot's `watchdog_index`. -/
def place (h : Heap) (index : Nat) (entry : Entry) : Heap :=
  { h with
    entries := Function.update h.entries index entry
    watchdogIndex := Function.update h.watchdogIndex entry.slot index }

/-- `heap_swap`. -/
def swap (h : Heap) (left right : Nat) : Heap :=
  (h.place left (h.entries right)).place right (h.entries left)

/-- The loop of `heap_up`; `fuel` bounds the number of its passes. -/
def upLoop : Nat → Heap → Nat → Heap
  | 0, h, _ => h
  | fuel + 1, h, index =>
    if index > 0 then
      let parent := (index - 1) / 2
      if (h.entries parent).fireAt ≤ (h.entries index).fireAt then h
      else upLoop fuel (h.swap parent index) parent
    else h

/-- `heap_up`. Every pass at least halves the index. -/
def up (h : Heap) (index : Nat) : Heap := upLoop index h index

/-- The child that `heap_down` compares the entry at `index` with. -/
def smallest (h : Heap) (index : Nat) : Nat :=
  let left := index * 2 + 1
  let right := left + 1
  if right < h.size ∧ (h.entries right).fireAt < (h.entries left).fireAt then right else left

/-- The loop of `heap_down`; `fuel` bounds the number of its passes. -/
def downLoop : Nat → Heap → Nat → Heap
  | 0, h, _ => h
  | fuel + 1, h, index =>
    if index * 2 + 1 ≥ h.size then h
    else
      let child := h.smallest index
      if (h.entries index).fireAt ≤ (h.entries child).fireAt then h
      else downLoop fuel (h.swap index child) child

/-- `heap_down`. Every pass increases the index, which stays below the size. -/
def down (h : Heap) (index : Nat) : Heap := downLoop (h.size - index) h index

/-- `heap_remove`. -/
def remove (h : Heap) (index : Nat) : Heap :=
  let removed := (h.entries index).slot
  let size := h.size - 1
  let h := { h with size, watchdogIndex := Function.update h.watchdogIndex removed sizeMax }
  if index = size then h
  else
    let moved := h.entries size
    let h := (h.place index moved).up index
    h.down (h.watchdogIndex moved.slot)

/-- The test with which `heap_set` finds out whether a slot is in the heap. -/
def contains (h : Heap) (slot : Nat) : Bool :=
  !(h.watchdogIndex slot ≥ h.size || (h.entries (h.watchdogIndex slot)).slot != slot)

/-- `heap_set`. -/
def set (h : Heap) (request : Entry) : Heap :=
  let sift (h : Heap) (index : Nat) : Heap :=
    let h := { h with entries := Function.update h.entries index request }.up index
    h.down (h.watchdogIndex request.slot)
  if h.contains request.slot then sift h (h.watchdogIndex request.slot)
  else if h.size ≥ h.capacity then h
  else
    sift { h with
      size := h.size + 1
      watchdogIndex := Function.update h.watchdogIndex request.slot h.size } h.size

end Heap

/-! ## One pass of the watchdog -/

/-- The first loop of a pass of `esrb_watchdog_main`, which sets the entries that `request_pop`
    gives it; `none` when `passes` passes are not enough. -/
def popRequests : Nat → Requests → Heap → Option (Requests × Heap)
  | 0, _, _ => none
  | passes + 1, r, h =>
    let position := r.dequeuePosition
    if r.ready position then
      popRequests passes ((r.advanceDequeue position).release position)
        (h.set (r.request position).entry)
    else some (r, h)

/-- The second loop, which hands entries to `answer_due`, each with the clock reading that it is
    due by; `clock n` is the `n`-th reading. -/
def answerEntries (clock : Nat → Nat) : Nat → Nat → Heap → Option (List (Entry × Nat) × Heap)
  | 0, _, _ => none
  | passes + 1, n, h =>
    let top := h.entries 0
    if h.size > 0 ∧ top.fireAt ≤ clock n then
      (answerEntries clock passes (n + 1) (h.remove 0)).map fun (handed, h) =>
        ((top, clock n) :: handed, h)
    else some ([], h)

/-- A pass of `esrb_watchdog_main`, up to its wait: the entries handed to `answer_due`, and what
    it leaves behind. -/
def watchdogPass (clock : Nat → Nat) (passes : Nat) (r : Requests) (h : Heap) :
    Option (List (Entry × Nat) × Requests × Heap) := do
  let (r, h) ← popRequests passes r h
  let (handed, h) ← answerEntries clock passes 0 h
  return (handed, r, h)

end EndpointSecurity
