import EndpointSecurity.Spec.QueueFifo

/-!
# When the slot queue refuses an event

`esrb_queue_enqueue` looks at one slot only, the one that the next position lands in. Slots
are given back by explicit releases in any order, so a refusal means that this one slot is
still in use, not that all of them are.

## Key results

- `enqueue_refused`: a refusal means that the claim one lap back is not released, and that
  all slots are in use if they have been released in order
- `enqueue_refused_one_held`: a refusal with one slot of two in use
-/

namespace EndpointSecurity.QueueThreads

open FifoLog (phaseOf)
open TransitionSystem (Reachable)

/-- `esrb_queue_enqueue` run without interference; the list says which exchanges fail
    spuriously, and `none` means that the call has not returned yet. -/
def enqueueAlone (q : Queue) (spurious : List Bool) : Option SeqRing.LoopResult :=
  q.ring.claimAlone spurious .load

/-- The number of slots that are claimed and not yet released. -/
def State.slotsInUse (s : State) : Nat :=
  ((List.range s.queue.enqueuePosition).filter fun p => (phaseOf s.log p).active).length

variable {s : State}

/-- Positions in use lie within the last lap. -/
theorem Inv.slotsInUse_eq (h : Inv s) {first : Nat}
    (hfirst : first + s.queue.capacity = s.queue.enqueuePosition)
    (hall : ∀ p, first ≤ p → p < s.queue.enqueuePosition → (phaseOf s.log p).active) :
    s.slotsInUse = s.queue.capacity := by
  have hsplit : (List.range s.queue.enqueuePosition).filter (fun p => (phaseOf s.log p).active) =
      (List.range s.queue.capacity).map (first + ·) := by
    rw [← hfirst, List.range_add, List.filter_append]
    have hbelow : (List.range first).filter (fun p => (phaseOf s.log p).active) = [] := by
      rw [List.filter_eq_nil_iff]
      intro p hp hact
      have := h.queue.ring.fits p hact
      simp only [Queue.ring_enq, Queue.ring_capacity] at this
      have := List.mem_range.mp hp
      omega
    have hlap : ((List.range s.queue.capacity).map (first + ·)).filter
        (fun p => (phaseOf s.log p).active) = (List.range s.queue.capacity).map (first + ·) := by
      rw [List.filter_eq_self]
      intro p hp
      obtain ⟨i, hi, rfl⟩ := List.mem_map.mp hp
      exact hall _ (Nat.le_add_right ..) (by have := List.mem_range.mp hi; omega)
    rw [hbelow, hlap, List.nil_append]
  rw [State.slotsInUse, hsplit, List.length_map, List.length_range]

/-- If `esrb_queue_enqueue`, run without interference, returns `NULL`, then the slot claimed
    `capacity` positions before the next one is still claimed and not released; and if slots
    have only been released in the order in which they were claimed, then `capacity` slots are
    claimed and not released. -/
theorem enqueue_refused {c : Capacity} {spurious : List Bool}
    (hs : Reachable step (.init c) s)
    (hnull : enqueueAlone s.queue spurious = some .none) :
    (∃ p, p + s.queue.capacity = s.queue.enqueuePosition ∧ (phaseOf s.log p).active) ∧
    ((∀ p r, p < r → phaseOf s.log r = .released → phaseOf s.log p = .released) →
      s.slotsInUse = s.queue.capacity) := by
  have h := reachable_inv hs
  obtain ⟨p, hp, hact⟩ := h.queue.ring.claimAlone_none hnull
  refine ⟨⟨p, hp, hact⟩, fun horder => h.slotsInUse_eq hp fun r hpr hr => ?_⟩
  by_contra hnot
  have hrel := h.queue.ring.released_of_not_active hr hnot
  rcases Nat.lt_or_eq_of_le hpr with hlt | rfl
  · rw [horder p r hlt hrel] at hact
    cases hact
  · exact hnot hact

/-- Two events are queued and delivered; the second is released, the first retained. -/
def retainFirst : List Action :=
  produce 0 ⟨7, 1, 30⟩ ++ produce 1 ⟨8, 1, 20⟩ ++ consume 0 ++ consume 1 ++
    List.replicate 3 (Action.consumer 1 false)

/-- With the first of two slots retained and the second released, `esrb_queue_enqueue` run
    alone returns `NULL` although only one slot is in use. -/
theorem enqueue_refused_one_held :
    ¬ ∀ (c : Capacity) (s : State) (spurious : List Bool), Reachable step (.init c) s →
      enqueueAlone s.queue spurious = some .none → s.slotsInUse = s.queue.capacity := by
  intro hall
  have := hall twoSlots (TransitionSystem.final step retainFirst (.init twoSlots) (by decide))
    [false, false] (.final _) (by decide)
  revert this
  decide

/-- With both slots of two held, the refusal is due to all of them. -/
theorem enqueue_refused_both_held :
    let s := TransitionSystem.final step (produce 0 ⟨7, 1, 30⟩ ++ produce 1 ⟨8, 1, 20⟩)
      (.init twoSlots) (by decide)
    s.slotsInUse = 2 := by
  intro s
  have hnull : enqueueAlone s.queue [false, false] = some .none := by decide
  refine (enqueue_refused (c := twoSlots) (.final _) hnull).2 ?_
  have hlog : s.log =
      [.publish 1 1 ⟨8, 1, 20⟩, .claim 1 1, .publish 0 0 ⟨7, 1, 30⟩, .claim 0 0] := by
    decide
  intro p r _ hreleased
  rw [hlog] at hreleased
  grind [phaseOf]

end EndpointSecurity.QueueThreads
