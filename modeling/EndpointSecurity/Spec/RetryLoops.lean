import EndpointSecurity.Spec.ClientTickets
import EndpointSecurity.Spec.QueueFifo

/-!
# The retry loops run alone

The loops of `esrb_queue_enqueue`, `esrb_queue_dequeue` and `esrb_watchdog_arm` go round again
when somebody else has moved the position on. Nobody has to move for them to come to an end:
with the other threads stopped anywhere, a loop that holds a stale position loads the current
one, and the sequence word that it finds there is never ahead.

## Key results

- `enqueue_alone`, `dequeue_alone`, `arm_alone`: each function returns within a bounded number
  of its own steps
- `retry_loops_return`: all of them, in every reachable state
-/

namespace EndpointSecurity

open SeqRing (LoopPc LoopResult Phase)
open TransitionSystem (Reachable Finishes)

namespace QueueThreads

variable {s : State} {phase : Nat → Phase}

/-- Producer `k` is somewhere in `esrb_queue_enqueue`. -/
def State.enqueuing (s : State) (k : Nat) (pc : LoopPc) : State :=
  { s with producer := Function.update s.producer k (.enqueue pc) }

/-- Consumer `j` is somewhere in `esrb_queue_dequeue`. -/
def State.dequeuing (s : State) (j : Nat) (pc : LoopPc) : State :=
  { s with consumer := Function.update s.consumer j (.dequeue pc) }

/-- `esrb_queue_enqueue` has returned, a slot or `NULL`. -/
def State.Enqueued (k : Nat) (s : State) : Prop :=
  (∃ p, s.producer k = .fill p) ∨ s.producer k = .refused

/-- `esrb_queue_dequeue` has returned, a slot or `NULL`. -/
def State.Dequeued (j : Nat) (s : State) : Prop :=
  (∃ p, s.consumer j = .holding p) ∨ s.consumer j = .empty

theorem enqueue_steps {k n : Nat} {x : Payload} {pc : LoopPc} {result : LoopResult}
    (hrun : s.queue.ring.claimAlone (List.replicate n false) pc = some result) :
    Finishes step (.producer k false x) (State.Enqueued k) (n + 1) (s.enqueuing k pc) := by
  induction n generalizing pc with
  | zero => cases hrun
  | succ n ih =>
    rw [List.replicate_succ, SeqRing.Ring.claimAlone] at hrun
    cases hloop : s.queue.ring.claimStep false pc with
    | running pc' =>
      rw [hloop] at hrun
      refine .next ?_ (ih hrun)
      simp only [step, producerStep, State.enqueuing, Function.update_self, Function.update_idem,
        Queue.enqueue, hloop]
    | got p =>
      let claimed := { s with
        queue := s.queue.advanceEnqueue p
        producer := Function.update s.producer k (.storePosition p)
        log := .claim k p :: s.log }
      have hclaim : step (.producer k false x) (s.enqueuing k pc) = some claimed := by
        simp only [step, producerStep, State.enqueuing, Function.update_self,
          Function.update_idem, Queue.enqueue, hloop, claimed]
      -- The position is stored before the function returns
      have hstore : producerStep k false x claimed = some { claimed with
          queue := claimed.queue.storePosition p
          producer := Function.update claimed.producer k (.fill p) } := by
        simp only [producerStep, Function.update_self, claimed]
      exact .next hclaim (.next hstore (.now (.inl ⟨p, Function.update_self ..⟩)))
    | none =>
      have hrefuse : step (.producer k false x) (s.enqueuing k pc) =
          some { s with producer := Function.update s.producer k .refused } := by
        simp only [step, producerStep, State.enqueuing, Function.update_self,
          Function.update_idem, Queue.enqueue, hloop]
      exact .next hrefuse (.now (.inr (Function.update_self ..)))

theorem dequeue_steps {j n : Nat} {pc : LoopPc} {result : LoopResult}
    (hrun : s.queue.ring.takeAlone (List.replicate n false) pc = some result) :
    Finishes step (.consumer j false) (State.Dequeued j) n (s.dequeuing j pc) := by
  induction n generalizing pc with
  | zero => cases hrun
  | succ n ih =>
    rw [List.replicate_succ, SeqRing.Ring.takeAlone] at hrun
    cases hloop : s.queue.ring.takeStep false pc with
    | running pc' =>
      rw [hloop] at hrun
      refine .next ?_ (ih hrun)
      simp only [step, consumerStep, State.dequeuing, Function.update_self, Function.update_idem,
        Queue.dequeue, hloop]
    | got p =>
      have hclaim : step (.consumer j false) (s.dequeuing j pc) = some { s with
          queue := s.queue.advanceDequeue p
          consumer := Function.update s.consumer j (.holding p)
          log := .deliver j p (s.queue.slot p).payload :: s.log } := by
        simp only [step, consumerStep, State.dequeuing, Function.update_self,
          Function.update_idem, Queue.dequeue, hloop]
      exact .next hclaim (.now (.inl ⟨p, Function.update_self ..⟩))
    | none =>
      have hempty : step (.consumer j false) (s.dequeuing j pc) =
          some { s with consumer := Function.update s.consumer j .empty } := by
        simp only [step, consumerStep, State.dequeuing, Function.update_self,
          Function.update_idem, Queue.dequeue, hloop]
      exact .next hempty (.now (.inr (Function.update_self ..)))

/-- `esrb_queue_enqueue` returns: four accesses in the loop, and the store of the position. -/
theorem enqueue_alone (h : SeqRing.Inv s.queue.ring phase) (k : Nat) (x : Payload) (pc : LoopPc) :
    Finishes step (.producer k false x) (State.Enqueued k) 5 (s.enqueuing k pc) := by
  obtain ⟨result, hrun⟩ := h.claimAlone_returns pc
  exact enqueue_steps hrun

/-- `esrb_queue_dequeue` returns. -/
theorem dequeue_alone (h : SeqRing.Inv s.queue.ring phase) (j : Nat) (pc : LoopPc) :
    Finishes step (.consumer j false) (State.Dequeued j) 4 (s.dequeuing j pc) := by
  obtain ⟨result, hrun⟩ := h.takeAlone_returns pc
  exact dequeue_steps hrun

end QueueThreads

/-! ## Arming -/

variable {cfg : Config} {s : State} {phase : Nat → Phase}

/-- Callback `k` is somewhere in the loop of `esrb_watchdog_arm` for position `p`. -/
def State.arming (s : State) (k p : Nat) (pc : LoopPc) : State :=
  { s with callback := Function.update s.callback k (.arm p pc) }

/-- `esrb_watchdog_arm` has returned true or false. -/
def State.Armed (k p : Nat) (s : State) : Prop :=
  s.callback k = .loadDequeue p ∨ s.callback k = .answer p

theorem arm_steps {k p n : Nat} {i : Input} {pc : LoopPc} {result : LoopResult}
    (hi : i.spurious = false)
    (hrun : s.requests.ring.claimAlone (List.replicate n false) pc = some result) :
    Finishes (step cfg) (.callback k i) (State.Armed k p) (n + 1) (s.arming k p pc) := by
  induction n generalizing pc with
  | zero => cases hrun
  | succ n ih =>
    rw [List.replicate_succ, SeqRing.Ring.claimAlone] at hrun
    cases hloop : s.requests.ring.claimStep false pc with
    | running pc' =>
      rw [hloop] at hrun
      refine .next ?_ (ih hrun)
      simp only [step, callbackStep, State.arming, Function.update_self, Function.update_idem,
        Requests.arm, hi, hloop]
    | got t =>
      let claimed := { s with
        callback := Function.update s.callback k (.publishRequest p t)
        requests := s.requests.advanceEnqueue t
        history := s.history.arm p t }
      have hclaim : step cfg (.callback k i) (s.arming k p pc) = some claimed := by
        simp only [step, callbackStep, State.arming, Function.update_self, Function.update_idem,
          Requests.arm, hi, hloop, claimed]
      have hpublish : callbackStep cfg k i claimed = some { claimed with
          callback := Function.update claimed.callback k (.loadDequeue p)
          requests := claimed.requests.publish t
            { slot := s.queue.index p, position := (s.queue.slot p).position,
              fireAt := (s.queue.slot p).fireAt, message := k }
          history := claimed.history.passTicket t .published } := by
        simp only [callbackStep, Function.update_self, claimed]
      exact .next hclaim (.next hpublish (.now (.inl (Function.update_self ..))))
    | none =>
      have hrefuse : step cfg (.callback k i) (s.arming k p pc) =
          some { s with callback := Function.update s.callback k (.answer p) } := by
        simp only [step, callbackStep, State.arming, Function.update_self, Function.update_idem,
          Requests.arm, hi, hloop]
      exact .next hrefuse (.now (.inr (Function.update_self ..)))

/-- `esrb_watchdog_arm` returns: four accesses in the loop, and the stores of the request. -/
theorem arm_alone (h : SeqRing.Inv s.requests.ring phase) (k p : Nat) {i : Input}
    (hi : i.spurious = false) (pc : LoopPc) :
    Finishes (step cfg) (.callback k i) (State.Armed k p) 5 (s.arming k p pc) := by
  obtain ⟨result, hrun⟩ := h.claimAlone_returns pc
  exact arm_steps hi hrun

/-- In every reachable state, with every other thread stopped where it is, the three functions
    return within a bounded number of their own accesses, whatever position their loops hold: a
    position that is loaded now does not meet a sequence word that is ahead of it. -/
theorem retry_loops_return {c : Capacity} {q : QueueThreads.State}
    (hq : Reachable QueueThreads.step (.init c) q) (hs : Reachable (step cfg) (.init cfg) s) :
    ((q.queue.slot q.queue.enqueuePosition).sequence ≤ q.queue.enqueuePosition ∧
      (q.queue.slot q.queue.dequeuePosition).sequence ≤ q.queue.dequeuePosition + 1 ∧
      (s.requests.request s.requests.enqueuePosition).sequence ≤ s.requests.enqueuePosition) ∧
    (∀ k x pc, Finishes QueueThreads.step (.producer k false x) (QueueThreads.State.Enqueued k) 5
      (q.enqueuing k pc)) ∧
    (∀ j pc, Finishes QueueThreads.step (.consumer j false) (QueueThreads.State.Dequeued j) 4
      (q.dequeuing j pc)) ∧
    ∀ k p pc i, i.spurious = false →
      Finishes (step cfg) (.callback k i) (State.Armed k p) 5 (s.arming k p pc) := by
  have hring := (QueueThreads.reachable_inv hq).queue.ring
  have hrequests := (reachable_tickets hs).ring
  refine ⟨⟨hring.seq_enq_le, hring.seq_deq_le, hrequests.seq_enq_le⟩, ?_, ?_, ?_⟩
  · exact fun k x pc => QueueThreads.enqueue_alone hring k x pc
  · exact fun j pc => QueueThreads.dequeue_alone hring j pc
  · exact fun k p pc i hi => arm_alone hrequests k p hi pc

/-- Producer 0 has loaded position 0, and producer 1 has claimed it since. -/
def staleProducer : List QueueThreads.Action :=
  List.replicate 2 (QueueThreads.Action.producer 0 false ⟨7, 1, 30⟩) ++
    List.replicate 4 (QueueThreads.Action.producer 1 false ⟨8, 1, 20⟩)

/-- Producer 0 is left alone with its stale position, and so is a callback that arms. -/
theorem retry_loops_return_stale :
    let q := TransitionSystem.final QueueThreads.step staleProducer (.init QueueThreads.twoSlots)
      (by decide)
    Finishes QueueThreads.step (.producer 0 false ⟨7, 1, 30⟩) (QueueThreads.State.Enqueued 0) 5
        (q.enqueuing 0 (.test 0)) ∧
      Finishes (step smallClient) (.callback 0 {}) (State.Armed 0 0) 5
        ((State.init smallClient).arming 0 0 .load) := by
  intro q
  have hq : Reachable QueueThreads.step (.init QueueThreads.twoSlots) q := .final _
  have hs : Reachable (step smallClient) (.init smallClient) (.init smallClient) := .init
  have h := retry_loops_return hq hs
  exact ⟨h.2.1 0 _ _, h.2.2.2 0 0 _ _ rfl⟩

end EndpointSecurity
