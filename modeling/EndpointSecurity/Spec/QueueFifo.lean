import EndpointSecurity.ForStd.TransitionSystem
import EndpointSecurity.Native.QueueThreads

/-!
# The slot queue is a FIFO with exclusive slots

Every log that the threads of `QueueThreads` can produce is a legal FIFO log, whatever the
interleaving. The invariant has three parts: the sequence words agree with the log
(`QueueOk`), and each producer and each consumer is entitled to what it holds (`ProducerOk`,
`ConsumerOk`).

## Key results

- `reachable_inv`: the invariant holds in every reachable state
- `queue_fifo_exclusive`: deliveries are in order, of published items, and slots are held by
  one party at a time
-/

namespace EndpointSecurity.QueueThreads

open SeqRing (Phase LoopPc)
open FifoLog (Event phaseOf Legal delivered deliveries)
open TransitionSystem (Reachable)

variable {q q' : Queue} {log log' : List (Event Nat Nat Payload)}

/-! ## The queue and its log -/

/-- The sequence words, the slots and the log of a queue agree. -/
structure QueueOk (q : Queue) (log : List (Event Nat Nat Payload)) : Prop where
  lt_size : q.capacity < 2 ^ 64
  ring : SeqRing.Inv q.ring (phaseOf log)
  legal : Legal q.index log
  delivered_eq : delivered log = q.dequeuePosition
  /-- A queued or delivered slot still holds what was published in it. -/
  full : ∀ p, phaseOf log p = .published ∨ phaseOf log p = .taken →
    (q.slot p).position = p ∧ ∃ k, .publish k p (q.slot p).payload ∈ log

namespace QueueOk

/-- A claim, when the slot of the next position is ready. -/
theorem claim (h : QueueOk q log) (k : Nat)
    (hseq : (q.slot q.enqueuePosition).sequence = q.enqueuePosition) :
    QueueOk (q.advanceEnqueue q.enqueuePosition) (.claim k q.enqueuePosition :: log) where
  lt_size := h.lt_size
  ring := h.ring.claim hseq
  legal :=
    ⟨h.legal, (h.ring.unclaimed _).mpr (Nat.le_refl _), fun r hr => h.ring.ready_free hseq hr⟩
  delivered_eq := h.delivered_eq
  full p hp := by
    have hne : p ≠ q.enqueuePosition := by rintro rfl; simp at hp
    simp only [FifoLog.phaseOf_claim, if_neg hne] at hp
    obtain ⟨hpos, k', hk'⟩ := h.full p hp
    exact ⟨hpos, k', List.mem_cons_of_mem _ hk'⟩

/-- A publication, by the claimer and with what it wrote. -/
theorem publish (h : QueueOk q log) {k p : Nat} {x : Payload} (hp : phaseOf log p = .claimed)
    (hclaim : .claim k p ∈ log) (hpos : (q.slot p).position = p) (hx : (q.slot p).payload = x) :
    QueueOk (q.storePublished p) (.publish k p x :: log) where
  lt_size := h.lt_size
  ring := by
    rw [Queue.ring_storePublished hpos]
    exact h.ring.publish hp
  legal := ⟨h.legal, hp, hclaim⟩
  delivered_eq := h.delivered_eq
  full r hr := by
    -- The published slot has the payload of its event; no other slot in use is written to
    rcases eq_or_ne r p with rfl | hne
    · rw [Queue.storePublished, Queue.slot_modify_self]
      exact ⟨hpos, k, by simp [← hx, Slot.payload]⟩
    · simp only [FifoLog.phaseOf_publish, if_neg hne] at hr
      obtain ⟨hpos', k', hk'⟩ := h.full r hr
      rw [Queue.storePublished, Queue.slot_modify_of_ne h.ring _ (by simp [hp, Phase.active])
        (by rcases hr with hr | hr <;> simp [hr, Phase.active]) hne]
      exact ⟨hpos', k', List.mem_cons_of_mem _ hk'⟩

/-- A delivery, when the slot of the next position is filled. -/
theorem deliver (h : QueueOk q log) (j : Nat)
    (hseq : (q.slot q.dequeuePosition).sequence = q.dequeuePosition + 1) :
    QueueOk (q.advanceDequeue q.dequeuePosition)
      (.deliver j q.dequeuePosition (q.slot q.dequeuePosition).payload :: log) := by
  have hpub := h.ring.filled_published hseq
  have hfull := h.full _ (.inl hpub)
  -- The sequence word says that the position is published, so that its slot is full
  refine ⟨h.lt_size, h.ring.take hseq, ⟨h.legal, hpub, h.delivered_eq.symm, hfull.2⟩, ?_, ?_⟩
  · simp only [delivered, h.delivered_eq]
    rfl
  · intro p hp
    rcases eq_or_ne p q.dequeuePosition with rfl | hne
    · exact ⟨hfull.1, hfull.2.imp fun k hk => List.mem_cons_of_mem _ hk⟩
    · simp only [FifoLog.phaseOf_deliver, if_neg hne] at hp
      obtain ⟨hpos, k, hk⟩ := h.full p hp
      exact ⟨hpos, k, List.mem_cons_of_mem _ hk⟩

/-- A release, by the one who was given the slot. -/
theorem release (h : QueueOk q log) {j p : Nat} (hp : phaseOf log p = .taken)
    (hj : ∃ x, .deliver j p x ∈ log) : QueueOk (q.storeReleased p) (.release j p :: log) where
  lt_size := h.lt_size
  ring := by
    rw [Queue.ring_storeReleased (h.full p (.inr hp)).1]
    exact h.ring.release hp
  legal := ⟨h.legal, hp, hj⟩
  delivered_eq := h.delivered_eq
  full r hr := by
    -- Nobody relies on a released slot, and the others are left alone
    have hne : r ≠ p := by rintro rfl; simp at hr
    simp only [FifoLog.phaseOf_release, if_neg hne] at hr
    obtain ⟨hpos', k', hk'⟩ := h.full r hr
    rw [Queue.storeReleased, Queue.slot_modify_of_ne h.ring _ (by simp [hp, Phase.active])
      (by rcases hr with hr | hr <;> simp [hr, Phase.active]) hne]
    exact ⟨hpos', k', List.mem_cons_of_mem _ hk'⟩

/-- The claimer may write anything but the sequence word. -/
theorem write (h : QueueOk q log) {p : Nat} {f : Slot → Slot} (hp : phaseOf log p = .claimed)
    (hf : ∀ s, (f s).sequence = s.sequence) : QueueOk (q.modify (q.index p) f) log where
  lt_size := h.lt_size
  ring := by
    rw [q.ring_modify _ (hf _)]
    exact h.ring
  legal := h.legal
  delivered_eq := h.delivered_eq
  full r hr := by
    have hne : r ≠ p := by rintro rfl; simp [hp] at hr
    rw [Queue.slot_modify_of_ne h.ring _ (by simp [hp, Phase.active])
      (by rcases hr with hr | hr <;> simp [hr, Phase.active]) hne]
    exact h.full r hr

/-- Anybody may write what is neither the sequence word, the position nor the payload. -/
theorem touch (h : QueueOk q log) {i : Nat} {f : Slot → Slot}
    (hseq : ∀ s, (f s).sequence = s.sequence) (hpos : ∀ s, (f s).position = s.position)
    (hx : ∀ s, (f s).payload = s.payload) : QueueOk (q.modify i f) log where
  lt_size := h.lt_size
  ring := by
    rw [q.ring_modify _ (hseq _)]
    exact h.ring
  legal := h.legal
  delivered_eq := h.delivered_eq
  full p hp := by
    rw [q.field_slot_modify p i Slot.position hpos, q.field_slot_modify p i Slot.payload hx]
    exact h.full p hp

end QueueOk

/-! ## What the threads know -/

/-- `k` has claimed `p` and not published it yet. -/
def Claimed (log : List (Event Nat Nat Payload)) (k p : Nat) : Prop :=
  phaseOf log p = .claimed ∧ .claim k p ∈ log

/-- `j` has been given `p` and has not released it yet. -/
def Taken (log : List (Event Nat Nat Payload)) (j p : Nat) : Prop :=
  phaseOf log p = .taken ∧ ∃ x, .deliver j p x ∈ log

/-- What producer `k` may rely on. -/
def ProducerOk (q : Queue) (log : List (Event Nat Nat Payload)) (k : Nat) : ProducerPc → Prop
  | .idle | .refused | .published _ => True
  | .enqueue pc => q.ring.ClaimOk pc
  | .storePosition p => Claimed log k p
  | .fill p => Claimed log k p ∧ (q.slot p).position = p
  | .loadDequeue p x | .loadDepthMax p x _ | .raiseDepthMax p x _ _ | .storeSequence p x =>
    Claimed log k p ∧ (q.slot p).position = p ∧ (q.slot p).payload = x

/-- What consumer `j` may rely on. -/
def ConsumerOk (q : Queue) (log : List (Event Nat Nat Payload)) (j : Nat) : ConsumerPc → Prop
  | .idle | .empty | .released _ => True
  | .dequeue pc => q.ring.TakeOk pc
  | .holding p | .awaitReaders p | .storeSequence p => Taken log j p

/-- What a step of somebody else leaves producer `k` with. -/
theorem ProducerOk.mono {k : Nat} {pc : ProducerPc} (h : ProducerOk q log k pc)
    (hloop : ∀ pc, q.ring.ClaimOk pc → q'.ring.ClaimOk pc)
    (hclaimed : ∀ p, Claimed log k p → Claimed log' k p ∧
      (q'.slot p).position = (q.slot p).position ∧ (q'.slot p).payload = (q.slot p).payload) :
    ProducerOk q' log' k pc := by
  cases pc with
  | idle | refused | published => trivial
  | enqueue pc => exact hloop pc h
  | storePosition p => exact (hclaimed p h).1
  | fill p =>
    obtain ⟨hc, hpos, -⟩ := hclaimed p h.1
    exact ⟨hc, hpos.trans h.2⟩
  | loadDequeue p | loadDepthMax p | raiseDepthMax p | storeSequence p =>
    obtain ⟨hc, hpos, hx⟩ := hclaimed p h.1
    exact ⟨hc, hpos.trans h.2.1, hx.trans h.2.2⟩

/-- What a step of somebody else leaves consumer `j` with. -/
theorem ConsumerOk.mono {j : Nat} {pc : ConsumerPc} (h : ConsumerOk q log j pc)
    (hloop : ∀ pc, q.ring.TakeOk pc → q'.ring.TakeOk pc)
    (htaken : ∀ p, Taken log j p → Taken log' j p) : ConsumerOk q' log' j pc := by
  cases pc with
  | idle | empty | released => trivial
  | dequeue pc => exact hloop pc h
  | holding p | awaitReaders p | storeSequence p => exact htaken p h

/-- The invariant of every run. -/
structure Inv (s : State) : Prop where
  queue : QueueOk s.queue s.log
  producer : ∀ k, ProducerOk s.queue s.log k (s.producer k)
  consumer : ∀ j, ConsumerOk s.queue s.log j (s.consumer j)

theorem inv_init (c : Capacity) : Inv (.init c) where
  queue := {
    lt_size := c.lt_size
    ring := SeqRing.Inv.empty c.pow c.two_le
    legal := trivial
    delivered_eq := rfl
    full := by simp [State.init, phaseOf] }
  producer _ := trivial
  consumer _ := trivial

/-! ## One step -/

variable {s s' : State}

/-- A producer's step keeps the invariant when it keeps the queue, the producer's own part
    and everybody else's. -/
theorem Inv.producerMove (h : Inv s) {k : Nat} (pc : ProducerPc) (hq : QueueOk q' log')
    (hself : ProducerOk q' log' k pc)
    (hclaim : ∀ pc, s.queue.ring.ClaimOk pc → q'.ring.ClaimOk pc)
    (htake : ∀ pc, s.queue.ring.TakeOk pc → q'.ring.TakeOk pc)
    (hclaimed : ∀ k' p, k' ≠ k → Claimed s.log k' p → Claimed log' k' p ∧
      (q'.slot p).position = (s.queue.slot p).position ∧
      (q'.slot p).payload = (s.queue.slot p).payload)
    (htaken : ∀ j p, Taken s.log j p → Taken log' j p) :
    Inv { s with queue := q', producer := Function.update s.producer k pc, log := log' } where
  queue := hq
  producer k' := by
    -- The producer that moves, and all others
    rcases eq_or_ne k' k with rfl | hne
    · simpa using hself
    · simp only [Function.update_of_ne hne]
      exact (h.producer k').mono hclaim (hclaimed k' · hne)
  consumer j := (h.consumer j).mono htake (htaken j)

/-- A consumer's step keeps the invariant under the same conditions. -/
theorem Inv.consumerMove (h : Inv s) {j : Nat} (pc : ConsumerPc) (hq : QueueOk q' log')
    (hself : ConsumerOk q' log' j pc)
    (hclaim : ∀ pc, s.queue.ring.ClaimOk pc → q'.ring.ClaimOk pc)
    (htake : ∀ pc, s.queue.ring.TakeOk pc → q'.ring.TakeOk pc)
    (hclaimed : ∀ k p, Claimed s.log k p → Claimed log' k p ∧
      (q'.slot p).position = (s.queue.slot p).position ∧
      (q'.slot p).payload = (s.queue.slot p).payload)
    (htaken : ∀ j' p, j' ≠ j → Taken s.log j' p → Taken log' j' p) :
    Inv { s with queue := q', consumer := Function.update s.consumer j pc, log := log' } where
  queue := hq
  producer k := (h.producer k).mono hclaim (hclaimed k)
  consumer j' := by
    rcases eq_or_ne j' j with rfl | hne
    · simpa using hself
    · simp only [Function.update_of_ne hne]
      exact (h.consumer j').mono htake (htaken j' · hne)

/-- A producer's step that touches nothing shared. -/
theorem Inv.producerLocal (h : Inv s) {k : Nat} {pc : ProducerPc}
    (hself : ProducerOk s.queue s.log k pc) :
    Inv { s with producer := Function.update s.producer k pc } :=
  h.producerMove _ h.queue hself (fun _ => id) (fun _ => id) (fun _ _ _ hc => ⟨hc, rfl, rfl⟩)
    (fun _ _ => id)

/-- A consumer's step that touches nothing shared. -/
theorem Inv.consumerLocal (h : Inv s) {j : Nat} {pc : ConsumerPc}
    (hself : ConsumerOk s.queue s.log j pc) :
    Inv { s with consumer := Function.update s.consumer j pc } :=
  h.consumerMove _ h.queue hself (fun _ => id) (fun _ => id) (fun _ _ hc => ⟨hc, rfl, rfl⟩)
    (fun _ _ _ => id)

/-- Two producers never hold the same position. -/
theorem Claimed.ne (h : QueueOk q log) {k k' p p' : Nat} (hk : Claimed log k p)
    (hk' : Claimed log k' p') (hne : k' ≠ k) : p' ≠ p := by
  rintro rfl
  exact hne (h.legal.claim_unique hk'.2 hk.2)

/-- Two consumers never hold the same position. -/
theorem Taken.ne (h : QueueOk q log) {j j' p p' : Nat} (hj : Taken log j p)
    (hj' : Taken log j' p') (hne : j' ≠ j) : p' ≠ p := by
  rintro rfl
  obtain ⟨x, hx⟩ := hj.2
  obtain ⟨x', hx'⟩ := hj'.2
  exact hne (h.legal.deliver_unique hx' hx).1

theorem Claimed.active {k p : Nat} (h : Claimed log k p) : (phaseOf log p).active := by
  simp [h.1, Phase.active]

theorem Taken.active {j p : Nat} (h : Taken log j p) : (phaseOf log p).active := by
  simp [h.1, Phase.active]

/-- A claimer writing a field of its slot. -/
theorem Inv.producerWrite (h : Inv s) {k p : Nat} {pc : ProducerPc} {f : Slot → Slot}
    (hk : Claimed s.log k p) (hf : ∀ s, (f s).sequence = s.sequence)
    (hself : ProducerOk (s.queue.modify (s.queue.index p) f) s.log k pc) :
    Inv { s with queue := s.queue.modify (s.queue.index p) f,
                 producer := Function.update s.producer k pc } := by
  have hring := s.queue.ring_modify (s.queue.index p) (f := f) (hf _)
  apply h.producerMove _ (h.queue.write hk.1 hf) hself
  · intro pc hpc
    rwa [hring]
  · intro pc hpc
    rwa [hring]
  · intro k' p' hne hk'
    rw [Queue.slot_modify_of_ne h.queue.ring f hk.active hk'.active (hk.ne h.queue hk' hne)]
    exact ⟨hk', rfl, rfl⟩
  · exact fun _ _ => id

/-- A step of a producer keeps the invariant. -/
theorem producerStep_inv {k : Nat} {spurious : Bool} {x : Payload} (h : Inv s)
    (hstep : producerStep k spurious x s = some s') : Inv s' := by
  have hk := h.producer k
  cases hpc : s.producer k with
  | idle =>
    simp only [producerStep, hpc, Option.some.injEq] at hstep
    subst hstep
    exact h.producerLocal trivial
  | enqueue pc =>
    rw [hpc] at hk
    have hloop := SeqRing.Ring.ClaimOk.step spurious hk
    simp only [producerStep, hpc, Queue.enqueue] at hstep
    cases hres : s.queue.ring.claimStep spurious pc with
    | running pc' =>
      simp only [hres, Option.some.injEq] at hstep hloop
      subst hstep
      exact h.producerLocal hloop
    | none =>
      simp only [hres, Option.some.injEq] at hstep
      subst hstep
      exact h.producerLocal trivial
    | got p =>
      simp only [hres, Option.some.injEq] at hstep hloop
      obtain ⟨rfl, hseq⟩ := hloop
      subst hstep
      -- Nobody can have claimed the position that the exchange has won, as it was unclaimed
      have hfree := (h.queue.ring.unclaimed s.queue.enqueuePosition).mpr (Nat.le_refl _)
      apply h.producerMove _ (h.queue.claim k hseq)
      · exact ⟨by simp, by simp⟩
      · exact fun _ hpc => SeqRing.Ring.ClaimOk.claim hpc
      · exact fun _ hpc => SeqRing.Ring.TakeOk.claim hpc
      · rintro k' p' - ⟨hph, hmem⟩
        -- What somebody holds has been claimed before
        have hne : p' ≠ s.queue.enqueuePosition := by rintro rfl; simp [hfree] at hph
        exact ⟨⟨by simpa [hne] using hph, List.mem_cons_of_mem _ hmem⟩, rfl, rfl⟩
      · rintro j p' ⟨hph, y, hmem⟩
        have hne : p' ≠ s.queue.enqueuePosition := by rintro rfl; simp [hfree] at hph
        exact ⟨by simpa [hne] using hph, y, List.mem_cons_of_mem _ hmem⟩
  | storePosition p =>
    rw [hpc] at hk
    simp only [producerStep, hpc, Option.some.injEq] at hstep
    subst hstep
    exact h.producerWrite hk (fun _ => rfl) ⟨hk, by simp⟩
  | fill p =>
    rw [hpc] at hk
    simp only [producerStep, hpc, Option.some.injEq] at hstep
    subst hstep
    exact h.producerWrite hk.1 (fun _ => rfl) ⟨hk.1, by simpa using hk.2, by simp [Slot.payload]⟩
  | loadDequeue p y =>
    rw [hpc] at hk
    simp only [producerStep, hpc, Option.some.injEq] at hstep
    subst hstep
    exact h.producerLocal hk
  | loadDepthMax p y depth =>
    rw [hpc] at hk
    simp only [producerStep, hpc, Option.some.injEq] at hstep
    subst hstep
    exact h.producerLocal hk
  | raiseDepthMax p y depth maximum =>
    rw [hpc] at hk
    simp only [producerStep, hpc] at hstep
    split_ifs at hstep with hgt hcas
    -- Only `depth_max` changes, which nobody relies on
    · cases hstep
      have hq : QueueOk (s.queue.storeDepthMax depth) s.log :=
        ⟨h.queue.1, h.queue.2, h.queue.3, h.queue.4, h.queue.5⟩
      exact h.producerMove _ hq hk (fun _ => id) (fun _ => id) (fun _ _ _ hc => ⟨hc, rfl, rfl⟩)
        (fun _ _ => id)
    · cases hstep
      exact h.producerLocal hk
    · cases hstep
      exact h.producerLocal hk
  | storeSequence p y =>
    rw [hpc] at hk
    obtain ⟨hc, hpos, hy⟩ := hk
    simp only [producerStep, hpc, Option.some.injEq] at hstep
    subst hstep
    apply h.producerMove (.published p) (h.queue.publish hc.1 hc.2 hpos hy) trivial
    -- A loop that still looks at an older position is not misled by the new sequence word
    · intro pc hpc
      rw [Queue.ring_storePublished hpos]
      exact SeqRing.Ring.ClaimOk.publish h.queue.ring hc.active hpc
    · intro pc hpc
      rw [Queue.ring_storePublished hpos]
      exact SeqRing.Ring.TakeOk.publish h.queue.ring hc.1 hpc
    · intro k' p' hne hk'
      have hp := hc.ne h.queue hk' hne
      rw [Queue.storePublished, Queue.slot_modify_of_ne h.queue.ring _ hc.active hk'.active hp]
      exact ⟨⟨by simpa [hp] using hk'.1, List.mem_cons_of_mem _ hk'.2⟩, rfl, rfl⟩
    -- A published position is not taken, so no consumer relies on it
    · rintro j p' ⟨hph, z, hmem⟩
      have hp : p' ≠ p := by rintro rfl; simp [hc.1] at hph
      exact ⟨by simpa [hp] using hph, z, List.mem_cons_of_mem _ hmem⟩
  | refused | published => simp [producerStep, hpc] at hstep

/-- A step of a consumer keeps the invariant. -/
theorem consumerStep_inv {j : Nat} {spurious : Bool} (h : Inv s)
    (hstep : consumerStep j spurious s = some s') : Inv s' := by
  have hj := h.consumer j
  cases hpc : s.consumer j with
  | idle =>
    simp only [consumerStep, hpc, Option.some.injEq] at hstep
    subst hstep
    exact h.consumerLocal trivial
  | dequeue pc =>
    rw [hpc] at hj
    have hloop := SeqRing.Ring.TakeOk.step spurious hj
    simp only [consumerStep, hpc, Queue.dequeue] at hstep
    cases hres : s.queue.ring.takeStep spurious pc with
    | running pc' =>
      simp only [hres, Option.some.injEq] at hstep hloop
      subst hstep
      exact h.consumerLocal hloop
    | none =>
      simp only [hres, Option.some.injEq] at hstep
      subst hstep
      exact h.consumerLocal trivial
    | got p =>
      simp only [hres, Option.some.injEq] at hstep hloop
      obtain ⟨rfl, hseq⟩ := hloop
      subst hstep
      -- The position was published, so nobody holds it as a producer
      have hpub := h.queue.ring.filled_published hseq
      apply h.consumerMove _ (h.queue.deliver j hseq)
      · exact ⟨by simp, _, List.mem_cons_self⟩
      · exact fun _ hpc => SeqRing.Ring.ClaimOk.take hpc
      · exact fun _ hpc => SeqRing.Ring.TakeOk.take hpc
      · rintro k p' ⟨hph, hmem⟩
        have hne : p' ≠ s.queue.dequeuePosition := by rintro rfl; simp_all
        exact ⟨⟨by simpa [hne] using hph, List.mem_cons_of_mem _ hmem⟩, rfl, rfl⟩
      · rintro j' p' - ⟨hph, y, hmem⟩
        have hne : p' ≠ s.queue.dequeuePosition := by rintro rfl; simp_all
        exact ⟨by simpa [hne] using hph, y, List.mem_cons_of_mem _ hmem⟩
  | holding p =>
    rw [hpc] at hj
    simp only [consumerStep, hpc, Option.some.injEq] at hstep
    subst hstep
    have hq : QueueOk (s.queue.storeOccupied p false) s.log :=
      h.queue.touch (fun _ => rfl) (fun _ => rfl) (fun _ => rfl)
    apply h.consumerMove (.awaitReaders p) hq hj
    -- `occupied` is neither the sequence word nor part of the payload
    · intro pc hpc
      rwa [Queue.ring_storeOccupied]
    · intro pc hpc
      rwa [Queue.ring_storeOccupied]
    · intro k p' hk
      exact ⟨hk, s.queue.field_slot_modify p' _ Slot.position fun _ => rfl,
        s.queue.field_slot_modify p' _ Slot.payload fun _ => rfl⟩
    · exact fun _ _ _ => id
  | awaitReaders p =>
    rw [hpc] at hj
    simp only [consumerStep, hpc] at hstep
    split_ifs at hstep with hreaders
    · cases hstep
      exact h
    · cases hstep
      exact h.consumerLocal hj
  | storeSequence p =>
    rw [hpc] at hj
    simp only [consumerStep, hpc, Option.some.injEq] at hstep
    subst hstep
    -- The slot still has the position that it was delivered for
    have hpos := (h.queue.full p (.inr hj.1)).1
    apply h.consumerMove (.released p) (h.queue.release hj.1 hj.2) trivial
    · intro pc hpc
      rw [Queue.ring_storeReleased hpos]
      exact SeqRing.Ring.ClaimOk.release h.queue.ring hj.active hpc
    · intro pc hpc
      rw [Queue.ring_storeReleased hpos]
      exact SeqRing.Ring.TakeOk.release h.queue.ring hj.1 hpc
    -- A position that is taken is not claimed by anybody
    · rintro k p' hk
      have hp : p' ≠ p := by rintro rfl; cases hk.1.symm.trans hj.1
      rw [Queue.storeReleased, Queue.slot_modify_of_ne h.queue.ring _ hj.active hk.active hp]
      exact ⟨⟨by simpa [hp] using hk.1, List.mem_cons_of_mem _ hk.2⟩, rfl, rfl⟩
    · intro j' p' hne hj'
      -- No other consumer has been given this position
      have hp := hj.ne h.queue hj' hne
      exact ⟨by simpa [hp] using hj'.1, hj'.2.imp fun y hy => List.mem_cons_of_mem _ hy⟩
  | empty | released => simp [consumerStep, hpc] at hstep

/-- Another party writing to a slot keeps the invariant. -/
theorem interfere_inv {i : Nat} {f : Slot → Slot} (h : Inv s)
    (hseq : ∀ s, (f s).sequence = s.sequence) (hpos : ∀ s, (f s).position = s.position)
    (hx : ∀ s, (f s).payload = s.payload) : Inv { s with queue := s.queue.modify i f } where
  queue := h.queue.touch hseq hpos hx
  producer k := (h.producer k).mono
    (fun pc hpc => by rwa [Queue.ring_modify _ _ (hseq _)])
    (fun p hp => ⟨hp, s.queue.field_slot_modify p i Slot.position hpos,
      s.queue.field_slot_modify p i Slot.payload hx⟩)
  consumer j := (h.consumer j).mono
    (fun pc hpc => by rwa [Queue.ring_modify _ _ (hseq _)]) (fun _ => id)

/-- The invariant holds in every reachable state. -/
theorem reachable_inv {c : Capacity} (hs : Reachable step (.init c) s) : Inv s := by
  apply hs.invariant (inv_init c)
  intro s a s' _ h hstep
  cases a with
  | producer k spurious x => exact producerStep_inv h hstep
  | consumer j spurious => exact consumerStep_inv h hstep
  | interfere i occupied answerState readers =>
    cases hstep
    exact interfere_inv h (fun _ => rfl) (fun _ => rfl) (fun _ => rfl)

/-! ## What the invariant says about holders -/

/-- What a producer holds it has claimed. -/
theorem Inv.producer_claimed (h : Inv s) {k p : Nat} (hk : (s.producer k).holds = some p) :
    Claimed s.log k p := by
  have hok := h.producer k
  cases hpc : s.producer k <;> simp only [hpc, ProducerPc.holds, ProducerOk] at hk hok <;> cases hk
  case storePosition => exact hok
  all_goals exact hok.1

/-- What a consumer holds it has been given. -/
theorem Inv.consumer_taken (h : Inv s) {j p : Nat} (hj : (s.consumer j).holds = some p) :
    Taken s.log j p := by
  have hok := h.consumer j
  cases hpc : s.consumer j <;> simp only [hpc, ConsumerPc.holds, ConsumerOk] at hj hok <;>
    cases hj <;> exact hok

/-- No two parties hold the same slot. -/
theorem Inv.holds_unique (h : Inv s) {a b : Party} {p r : Nat} (ha : s.holds a = some p)
    (hb : s.holds b = some r) (hidx : s.queue.index p = s.queue.index r) : a = b := by
  -- Active positions with one slot are one position, so its phase decides between the two kinds
  cases a with
  | producer k =>
    have hk := h.producer_claimed ha
    cases b with
    | producer k' =>
      have hk' := h.producer_claimed hb
      cases h.queue.ring.active_unique hk.active hk'.active hidx
      rw [h.queue.legal.claim_unique hk.2 hk'.2]
    | consumer j =>
      have hj := h.consumer_taken hb
      cases h.queue.ring.active_unique hk.active hj.active hidx
      cases hk.1.symm.trans hj.1
  | consumer j =>
    have hj := h.consumer_taken ha
    cases b with
    | producer k =>
      have hk := h.producer_claimed hb
      cases h.queue.ring.active_unique hj.active hk.active hidx
      cases hj.1.symm.trans hk.1
    | consumer j' =>
      have hj' := h.consumer_taken hb
      cases h.queue.ring.active_unique hj.active hj'.active hidx
      obtain ⟨x, hx⟩ := hj.2
      obtain ⟨x', hx'⟩ := hj'.2
      rw [(h.queue.legal.deliver_unique hx hx').1]

/-- A slot that a consumer holds still has the payload it was delivered with. -/
theorem Inv.consumer_payload (h : Inv s) {j p : Nat} (hj : (s.consumer j).holds = some p) :
    .deliver j p (s.queue.slot p).payload ∈ s.log := by
  obtain ⟨hph, x, hx⟩ := h.consumer_taken hj
  obtain ⟨-, k, hk⟩ := h.queue.full p (.inr hph)
  -- The payload now and the payload delivered were both published for this position
  obtain ⟨newer, older, hlog⟩ := List.append_of_mem hx
  have hlegal := h.queue.legal
  rw [hlog] at hlegal
  obtain ⟨k', hk'⟩ := hlegal.published_before
  have hk' : .publish k' p x ∈ s.log := by
    rw [hlog]
    exact List.mem_append_right _ (List.mem_cons_of_mem _ hk')
  rw [(h.queue.legal.publish_unique hk hk').2]
  exact hx

/-- The queue is a FIFO with exclusive slots: in every reachable state,

    * the positions delivered so far are `0, 1, 2, …` in this order, each once,
    * each was published before its delivery, by the producer that had claimed it, with the
      payload that was delivered,
    * a slot that a consumer holds still has its position and the payload it was delivered
      with,
    * no two parties hold the same slot,
    * no claim was granted on the slot of a position that was unpublished, undelivered or
      unreleased at that moment. -/
theorem queue_fifo_exclusive {c : Capacity} (hs : Reachable step (.init c) s) :
    deliveries s.log = List.range s.queue.dequeuePosition ∧
    (∀ newer older j p x, s.log = newer ++ .deliver j p x :: older →
      ∃ k, .publish k p x ∈ older ∧ .claim k p ∈ older) ∧
    (∀ j p, (s.consumer j).holds = some p → (s.queue.slot p).position = p ∧
      .deliver j p (s.queue.slot p).payload ∈ s.log) ∧
    (∀ a b p r, s.holds a = some p → s.holds b = some r →
      s.queue.index p = s.queue.index r → a = b) ∧
    (∀ newer older k p, s.log = newer ++ .claim k p :: older →
      ∀ r, (phaseOf older r).active → s.queue.index r ≠ s.queue.index p) := by
  have h := reachable_inv hs
  have hlegal := h.queue.legal
  refine ⟨?_, ?_, fun j p hj => ⟨(h.queue.full p (.inr (h.consumer_taken hj).1)).1,
    h.consumer_payload hj⟩, fun a b p r => h.holds_unique, ?_⟩
  -- The log is legal, and every event of it can be looked at when it was the last one
  · rw [hlegal.deliveries_eq, h.queue.delivered_eq]
  · intro newer older j p x hlog
    rw [hlog] at hlegal
    obtain ⟨k, hk⟩ := hlegal.published_before
    obtain ⟨newer', older', hold⟩ := List.append_of_mem hk
    have hlegal' := (Legal.of_append hlegal).1
    rw [hold] at hlegal'
    refine ⟨k, hk, ?_⟩
    rw [hold]
    exact List.mem_append_right _ (List.mem_cons_of_mem _ hlegal'.claimed_before)
  · intro newer older k p hlog
    rw [hlog] at hlegal
    exact (Legal.of_append hlegal).2.2

/-- The smallest queue. -/
def twoSlots : Capacity :=
  ⟨2, Capacity.two_lt_size, Capacity.two_le_two, Capacity.two_pow⟩

/-- Producer `k` queues `x` without interruption. -/
def produce (k : Nat) (x : Payload) : List Action := List.replicate 10 (.producer k false x)

/-- Consumer `j` is given a slot: it loads twice, exchanges and holds. -/
def consume (j : Nat) : List Action := List.replicate 4 (.consumer j false)

/-- After one event has gone through a queue of two, the next one is where it should be. -/
theorem queue_fifo_exclusive_two :
    let s := TransitionSystem.final step
      (produce 0 ⟨7, 1, 30⟩ ++ produce 1 ⟨8, 1, 20⟩ ++ consume 0) (.init twoSlots) (by decide)
    deliveries s.log = [0] ∧ .deliver 0 0 (s.queue.slot 0).payload ∈ s.log ∧
      (s.queue.slot 0).payload = ⟨7, 1, 30⟩ := by
  intro s
  have h := queue_fifo_exclusive (c := twoSlots) (s := s) (.final _)
  exact ⟨h.1, (h.2.2.1 0 0 rfl).2, by decide⟩

end EndpointSecurity.QueueThreads
