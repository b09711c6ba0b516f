import EndpointSecurity.Spec.ClientTickets
import EndpointSecurity.Spec.WatchdogHeap

/-!
# The watchdog keeps track of the pending messages

Entries are removed from the heap only when they are due, so the heap holds entries of messages
that are long gone next to entries of messages that are still pending. An entry is never
mistaken for one of another message, and no message is forgotten while it is pending.

## Key results

- `Tracking`: where the entries of the pending messages are
- `watchdog_tracks`: the statement for every reachable state
-/

namespace EndpointSecurity

open SeqRing (Phase)
open TransitionSystem (Reachable)

/-- The watchdog has taken this entry from the ring of requests. -/
def State.Popped (s : State) (e : Entry) : Prop :=
  ∃ t, s.history.ticketPhase t = .released ∧ e = s.entry (s.history.ticketPosition t)

/-- The entry that `answer_due` has been called with and has not found answered yet. -/
def WatchdogPc.answering : WatchdogPc → Option Entry
  | .loadOccupied e _ | .addReader e _ | .recheck e _ | .exchange e _ => some e
  | _ => none

/-- The entry that `answer_due` has been called with, and the clock reading that it was due by. -/
def WatchdogPc.due : WatchdogPc → Option (Entry × Nat)
  | .loadOccupied e now | .addReader e now | .recheck e now | .exchange e now
  | .respond e now => some (e, now)
  | _ => none

/-- The invariant of every run. -/
structure Tracking (s : State) : Prop where
  capacity : s.heap.capacity = s.queue.capacity
  good : s.heap.Good
  heap : ∀ e, s.heap.Mem e → s.Popped e
  due : ∀ e now, s.watchdog.due = some (e, now) → s.Popped e ∧ e.fireAt ≤ now
  tracked : ∀ t, s.history.ticketPhase t = .released → s.pending (s.history.ticketPosition t) →
    s.heap.Mem (s.entry (s.history.ticketPosition t)) ∨
      s.watchdog.answering = some (s.entry (s.history.ticketPosition t))
  answered : ∀ m client e now response,
    .respond client (.watchdog e now) response ∈ s.history.log m →
      s.Popped e ∧ e.message = m ∧ e.fireAt ≤ now

theorem tracking_init (cfg : Config) : Tracking (.init cfg) where
  capacity := rfl
  good := Heap.good_init _
  heap := nofun
  due := by simp [State.init, WatchdogPc.due]
  tracked := by simp [State.init, History.init]
  answered := by simp [State.init, History.init]

/-! ## Frames -/

variable {cfg : Config} {s s' : State} {k : Nat} {i : Input}

/-- The requests that the watchdog has been through stay what they are. -/
structure State.Keeps (s s' : State) : Prop where
  released : ∀ t, s'.history.ticketPhase t = .released ↔ s.history.ticketPhase t = .released
  position : ∀ t, s.history.ticketPhase t = .released →
    s'.history.ticketPosition t = s.history.ticketPosition t
  entry : ∀ t, s.history.ticketPhase t = .released →
    s'.entry (s.history.ticketPosition t) = s.entry (s.history.ticketPosition t)

theorem State.Keeps.popped (h : s.Keeps s') {e : Entry} (he : s.Popped e) : s'.Popped e := by
  obtain ⟨t, ht, rfl⟩ := he
  exact ⟨t, (h.released t).mpr ht, by rw [h.position t ht, h.entry t ht]⟩

/-- A step that leaves the heap and the watchdog alone. -/
theorem Tracking.frame (h : Tracking s)
    (hsame : s'.heap = s.heap ∧ s'.watchdog = s.watchdog ∧ s'.queue.capacity = s.queue.capacity)
    (hkeeps : s.Keeps s')
    (hpending : ∀ t, s.history.ticketPhase t = .released →
      s'.pending (s.history.ticketPosition t) → s.pending (s.history.ticketPosition t))
    (hlog : ∀ m e, e ∈ s'.history.log m → e ∈ s.history.log m ∨ e.byWatchdog = false) :
    Tracking s' := by
  obtain ⟨hheap, hwatchdog, hcap⟩ := hsame
  constructor
  case capacity => rw [hheap, hcap, h.capacity]
  case good => rw [hheap]; exact h.good
  case heap => rw [hheap]; exact fun e he => hkeeps.popped (h.heap e he)
  case due =>
    rw [hwatchdog]
    exact fun e now he => ⟨hkeeps.popped (h.due e now he).1, (h.due e now he).2⟩
  case tracked =>
    intro t ht hp
    have ht' := (hkeeps.released t).mp ht
    rw [hkeeps.position t ht'] at hp ⊢
    rw [hkeeps.entry t ht', hheap, hwatchdog]
    exact h.tracked t ht' (hpending t ht' hp)
  case answered =>
    intro m client e now response hmem
    -- What is new in the log is not the watchdog's
    obtain hmem | hother := hlog m _ hmem
    · obtain ⟨hpopped, hdue⟩ := h.answered m client e now response hmem
      exact ⟨hkeeps.popped hpopped, hdue⟩
    · cases hother

/-- A step of a native method. -/
theorem Tracking.aside (h : Tracking s) (haside : s.Aside s') : Tracking s' := by
  obtain ⟨-, hheap, hwatchdog, -, hqueue, hhistory⟩ := haside
  refine h.frame ⟨hheap, hwatchdog, hqueue.capacity⟩ ⟨fun t => ?_, fun t _ => ?_, fun t _ => ?_⟩
    (fun t _ => hqueue.pending) hhistory.log
  · rw [hhistory.ticketPhase]
  · rw [hhistory.ticketPosition]
  · exact State.entry_eq hqueue.capacity (by rw [hhistory.owner]) (by rw [hhistory.fireAt])

/-- A pending position is in use. -/
theorem SlotsInv.active_of_pending (h : SlotsInv cfg s) {p : Nat} (hp : s.pending p) :
    (s.history.stage p).phase.active := by
  obtain ⟨hposition, hoccupied, -⟩ := hp
  have hst := (h.slots.occupied_position hoccupied).2
  rw [show (s.queue.slots (s.queue.index p)).position = p from hposition] at hst
  exact Stage.active_of_occupied hst

/-- The positions that the watchdog has been through have been armed. -/
theorem Tickets.ticket_of_released (h : Tickets s) {t : Nat}
    (ht : s.history.ticketPhase t = .released) :
    s.history.ticket (s.history.ticketPosition t) ≠ none := by
  rw [(h.ticket _ t).mpr ⟨by rw [ht]; simp, rfl⟩]
  simp

/-- A step of a callback that neither claims nor fills a position, nor marks it as occupied. -/
theorem Tracking.callback (h : Tracking s)
    (hsame : s'.heap = s.heap ∧ s'.watchdog = s.watchdog) (hqueue : s.queue.Aside s'.queue)
    (hposition : s'.history.ticketPosition = s.history.ticketPosition ∧
      s'.history.owner = s.history.owner ∧ s'.history.fireAt = s.history.fireAt)
    (hreleased : ∀ t, s'.history.ticketPhase t = .released ↔ s.history.ticketPhase t = .released)
    (hlog : ∀ m e, e ∈ s'.history.log m → e ∈ s.history.log m ∨ e.byWatchdog = false) :
    Tracking s' := by
  obtain ⟨hposition, howner, hfireAt⟩ := hposition
  refine h.frame ⟨hsame.1, hsame.2, hqueue.capacity⟩ ⟨hreleased, fun t _ => by rw [hposition],
    fun t _ => State.entry_eq hqueue.capacity (by rw [howner]) (by rw [hfireAt])⟩
    (fun t _ => hqueue.pending) hlog

/-- The callback that has claimed a position writes to its slot; the other positions that ever
    were in this slot are not pending. -/
theorem State.pending_of_write {p q : Nat} (hne : q ≠ p)
    (hcap : s'.queue.capacity = s.queue.capacity)
    (hslots : ∀ j, j ≠ s.queue.index p → s'.queue.slots j = s.queue.slots j)
    (hposition : (s'.queue.slots (s.queue.index p)).position = p) (hq : s'.pending q) :
    s.pending q := by
  have hindex : s'.queue.index q = s.queue.index q := by
    rw [Queue.index, Queue.index, Queue.mask, Queue.mask, hcap]
  rw [State.pending, Queue.slot, hindex] at hq
  -- The slot is that of the claimed position now, and only one position at a time can be in it
  by_cases heq : s.queue.index q = s.queue.index p
  · rw [heq, hposition] at hq
    exact absurd hq.1.symm hne
  · rwa [hslots _ heq] at hq

/-- A step of the callback that has claimed position `p` and not armed it yet. -/
theorem Tracking.unarmed (htickets : Tickets s) (h : Tracking s) {p : Nat}
    (hnone : s.history.ticket p = none)
    (hsame : s'.heap = s.heap ∧ s'.watchdog = s.watchdog ∧ s'.queue.capacity = s.queue.capacity)
    (hticket : s'.history.ticketPhase = s.history.ticketPhase ∧
      s'.history.ticketPosition = s.history.ticketPosition)
    (hother : ∀ q, q ≠ p → s'.history.owner q = s.history.owner q ∧
      s'.history.fireAt q = s.history.fireAt q)
    (hslots : ∀ j, j ≠ s.queue.index p → s'.queue.slots j = s.queue.slots j)
    (hposition : (s'.queue.slots (s.queue.index p)).position = p)
    (hlog : s'.history.log = s.history.log) : Tracking s' := by
  -- What the watchdog has been through was armed, and this position is not
  have hne : ∀ t, s.history.ticketPhase t = .released → s.history.ticketPosition t ≠ p := by
    rintro t ht rfl
    exact htickets.ticket_of_released ht hnone
  refine h.frame hsame ⟨fun t => by rw [hticket.1], fun t _ => by rw [hticket.2], fun t ht => ?_⟩
    (fun t ht hp => State.pending_of_write (hne t ht) hsame.2.2 hslots hposition hp)
    (fun m e he => .inl (hlog ▸ he))
  obtain ⟨howner, hfireAt⟩ := hother _ (hne t ht)
  exact State.entry_eq hsame.2.2 howner hfireAt

/-! ## One step -/

theorem callbackStep_tracking (hslots : SlotsInv cfg s) (htickets : Tickets s) (h : Tracking s)
    (hstep : callbackStep cfg k i s = some s') : Tracking s' := by
  cases hpc : s.callback k with
  | absent | loadDequeue | loadDepthMax | notifyWrite | leave =>
    simp only [callbackStep, hpc, Option.some.injEq] at hstep
    subst hstep
    exact h.callback ⟨rfl, rfl⟩ (.refl _) ⟨rfl, rfl, rfl⟩ (fun _ => Iff.rfl) (fun _ _ => .inl)
  | loadClosed =>
    simp only [callbackStep, hpc, Option.some.injEq] at hstep
    subst hstep
    exact h.callback ⟨rfl, rfl⟩ (.refl _) ⟨rfl, rfl, rfl⟩ (fun _ => Iff.rfl) (fun _ _ => .inl)
  | refuse | overflow =>
    have hlog : s.history.Aside (s.respondUnqueued cfg i k).history := by
      simp only [State.respondUnqueued]
      split_ifs
      · exact (History.Aside.refl _).record _ rfl
      · exact .refl _
    simp only [callbackStep, hpc, Option.some.injEq] at hstep
    obtain ⟨stats, log, heq⟩ := s.respondUnqueued_eq cfg i k
    rw [heq] at hstep hlog
    subst hstep
    exact h.callback ⟨rfl, rfl⟩ (.refl _) ⟨rfl, rfl, rfl⟩ (fun _ => Iff.rfl) hlog.log
  | retain | drop =>
    simp only [callbackStep, hpc, Option.some.injEq] at hstep
    subst hstep
    exact h.callback ⟨rfl, rfl⟩ (.refl _) ⟨rfl, rfl, rfl⟩ (fun _ => Iff.rfl)
      ((History.Aside.refl _).record _ rfl).log
  | enqueue pc =>
    have hloop := SeqRing.Ring.ClaimOk.step i.spurious (hslots.claiming k pc hpc)
    simp only [callbackStep, hpc, Queue.enqueue] at hstep
    cases hres : s.queue.ring.claimStep i.spurious pc with
    | running | none =>
      simp only [hres, Option.some.injEq] at hstep
      subst hstep
      exact h.callback ⟨rfl, rfl⟩ (.refl _) ⟨rfl, rfl, rfl⟩ (fun _ => Iff.rfl) (fun _ _ => .inl)
    | got p =>
      simp only [hres, Option.some.injEq] at hstep hloop
      obtain ⟨rfl, -⟩ := hloop
      -- A position that has just been claimed has never been armed
      have hnone : s.history.ticket s.queue.enqueuePosition = none := by
        by_contra hsome
        exact htickets.armed _ hsome hslots.slots.next_unclaimed
      subst hstep
      refine h.unarmed htickets hnone ⟨rfl, rfl, rfl⟩ ⟨rfl, rfl⟩ (fun q hq => ⟨?_, rfl⟩)
        (fun j hj => ?_) ?_ rfl
      · exact Function.update_of_ne hq ..
      · exact Function.update_of_ne hj ..
      · grind
  | fill p =>
    have hnone := htickets.unarmed k p (by rw [hpc]; rfl)
    have hposition := (hslots.slots.slot p).position
      (by rw [hslots.callbacks.holds k p .claimed (by rw [hpc]; rfl)]; rfl)
    simp only [callbackStep, hpc, Option.some.injEq] at hstep
    subst hstep
    refine h.unarmed htickets hnone ⟨rfl, rfl, rfl⟩ ⟨rfl, rfl⟩ (fun q hq => ⟨rfl, ?_⟩)
      (fun j hj => ?_) ?_ rfl
    · exact Function.update_of_ne hq ..
    · grind
    · grind [Queue.slot]
  | storeOccupied p =>
    have hnone := htickets.unarmed k p (by rw [hpc]; rfl)
    have hposition := (hslots.slots.slot p).position
      (by rw [hslots.callbacks.holds k p .filled (by rw [hpc]; rfl)]; rfl)
    simp only [callbackStep, hpc, Option.some.injEq] at hstep
    subst hstep
    refine h.unarmed htickets hnone ⟨rfl, rfl, rfl⟩ ⟨rfl, rfl⟩ (fun q hq => ⟨rfl, rfl⟩)
      (fun j hj => ?_) ?_ rfl
    · grind
    · grind [Queue.slot]
  | arm p pc =>
    have hloop := SeqRing.Ring.ClaimOk.step i.spurious (htickets.claiming k p pc hpc)
    simp only [callbackStep, hpc, Requests.arm] at hstep
    cases hres : s.requests.ring.claimStep i.spurious pc with
    | running | none =>
      simp only [hres, Option.some.injEq] at hstep
      subst hstep
      exact h.callback ⟨rfl, rfl⟩ (.refl _) ⟨rfl, rfl, rfl⟩ (fun _ => Iff.rfl) (fun _ _ => .inl)
    | got t =>
      simp only [hres, Option.some.injEq] at hstep hloop
      have hfresh : s.history.ticketPhase t = .unclaimed :=
        (htickets.ring.unclaimed t).mpr (Nat.le_of_eq hloop.1.symm)
      -- The new request is not one that the watchdog has been through
      have hne : ∀ u, s.history.ticketPhase u = .released → u ≠ t := by
        rintro u hu rfl
        cases hfresh.symm.trans hu
      subst hstep
      refine h.frame ⟨rfl, rfl, rfl⟩ ⟨fun u => ?_, fun u hu => ?_, fun _ _ => rfl⟩ (fun _ _ => id)
        (fun _ _ => .inl)
      · simp only [History.arm, Function.update_apply]
        split_ifs with hu
        · rw [hu, hfresh]
          simp
        · exact Iff.rfl
      · exact Function.update_of_ne (hne u hu) ..
  | publishRequest p t =>
    obtain ⟨-, hclaimed⟩ := htickets.publishing k p t hpc
    simp only [callbackStep, hpc, Option.some.injEq] at hstep
    subst hstep
    refine h.callback ⟨rfl, rfl⟩ (.refl _) ⟨rfl, rfl, rfl⟩ (fun u => ?_) (fun _ _ => .inl)
    simp only [History.passTicket, Function.update_apply]
    split_ifs with hu
    · rw [hu, hclaimed]
      simp
    · exact Iff.rfl
  | answer p =>
    simp only [callbackStep, hpc, State.answer] at hstep
    split_ifs at hstep <;> cases hstep
    · exact h.callback ⟨rfl, rfl⟩ (.storeAnswered _) ⟨rfl, rfl, rfl⟩ (fun _ => Iff.rfl)
        (fun _ _ => .inl)
    · exact h.callback ⟨rfl, rfl⟩ (.refl _) ⟨rfl, rfl, rfl⟩ (fun _ => Iff.rfl) (fun _ _ => .inl)
  | respond p =>
    have haside := State.Aside.sendSlot (s := s) cfg i (s.queue.index p) p .callback
      cfg.defaultAnswer (by simp)
    simp only [callbackStep, hpc, Option.some.injEq] at hstep
    subst hstep
    exact h.callback ⟨rfl, rfl⟩ (.refl _) ⟨rfl, rfl, rfl⟩ (fun _ => Iff.rfl) haside.history.log
  | raiseDepthMax | notify =>
    simp only [callbackStep, hpc] at hstep
    split_ifs at hstep <;> cases hstep <;>
      exact h.callback ⟨rfl, rfl⟩ ⟨rfl, fun _ => rfl, fun _ => .intro⟩ ⟨rfl, rfl, rfl⟩
        (fun _ => Iff.rfl) (fun _ _ => .inl)
  | storeSequence p =>
    simp only [callbackStep, hpc, Option.some.injEq] at hstep
    subst hstep
    exact h.callback ⟨rfl, rfl⟩ (.storePublished p) ⟨rfl, rfl, rfl⟩ (fun _ => Iff.rfl)
      (fun _ _ => .inl)
  | returned => simp [callbackStep, hpc] at hstep

/-- The watchdog never finds the heap full, and what it sets is newer than what it replaces. -/
theorem Tracking.set (hslots : SlotsInv cfg s) (htickets : Tickets s) (h : Tracking s) {t : Nat}
    {request : Entry} (hpc : s.watchdog = .popRelease t request) :
    (s.heap.contains request.slot ∨ s.heap.size < s.heap.capacity) ∧
      ∀ e, s.heap.Mem e → e.slot = request.slot → e.position < request.position := by
  obtain ⟨htaken, hdeq, hrequest⟩ := htickets.taken t request hpc
  constructor
  -- The entries have slots of the queue, of which there are no more than the heap has room for
  · refine h.good.room (Finset.range s.queue.capacity) (fun e he => ?_) ?_ ?_
    · obtain ⟨u, -, rfl⟩ := h.heap e he
      exact Finset.mem_range.mpr (hslots.slots.index_lt _)
    · rw [Finset.card_range, h.capacity]
    · rw [hrequest]
      exact Finset.mem_range.mpr (hslots.slots.index_lt _)
  · intro e he hslot
    obtain ⟨u, hu, rfl⟩ := h.heap e he
    -- The watchdog takes the requests in the order of their tickets
    have hlt : u < t := by
      have := htickets.ring.delivered u (.inr hu)
      have hne : u ≠ t := by
        rintro rfl
        cases hu.symm.trans htaken
      rw [Requests.ring_deq, hdeq] at this
      omega
    rw [hrequest] at hslot ⊢
    exact htickets.order u t (by rw [htaken]; simp) hlt hslot

/-- A step of the watchdog that leaves the heap alone. -/
theorem Tracking.watchdog (h : Tracking s) (hheap : s'.heap = s.heap)
    (hqueue : s.queue.Aside s'.queue)
    (hposition : s'.history.ticketPosition = s.history.ticketPosition ∧
      s'.history.owner = s.history.owner ∧ s'.history.fireAt = s.history.fireAt)
    (hreleased : ∀ t, s'.history.ticketPhase t = .released ↔ s.history.ticketPhase t = .released)
    (hdue : ∀ e now, s'.watchdog.due = some (e, now) → s.watchdog.due = some (e, now))
    (hanswering : ∀ t, s.history.ticketPhase t = .released →
      s'.pending (s.history.ticketPosition t) →
      s.watchdog.answering = some (s.entry (s.history.ticketPosition t)) →
      s'.watchdog.answering = some (s.entry (s.history.ticketPosition t)))
    (hanswered : ∀ m client e now response,
      .respond client (.watchdog e now) response ∈ s'.history.log m →
      .respond client (.watchdog e now) response ∈ s.history.log m ∨
        s.Popped e ∧ e.message = m ∧ e.fireAt ≤ now) : Tracking s' := by
  obtain ⟨hposition, howner, hfireAt⟩ := hposition
  have hkeeps : s.Keeps s' := ⟨hreleased, fun t _ => by rw [hposition], fun t _ =>
    State.entry_eq hqueue.capacity (by rw [howner]) (by rw [hfireAt])⟩
  constructor
  case capacity => rw [hheap, hqueue.capacity, h.capacity]
  case good => rw [hheap]; exact h.good
  case heap => rw [hheap]; exact fun e he => hkeeps.popped (h.heap e he)
  case due =>
    intro e now he
    obtain ⟨hpopped, hle⟩ := h.due e now (hdue e now he)
    exact ⟨hkeeps.popped hpopped, hle⟩
  case tracked =>
    intro t ht hp
    -- Whatever was tracked is still in the heap, or still in the watchdog's hands
    have ht' := (hreleased t).mp ht
    rw [hposition] at hp ⊢
    rw [hkeeps.entry t ht', hheap]
    exact (h.tracked t ht' (hqueue.pending hp)).imp_right (hanswering t ht' hp)
  case answered =>
    intro m client e now response hmem
    obtain ⟨hpopped, hdue⟩ := (hanswered m client e now response hmem).elim
      (h.answered m client e now response) id
    exact ⟨hkeeps.popped hpopped, hdue⟩

/-- A step of the watchdog outside `answer_due`, or out of it, that leaves the heap alone. -/
theorem Tracking.watchdogIdle (h : Tracking s) (hheap : s'.heap = s.heap)
    (hqueue : s.queue.Aside s'.queue)
    (hposition : s'.history.ticketPosition = s.history.ticketPosition ∧
      s'.history.owner = s.history.owner ∧ s'.history.fireAt = s.history.fireAt)
    (hreleased : ∀ t, s'.history.ticketPhase t = .released ↔ s.history.ticketPhase t = .released)
    (hold : s.watchdog.answering = none) (hnew : s'.watchdog.due = none)
    (hlog : s'.history.log = s.history.log) : Tracking s' := by
  refine h.watchdog hheap hqueue hposition hreleased (by simp [hnew]) (fun t _ _ ht => ?_) ?_
  · simp [hold] at ht
  · rw [hlog]
    exact fun _ _ _ _ _ => .inl

/-- The watchdog has taken request `t` from the ring and sets it. -/
theorem Tracking.popRelease (hslots : SlotsInv cfg s) (htickets : Tickets s) (h : Tracking s)
    {t : Nat} {request : Entry} (hpc : s.watchdog = .popRelease t request) :
    Tracking { s with
      watchdog := .popLoad
      requests := s.requests.release t
      heap := s.heap.set request
      history := s.history.passTicket t .released } := by
  obtain ⟨htaken, -, hrequest⟩ := htickets.taken t request hpc
  obtain ⟨hroom, hnewer⟩ := h.set hslots htickets hpc
  obtain ⟨hgood, hcap, hmem⟩ := h.good.set hroom
  have hself : (s.history.passTicket t .released).ticketPhase t = .released :=
    Function.update_self ..
  have hother : ∀ u, u ≠ t → (s.history.passTicket t .released).ticketPhase u =
      s.history.ticketPhase u := fun u hu => Function.update_of_ne hu ..
  -- Entries of earlier requests have been popped, and this one has been now
  have hpopped : ∀ e, s.Popped e → ∃ u,
      (s.history.passTicket t .released).ticketPhase u = .released ∧
        e = s.entry (s.history.ticketPosition u) := by
    rintro e ⟨u, hu, rfl⟩
    refine ⟨u, ?_, rfl⟩
    rcases eq_or_ne u t with rfl | hne
    · exact hself
    · rwa [hother u hne]
  constructor
  case capacity => exact hcap.trans h.capacity
  case good => exact hgood
  case heap =>
    intro e he
    obtain rfl | ⟨he, -⟩ := (hmem e).mp he
    · exact ⟨t, hself, hrequest⟩
    · exact hpopped e (h.heap e he)
  case due => simp [WatchdogPc.due]
  case tracked =>
    intro u hu hp
    refine .inl ((hmem _).mpr ?_)
    -- The entry that is set, and those that were in the heap
    rcases eq_or_ne u t with rfl | hne
    · exact .inl hrequest.symm
    · rw [hother u hne] at hu
      obtain hheap | hanswering := h.tracked u hu hp
      · refine .inr ⟨hheap, fun hslot => ?_⟩
        -- The position of the entry in the heap would be gone, since its slot has a newer one
        have hlt := hnewer _ hheap hslot
        have hactive := hslots.active_of_pending (p := s.history.ticketPosition u) hp
        have harmed := htickets.armed (s.history.ticketPosition t)
          (by rw [(htickets.ticket _ t).mpr ⟨by rw [htaken]; simp, rfl⟩]; simp)
        rw [hrequest] at hlt hslot
        have hle := hslots.slots.ring.le_of_active hactive
          (fun hphase => harmed (Stage.unclaimed_of_phase hphase)) hslot
        exact absurd hlt (Nat.not_lt.mpr hle)
      · rw [hpc] at hanswering
        cases hanswering
  case answered =>
    intro m client e now response hlog
    obtain ⟨hpop, hdue⟩ := h.answered m client e now response hlog
    exact ⟨hpopped e hpop, hdue⟩

/-- The first entry of the heap is due. -/
theorem Tracking.clock (h : Tracking s) {now : Nat} (hpc : s.watchdog = .clock)
    (hsize : s.heap.size > 0) (hdue : (s.heap.entries 0).fireAt ≤ now) :
    Tracking { s with
      watchdog := .loadOccupied (s.heap.entries 0) now
      heap := s.heap.remove 0 } := by
  obtain ⟨hgood, hcap, -, hmem⟩ := h.good.remove hsize
  have hroot : s.heap.Mem (s.heap.entries 0) := ⟨0, hsize, rfl⟩
  constructor
  case capacity => exact hcap.trans h.capacity
  case good => exact hgood
  case heap => exact fun e he => h.heap e ((hmem e).mp he).1
  case due =>
    rintro e _ ⟨⟩
    exact ⟨h.heap _ hroot, hdue⟩
  case tracked =>
    intro t ht hp
    obtain hheap | hanswering := h.tracked t ht hp
    -- The entry that is taken out is the one that `answer_due` gets; the others stay in the heap
    · by_cases hslot : (s.entry (s.history.ticketPosition t)).slot = (s.heap.entries 0).slot
      · exact .inr (congrArg some (h.good.ok.eq_of_key hroot hheap hslot.symm))
      · exact .inl ((hmem _).mpr ⟨hheap, hslot⟩)
    · rw [hpc] at hanswering
      cases hanswering
  case answered => exact h.answered

theorem watchdogStep_tracking (hslots : SlotsInv cfg s) (hreaders : Readers s)
    (htickets : Tickets s) (h : Tracking s) (hstep : watchdogStep cfg i s = some s') :
    Tracking s' := by
  have hlog : ∀ m client e now response,
      .respond client (.watchdog e now) response ∈ s.history.log m →
      .respond client (.watchdog e now) response ∈ s.history.log m ∨
        s.Popped e ∧ e.message = m ∧ e.fireAt ≤ now := fun _ _ _ _ _ => .inl
  cases hpc : s.watchdog with
  | loadRunning | popSequence | stopped =>
    simp only [watchdogStep, hpc, Option.some.injEq] at hstep
    subst hstep
    split_ifs <;>
      exact h.watchdogIdle rfl (.refl _) ⟨rfl, rfl, rfl⟩ (fun _ => Iff.rfl)
        (by rw [hpc]; rfl) rfl rfl
  | popLoad | count | notifyWrite | wait | exiting | deleting =>
    simp only [watchdogStep, hpc, Option.some.injEq] at hstep
    subst hstep
    exact h.watchdogIdle rfl (.refl _) ⟨rfl, rfl, rfl⟩ (fun _ => Iff.rfl) (by rw [hpc]; rfl) rfl rfl
  | notify | asleep =>
    simp only [watchdogStep, hpc] at hstep
    split_ifs at hstep <;> cases hstep <;>
      exact h.watchdogIdle rfl (.refl _) ⟨rfl, rfl, rfl⟩ (fun _ => Iff.rfl)
        (by rw [hpc]; rfl) rfl rfl
  | popStore t =>
    have hdeq := htickets.popping t (by rw [hpc]; rfl)
    -- The request has been published, so it is not one that is done with
    have hseq := htickets.ready t hpc
    subst hdeq
    have hpublished := htickets.ring.filled_published hseq
    simp only [watchdogStep, hpc, Option.some.injEq] at hstep
    subst hstep
    refine h.watchdogIdle rfl (.refl _) ⟨rfl, rfl, rfl⟩ (fun u => ?_) (by rw [hpc]; rfl) rfl rfl
    simp only [History.passTicket, Function.update_apply]
    split_ifs with hu
    · rw [hu, show s.history.ticketPhase s.requests.dequeuePosition = _ from hpublished]
      simp
    · exact Iff.rfl
  | popRelease t request =>
    simp only [watchdogStep, hpc, Option.some.injEq] at hstep
    subst hstep
    exact h.popRelease hslots htickets hpc
  | clock =>
    simp only [watchdogStep, hpc] at hstep
    split_ifs at hstep with hdue <;> cases hstep
    · exact h.clock hpc hdue.1 hdue.2
    · exact h.watchdogIdle rfl (.refl _) ⟨rfl, rfl, rfl⟩ (fun _ => Iff.rfl)
        (by rw [hpc]; rfl) rfl rfl
  | loadOccupied entry now =>
    simp only [watchdogStep, hpc, Option.some.injEq] at hstep
    subst hstep
    split_ifs with hoccupied
    · exact h.watchdog rfl (.refl _) ⟨rfl, rfl, rfl⟩ (fun _ => Iff.rfl)
        (by rw [hpc]; exact fun _ _ => id) (by rw [hpc]; exact fun _ _ _ => id) hlog
    · refine h.watchdog rfl (.refl _) ⟨rfl, rfl, rfl⟩ (fun _ => Iff.rfl) (by simp [WatchdogPc.due])
        -- `answer_due` leaves an entry whose slot is not occupied, and that one is not pending
        (fun t ht hp hanswering => ?_) hlog
      rw [hpc] at hanswering
      cases hanswering
      exact absurd hp.2.1 hoccupied
  | addReader entry now =>
    simp only [watchdogStep, hpc, Option.some.injEq] at hstep
    subst hstep
    exact h.watchdog rfl (.storeReaders _ _) ⟨rfl, rfl, rfl⟩ (fun _ => Iff.rfl)
      (by rw [hpc]; exact fun _ _ => id) (by rw [hpc]; exact fun _ _ _ => id) hlog
  | recheck entry now =>
    simp only [watchdogStep, hpc] at hstep
    split_ifs at hstep with hgone <;> cases hstep
    · refine h.watchdog rfl (.refl _) ⟨rfl, rfl, rfl⟩ (fun _ => Iff.rfl) (by simp [WatchdogPc.due])
        -- The same goes for one whose slot has gone to a later position
        (fun t ht hp hanswering => ?_) hlog
      rw [hpc] at hanswering
      cases hanswering
      obtain ⟨hposition, hoccupied, -⟩ := hp
      simp only [Bool.or_eq_true, Bool.not_eq_true', decide_eq_true_eq] at hgone
      obtain hgone | hgone := hgone
      · cases hgone.symm.trans hoccupied
      · exact absurd hposition hgone
    · exact h.watchdog rfl (.refl _) ⟨rfl, rfl, rfl⟩ (fun _ => Iff.rfl)
        (by rw [hpc]; exact fun _ _ => id) (by rw [hpc]; exact fun _ _ _ => id) hlog
  | exchange entry now =>
    simp only [watchdogStep, hpc, State.answer] at hstep
    split_ifs at hstep with hpending <;> cases hstep
    · refine h.watchdog rfl (.storeAnswered _) ⟨rfl, rfl, rfl⟩ (fun _ => Iff.rfl)
        -- The watchdog has won the exchange, and the entry is not pending any more
        (by rw [hpc]; exact fun _ _ => id) (fun t ht hp hanswering => ?_) hlog
      rw [hpc] at hanswering
      cases hanswering
      obtain ⟨-, -, hanswered⟩ := hp
      change ((s.queue.storeAnswerState (s.queue.index _) .answered).slots
        (s.queue.index _)).answerState = .pending at hanswered
      rw [Queue.slots_storeAnswerState, if_pos rfl] at hanswered
      cases hanswered
    · refine h.watchdog rfl (.refl _) ⟨rfl, rfl, rfl⟩ (fun _ => Iff.rfl) (by simp [WatchdogPc.due])
        -- Somebody else has answered it
        (fun t ht hp hanswering => ?_) hlog
      rw [hpc] at hanswering
      cases hanswering
      exact absurd hp.2.2 hpending
  | respond entry now =>
    obtain ⟨hpopped, hdue⟩ := h.due entry now (by rw [hpc]; rfl)
    obtain ⟨hindex, hexposed⟩ := hreaders.matched entry (by rw [hpc]; rfl)
    -- The recheck has found the position of the entry in its slot, and with it its message
    have hmessage : (s.queue.slots entry.slot).message = entry.message := by
      have hfull := (hslots.slots.slot entry.position).full
        (by cases hst : s.history.stage entry.position <;> simp_all [Stage.exposed, Stage.full])
      rw [Queue.slot, hindex] at hfull
      rw [hfull.1]
      obtain ⟨t, -, rfl⟩ := hpopped
      rfl
    simp only [watchdogStep, hpc, Option.some.injEq] at hstep
    subst hstep
    refine h.watchdog rfl (.refl _) ⟨rfl, rfl, rfl⟩ (fun _ => Iff.rfl)
      (by simp [WatchdogPc.due])
      (by simp [hpc, WatchdogPc.answering]) (fun m client e now' response hmem => ?_)
    simp only [State.sendSlot, State.sendResponse, History.send, History.record, hmessage,
      Function.update_apply] at hmem
    split_ifs at hmem with hm
    · obtain heq | hmem := List.mem_cons.mp hmem
      · cases heq
        exact .inr ⟨hpopped, hm.symm, hdue⟩
      · exact .inl (hm ▸ hmem)
    · exact .inl hmem
  | subReader entry =>
    simp only [watchdogStep, hpc, Option.some.injEq] at hstep
    subst hstep
    exact h.watchdogIdle rfl (.storeReaders _ _) ⟨rfl, rfl, rfl⟩ (fun _ => Iff.rfl)
      (by rw [hpc]; rfl) rfl rfl
  | deleted => simp [watchdogStep, hpc] at hstep

/-- The invariant holds in every reachable state. -/
theorem reachable_tracking (hs : Reachable (step cfg) (.init cfg) s) : Tracking s := by
  apply hs.invariant (tracking_init cfg)
  intro s a s' hs h hstep
  have hslots := reachable_slots hs
  have htickets := reachable_tickets hs
  cases a with
  | callback k input => exact callbackStep_tracking hslots htickets h hstep
  | watchdog input => exact watchdogStep_tracking hslots (reachable_readers hs) htickets h hstep
  | call call => exact h.aside (callStep_aside hstep)
  | ruby input => exact h.aside (rubyStep_aside hstep)

/-! ## The watchdog -/

/-- The entry that the watchdog is handling: it has just taken it from the ring, or `answer_due`
    has been called with it. -/
def WatchdogPc.handling : WatchdogPc → Option Entry
  | .popRelease _ e | .loadOccupied e _ | .addReader e _ | .recheck e _ | .exchange e _ => some e
  | _ => none

/-- Where an entry is that the watchdog will get to. -/
inductive State.Tracks (s : State) (e : Entry) : Prop where
  /-- It is published in the ring of requests. -/
  | ring (t : Nat) (hle : s.requests.dequeuePosition ≤ t) (hlt : t < s.requests.enqueuePosition)
      (hrequest : s.requests.request t = ⟨t + 1, e⟩)
  | heap (hmem : s.heap.Mem e)
  | handling (hpc : s.watchdog.handling = some e)

/-- In every reachable state:
    - the entry of an occupied slot with a pending answer whose callback has armed it is in the
      ring of requests or in the heap, or the watchdog is handling it;
    - an entry that `heap_set` is called with finds its slot in the heap, or the heap not full;
    - it replaces no entry of a later position of the same slot;
    - every response of the watchdog is for the message whose callback has armed the entry, and
      is sent on a clock reading that is not before the time at which that message is due. -/
theorem watchdog_tracks (hs : Reachable (step cfg) (.init cfg) s) :
    (∀ j t, (s.queue.slots j).occupied → (s.queue.slots j).answerState = .pending →
      s.history.ticket (s.queue.slots j).position = some t → s.history.ticketPhase t ≠ .claimed →
      ∃ e, e.slot = j ∧ e.position = (s.queue.slots j).position ∧
        e.fireAt = (s.queue.slots j).fireAt ∧ s.Tracks e) ∧
    (∀ t request, s.watchdog = .popRelease t request →
      (s.heap.contains request.slot ∨ s.heap.size < s.heap.capacity) ∧
      ∀ e, s.heap.Mem e → e.slot = request.slot → e.position < request.position) ∧
    (∀ m client e now response, .respond client (.watchdog e now) response ∈ s.history.log m →
      e.message = m ∧ s.history.owner e.position = m ∧ s.history.ticket e.position ≠ none ∧
      e.fireAt = s.history.fireAt e.position ∧ e.fireAt ≤ now) := by
  have hslots := reachable_slots hs
  have htickets := reachable_tickets hs
  have h := reachable_tracking hs
  refine ⟨fun j t hoccupied hpending hticket hpublished => ?_, fun t request hpc =>
    h.set hslots htickets hpc, fun m client e now response hmem => ?_⟩
  -- The position in an occupied slot is the one that the request was made for
  · obtain ⟨hindex, hst⟩ := hslots.slots.occupied_position hoccupied
    obtain ⟨hclaimed, hposition⟩ := (htickets.ticket _ t).mp hticket
    have hslot : s.queue.slot (s.queue.slots j).position = s.queue.slots j := by
      rw [Queue.slot, hindex]
    generalize hp : (s.queue.slots j).position = p at *
    have hfull := (hslots.slots.slot p).full (by
      rcases hst with hst | hst
      · cases hcase : s.history.stage p <;> simp_all [Stage.occupied, Stage.full]
      · rw [hst]; rfl)
    rw [hslot] at hfull
    refine ⟨s.entry p, hindex, rfl, hfull.2.2.symm, ?_⟩
    -- How far the request has got says where its entry is
    cases hphase : s.history.ticketPhase t with
    | unclaimed => exact absurd hphase hclaimed
    | claimed => exact absurd hphase hpublished
    | published =>
      have hlt := htickets.ring.active_lt (p := t) (by rw [hphase]; rfl)
      have hseq := htickets.ring.seq_full t (.inl hphase)
      refine .ring t (htickets.ring.queued t (.inr hphase)) hlt ?_
      rw [← hposition, ← htickets.entry t (.inl hphase), ← hseq]
      rfl
    | taken =>
      obtain ⟨request, hpc⟩ := htickets.held t hphase
      obtain ⟨-, -, hrequest⟩ := htickets.taken t request hpc
      refine .handling ?_
      rw [hpc, ← hposition, ← hrequest]
      rfl
    | released =>
      have htracked := h.tracked t hphase
      rw [hposition] at htracked
      obtain hmem | hanswering := htracked ⟨by rw [hslot, hp], by rw [hslot]; exact hoccupied,
        by rw [hslot]; exact hpending⟩
      · exact .heap hmem
      · refine .handling ?_
        cases hpc : s.watchdog <;> simp_all [WatchdogPc.answering, WatchdogPc.handling]
  · obtain ⟨⟨t, ht, rfl⟩, hm, hdue⟩ := h.answered m client e now response hmem
    exact ⟨hm, hm, htickets.ticket_of_released ht, rfl, hdue⟩

/-- An AUTH message is queued, and the watchdog takes its request from the ring. -/
def armAndPop : List Action := callbackSteps 0 19 ++ List.replicate 5 (Action.watchdog {})

theorem watchdog_tracks_armed :
    let s := TransitionSystem.final (step smallClient) armAndPop (.init smallClient)
      (by decide +kernel)
    ∃ e, e.slot = 0 ∧ e.position = (s.queue.slots 0).position ∧
      e.fireAt = (s.queue.slots 0).fireAt ∧ s.Tracks e :=
  (watchdog_tracks (.final _)).1 0 0 (by decide +kernel) (by decide +kernel) (by decide +kernel)
    (by decide +kernel)

end EndpointSecurity
