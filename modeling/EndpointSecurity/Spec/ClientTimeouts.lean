import EndpointSecurity.Spec.ClientStats

/-!
# Every due message is answered

The watchdog takes requests from the ring in the order of their tickets, and entries from its
heap in the order in which they are due. A message that is due is therefore answered before the
watchdog goes to sleep again, provided that its request can be reached: no earlier request is
still being written.

## Key results

- `Overdue`: a message that the watchdog has to answer
- `overdue_answered`: the watchdog alone answers and counts it, within a bounded number of steps
- `asleep_not_due`: when the watchdog goes to sleep, nothing that it knows of is due
-/

namespace EndpointSecurity

open SeqRing (Phase)
open TransitionSystem (Reachable Completes)

variable {cfg : Config} {s s' : State} {i : Input} {p t : Nat}

/-- The watchdog has sent the default answer to the message of an entry, through the native client
    that the message came for and not before it was due. -/
def State.Defaulted (cfg : Config) (s : State) (e : Entry) : Prop :=
  ∃ reading, e.fireAt ≤ reading ∧
    .respond (cfg.arrivals e.message).client (.watchdog e reading)
      (cfg.response e.message cfg.defaultAnswer) ∈ s.history.log e.message

/-- The watchdog has answered the message of an entry by default, and `timeouts` is the number of
    messages that it has answered. -/
def State.TimedOut (cfg : Config) (s : State) (e : Entry) : Prop :=
  s.Defaulted cfg e ∧ Tally s.stats.timeouts fun m => s.expired m

/-- Position `p` of an open client has been armed with request `t`, and has not been answered and
    counted. Every request up to its own has been published. -/
structure Overdue (cfg : Config) (s : State) (p t : Nat) : Prop where
  opened : s.closed = false
  ticket : s.history.ticket p = some t
  published : ∀ u ≤ t, s.history.ticketPhase u ≠ .claimed
  unanswered : s.pending p ∨ (∃ reading, s.watchdog = .respond (s.entry p) reading) ∨
    s.watchdog = .count (s.entry p) ∧ s.Defaulted cfg (s.entry p)

/-- The watchdog has begun a pass and not come to its clock yet. -/
def WatchdogPc.gathering : WatchdogPc → Bool
  | .popLoad | .popSequence _ | .popStore _ | .popRelease _ _ => true
  | _ => false

/-- Between two passes. -/
def WatchdogPc.between : WatchdogPc → Bool
  | .wait | .loadRunning => true
  | _ => false

/-- The pass of the watchdog that answers the message armed with request `t`. -/
def State.lastPass (s : State) (t : Nat) : Bool :=
  s.watchdog.gathering || (s.history.ticketPhase t = .released && !s.watchdog.between)

/-- The steps until the watchdog has answered the message: those of its last pass, after those
    that are left of the pass before. -/
def State.overdueRank (s : State) (t : Nat) : Nat :=
  if s.lastPass t then s.watchdog.rank s.requests s.heap
  else 27 + 24 * s.queue.capacity + s.watchdog.rank s.requests s.heap

theorem State.overdueRank_last (h : s.lastPass t) :
    s.overdueRank t = s.watchdog.rank s.requests s.heap :=
  if_pos h

theorem State.overdueRank_earlier (h : s.lastPass t = false) :
    s.overdueRank t = 27 + 24 * s.queue.capacity + s.watchdog.rank s.requests s.heap :=
  if_neg (by simp [h])

/-! ## What the watchdog leaves alone -/

/-- The watchdog only moves requests on. -/
theorem watchdogStep_requests (htickets : Tickets s) (hstep : watchdogStep cfg i s = some s') :
    s'.history.ticket = s.history.ticket ∧ s'.history.ticketPosition = s.history.ticketPosition ∧
      s'.history.owner = s.history.owner ∧ s'.history.fireAt = s.history.fireAt ∧
      (∀ u, s.history.ticketPhase u ≠ .claimed → s'.history.ticketPhase u ≠ .claimed) ∧
      ∀ u, s.history.ticketPhase u = .released → s'.history.ticketPhase u = .released := by
  cases hpc : s.watchdog with
  | popStore u =>
    have hnext := htickets.popping u (by rw [hpc]; rfl)
    have hready := htickets.ready u hpc
    subst hnext
    have hpublished : s.history.ticketPhase s.requests.dequeuePosition = .published :=
      htickets.ring.filled_published hready
    simp only [watchdogStep, hpc, Option.some.injEq] at hstep
    subst hstep
    refine ⟨rfl, rfl, rfl, rfl, fun v hv => ?_, fun v hv => ?_⟩
    · simp only [History.passTicket, Function.update_apply]
      split_ifs <;> simp [hv]
    · simp only [History.passTicket, Function.update_apply]
      split_ifs with hvu
      · rw [hvu, hpublished] at hv
        cases hv
      · exact hv
  | popRelease u request =>
    simp only [watchdogStep, hpc, Option.some.injEq] at hstep
    subst hstep
    refine ⟨rfl, rfl, rfl, rfl, fun v hv => ?_, fun v hv => ?_⟩ <;>
      simp only [History.passTicket, Function.update_apply] <;> split_ifs <;> simp [hv]
  | loadRunning | popLoad | popSequence | loadOccupied | addReader | respond | count | notifyWrite
  | subReader | wait | exiting | stopped | deleting =>
    simp only [watchdogStep, hpc, Option.some.injEq] at hstep
    subst hstep
    exact ⟨rfl, rfl, rfl, rfl, fun _ => id, fun _ => id⟩
  | clock | recheck | exchange | notify | asleep =>
    simp only [watchdogStep, hpc] at hstep
    split_ifs at hstep <;> cases hstep <;> exact ⟨rfl, rfl, rfl, rfl, fun _ => id, fun _ => id⟩
  | deleted => simp [watchdogStep, hpc] at hstep

/-- The entry of a position stays what it is. -/
theorem watchdogStep_entry (htickets : Tickets s) (hstep : watchdogStep cfg i s = some s')
    (p : Nat) : s'.entry p = s.entry p := by
  obtain ⟨-, -, howner, hfireAt, -⟩ := watchdogStep_requests htickets hstep
  exact State.entry_eq (watchdogStep_steady hstep).capacity (by rw [howner]) (by rw [hfireAt])

/-- Registering as a reader, or leaving, changes nothing of what is pending. -/
theorem State.pending_storeReaders {j readers : Nat} (hp : s.pending p)
    (hqueue : s'.queue = s.queue.storeReaders j readers) : s'.pending p := by
  have hindex : s'.queue.index p = s.queue.index p := by rw [hqueue]; rfl
  obtain ⟨hposition, hoccupied, hanswer⟩ := hp
  rw [State.pending, Queue.slot, hindex, hqueue, Queue.slots_storeReaders]
  split_ifs with hj
  · exact ⟨hposition, hoccupied, hanswer⟩
  · exact ⟨hposition, hoccupied, hanswer⟩

/-- The entry that the watchdog has found in the slot of a pending position is its own. -/
theorem entry_of_matched (hslots : SlotsInv cfg s) (hreaders : Readers s) (htracking : Tracking s)
    (hp : s.pending p) {entry : Entry} {reading : Nat} (hpc : s.watchdog = .exchange entry reading)
    (hslot : s.queue.index p = entry.slot) : entry = s.entry p := by
  obtain ⟨hindex, hexposed⟩ := hreaders.matched entry (by rw [hpc]; rfl)
  obtain ⟨⟨u, -, rfl⟩, -⟩ := htracking.due entry reading (by rw [hpc]; rfl)
  have hactive : (s.history.stage (s.history.ticketPosition u)).phase.active := by
    cases hst : s.history.stage (s.history.ticketPosition u) <;>
      simp_all [Stage.exposed, Stage.phase, Phase.active, State.entry]
  -- Two positions in use never share a slot
  have hsame := hslots.slots.ring.active_unique (hslots.active_of_pending hp) hactive hslot
  rw [hsame]

/-- A response that the watchdog is about to send goes to the message that its entry has been
    armed for. -/
theorem respond_defaulted (hslots : SlotsInv cfg s) (hreaders : Readers s) (htracking : Tracking s)
    {reading : Nat} (hpc : s.watchdog = .respond (s.entry p) reading)
    (hstep : watchdogStep cfg i s = some s') : s'.Defaulted cfg (s.entry p) := by
  obtain ⟨hindex, hexposed⟩ := hreaders.matched (s.entry p) (by rw [hpc]; rfl)
  obtain ⟨hmessage, hclient, -⟩ := (hslots.slots.slot p).full (by
    cases hst : s.history.stage p <;> simp_all [Stage.exposed, Stage.full, State.entry])
  have hmessage : (s.queue.slots (s.entry p).slot).message = (s.entry p).message := hmessage
  have hclient : (s.queue.slots (s.entry p).slot).client =
      (cfg.arrivals (s.entry p).message).client := hclient
  obtain ⟨-, hdue⟩ := htracking.due (s.entry p) reading (by rw [hpc]; rfl)
  simp only [watchdogStep, hpc, Option.some.injEq] at hstep
  subst hstep
  refine ⟨reading, hdue, ?_⟩
  simp only [State.sendSlot, State.sendResponse, History.send, History.record, hmessage, hclient,
    Function.update_self]
  exact List.mem_cons_self

/-- A message that is due stays unanswered until the watchdog responds to it, and uncounted until
    the watchdog counts that. -/
theorem Overdue.unanswered_step (hs : Reachable (step cfg) (.init cfg) s) (h : Overdue cfg s p t)
    (hstep : watchdogStep cfg i s = some s') (hout : ¬s'.TimedOut cfg (s.entry p)) :
    s'.pending p ∨ (∃ reading, s'.watchdog = .respond (s.entry p) reading) ∨
      s'.watchdog = .count (s.entry p) ∧ s'.Defaulted cfg (s.entry p) := by
  have hslots := reachable_slots hs
  have hreaders := reachable_readers hs
  have htracking := reachable_tracking hs
  cases hpc : s.watchdog with
  | loadRunning | popLoad | popSequence | popStore | popRelease | loadOccupied | notifyWrite
  | wait | exiting | stopped | deleting =>
    have hp := h.unanswered.resolve_right (by simp [hpc])
    simp only [watchdogStep, hpc, Option.some.injEq] at hstep
    subst hstep
    exact .inl hp
  | clock | recheck | notify | asleep =>
    have hp := h.unanswered.resolve_right (by simp [hpc])
    simp only [watchdogStep, hpc] at hstep
    split_ifs at hstep <;> cases hstep <;> exact .inl hp
  | deleted => simp [watchdogStep, hpc] at hstep
  | addReader entry reading | subReader entry =>
    have hp := h.unanswered.resolve_right (by simp [hpc])
    simp only [watchdogStep, hpc, Option.some.injEq] at hstep
    subst hstep
    exact .inl (State.pending_storeReaders hp rfl)
  | exchange entry reading =>
    have hp := h.unanswered.resolve_right (by simp [hpc])
    simp only [watchdogStep, hpc] at hstep
    split_ifs at hstep <;> cases hstep
    · by_cases hslot : s.queue.index p = entry.slot
      · have hentry := entry_of_matched hslots hreaders htracking hp hpc hslot
        exact .inr (.inl ⟨reading, by rw [hentry]⟩)
      · left
        obtain ⟨hposition, hoccupied, hanswer⟩ := hp
        have hother : (s.queue.storeAnswerState entry.slot .answered).slots (s.queue.index p) =
            s.queue.slots (s.queue.index p) := by rw [Queue.slots_storeAnswerState, if_neg hslot]
        refine ⟨?_, ?_, ?_⟩
        · exact (congrArg Slot.position hother).trans hposition
        · exact (congrArg Slot.occupied hother).trans hoccupied
        · exact (congrArg Slot.answerState hother).trans hanswer
    · exact .inl hp
  | respond entry reading =>
    rcases h.unanswered with hp | ⟨reading', hown⟩ | ⟨hcounting, -⟩
    · simp only [watchdogStep, hpc, Option.some.injEq] at hstep
      subst hstep
      exact .inl hp
    · rw [hpc] at hown
      cases hown
      refine .inr (.inr ⟨?_, respond_defaulted hslots hreaders htracking hpc hstep⟩)
      simp only [watchdogStep, hpc, Option.some.injEq] at hstep
      subst hstep
      rfl
    · rw [hpc] at hcounting
      cases hcounting
  | count entry =>
    rcases h.unanswered with hp | ⟨reading, hown⟩ | ⟨-, hdefaulted⟩
    · simp only [watchdogStep, hpc, Option.some.injEq] at hstep
      subst hstep
      exact .inl hp
    · rw [hpc] at hown
      cases hown
    · -- Nothing that has been answered is left to be counted
      exfalso
      have hcounted := (reachable_counted (hs.step (a := .watchdog i) hstep)).timeouts
      simp only [watchdogStep, hpc, Option.some.injEq] at hstep
      subst hstep
      exact hout ⟨hdefaulted, hcounted⟩

/-! ## The last pass -/

/-- As long as requests up to its own are published, the request of the message is popped in the
    pass that the watchdog is gathering requests for. -/
theorem Overdue.released (htickets : Tickets s) (h : Overdue cfg s p t)
    (hgathering : s.watchdog = .popSequence s.requests.dequeuePosition)
    (hnone : s.requests.ready s.requests.dequeuePosition = false) :
    s.history.ticketPhase t = .released := by
  obtain ⟨hclaimed, -⟩ := (htickets.ticket p t).mp h.ticket
  cases hphase : s.history.ticketPhase t with
  | unclaimed => exact absurd hphase hclaimed
  | claimed => exact absurd hphase (h.published t (Nat.le_refl t))
  | taken =>
    obtain ⟨request, hpc⟩ := htickets.held t hphase
    rw [hgathering] at hpc
    cases hpc
  | released => rfl
  | published =>
    -- The request that the watchdog has just looked at comes before, and is published too
    exfalso
    have hle : s.requests.dequeuePosition ≤ t := htickets.ring.queued t (.inr hphase)
    have hlt := htickets.ring.active_lt (p := t) (by rw [hphase]; rfl)
    rw [Requests.ring_enq] at hlt
    have hnext : s.history.ticketPhase s.requests.dequeuePosition = .published := by
      cases hdeq : s.history.ticketPhase s.requests.dequeuePosition with
      | published => rfl
      | claimed => exact absurd hdeq (h.published _ hle)
      | unclaimed =>
        have := (htickets.ring.unclaimed _).mp hdeq
        rw [Requests.ring_enq] at this
        omega
      | taken | released =>
        have := htickets.ring.delivered s.requests.dequeuePosition (by simp [hdeq])
        exact absurd this (Nat.lt_irrefl _)
    have hseq : (s.requests.request s.requests.dequeuePosition).sequence =
        s.requests.dequeuePosition + 1 := htickets.ring.seq_full _ (.inl hnext)
    simp [Requests.ready, hseq] at hnone

/-- A pending message whose request has been popped keeps the watchdog from its sleep once it is
    due: the entry at the root of the heap is due no later. -/
theorem due_of_pending (htickets : Tickets s) (htracking : Tracking s)
    (hpc : s.watchdog = .clock) (hticket : s.history.ticket p = some t)
    (hreleased : s.history.ticketPhase t = .released) (hp : s.pending p)
    {now : Nat} (hdue : s.history.fireAt p ≤ now) :
    s.heap.size > 0 ∧ (s.heap.entries 0).fireAt ≤ now := by
  obtain ⟨-, rfl⟩ := (htickets.ticket p t).mp hticket
  have hmem := (htracking.tracked t hreleased hp).resolve_right
    (by simp [hpc, WatchdogPc.answering])
  have hsize : s.heap.size > 0 := Nat.zero_lt_of_lt hmem.choose_spec.1
  exact ⟨hsize, Nat.le_trans (htracking.good.root_le hmem) hdue⟩

/-- Nothing that the watchdog knows of is due when it goes to sleep: every pending message whose
    request it has popped is due after its last reading of the clock. -/
theorem asleep_not_due (hs : Reachable (step cfg) (.init cfg) s)
    (hstep : watchdogStep cfg i s = some s') (hpc : s.watchdog = .clock)
    (hsleep : s'.watchdog = .wait) (hticket : s.history.ticket p = some t)
    (hreleased : s.history.ticketPhase t = .released) (hp : s.pending p) :
    i.clock < s.history.fireAt p := by
  by_contra hdue
  have hroot := due_of_pending (reachable_tickets hs) (reachable_tracking hs) hpc hticket hreleased
    hp (Nat.le_of_not_lt hdue)
  simp only [watchdogStep, hpc, if_pos hroot, Option.some.injEq] at hstep
  subst hstep
  cases hsleep

/-- The watchdog does not leave its last pass. -/
theorem Overdue.lastPass_step (htickets : Tickets s) (htracking : Tracking s)
    (h : Overdue cfg s p t) (hdue : s.history.fireAt p ≤ i.clock)
    (hloop : s.watchdog.halted = false) (hstep : watchdogStep cfg i s = some s')
    (hlast : s.lastPass t) : s'.lastPass t := by
  obtain ⟨-, -, -, -, -, hreleased⟩ := watchdogStep_requests htickets hstep
  have hafter : s.watchdog.gathering = false → s'.watchdog.between = false → s'.lastPass t := by
    intro hgathering hbetween
    simp only [State.lastPass, hgathering, Bool.false_or, Bool.and_eq_true,
      decide_eq_true_eq] at hlast
    simp [State.lastPass, hbetween, hreleased t hlast.1]
  cases hpc : s.watchdog with
  | popLoad | popStore | popRelease =>
    simp only [watchdogStep, hpc, Option.some.injEq] at hstep
    subst hstep
    rfl
  | popSequence u =>
    have hnext := htickets.popping u (by rw [hpc]; rfl)
    subst hnext
    simp only [watchdogStep, hpc, Option.some.injEq] at hstep
    subst hstep
    cases hready : s.requests.ready s.requests.dequeuePosition with
    | true => rfl
    | false =>
      simp [State.lastPass, WatchdogPc.between, h.released htickets hpc hready]
  | clock =>
    have hp := h.unanswered.resolve_right (by simp [hpc])
    have hphase : s.history.ticketPhase t = .released := by
      simpa [State.lastPass, hpc, WatchdogPc.gathering, WatchdogPc.between] using hlast
    have hroot := due_of_pending htickets htracking hpc h.ticket hphase hp hdue
    simp only [watchdogStep, hpc, if_pos hroot, Option.some.injEq] at hstep
    subst hstep
    exact hafter (by rw [hpc]; rfl) rfl
  | loadOccupied entry reading =>
    simp only [watchdogStep, hpc, Option.some.injEq] at hstep
    subst hstep
    exact hafter (by rw [hpc]; rfl) (by dsimp only; split_ifs <;> rfl)
  | addReader | respond | count | notifyWrite | subReader | exiting =>
    simp only [watchdogStep, hpc, Option.some.injEq] at hstep
    subst hstep
    exact hafter (by rw [hpc]; rfl) rfl
  | recheck | exchange | notify =>
    simp only [watchdogStep, hpc] at hstep
    split_ifs at hstep <;> cases hstep <;> exact hafter (by rw [hpc]; rfl) rfl
  | wait | loadRunning =>
    simp [State.lastPass, hpc, WatchdogPc.gathering, WatchdogPc.between] at hlast
  | stopped | asleep | deleting | deleted => simp [hpc, WatchdogPc.halted] at hloop

/-- Every step of the watchdog brings it closer to the response. -/
theorem Overdue.step (hs : Reachable (step cfg) (.init cfg) s) (h : Overdue cfg s p t)
    (hdue : s.history.fireAt p ≤ i.clock) :
    ∃ s', watchdogStep cfg i s = some s' ∧ (s'.TimedOut cfg (s.entry p) ∨
      Overdue cfg s' p t ∧ s'.overdueRank t < s.overdueRank t) := by
  have htickets := reachable_tickets hs
  have htracking := reachable_tracking hs
  have hflagged := reachable_flagged hs
  have hrunning := hflagged.running h.opened
  have hloop : s.watchdog.halted = false := by
    by_contra hhalted
    rw [hflagged.leaving (.inr (by simpa using hhalted))] at hrunning
    cases hrunning
  have hkept : ∀ s', watchdogStep cfg i s = some s' →
      s'.TimedOut cfg (s.entry p) ∨ Overdue cfg s' p t := by
    intro s' hstep
    by_cases hout : s'.TimedOut cfg (s.entry p)
    · exact .inl hout
    · obtain ⟨hticket, -, -, -, hclaimed, -⟩ := watchdogStep_requests htickets hstep
      refine .inr ⟨?_, ?_, fun u hu => hclaimed u (h.published u hu), ?_⟩
      · exact (watchdogStep_steady hstep).closed.trans h.opened
      · rw [hticket]
        exact h.ticket
      · rw [watchdogStep_entry htickets hstep]
        exact h.unanswered_step hs hstep hout
  by_cases hpc : s.watchdog = .loadRunning
  · -- A new pass begins, and it is the last one
    have hstep : watchdogStep cfg i s = some { s with watchdog := .popLoad } := by
      simp [watchdogStep, hpc, hrunning]
    have hs' : Reachable (EndpointSecurity.step cfg) (.init cfg) { s with watchdog := .popLoad } :=
      hs.step (a := .watchdog i) hstep
    have hle := WatchdogPc.rank_le (reachable_tickets hs') (reachable_tracking hs')
    refine ⟨_, hstep, (hkept _ hstep).imp_right fun hoverdue => ⟨hoverdue, ?_⟩⟩
    have hold : s.lastPass t = false := by
      simp [State.lastPass, hpc, WatchdogPc.gathering, WatchdogPc.between]
    have hnew : State.lastPass { s with watchdog := .popLoad } t := rfl
    rw [State.overdueRank_last hnew, State.overdueRank_earlier hold, hpc]
    exact Nat.lt_of_le_of_lt hle (Nat.lt_add_of_pos_right Nat.two_pos)
  · obtain ⟨s', hstep, hlt⟩ := watchdogStep_rank (i := i) cfg htickets htracking hloop
      (fun h => absurd h hpc)
    refine ⟨s', hstep, (hkept s' hstep).imp_right fun hoverdue => ⟨hoverdue, ?_⟩⟩
    have hcap := (watchdogStep_steady hstep).capacity
    have hlast := h.lastPass_step htickets htracking hdue hloop hstep
    simp only [State.overdueRank, hcap]
    split_ifs with hnew hold hold
    · exact hlt
    · omega
    · exact absurd (hlast hold) hnew
    · omega

/-- A pending message of an open client whose fallback time has come is answered by the watchdog
    alone, wherever all other threads have been stopped, as soon as every request up to its own has
    been published. The watchdog sends the default answer through the native client that the
    message came for, and counts it in `timeouts`, within as many steps as two of its passes take.
    The clock may show any time from the fallback time on at each of these steps. -/
theorem overdue_answered (hs : Reachable (step cfg) (.init cfg) s) (hopen : s.closed = false)
    (hp : s.pending p) (hticket : s.history.ticket p = some t)
    (hpublished : ∀ u ≤ t, s.history.ticketPhase u ≠ .claimed) :
    Completes (step cfg) Party.watchdog.action (fun i => s.history.fireAt p ≤ i.clock)
      (fun s' => s'.TimedOut cfg (s.entry p)) (55 + 48 * cfg.capacity.val) s := by
  have hcap := (reachable_slots hs).slots.capacity
  have hle := WatchdogPc.rank_le (reachable_tickets hs) (reachable_tracking hs)
  refine Completes.of_rank (I := fun u => u.entry p = s.entry p ∧ Overdue cfg u p t)
    (fun u => u.overdueRank t) ?_ hs ⟨rfl, hopen, hticket, hpublished, .inl hp⟩ ?_
  · rintro u i hu ⟨hentry, hoverdue⟩ - hdue
    have hfireAt : u.history.fireAt p = s.history.fireAt p := congrArg Entry.fireAt hentry
    obtain ⟨u', hstep, hout⟩ := hoverdue.step hu (hfireAt.trans_le hdue)
    rw [hentry] at hout
    refine ⟨u', hstep, hout.imp_right fun ⟨hoverdue', hlt⟩ => ⟨⟨?_, hoverdue'⟩, hlt⟩⟩
    rw [watchdogStep_entry (reachable_tickets hu) hstep, hentry]
  · dsimp only [State.overdueRank]
    split_ifs <;> omega

/-- An AUTH message is queued, and the watchdog has looked for requests before it was armed. -/
def armLate : List Action := List.replicate 3 (Action.watchdog {}) ++ callbackSteps 0 19

theorem overdue_answered_late :
    let s := TransitionSystem.final (step smallClient) armLate (.init smallClient)
      (by decide +kernel)
    Completes (step smallClient) Party.watchdog.action (fun i => 800 ≤ i.clock)
      (fun s' => s'.TimedOut smallClient (s.entry 0)) (55 + 48 * 2) s := by
  intro s
  have hs : Reachable (step smallClient) (.init smallClient) s := .final _
  have hdue : s.history.fireAt 0 = 800 := by decide +kernel
  rw [← hdue]
  refine overdue_answered (p := 0) (t := 0) hs ?_ ?_ ?_ (fun u hu => ?_)
  · decide +kernel
  · exact ⟨by decide +kernel, by decide +kernel, by decide +kernel⟩
  · decide +kernel
  · obtain rfl := Nat.le_zero.mp hu
    decide +kernel

end EndpointSecurity
