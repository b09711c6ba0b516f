import EndpointSecurity.Spec.ClientFrame

/-!
# The requests of a client

A callback arms its message with a request; requests are numbered in the order in which they
are made, and the watchdog takes them in that order. A slot that is used again is armed again,
and the requests for it are made in the order of its positions.

## Key results

- `Tickets`: the ring of requests agrees with the history
- `reachable_tickets`: the invariant holds in every reachable state
-/

namespace EndpointSecurity

open SeqRing (Phase LoopPc Ring)
open TransitionSystem (Reachable)

/-- The entry that the callback of position `p` makes a request for. -/
def State.entry (s : State) (p : Nat) : Entry :=
  { slot := s.queue.index p, position := p, fireAt := s.history.fireAt p,
    message := s.history.owner p }

/-- The position that a callback has claimed and not armed yet. -/
def CallbackPc.unarmed : CallbackPc → Option Nat
  | .fill p | .storeOccupied p | .arm p _ => some p
  | _ => none

theorem CallbackPc.position_of_unarmed {pc : CallbackPc} {p : Nat} (h : pc.unarmed = some p) :
    pc.position = some p := by
  cases pc <;> simp_all [unarmed, position]

/-- The request that `request_pop` is looking at. -/
def WatchdogPc.popping : WatchdogPc → Option Nat
  | .popSequence t | .popStore t => some t
  | _ => none

/-- A callback that is about to make a request, or is making it. -/
def CallbackPc.requesting : CallbackPc → Bool
  | .fill _ | .storeOccupied _ | .arm _ _ | .publishRequest _ _ => true
  | _ => false

theorem CallbackPc.requesting_of_unarmed {pc : CallbackPc} {p : Nat} (h : pc.unarmed = some p) :
    pc.requesting := by
  cases pc <;> simp_all [unarmed, requesting]

/-- The watchdog is in `request_pop`, past its first load. -/
def WatchdogPc.inPop : WatchdogPc → Bool
  | .popSequence _ | .popStore _ | .popRelease _ _ => true
  | _ => false

/-- The invariant of every run. -/
structure Tickets (s : State) : Prop where
  capacity : s.requests.capacity = s.queue.capacity
  ring : SeqRing.Inv s.requests.ring s.history.ticketPhase
  claiming : ∀ k p pc, s.callback k = .arm p pc → s.requests.ring.ClaimOk pc
  ticket : ∀ p t, s.history.ticket p = some t ↔
    s.history.ticketPhase t ≠ .unclaimed ∧ s.history.ticketPosition t = p
  armed : ∀ p, s.history.ticket p ≠ none → s.history.stage p ≠ .unclaimed
  unarmed : ∀ k p, (s.callback k).unarmed = some p → s.history.ticket p = none
  publishing : ∀ k p t, s.callback k = .publishRequest p t →
    s.history.ticket p = some t ∧ s.history.ticketPhase t = .claimed
  entry : ∀ t, s.history.ticketPhase t = .published ∨ s.history.ticketPhase t = .taken →
    (s.requests.request t).entry = s.entry (s.history.ticketPosition t)
  order : ∀ t u, s.history.ticketPhase u ≠ .unclaimed → t < u →
    s.queue.index (s.history.ticketPosition t) = s.queue.index (s.history.ticketPosition u) →
    s.history.ticketPosition t < s.history.ticketPosition u
  popping : ∀ t, s.watchdog.popping = some t → t = s.requests.dequeuePosition
  ready : ∀ t, s.watchdog = .popStore t → (s.requests.request t).sequence = t + 1
  taken : ∀ t request, s.watchdog = .popRelease t request →
    s.history.ticketPhase t = .taken ∧ s.requests.dequeuePosition = t + 1 ∧
      request = s.entry (s.history.ticketPosition t)
  held : ∀ t, s.history.ticketPhase t = .taken → ∃ request, s.watchdog = .popRelease t request

theorem tickets_init (cfg : Config) : Tickets (.init cfg) where
  capacity := rfl
  ring := SeqRing.Inv.empty cfg.capacity.pow cfg.capacity.two_le
  claiming := by simp [State.init]
  ticket := by simp [State.init, History.init]
  armed := by simp [State.init, History.init]
  unarmed := by simp [State.init, CallbackPc.unarmed]
  publishing := by simp [State.init]
  entry := by simp [State.init, History.init]
  order := by simp [State.init, History.init]
  popping := by simp [State.init, WatchdogPc.popping]
  ready := by simp [State.init]
  taken := by simp [State.init]
  held := by simp [State.init, History.init]

/-! ## Frames -/

variable {cfg : Config} {s s' : State} {k : Nat} {i : Input}

/-- The entry of an armed position stays what it is. -/
theorem State.entry_eq {p : Nat} (hcap : s'.queue.capacity = s.queue.capacity)
    (howner : s'.history.owner p = s.history.owner p)
    (hfireAt : s'.history.fireAt p = s.history.fireAt p) : s'.entry p = s.entry p := by
  rw [State.entry, State.entry, howner, hfireAt, Queue.index, Queue.index, Queue.mask, Queue.mask,
    hcap]

/-- A step that leaves the requests alone. -/
theorem Tickets.frame (h : Tickets s)
    (hsame : s'.requests = s.requests ∧ s'.queue.capacity = s.queue.capacity)
    (hticket : s'.history.ticket = s.history.ticket ∧
      s'.history.ticketPhase = s.history.ticketPhase ∧
      s'.history.ticketPosition = s.history.ticketPosition)
    (hposition : ∀ p, s.history.ticket p ≠ none → s'.history.stage p ≠ .unclaimed ∧
      s'.history.owner p = s.history.owner p ∧ s'.history.fireAt p = s.history.fireAt p)
    (hclaiming : ∀ k p pc, s'.callback k = .arm p pc → s.requests.ring.ClaimOk pc)
    (hunarmed : ∀ k p, (s'.callback k).unarmed = some p → s.history.ticket p = none)
    (hpublishing : ∀ k p t, s'.callback k = .publishRequest p t →
      s.callback k = .publishRequest p t)
    (hpopping : ∀ t, s'.watchdog.popping = some t → t = s.requests.dequeuePosition)
    (hready : ∀ t, s'.watchdog = .popStore t → (s.requests.request t).sequence = t + 1)
    (htaken : ∀ t request, s'.watchdog = .popRelease t request ↔
      s.watchdog = .popRelease t request) : Tickets s' := by
  obtain ⟨hrequests, hcap⟩ := hsame
  obtain ⟨hticket, hphase, htposition⟩ := hticket
  have hindex : ∀ p, s'.queue.index p = s.queue.index p := fun p => by
    rw [Queue.index, Queue.index, Queue.mask, Queue.mask, hcap]
  -- The position of a request is armed, and so the step keeps what its entry is made of
  have hentry : ∀ t, s.history.ticketPhase t ≠ .unclaimed →
      s'.entry (s.history.ticketPosition t) = s.entry (s.history.ticketPosition t) := by
    intro t ht
    have harmed : s.history.ticket (s.history.ticketPosition t) ≠ none := by
      rw [(h.ticket _ t).mpr ⟨ht, rfl⟩]
      simp
    exact State.entry_eq hcap (hposition _ harmed).2.1 (hposition _ harmed).2.2
  constructor
  case capacity => rw [hrequests, hcap, h.capacity]
  case ring => rw [hrequests, hphase]; exact h.ring
  case claiming => rw [hrequests]; exact hclaiming
  case ticket => rw [hticket, hphase, htposition]; exact h.ticket
  case armed => rw [hticket]; exact fun p hp => (hposition p hp).1
  case unarmed => rw [hticket]; exact hunarmed
  case publishing =>
    rw [hticket, hphase]
    exact fun k p t hp => h.publishing k p t (hpublishing k p t hp)
  case entry =>
    rw [hphase, hrequests, htposition]
    intro t ht
    rw [hentry t (by rcases ht with ht | ht <;> rw [ht] <;> simp)]
    exact h.entry t ht
  case order => simp only [hphase, htposition, hindex]; exact h.order
  case popping => rw [hrequests]; exact hpopping
  case ready => rw [hrequests]; exact hready
  case taken =>
    rw [hphase, htposition, hrequests]
    intro t request hpc
    obtain ⟨htaken, hdeq, hrequest⟩ := h.taken t request ((htaken t request).mp hpc)
    exact ⟨htaken, hdeq, by rw [hrequest, hentry t (by rw [htaken]; simp)]⟩
  case held =>
    rw [hphase]
    intro t ht
    obtain ⟨request, hpc⟩ := h.held t ht
    exact ⟨request, (htaken t request).mpr hpc⟩

/-- A step of a native method. -/
theorem Tickets.aside (h : Tickets s) (haside : s.Aside s') : Tickets s' := by
  obtain ⟨hrequests, -, hwatchdog, hcallback, hqueue, hhistory⟩ := haside
  refine h.frame ⟨hrequests, hqueue.capacity⟩
    ⟨hhistory.ticket, hhistory.ticketPhase, hhistory.ticketPosition⟩
    (fun p hp => ⟨hhistory.stage p (h.armed p hp), by rw [hhistory.owner], by rw [hhistory.fireAt]⟩)
    ?_ ?_ ?_ ?_ ?_ ?_
  · rw [hcallback]; exact h.claiming
  · rw [hcallback]; exact h.unarmed
  · rw [hcallback]; exact fun _ _ _ => id
  · rw [hwatchdog]; exact h.popping
  · rw [hwatchdog]; exact h.ready
  · rw [hwatchdog]; exact fun _ _ => Iff.rfl

/-- A step of a callback that leaves the requests alone. -/
theorem Tickets.callback (h : Tickets s) {pc : CallbackPc}
    (hcallback : s'.callback = Function.update s.callback k pc)
    (hticket : s'.history.ticket = s.history.ticket ∧
      s'.history.ticketPhase = s.history.ticketPhase ∧
      s'.history.ticketPosition = s.history.ticketPosition)
    (hposition : ∀ p, s.history.ticket p ≠ none → s'.history.stage p ≠ .unclaimed ∧
      s'.history.owner p = s.history.owner p ∧ s'.history.fireAt p = s.history.fireAt p)
    (hclaiming : ∀ p l, pc = .arm p l → s.requests.ring.ClaimOk l)
    (hunarmed : ∀ p, pc.unarmed = some p → s.history.ticket p = none)
    (hpublishing : ∀ p t, pc ≠ .publishRequest p t)
    (hsame : s'.requests = s.requests ∧ s'.watchdog = s.watchdog ∧
      s'.queue.capacity = s.queue.capacity := by exact ⟨rfl, rfl, rfl⟩) : Tickets s' := by
  have hself : s'.callback k = pc := by rw [hcallback, Function.update_self]
  have hother : ∀ j, j ≠ k → s'.callback j = s.callback j := fun j hj => by
    rw [hcallback, Function.update_of_ne hj]
  obtain ⟨hrequests, hwatchdog, hcap⟩ := hsame
  refine h.frame ⟨hrequests, hcap⟩ hticket hposition (fun j p l hj => ?_) (fun j p hj => ?_)
    (fun j p t hj => ?_) (by rw [hwatchdog]; exact h.popping) (by rw [hwatchdog]; exact h.ready)
    (by rw [hwatchdog]; exact fun _ _ => Iff.rfl)
  -- The callback that moves, and all others
  · rcases eq_or_ne j k with rfl | hne
    · exact hclaiming p l (hself ▸ hj)
    · exact h.claiming j p l (hother j hne ▸ hj)
  · rcases eq_or_ne j k with rfl | hne
    · exact hunarmed p (hself ▸ hj)
    · exact h.unarmed j p (hother j hne ▸ hj)
  · rcases eq_or_ne j k with rfl | hne
    · exact absurd (hself ▸ hj) (hpublishing p t)
    · rw [← hother j hne]
      exact hj

/-- A step of a callback that leaves the requests alone, and does not lead it to making one. -/
theorem Tickets.callbackAside (h : Tickets s) {pc : CallbackPc}
    (hcallback : s'.callback = Function.update s.callback k pc)
    (hticket : s'.history.ticket = s.history.ticket ∧
      s'.history.ticketPhase = s.history.ticketPhase ∧
      s'.history.ticketPosition = s.history.ticketPosition)
    (hposition : ∀ p, s.history.ticket p ≠ none → s'.history.stage p ≠ .unclaimed ∧
      s'.history.owner p = s.history.owner p ∧ s'.history.fireAt p = s.history.fireAt p)
    (hpc : pc.requesting = false)
    (hsame : s'.requests = s.requests ∧ s'.watchdog = s.watchdog ∧
      s'.queue.capacity = s.queue.capacity := by exact ⟨rfl, rfl, rfl⟩) : Tickets s' := by
  refine h.callback hcallback hticket hposition ?_ ?_ ?_ hsame
  · rintro p l rfl
    cases hpc
  · intro p hp
    cases hpc.symm.trans (CallbackPc.requesting_of_unarmed hp)
  · rintro p t rfl
    cases hpc

/-! ## Making a request -/

/-- The callback of a marked position claims the next request. -/
theorem Tickets.arm (hslots : SlotsInv cfg s) (h : Tickets s) {p t : Nat} {pc : LoopPc}
    (hpc : s.callback k = .arm p pc) (ht : t = s.requests.enqueuePosition)
    (hseq : s.requests.ring.seq (s.requests.ring.index s.requests.enqueuePosition) =
      s.requests.enqueuePosition) :
    Tickets { s with
      callback := Function.update s.callback k (.publishRequest p t)
      requests := s.requests.advanceEnqueue t
      history := s.history.arm p t } := by
  have hst := hslots.callbacks.holds k p .marked (by rw [hpc]; rfl)
  have hnone := h.unarmed k p (by rw [hpc]; rfl)
  have hfresh : s.history.ticketPhase t = .unclaimed :=
    (h.ring.unclaimed _).mpr (Nat.le_of_eq ht.symm)
  have hold : ∀ u, s.history.ticketPhase u ≠ .unclaimed → u ≠ t := by
    rintro u hu rfl
    exact hu hfresh
  -- Nobody else is working on this position
  have hother : ∀ j q, (s.callback j).position = some q → j ≠ k → q ≠ p := by
    rintro j q hq hne rfl
    have hj := (hslots.callbacks.position j q hq).2
    have hk := (hslots.callbacks.position k q (by rw [hpc]; rfl)).2
    exact hne (hj.symm.trans hk)
  constructor
  case capacity => exact h.capacity
  case ring =>
    subst ht
    exact h.ring.claim hseq
  -- The exchange has taken place, and the other loops look at an older position
  case claiming =>
    intro j q l hj
    simp only [Function.update_apply] at hj
    split_ifs at hj
    subst ht
    exact (h.claiming j q l hj).claim
  -- Position and request now name each other, and neither did so for another one before
  case ticket =>
    intro q u
    have hqu := h.ticket q u
    have hpu := h.ticket p u
    have hut := hold u
    simp only [History.arm, Function.update_apply]
    grind
  case armed =>
    intro q hq
    simp only [History.arm, Function.update_apply] at hq ⊢
    split_ifs at hq with heq
    · rw [heq, hst]
      simp
    · exact h.armed q hq
  case unarmed =>
    intro j q hj
    simp only [History.arm, Function.update_apply] at hj ⊢
    split_ifs at hj with hjk
    · cases hj
    · rw [if_neg (hother j q (CallbackPc.position_of_unarmed hj) hjk)]
      exact h.unarmed j q hj
  case publishing =>
    intro j q u hj
    simp only [History.arm, Function.update_apply] at hj ⊢
    split_ifs at hj with hjk
    · cases hj
      exact ⟨if_pos rfl, if_pos rfl⟩
    · obtain ⟨hticket, hclaimed⟩ := h.publishing j q u hj
      rw [if_neg (hother j q (by rw [hj]; rfl) hjk), if_neg (hold u (by rw [hclaimed]; simp))]
      exact ⟨hticket, hclaimed⟩
  -- The new request has no entry yet
  case entry =>
    intro u hu
    have hne : u ≠ t := by
      rintro rfl
      simp [History.arm] at hu
    simp only [History.arm, Function.update_of_ne hne] at hu ⊢
    exact h.entry u hu
  case order =>
    intro u v hv huv hindex
    have hvt : v ≤ t := by
      by_contra hgt
      have hunclaimed : s.history.ticketPhase v = .unclaimed :=
        (h.ring.unclaimed v).mpr (by rw [Requests.ring_enq, ← ht]; omega)
      simp only [History.arm, Function.update_of_ne (show v ≠ t by omega)] at hv
      exact hv hunclaimed
    have hut : u ≠ t := by omega
    have hu : s.history.ticketPhase u ≠ .unclaimed := fun hunclaimed => by
      have := (h.ring.unclaimed u).mp hunclaimed
      rw [Requests.ring_enq, ← ht] at this
      omega
    simp only [History.arm, Function.update_of_ne hut] at hindex ⊢
    rcases eq_or_ne v t with rfl | hvt'
    · -- The new request is for a position in use, which is the latest one in its slot
      rw [Function.update_self] at hindex ⊢
      have hticket := (h.ticket _ u).mpr ⟨hu, rfl⟩
      have hclaimed := h.armed _ (by rw [hticket]; simp)
      have hle := hslots.slots.ring.le_of_active (p := p) (by rw [hst]; rfl)
        (fun hphase => hclaimed (Stage.unclaimed_of_phase hphase)) hindex.symm
      refine Nat.lt_of_le_of_ne hle fun heq => ?_
      rw [heq, hnone] at hticket
      cases hticket
    · rw [Function.update_of_ne hvt'] at hindex ⊢
      simp only [History.arm, Function.update_of_ne hvt'] at hv
      exact h.order u v hv huv hindex
  case popping => exact h.popping
  case ready => exact h.ready
  case taken =>
    intro u request hu
    obtain ⟨htaken, hrequest⟩ := h.taken u request hu
    have hne := hold u (by rw [htaken]; simp)
    simp only [History.arm, Function.update_of_ne hne]
    exact ⟨htaken, hrequest⟩
  -- The watchdog has not come to the new request
  case held =>
    intro u hu
    simp only [History.arm, Function.update_apply] at hu
    split_ifs at hu
    exact h.held u hu

/-- The callback that has claimed request `t` publishes it. -/
theorem Tickets.publish (hslots : SlotsInv cfg s) (h : Tickets s) {p t : Nat}
    (hpc : s.callback k = .publishRequest p t) :
    Tickets { s with
      callback := Function.update s.callback k (.loadDequeue p)
      requests := s.requests.publish t (s.entry p)
      history := s.history.passTicket t .published } := by
  obtain ⟨hticket, hclaimed⟩ := h.publishing k p t hpc
  have htposition := ((h.ticket p t).mp hticket).2
  have hphase : ∀ u, u ≠ t → (s.history.passTicket t .published).ticketPhase u =
      s.history.ticketPhase u := fun u hu => Function.update_of_ne hu ..
  have hself : (s.history.passTicket t .published).ticketPhase t = .published :=
    Function.update_self ..
  have hunclaimed : ∀ u, (s.history.passTicket t .published).ticketPhase u ≠ .unclaimed ↔
      s.history.ticketPhase u ≠ .unclaimed := by
    intro u
    rcases eq_or_ne u t with rfl | hne
    · rw [hself, hclaimed]
      simp
    · rw [hphase u hne]
  have hrequest : ∀ u, u ≠ t → (s.history.ticketPhase u).active →
      (s.requests.publish t (s.entry p)).request u = s.requests.request u := fun u hne hu =>
    Function.update_of_ne (fun heq =>
      hne (h.ring.active_unique hu (by rw [hclaimed]; rfl) heq)) ..
  constructor
  case capacity => exact h.capacity
  case ring => rw [Requests.ring_publish]; exact h.ring.publish hclaimed
  case claiming =>
    intro j q l hj
    simp only [Function.update_apply] at hj
    split_ifs at hj
    rw [Requests.ring_publish]
    exact (h.claiming j q l hj).publish h.ring (by rw [hclaimed]; rfl)
  case ticket => exact fun q u => (h.ticket q u).trans (and_congr_left' (hunclaimed u).symm)
  case armed => exact h.armed
  case unarmed =>
    intro j q hj
    simp only [Function.update_apply] at hj
    split_ifs at hj
    · cases hj
    · exact h.unarmed j q hj
  case publishing =>
    intro j q u hj
    simp only [Function.update_apply] at hj
    split_ifs at hj with hjk
    obtain ⟨hticket', hclaimed'⟩ := h.publishing j q u hj
    refine ⟨hticket', ?_⟩
    rw [hphase u ?_]
    · exact hclaimed'
    · -- A request is made by the callback of its position
      rintro rfl
      have hqp : q = p := by
        rw [← ((h.ticket q u).mp hticket').2, htposition]
      subst hqp
      have hj' := (hslots.callbacks.position j q (by rw [hj]; rfl)).2
      have hk' := (hslots.callbacks.position k q (by rw [hpc]; rfl)).2
      exact hjk (hj'.symm.trans hk')
  case entry =>
    intro u hu
    rcases eq_or_ne u t with rfl | hne
    · have hcell : (s.requests.publish u (s.entry p)).request u =
          { sequence := u + 1, entry := s.entry p } := Function.update_self ..
      rw [hcell]
      exact congrArg s.entry htposition.symm
    · rw [hphase u hne] at hu
      rw [hrequest u hne (by rcases hu with hu | hu <;> rw [hu] <;> rfl)]
      exact h.entry u hu
  case order => exact fun u v hv => h.order u v ((hunclaimed v).mp hv)
  case popping => exact h.popping
  case ready =>
    intro u hu
    have hready := h.ready u hu
    have hdeq := h.popping u (by rw [hu]; rfl)
    have hpublished : s.history.ticketPhase u = .published := by
      subst hdeq
      exact h.ring.filled_published hready
    have hne : u ≠ t := by
      rintro rfl
      rw [hclaimed] at hpublished
      cases hpublished
    rw [hrequest u hne (by rw [hpublished]; rfl)]
    exact hready
  case taken =>
    intro u request hu
    obtain ⟨htaken, hrequest⟩ := h.taken u request hu
    refine ⟨?_, hrequest⟩
    rw [hphase u]
    · exact htaken
    · rintro rfl
      rw [hclaimed] at htaken
      cases htaken
  case held =>
    intro u hu
    rcases eq_or_ne u t with rfl | hne
    · rw [hself] at hu
      cases hu
    · exact h.held u (hphase u hne ▸ hu)

/-! ## One step -/

theorem callbackStep_tickets (hslots : SlotsInv cfg s) (h : Tickets s)
    (hstep : callbackStep cfg k i s = some s') : Tickets s' := by
  have hsame : ∀ p, s.history.ticket p ≠ none → s.history.stage p ≠ .unclaimed ∧
      s.history.owner p = s.history.owner p ∧ s.history.fireAt p = s.history.fireAt p :=
    fun p hp => ⟨h.armed p hp, rfl, rfl⟩
  have henter : ∀ q (st : Stage), st ≠ .unclaimed → ∀ p, s.history.ticket p ≠ none →
      Function.update s.history.stage q st p ≠ .unclaimed := by
    intro q st hst p hp
    rw [Function.update_apply]
    split_ifs
    · exact hst
    · exact h.armed p hp
  cases hpc : s.callback k with
  | absent | retain | drop | respond | loadDequeue | loadDepthMax | notifyWrite | leave =>
    simp only [callbackStep, hpc, Option.some.injEq] at hstep
    subst hstep
    exact h.callbackAside rfl ⟨rfl, rfl, rfl⟩ hsame rfl
  | loadClosed =>
    simp only [callbackStep, hpc, Option.some.injEq] at hstep
    subst hstep
    split_ifs <;>
      exact h.callbackAside rfl ⟨rfl, rfl, rfl⟩ hsame rfl
  | refuse | overflow =>
    simp only [callbackStep, hpc, Option.some.injEq] at hstep
    obtain ⟨stats, log, heq⟩ := s.respondUnqueued_eq cfg i k
    rw [heq] at hstep
    subst hstep
    exact h.callbackAside rfl ⟨rfl, rfl, rfl⟩ hsame rfl
  | answer | raiseDepthMax | notify =>
    simp only [callbackStep, hpc, State.answer] at hstep
    split_ifs at hstep <;> cases hstep <;>
      exact h.callbackAside rfl ⟨rfl, rfl, rfl⟩ hsame rfl
  | enqueue pc =>
    have hloop := SeqRing.Ring.ClaimOk.step i.spurious (hslots.claiming k pc hpc)
    simp only [callbackStep, hpc, Queue.enqueue] at hstep
    cases hres : s.queue.ring.claimStep i.spurious pc with
    | running | none =>
      simp only [hres, Option.some.injEq] at hstep
      subst hstep
      exact h.callbackAside rfl ⟨rfl, rfl, rfl⟩ hsame rfl
    | got p =>
      simp only [hres, Option.some.injEq] at hstep hloop
      obtain ⟨rfl, -⟩ := hloop
      -- Only claimed positions are armed, and this one was unclaimed until now
      have hnone : s.history.ticket s.queue.enqueuePosition = none := by
        by_contra hsome
        exact h.armed _ hsome hslots.slots.next_unclaimed
      subst hstep
      refine h.callback rfl ⟨rfl, rfl, rfl⟩ (fun p hp => ⟨?_, ?_, rfl⟩) (by simp) ?_ (by simp)
      -- The new owner and stage are those of a position that is not armed
      · exact henter _ .claimed (by simp) p hp
      · refine Function.update_of_ne ?_ ..
        rintro rfl
        exact hp hnone
      · rintro _ ⟨⟩
        exact hnone
  | fill p =>
    have hnone := h.unarmed k p (by rw [hpc]; rfl)
    simp only [callbackStep, hpc, Option.some.injEq] at hstep
    subst hstep
    refine h.callback rfl ⟨rfl, rfl, rfl⟩ (fun q hq => ⟨?_, rfl, ?_⟩) (by simp) ?_ (by simp)
    · exact henter _ .filled (by simp) q hq
    -- The same goes for the fallback time
    · refine Function.update_of_ne ?_ ..
      rintro rfl
      exact hq hnone
    · rintro _ ⟨⟩
      exact hnone
  | storeOccupied p =>
    have hnone := h.unarmed k p (by rw [hpc]; rfl)
    simp only [callbackStep, hpc, Option.some.injEq] at hstep
    subst hstep
    split_ifs
    · refine h.callback rfl ⟨rfl, rfl, rfl⟩
        (fun q hq => ⟨henter _ .marked (by simp) q hq, rfl, rfl⟩) ?_ ?_ (by simp)
      · rintro _ _ ⟨⟩
        trivial
      · rintro _ ⟨⟩
        exact hnone
    · exact h.callbackAside rfl ⟨rfl, rfl, rfl⟩
        (fun q hq => ⟨henter _ .marked (by simp) q hq, rfl, rfl⟩) rfl
  | arm p pc =>
    have hnone := h.unarmed k p (by rw [hpc]; rfl)
    have hloop := SeqRing.Ring.ClaimOk.step i.spurious (h.claiming k p pc hpc)
    simp only [callbackStep, hpc, Requests.arm] at hstep
    cases hres : s.requests.ring.claimStep i.spurious pc with
    | running pc' =>
      simp only [hres, Option.some.injEq] at hstep hloop
      subst hstep
      refine h.callback rfl ⟨rfl, rfl, rfl⟩ hsame ?_ ?_ (by simp)
      · rintro _ _ ⟨⟩
        exact hloop
      · rintro _ ⟨⟩
        exact hnone
    | none =>
      simp only [hres, Option.some.injEq] at hstep
      subst hstep
      exact h.callbackAside rfl ⟨rfl, rfl, rfl⟩ hsame rfl
    | got t =>
      simp only [hres, Option.some.injEq] at hstep hloop
      subst hstep
      exact h.arm hslots hpc hloop.1 hloop.2
  | publishRequest p t =>
    have hst := hslots.callbacks.holds k p .marked (by rw [hpc]; rfl)
    have howner := (hslots.callbacks.position k p (by rw [hpc]; rfl)).2
    have hslot := hslots.slots.slot p
    rw [hst] at hslot
    -- What the request is made of is the entry of the position: the slot has been filled for it
    have hentry : s.entry p =
        ⟨s.queue.index p, (s.queue.slot p).position, (s.queue.slot p).fireAt, k⟩ := by
      rw [State.entry, hslot.position rfl, (hslot.full rfl).2.2, howner]
    simp only [callbackStep, hpc, Option.some.injEq] at hstep
    subst hstep
    rw [← hentry]
    exact h.publish hslots hpc
  | storeSequence p =>
    simp only [callbackStep, hpc, Option.some.injEq] at hstep
    subst hstep
    exact h.callbackAside rfl ⟨rfl, rfl, rfl⟩
      (fun q hq => ⟨henter _ .queued (by simp) q hq, rfl, rfl⟩) rfl
  | returned => simp [callbackStep, hpc] at hstep

/-! ## Taking a request -/

/-- A step of the watchdog that leaves the requests alone. -/
theorem Tickets.watchdog (h : Tickets s)
    (hticket : s'.history.ticket = s.history.ticket ∧
      s'.history.ticketPhase = s.history.ticketPhase ∧
      s'.history.ticketPosition = s.history.ticketPosition)
    (hposition : s'.history.stage = s.history.stage ∧ s'.history.owner = s.history.owner ∧
      s'.history.fireAt = s.history.fireAt)
    (hpopping : ∀ t, s'.watchdog.popping = some t → t = s.requests.dequeuePosition)
    (hready : ∀ t, s'.watchdog = .popStore t → (s.requests.request t).sequence = t + 1)
    (hold : ∀ t request, s.watchdog ≠ .popRelease t request)
    (hnew : ∀ t request, s'.watchdog ≠ .popRelease t request)
    (hsame : s'.requests = s.requests ∧ s'.callback = s.callback ∧
      s'.queue.capacity = s.queue.capacity := by exact ⟨rfl, rfl, rfl⟩) : Tickets s' := by
  obtain ⟨hrequests, hcallback, hcap⟩ := hsame
  obtain ⟨hstage, howner, hfireAt⟩ := hposition
  refine h.frame ⟨hrequests, hcap⟩ hticket
    (fun p hp => ⟨by rw [hstage]; exact h.armed p hp, by rw [howner], by rw [hfireAt]⟩)
    ?_ ?_ ?_ hpopping hready (fun t request => iff_of_false (hnew t request) (hold t request))
  · rw [hcallback]; exact h.claiming
  · rw [hcallback]; exact h.unarmed
  · rw [hcallback]; exact fun _ _ _ => id

/-- A step of the watchdog that leaves the requests alone, and does not lead it past the first
    load of `request_pop`. -/
theorem Tickets.watchdogAside (h : Tickets s)
    (hticket : s'.history.ticket = s.history.ticket ∧
      s'.history.ticketPhase = s.history.ticketPhase ∧
      s'.history.ticketPosition = s.history.ticketPosition)
    (hposition : s'.history.stage = s.history.stage ∧ s'.history.owner = s.history.owner ∧
      s'.history.fireAt = s.history.fireAt)
    (hold : ∀ t request, s.watchdog ≠ .popRelease t request)
    (hnew : s'.watchdog.inPop = false)
    (hsame : s'.requests = s.requests ∧ s'.callback = s.callback ∧
      s'.queue.capacity = s.queue.capacity := by exact ⟨rfl, rfl, rfl⟩) : Tickets s' := by
  refine h.watchdog hticket hposition (fun t ht => ?_) (fun t ht => ?_) hold
    (fun t request ht => ?_) hsame
  · cases hpc : s'.watchdog <;> simp_all [WatchdogPc.popping, WatchdogPc.inPop]
  · simp [ht, WatchdogPc.inPop] at hnew
  · simp [ht, WatchdogPc.inPop] at hnew

/-- A request gets from one phase to another in the hands of the watchdog, and the others stay
    where they are. -/
theorem Tickets.pass (h : Tickets s) {t : Nat} {phase : Phase} {requests : Requests}
    {heap : Heap} {pc : WatchdogPc}
    (hold : s.history.ticketPhase t = .published ∨ s.history.ticketPhase t = .taken)
    (hnew : phase = .taken ∨ phase = .released)
    (hcap : requests.capacity = s.requests.capacity)
    (hring : SeqRing.Inv requests.ring (Function.update s.history.ticketPhase t phase))
    (hclaiming : ∀ l, s.requests.ring.ClaimOk l → requests.ring.ClaimOk l)
    (hrequest : ∀ u, (u = t → phase = .taken) → (s.history.ticketPhase u).active →
      requests.request u = s.requests.request u)
    (hpopping : ∀ u, pc.popping = some u → u = requests.dequeuePosition)
    (hready : ∀ u, pc ≠ .popStore u)
    (htaken : ∀ u request, pc = .popRelease u request →
      u = t ∧ phase = .taken ∧ requests.dequeuePosition = t + 1 ∧
        request = (s.requests.request t).entry)
    (hheld : ∀ u, Function.update s.history.ticketPhase t phase u = .taken →
      ∃ request, pc = .popRelease u request) :
    Tickets { s with
      watchdog := pc
      requests
      heap
      history := s.history.passTicket t phase } := by
  have hphase : ∀ u, u ≠ t → (s.history.passTicket t phase).ticketPhase u =
      s.history.ticketPhase u := fun u hu => Function.update_of_ne hu ..
  have hself : (s.history.passTicket t phase).ticketPhase t = phase := Function.update_self ..
  have hunclaimed : ∀ u, (s.history.passTicket t phase).ticketPhase u ≠ .unclaimed ↔
      -- The request stays a request
      s.history.ticketPhase u ≠ .unclaimed := by
    intro u
    rcases eq_or_ne u t with rfl | hne
    · rw [hself]
      rcases hold with hold | hold <;> rcases hnew with hnew | hnew <;> simp [hold, hnew]
    · rw [hphase u hne]
  constructor
  case capacity => exact hcap.trans h.capacity
  case ring => exact hring
  case claiming => exact fun j q l hj => hclaiming l (h.claiming j q l hj)
  case ticket => exact fun q u => (h.ticket q u).trans (and_congr_left' (hunclaimed u).symm)
  case armed => exact h.armed
  case unarmed => exact h.unarmed
  case publishing =>
    intro j q u hj
    -- A request that is still being written is not in the hands of the watchdog
    obtain ⟨hticket, hclaimed⟩ := h.publishing j q u hj
    refine ⟨hticket, (hphase u ?_).trans hclaimed⟩
    rintro rfl
    rcases hold with hold | hold <;> cases hold.symm.trans hclaimed
  case entry =>
    -- The words of the request are those that were published until its slot is given back
    intro u hu
    rcases eq_or_ne u t with rfl | hne
    · rw [hself] at hu
      have hphase_taken : phase = .taken := by
        rcases hnew with hnew | hnew
        · exact hnew
        · rw [hnew] at hu
          simp at hu
      have hactive : (s.history.ticketPhase u).active := by
        rcases hold with hold | hold <;> rw [hold] <;> rfl
      rw [hrequest u (fun _ => hphase_taken) hactive]
      exact h.entry u hold
    · rw [hphase u hne] at hu
      have hactive : (s.history.ticketPhase u).active := by
        rcases hu with hu | hu <;> rw [hu] <;> rfl
      rw [hrequest u (fun heq => absurd heq hne) hactive]
      exact h.entry u hu
  case order => exact fun u v hv => h.order u v ((hunclaimed v).mp hv)
  case popping => exact hpopping
  case ready => exact fun u hu => absurd hu (hready u)
  case taken =>
    intro u request hu
    obtain ⟨rfl, hphase_taken, hdeq, hrequest'⟩ := htaken u request hu
    exact ⟨hself.trans hphase_taken, hdeq, hrequest'.trans (h.entry u hold)⟩
  case held => exact hheld

theorem watchdogStep_tickets (h : Tickets s) (hstep : watchdogStep cfg i s = some s') :
    Tickets s' := by
  cases hpc : s.watchdog with
  | popLoad =>
    simp only [watchdogStep, hpc, Option.some.injEq] at hstep
    subst hstep
    refine h.watchdog ⟨rfl, rfl, rfl⟩ ⟨rfl, rfl, rfl⟩ ?_ (by simp) (by simp [hpc]) (by simp)
    rintro _ ⟨⟩
    rfl
  | popSequence t =>
    simp only [watchdogStep, hpc, Option.some.injEq] at hstep
    subst hstep
    split_ifs with hready
    · refine h.watchdog ⟨rfl, rfl, rfl⟩ ⟨rfl, rfl, rfl⟩ ?_ ?_ (by simp [hpc]) (by simp)
      · rintro _ ⟨⟩
        -- The watchdog alone pops, so the position that it has loaded is still the next one
        exact h.popping t (by rw [hpc]; rfl)
      · rintro _ ⟨⟩
        exact beq_iff_eq.mp hready
    · exact h.watchdogAside ⟨rfl, rfl, rfl⟩ ⟨rfl, rfl, rfl⟩ (by simp [hpc]) rfl
  | popStore t =>
    have hdeq := h.popping t (by rw [hpc]; rfl)
    have hseq := h.ready t hpc
    subst hdeq
    -- The sequence word that it has found says that the request is published
    have hpublished := h.ring.filled_published hseq
    simp only [watchdogStep, hpc, Option.some.injEq] at hstep
    subst hstep
    refine h.pass (.inl hpublished) (.inl rfl) rfl (h.ring.take hseq) (fun l hl => hl.take)
      (fun _ _ _ => rfl) (by simp [WatchdogPc.popping]) (by simp) ?_ fun u hu => ?_
    · rintro _ _ ⟨⟩
      exact ⟨rfl, rfl, rfl, rfl⟩
    -- It has no other request in its hands
    · rw [Function.update_apply] at hu
      split_ifs at hu with heq
      · exact ⟨_, by rw [heq]⟩
      · obtain ⟨request, hrelease⟩ := h.held u hu
        rw [hpc] at hrelease
        cases hrelease
  | popRelease t request =>
    obtain ⟨htaken, -⟩ := h.taken t request hpc
    simp only [watchdogStep, hpc, Option.some.injEq] at hstep
    subst hstep
    refine h.pass (.inr htaken) (.inr rfl) rfl ?_ (fun l hl => ?_) (fun u hu hactive => ?_)
      (by simp [WatchdogPc.popping]) (by simp) (by simp) (fun u hu => ?_)
    · rw [Requests.ring_release]
      exact h.ring.release htaken
    · rw [Requests.ring_release]
      exact hl.release h.ring (by rw [htaken]; rfl)
    -- No other request that is in use has the slot that is given back
    · refine Function.update_of_ne (fun heq => ?_) ..
      cases hu (h.ring.active_unique hactive (by rw [htaken]; rfl) heq)
    · rw [Function.update_apply] at hu
      split_ifs at hu with heq
      obtain ⟨request', hrelease⟩ := h.held u hu
      rw [hpc] at hrelease
      cases hrelease
      exact absurd rfl heq
  | loadRunning | loadOccupied | stopped =>
    simp only [watchdogStep, hpc, Option.some.injEq] at hstep
    subst hstep
    split_ifs <;>
      exact h.watchdogAside ⟨rfl, rfl, rfl⟩ ⟨rfl, rfl, rfl⟩ (by simp [hpc]) rfl
  | addReader | respond | count | notifyWrite | subReader | wait | exiting | deleting =>
    simp only [watchdogStep, hpc, Option.some.injEq] at hstep
    subst hstep
    exact h.watchdogAside ⟨rfl, rfl, rfl⟩ ⟨rfl, rfl, rfl⟩ (by simp [hpc]) rfl
  | clock | recheck | exchange | notify | asleep =>
    simp only [watchdogStep, hpc, State.answer] at hstep
    split_ifs at hstep <;> cases hstep <;>
      exact h.watchdogAside ⟨rfl, rfl, rfl⟩ ⟨rfl, rfl, rfl⟩ (by simp [hpc]) rfl
  | deleted => simp [watchdogStep, hpc] at hstep

/-- The invariant holds in every reachable state. -/
theorem reachable_tickets (hs : Reachable (step cfg) (.init cfg) s) : Tickets s := by
  apply hs.invariant (tickets_init cfg)
  intro s a s' hs h hstep
  cases a with
  | callback k input => exact callbackStep_tickets (reachable_slots hs) h hstep
  | watchdog input => exact watchdogStep_tickets h hstep
  | call call => exact h.aside (callStep_aside hstep)
  | ruby input => exact h.aside (rubyStep_aside hstep)

end EndpointSecurity
