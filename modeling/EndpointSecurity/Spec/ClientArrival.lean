import EndpointSecurity.Spec.ClientDelivery

/-!
# Every message that has been queued arrives

A callback that has claimed a position of the ring has its message returned to Ruby: the
callbacks that are under way publish what they have claimed, and drains take one message after
another off the ring, however few each of them may take. Nobody else has to move. A drain that is
asked for none, or for more than an array or the memory has room for, takes nothing.

## Key results

- `drain_returns`: a drain of a settled ring returns the next messages, at least one
- `queued_messages_arrive`: every message that has found room in the ring arrives
-/

namespace EndpointSecurity

open TransitionSystem (Reachable CanReach)

variable {cfg : Config} {s s' : State} {k p d : Nat} {i : Input}

/-- No weak exchange fails spuriously, and there is memory for the arrays of the drains. -/
def Input.ample (i : Input) : Prop := i.strong ∧ i.memory

/-! ## A settled ring -/

/-- Everything between the ends of the ring is published, and will not be answered by `close`. -/
structure Settled (s : State) : Prop where
  opened : s.closed = false
  queued : ∀ p, s.queue.dequeuePosition ≤ p → p < s.queue.enqueuePosition →
    s.history.stage p = .queued

/-- Once no callback is inside, nothing is claimed that is not published. -/
theorem SlotsInv.settled (h : SlotsInv cfg s) (hopen : s.closed = false)
    (hinside : ∀ k, (s.callback k).inside = false) : Settled s where
  opened := hopen
  queued p hdequeued hclaimed := by
    have hring := h.slots.ring
    have hnotHeld : (s.history.stage p).held = false := by
      by_contra hheld
      have hholds := h.callbacks.held p (by simpa using hheld)
      have hnot := hinside (s.history.owner p)
      cases hpc : s.callback (s.history.owner p) <;>
        simp_all [CallbackPc.holds, CallbackPc.inside]
    have hphase : (s.history.stage p).phase ≠ .unclaimed := fun hunclaimed =>
      absurd ((hring.unclaimed p).mp hunclaimed) (Nat.not_le.mpr hclaimed)
    have hleft : ¬((s.history.stage p).phase = .taken ∨ (s.history.stage p).phase = .released) :=
      fun h => absurd (hring.delivered p h) (Nat.not_lt.mpr hdequeued)
    cases hstage : s.history.stage p <;> simp_all [Stage.phase, Stage.held]

/-! ## One drain -/

/-- What `client_drain` has taken since it found the ring at position `d`. -/
def State.taken (s : State) (d : Nat) : List Nat := List.range' d (s.queue.dequeuePosition - d)

/-- `client_drain` has taken something, or there is nothing to take. -/
def State.Progress (s : State) (d : Nat) : Prop :=
  d < s.queue.dequeuePosition ∨ s.queue.dequeuePosition = s.queue.enqueuePosition

/-- Where `client_drain` is. -/
def State.DrainOk (s : State) (d : Nat) : Prop :=
  match s.ruby with
  | .idle => s.result = .messages (s.taken d) ∧ s.Progress d
  | .drainRead maximum => 0 < maximum ∧ maximum ≤ arrayMax ∧ s.queue.dequeuePosition = d
  | .drainDequeue _ batch _ => batch = s.taken d
  | .drainDelivered _ batch => batch = s.taken d ∧ d < s.queue.dequeuePosition
  | .drainClear batch | .drainDepth batch | .drainDepthDequeue batch _ | .notify (.drain batch)
  | .notifyWrite (.drain batch) => batch = s.taken d ∧ s.Progress d
  | _ => False

/-- A drain of a settled ring that has found it at position `d`. -/
structure Draining (d : Nat) (s : State) : Prop where
  settled : Settled s
  le : d ≤ s.queue.dequeuePosition
  wrapped : ∀ p, d ≤ p → p < s.queue.dequeuePosition → s.wrapper p =
    { live := true, valid := true, held := false, message := s.history.owner p }
  drain : s.DrainOk d

/-- A step of `client_drain` that takes nothing. -/
theorem Draining.next (h : Draining d s) (hdrain : s'.DrainOk d)
    (hsame : s'.closed = s.closed ∧ s'.queue = s.queue ∧ s'.history = s.history ∧
      s'.wrapper = s.wrapper := by exact ⟨rfl, rfl, rfl, rfl⟩) : Draining d s' := by
  obtain ⟨hclosed, hqueue, hhistory, hwrapper⟩ := hsame
  constructor
  case settled =>
    constructor
    case opened => exact hclosed.trans h.settled.opened
    case queued =>
      rw [hqueue, hhistory]
      exact h.settled.queued
  case le =>
    rw [hqueue]
    exact h.le
  case wrapped =>
    rw [hqueue, hhistory, hwrapper]
    exact h.wrapped
  case drain => exact hdrain

theorem drainNext_drainOk {left : Nat} {batch : List Nat} (hbatch : batch = s.taken d)
    (hprogress : left = 0 → s.Progress d) (hruby : s.ruby = drainNext left batch) :
    s.DrainOk d := by
  unfold drainNext at hruby
  split_ifs at hruby with hleft
  · simp only [State.DrainOk, hruby]
    exact ⟨hbatch, hprogress hleft⟩
  · simp only [State.DrainOk, hruby]
    exact hbatch

/-- `client_drain` takes the next message. -/
theorem Draining.take (h : Draining d s) (hslots : SlotsInv cfg s) {left : Nat}
    {batch : List Nat} {pc : SeqRing.LoopPc} (hpc : s.ruby = .drainDequeue left batch pc)
    (hgot : s.queue.dequeue i.spurious pc = .got p) :
    Draining d { s with
      ruby := .drainDelivered left (batch ++ [p])
      queue := s.queue.advanceDequeue p
      wrapper := Function.update s.wrapper p
        { live := true, valid := true, held := false, message := (s.queue.slot p).message }
      history := s.history.enter p .taken } := by
  obtain ⟨rfl, hlt⟩ := hslots.dequeued (by rw [hpc]; rfl) hgot
  have hstage := h.settled.queued _ (Nat.le_refl _) hlt
  have hmessage := ((hslots.slots.slot s.queue.dequeuePosition).full (by rw [hstage]; rfl)).1
  have hle := h.le
  have hdrain := h.drain
  simp only [State.DrainOk, hpc] at hdrain
  constructor
  case settled =>
    refine ⟨h.settled.opened, fun p hdequeued hclaimed => ?_⟩
    have hdequeued : s.queue.dequeuePosition + 1 ≤ p := hdequeued
    show Function.update s.history.stage _ _ p = _
    rw [Function.update_of_ne (by omega)]
    exact h.settled.queued p (by omega) hclaimed
  case le => exact Nat.le_succ_of_le hle
  case wrapped =>
    intro p hd hp
    rcases Nat.lt_succ_iff_lt_or_eq.mp hp with hp | rfl
    · show Function.update s.wrapper _ _ p = _
      rw [Function.update_of_ne (Nat.ne_of_lt hp)]
      exact h.wrapped p hd hp
    · show Function.update s.wrapper _ _ _ = _
      rw [Function.update_self, hmessage]
      rfl
  case drain =>
    show batch ++ [s.queue.dequeuePosition] = List.range' d (s.queue.dequeuePosition + 1 - d) ∧
      d < s.queue.dequeuePosition + 1
    refine ⟨?_, by omega⟩
    rw [hdrain, State.taken, Nat.succ_sub hle, List.range'_1_concat]
    congr 2
    omega

theorem rubyStep_draining (hslots : SlotsInv cfg s) (h : Draining d s) (hmemory : i.memory)
    (hstep : rubyStep cfg i s = some s') : Draining d s' := by
  have hdrain := h.drain
  cases hpc : s.ruby with
  | idle => simp [rubyStep, hpc] at hstep
  | drainRead maximum =>
    simp only [State.DrainOk, hpc] at hdrain
    simp only [rubyStep, hpc] at hstep
    obtain ⟨hpositive, hfits, hdequeued⟩ := hdrain
    split_ifs at hstep with _ _ _ hnone <;> cases hstep
    · apply h.next
      simpa only [State.DrainOk, hpc] using ⟨hpositive, hfits, hdequeued⟩
    · omega
    · omega
    · simp [hmemory] at hnone
    · apply h.next
      have hempty : ([] : List Nat) = s.taken d := by simp [State.taken, hdequeued]
      exact drainNext_drainOk hempty (fun hzero => by omega) rfl
  | drainDequeue left batch pc =>
    simp only [State.DrainOk, hpc] at hdrain
    simp only [rubyStep, hpc] at hstep
    cases hres : s.queue.dequeue i.spurious pc with
    | running pc' =>
      simp only [hres, Option.some.injEq] at hstep
      subst hstep
      exact h.next hdrain
    | got p =>
      simp only [hres, Option.some.injEq] at hstep
      subst hstep
      exact h.take hslots hpc hres
    | none =>
      simp only [hres, Option.some.injEq] at hstep
      subst hstep
      refine h.next ⟨hdrain, .inr ?_⟩
      -- The loop gives up only at a position that is not published, and all are
      have hnot := (hslots.taking pc (by rw [hpc]; rfl)).none hslots.slots.ring hres
      have hle : s.queue.dequeuePosition ≤ s.queue.enqueuePosition := hslots.slots.ring.deq_le
      by_contra hne
      have hlt : s.queue.dequeuePosition < s.queue.enqueuePosition := Nat.lt_of_le_of_ne hle hne
      exact hnot (by rw [Queue.ring_deq, h.settled.queued _ (Nat.le_refl _) hlt]; rfl)
  | drainDelivered left batch =>
    simp only [State.DrainOk, hpc] at hdrain
    simp only [rubyStep, hpc, Option.some.injEq] at hstep
    subst hstep
    exact h.next (drainNext_drainOk hdrain.1 (fun _ => .inl hdrain.2) rfl)
  | drainClear batch | drainDepth batch =>
    simp only [State.DrainOk, hpc] at hdrain
    simp only [rubyStep, hpc, Option.some.injEq] at hstep
    subst hstep
    exact h.next hdrain
  | drainDepthDequeue batch enqueued =>
    simp only [State.DrainOk, hpc] at hdrain
    obtain ⟨rfl, hprogress⟩ := hdrain
    simp only [rubyStep, hpc] at hstep
    split_ifs at hstep <;> cases hstep
    · exact h.next ⟨rfl, hprogress⟩
    · exact h.next ⟨rfl, hprogress⟩
  | notify caller =>
    cases caller with
    | drain batch =>
      simp only [State.DrainOk, hpc] at hdrain
      obtain ⟨rfl, hprogress⟩ := hdrain
      simp only [rubyStep, hpc] at hstep
      split_ifs at hstep <;> cases hstep
      · exact h.next ⟨rfl, hprogress⟩
      · exact h.next ⟨rfl, hprogress⟩
    | _ => simp [State.DrainOk, hpc] at hdrain
  | notifyWrite caller =>
    cases caller with
    | drain batch =>
      simp only [State.DrainOk, hpc] at hdrain
      obtain ⟨rfl, hprogress⟩ := hdrain
      simp only [rubyStep, hpc, Option.some.injEq] at hstep
      subst hstep
      exact h.next ⟨rfl, hprogress⟩
    | _ => simp [State.DrainOk, hpc] at hdrain
  | _ => simp [State.DrainOk, hpc] at hdrain

/-- A drain waits for nobody. -/
theorem State.DrainOk.unblocked (h : s.DrainOk d) : s.unblocked := by
  cases hpc : s.ruby <;> simp_all [State.DrainOk, State.unblocked]

/-- A drain of a settled ring returns the messages that come next, at least one if there is one. -/
theorem drain_returns (hs : Reachable (step cfg) (.init cfg) s) (h : Settled s)
    (hidle : s.ruby = .idle) {maximum : Int} (hpositive : 0 < maximum)
    (hfits : maximum ≤ arrayMax) :
    CanReach (step cfg) Party.action Input.ample (fun b => b = .call (.drain maximum) ∨ b = .ruby)
      (fun t => t.ruby = .idle ∧ Draining s.queue.dequeuePosition t) s := by
  have hlong : isLong maximum := by
    rw [isLong, decide_eq_true_eq]
    simp only [arrayMax, longMax] at hfits ⊢
    omega
  have hcall : step cfg (.call (.drain maximum)) s =
      some { s with ruby := .drainRead maximum } := by
    simp [step, callStep, beginCall, hidle, hlong, h.opened]
  refine CanReach.turn (b := .call (.drain maximum)) (.inl rfl) fun _ _ => ⟨_, hcall, ?_⟩
  have hbegun : Draining s.queue.dequeuePosition { s with ruby := .drainRead maximum } :=
    ⟨⟨h.opened, h.queued⟩, Nat.le_refl _, fun p hd hp => absurd hp (Nat.not_lt.mpr hd),
      ⟨hpositive, hfits, rfl⟩⟩
  refine CanReach.of_rank (fun t => t.ruby.rank t.queue t.pipe) (fun t ht hdraining hrunning => ?_)
    (hs.step hcall) hbegun
  have hrunning : t.ruby ≠ .idle := fun hpc => hrunning ⟨hpc, hdraining⟩
  have hslots := reachable_slots ht
  refine CanReach.turn (b := .ruby) (.inr rfl) fun i hi => ?_
  obtain ⟨t', hstep, -, hlt⟩ := rubyStep_rank cfg hslots hi.1 hrunning hdraining.drain.unblocked
  exact ⟨t', hstep, .now ⟨rubyStep_draining hslots hdraining hi.2 hstep, hlt⟩⟩

/-! ## Many drains -/

/-- The latest drain has returned position `p` with message `k`, wrapped and not touched yet. -/
def State.Arrived (s : State) (k p : Nat) : Prop :=
  s.ruby = .idle ∧ (∃ batch, s.result = .messages batch ∧ p ∈ batch) ∧
    s.wrapper p = { live := true, valid := true, held := false, message := k }

/-- What a drain has taken has arrived. -/
theorem Draining.arrived (h : Draining d s) (hslots : SlotsInv cfg s) (hidle : s.ruby = .idle)
    (hposition : (s.callback k).position = some p) (hd : d ≤ p)
    (hp : p < s.queue.dequeuePosition) : s.Arrived k p := by
  have hdrain := h.drain
  simp only [State.DrainOk, hidle] at hdrain
  refine ⟨hidle, ⟨_, hdrain.1, ?_⟩, ?_⟩
  · rw [State.taken, List.mem_range'_1]
    omega
  · rw [h.wrapped p hd hp, (hslots.callbacks.position k p hposition).2]

/-- Of a settled ring, drains return one message after another. -/
theorem Settled.arrives (h : Settled s) (hs : Reachable (step cfg) (.init cfg) s)
    (hidle : s.ruby = .idle) {maximum : Int} (hpositive : 0 < maximum)
    (hfits : maximum ≤ arrayMax) (hposition : (s.callback k).position = some p)
    (hp : s.queue.dequeuePosition ≤ p) :
    CanReach (step cfg) Party.action Input.ample (fun b => b = .call (.drain maximum) ∨ b = .ruby)
      (·.Arrived k p) s := by
  refine CanReach.of_rank (I := fun t => t.Arrived k p ∨ Settled t ∧ t.ruby = .idle ∧
      (t.callback k).position = some p ∧ t.queue.dequeuePosition ≤ p)
    (fun t => p + 1 - t.queue.dequeuePosition) (fun t ht hwaiting hnot => ?_) hs
    (.inr ⟨h, hidle, hposition, hp⟩)
  obtain ⟨hsettled, hidle, hposition, hp⟩ := hwaiting.resolve_left hnot
  have hdrain := (drain_returns ht hsettled hidle hpositive hfits).keeping hposition
    fun _ _ _ _ _ hstep => step_position hstep
  refine hdrain.bind ht fun u hu hreturned => ?_
  obtain ⟨⟨hidle, hdraining⟩, hposition⟩ := hreturned
  have hslots := reachable_slots hu
  have hclaimed : p < u.queue.enqueuePosition :=
    Nat.lt_of_not_le fun hle => (hslots.callbacks.position k p hposition).1
      (Stage.unclaimed_of_phase ((hslots.slots.ring.unclaimed p).mpr hle))
  have hprogress := hdraining.drain
  simp only [State.DrainOk, hidle] at hprogress
  by_cases hlt : p < u.queue.dequeuePosition
  · exact .now ⟨.inl (hdraining.arrived hslots hidle hposition hp hlt), by omega⟩
  · have hmoved : t.queue.dequeuePosition < u.queue.dequeuePosition := by
      rcases hprogress.2 with hmoved | hempty
      · exact hmoved
      · omega
    exact .now ⟨.inr ⟨hdraining.settled, hidle, hposition, by omega⟩, by omega⟩

/-- Every message that has found room in the ring arrives, however few messages each drain may
    take: from every reachable state of an open client between its native methods, the callbacks
    that are under way and drains lead to a state in which a drain has just returned it, in a
    wrapper that is valid and has not been retained, whatever Endpoint Security and the clock
    answer at each step, if no step fails spuriously and the arrays of the drains fit into the
    memory. No step of the watchdog or of another callback is needed. -/
theorem queued_messages_arrive (hs : Reachable (step cfg) (.init cfg) s)
    (hopen : s.closed = false) (hidle : s.ruby = .idle) {maximum : Int} (hpositive : 0 < maximum)
    (hfits : maximum ≤ arrayMax) (hposition : (s.callback k).position = some p)
    (hp : s.queue.dequeuePosition ≤ p) :
    CanReach (step cfg) Party.action Input.ample
      (fun b => b = .call (.drain maximum) ∨ b = .ruby ∨
        ∃ j, (s.callback j).inside ∧ b = .callback j) (·.Arrived k p) s := by
  obtain ⟨inside, -, hmem⟩ := (reachable_closing hs).active
  -- The callbacks return and leave the rest alone
  have hstrong : ∀ i : Input, i.ample → i.strong := fun _ hi => hi.1
  have hcallbacks := ((callbacks_return hs inside).restrict hstrong).keeping
    (K := fun t => t.closed = false ∧ t.queue.dequeuePosition = s.queue.dequeuePosition ∧
      (t.callback k).position = some p) ⟨hopen, rfl, hposition⟩ (by
        rintro t b i t' ⟨j, -, rfl⟩ hstep ⟨hopen, hdequeued, hposition⟩
        obtain ⟨-, -, -, hclosed, -⟩ := callbackStep_steady hstep
        exact ⟨hclosed.trans hopen, (callbackStep_dequeued hstep).1.trans hdequeued,
          step_position hstep hposition⟩)
  apply (hcallbacks.allow ?_).bind hs
  · rintro t ht ⟨⟨hreturned, hruby, hother⟩, hopen, hdequeued, hposition⟩
    have hsettled : Settled t := (reachable_slots ht).settled hopen fun j => by
      by_cases hj : j ∈ inside
      · exact hreturned j hj
      · rw [hother j hj]
        simpa using mt (hmem j).mpr hj
    apply (hsettled.arrives ht (hruby.trans hidle) hpositive hfits hposition (by omega)).allow
    rintro b (rfl | rfl)
    · exact .inl rfl
    · exact .inr (.inl rfl)
  · rintro b ⟨j, hj, rfl⟩
    exact .inr (.inr ⟨j, (hmem j).mp hj, rfl⟩)

/-- A message is queued, and another one has claimed its position and is not published yet. -/
def queueOneClaimOne : List Action := callbackSteps 1 15 ++ callbackSteps 3 7

theorem queued_messages_arrive_third :
    let s := TransitionSystem.final (step smallClient) queueOneClaimOne (.init smallClient)
      (by decide +kernel)
    CanReach (step smallClient) Party.action Input.ample
      (fun b => b = .call (.drain 1) ∨ b = .ruby ∨
        ∃ j, (s.callback j).inside ∧ b = .callback j) (·.Arrived 3 1) s := by
  intro s
  have hposition : (s.callback 3).position = some 1 := by decide +kernel
  exact queued_messages_arrive (.final _) (by decide +kernel) (by decide +kernel) (by decide)
    (by decide) hposition (by decide +kernel)

end EndpointSecurity
