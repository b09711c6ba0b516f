import EndpointSecurity.Spec.ClientLogs

/-!
# What the native methods leave alone

The native methods of Ruby neither arm messages nor look after the armed ones: whatever they do,
the callbacks, the watchdog and all that lies between them stay as they are.

## Key results

- `callStep_aside`, `rubyStep_aside`: the frame of a step of a native method
-/

namespace EndpointSecurity

open TransitionSystem (Reachable)

/-- The slot holds position `p`, and its message has been handed over and not been answered. -/
def State.pending (s : State) (p : Nat) : Prop :=
  (s.queue.slot p).position = p ∧ (s.queue.slot p).occupied ∧
    (s.queue.slot p).answerState = .pending

/-- A response of the watchdog. -/
def MessageEvent.byWatchdog : MessageEvent → Bool
  | .respond _ (.watchdog _ _) _ => true
  | _ => false

/-- What has been armed, and what has been computed for it, stays as it is. -/
structure History.Aside (h h' : History) : Prop where
  ticket : h'.ticket = h.ticket
  ticketPhase : h'.ticketPhase = h.ticketPhase
  ticketPosition : h'.ticketPosition = h.ticketPosition
  owner : h'.owner = h.owner
  fireAt : h'.fireAt = h.fireAt
  stage : ∀ p, h.stage p ≠ .unclaimed → h'.stage p ≠ .unclaimed
  log : ∀ m e, e ∈ h'.log m → e ∈ h.log m ∨ e.byWatchdog = false

/-- No slot is filled or handed over. -/
structure Queue.Aside (q q' : Queue) : Prop where
  capacity : q'.capacity = q.capacity
  position : ∀ i, (q'.slots i).position = (q.slots i).position
  answers : ∀ i, (q'.slots i).occupied → (q'.slots i).answerState = .pending →
    (q.slots i).occupied ∧ (q.slots i).answerState = .pending

/-- The frame of a native method. -/
structure State.Aside (s s' : State) : Prop where
  requests : s'.requests = s.requests
  heap : s'.heap = s.heap
  watchdog : s'.watchdog = s.watchdog
  callback : s'.callback = s.callback
  queue : s.queue.Aside s'.queue
  history : s.history.Aside s'.history

/-! ## The histories -/

namespace History.Aside

variable {h h' : History} {p m : Nat} {st : Stage} {e : MessageEvent}

theorem refl (h : History) : h.Aside h := ⟨rfl, rfl, rfl, rfl, rfl, fun _ => id, fun _ _ => .inl⟩

/-- A position moves on. -/
theorem enter (ha : h.Aside h') (p : Nat) (hst : st ≠ .unclaimed) : h.Aside (h'.enter p st) := by
  refine ⟨ha.ticket, ha.ticketPhase, ha.ticketPosition, ha.owner, ha.fireAt, fun r hr => ?_, ha.log⟩
  simp only [History.enter, Function.update_apply]
  split_ifs
  · exact hst
  · exact ha.stage r hr

/-- An event that is not the watchdog's is recorded. -/
theorem record (ha : h.Aside h') (m : Nat) (he : e.byWatchdog = false) :
    h.Aside (h'.record m e) := by
  refine ⟨ha.ticket, ha.ticketPhase, ha.ticketPosition, ha.owner, ha.fireAt, ha.stage,
    fun r e' hr => ?_⟩
  simp only [History.record, Function.update_apply] at hr
  split_ifs at hr with heq
  · obtain rfl | hr := List.mem_cons.mp hr
    · exact .inr he
    · exact ha.log r e' (heq ▸ hr)
  · exact ha.log r e' hr

end History.Aside

/-! ## The queues -/

namespace Queue.Aside

variable {q : Queue}

theorem refl (q : Queue) : q.Aside q := ⟨rfl, fun _ => rfl, fun _ => .intro⟩

theorem advanceDequeue (p : Nat) : q.Aside (q.advanceDequeue p) :=
  ⟨rfl, fun _ => rfl, fun _ => .intro⟩

theorem storeOccupied (p : Nat) : q.Aside (q.storeOccupied p false) := by
  refine ⟨rfl, fun i => ?_, fun i => ?_⟩ <;> grind

theorem storeReleased (p : Nat) : q.Aside (q.storeReleased p) := by
  refine ⟨rfl, fun i => ?_, fun i => ?_⟩ <;> grind

theorem storePublished (p : Nat) : q.Aside (q.storePublished p) := by
  refine ⟨rfl, fun i => ?_, fun i => ?_⟩ <;> grind

theorem storeReaders (i readers : Nat) : q.Aside (q.storeReaders i readers) := by
  refine ⟨rfl, fun j => ?_, fun j => ?_⟩ <;> grind

theorem storeAnswered (i : Nat) : q.Aside (q.storeAnswerState i .answered) := by
  refine ⟨rfl, fun j => ?_, fun j => ?_⟩ <;> grind

/-- No position becomes pending. -/
theorem pending {s s' : State} (h : s.queue.Aside s'.queue) {p : Nat} (hp : s'.pending p) :
    s.pending p := by
  have hindex : s'.queue.index p = s.queue.index p := by
    rw [Queue.index, Queue.index, Queue.mask, Queue.mask, h.capacity]
  obtain ⟨hposition, hoccupied, hpending⟩ := hp
  rw [Queue.slot, hindex] at hposition hoccupied hpending
  rw [h.position] at hposition
  exact ⟨hposition, h.answers _ hoccupied hpending⟩

end Queue.Aside

/-! ## The native methods -/

namespace State.Aside

variable {cfg : Config} {s s' : State}

theorem refl (s : State) : s.Aside s := ⟨rfl, rfl, rfl, rfl, .refl _, .refl _⟩

/-- A method returns to Ruby, or begins. -/
theorem of_eq (hsame : s'.requests = s.requests ∧ s'.heap = s.heap ∧ s'.watchdog = s.watchdog ∧
      s'.callback = s.callback ∧ s'.queue = s.queue)
    (hhistory : s.history.Aside s'.history) : s.Aside s' := by
  obtain ⟨hrequests, hheap, hwatchdog, hcallback, hqueue⟩ := hsame
  exact ⟨hrequests, hheap, hwatchdog, hcallback, hqueue ▸ .refl _, hhistory⟩

theorem releaseCall (p : Nat) (caller : ReleaseCaller) (stats : Stats) :
    s.Aside ({ s with stats }.releaseCall p caller) := by
  simp only [State.releaseCall]
  split_ifs <;> exact .of_eq ⟨rfl, rfl, rfl, rfl, rfl⟩ (.refl _)

theorem respondReturn (h : s.Aside s') (p : Nat) (sent success : Bool) (caller : RespondCaller) :
    s.Aside (s'.respondReturn cfg p sent success caller) := by
  obtain ⟨hrequests, hheap, hwatchdog, hcallback, hqueue, ht, hp, hq, ho, hf, hs, hl⟩ := h
  cases caller <;>
    exact ⟨hrequests, hheap, hwatchdog, hcallback, hqueue, ⟨ht, hp, hq, ho, hf, hs, hl⟩⟩

theorem sendSlot (cfg : Config) (i : Input) (slot p : Nat) (sender : Sender) (a : Answer)
    (hsender : ∀ e now, sender ≠ .watchdog e now) :
    s.Aside (s.sendSlot cfg i slot p sender a) := by
  refine .of_eq ⟨rfl, rfl, rfl, rfl, rfl⟩ ?_
  obtain ⟨ht, hp, hq, ho, hf, hs, hl⟩ :=
    (History.Aside.refl s.history).record (s.queue.slots slot).message
      (e := .respond (s.queue.slots slot).client sender
        (cfg.response (s.queue.slots slot).message a)) (by
      cases sender with
      | watchdog e now => exact absurd rfl (hsender e now)
      | _ => rfl)
  exact ⟨ht, hp, hq, ho, hf, hs, hl⟩

end State.Aside

variable {cfg : Config} {s s' : State} {i : Input}

theorem callStep_aside {call : Call} (hstep : callStep cfg call s = some s') : s.Aside s' := by
  simp only [callStep] at hstep
  split_ifs at hstep
  cases call with
  | drain | close | retain =>
    simp only [beginCall] at hstep
    split_ifs at hstep <;> cases hstep <;> exact .of_eq ⟨rfl, rfl, rfl, rfl, rfl⟩ (.refl _)
  | wake =>
    cases hstep
    exact .of_eq ⟨rfl, rfl, rfl, rfl, rfl⟩ (.refl _)
  | read p =>
    simp only [beginCall] at hstep
    split_ifs at hstep <;> cases hstep
    · exact .of_eq ⟨rfl, rfl, rfl, rfl, rfl⟩ (.refl _)
    · exact .of_eq ⟨rfl, rfl, rfl, rfl, rfl⟩ ((History.Aside.refl _).record _ rfl)
  | respond p verdict =>
    simp only [beginCall] at hstep
    split_ifs at hstep
    · cases hstep
      exact .of_eq ⟨rfl, rfl, rfl, rfl, rfl⟩ (.refl _)
    · have hread := (History.Aside.refl s.history).record (s.queue.slot p).message
        (rfl : (MessageEvent.read p).byWatchdog = false)
      obtain ⟨ht, hp, hq, ho, hf, hs, hl⟩ := hread
      split at hstep <;> cases hstep <;>
        exact .of_eq ⟨rfl, rfl, rfl, rfl, rfl⟩ ⟨ht, hp, hq, ho, hf, hs, hl⟩
  | release p =>
    simp only [beginCall] at hstep
    split_ifs at hstep
    cases hstep
    exact .releaseCall p .method s.stats
  | autoRelease p =>
    simp only [beginCall] at hstep
    split_ifs at hstep <;> cases hstep
    · exact .of_eq ⟨rfl, rfl, rfl, rfl, rfl⟩ (.refl _)
    · exact .releaseCall p .method s.stats
  | free p =>
    simp only [beginCall] at hstep
    split_ifs at hstep <;> cases hstep <;> exact .releaseCall p .free _

theorem rubyStep_aside (hstep : rubyStep cfg i s = some s') : s.Aside s' := by
  cases hpc : s.ruby with
  | idle => simp [rubyStep, hpc] at hstep
  | drainDelivered | drainClear | drainDepth | stopWatchdog | storeDeleteReady =>
    simp only [rubyStep, hpc, Option.some.injEq] at hstep
    subst hstep
    exact .of_eq ⟨rfl, rfl, rfl, rfl, rfl⟩ (.refl _)
  | drainRead | drainDepthDequeue | answerOccupied =>
    simp only [rubyStep, hpc] at hstep
    split_ifs at hstep <;> cases hstep <;> exact .of_eq ⟨rfl, rfl, rfl, rfl, rfl⟩ (.refl _)
  | awaitReaders | queueAwait | awaitCallbacks | awaitWatchdog | join =>
    simp only [rubyStep, hpc, Option.some.injEq] at hstep
    subst hstep
    split_ifs <;> exact .of_eq ⟨rfl, rfl, rfl, rfl, rfl⟩ (.refl _)
  | notify caller =>
    simp only [rubyStep, hpc] at hstep
    split_ifs at hstep <;> cases hstep
    · cases caller <;> exact .of_eq ⟨rfl, rfl, rfl, rfl, rfl⟩ (.refl _)
    · exact .of_eq ⟨rfl, rfl, rfl, rfl, rfl⟩ (.refl _)
  | notifyWrite caller =>
    simp only [rubyStep, hpc, Option.some.injEq] at hstep
    subst hstep
    cases caller <;> exact .of_eq ⟨rfl, rfl, rfl, rfl, rfl⟩ (.refl _)
  | drainDequeue left batch pc | closeDequeue pc =>
    simp only [rubyStep, hpc, Queue.dequeue] at hstep
    cases hres : s.queue.ring.takeStep i.spurious pc <;>
      simp only [hres, Option.some.injEq] at hstep <;> subst hstep
    case got p =>
      exact ⟨rfl, rfl, rfl, rfl, .advanceDequeue p, (History.Aside.refl _).enter p (by simp)⟩
    all_goals exact .of_eq ⟨rfl, rfl, rfl, rfl, rfl⟩ (.refl _)
  | respondClosed p caller =>
    simp only [rubyStep, hpc] at hstep
    split_ifs at hstep <;> cases hstep
    · exact (State.Aside.refl s).respondReturn ..
    · exact .of_eq ⟨rfl, rfl, rfl, rfl, rfl⟩ (.refl _)
  | respondExchange p caller =>
    simp only [rubyStep, hpc, State.answer] at hstep
    split_ifs at hstep <;> cases hstep
    · exact ⟨rfl, rfl, rfl, rfl, .storeAnswered _,
        ⟨rfl, rfl, rfl, rfl, rfl, fun _ => id, fun _ _ => .inl⟩⟩
    · exact (State.Aside.refl s).respondReturn ..
  | answerExchange | closeExchange =>
    simp only [rubyStep, hpc, State.answer] at hstep
    split_ifs at hstep <;> cases hstep
    · exact ⟨rfl, rfl, rfl, rfl, .storeAnswered _,
        ⟨rfl, rfl, rfl, rfl, rfl, fun _ => id, fun _ _ => .inl⟩⟩
    · exact .of_eq ⟨rfl, rfl, rfl, rfl, rfl⟩ (.refl _)
  | respondSend p caller =>
    simp only [rubyStep, hpc, Option.some.injEq] at hstep
    subst hstep
    refine (State.Aside.sendSlot cfg i _ p _ _ fun e now => ?_).respondReturn ..
    cases caller <;> rintro ⟨⟩
  | answerSend index =>
    simp only [rubyStep, hpc, Option.some.injEq] at hstep
    subst hstep
    obtain ⟨hr, hh, hw, hc, hq, hhistory⟩ := State.Aside.sendSlot (s := s) cfg i index
      (s.queue.slots index).position .close cfg.defaultAnswer (by simp)
    exact ⟨hr, hh, hw, hc, hq, hhistory⟩
  | closeSend p =>
    simp only [rubyStep, hpc, Option.some.injEq] at hstep
    subst hstep
    obtain ⟨hr, hh, hw, hc, hq, hhistory⟩ := State.Aside.sendSlot (s := s) cfg i (s.queue.index p) p
      .close cfg.defaultAnswer (by simp)
    exact ⟨hr, hh, hw, hc, hq, hhistory⟩
  | disarm p caller =>
    simp only [rubyStep, hpc, Option.some.injEq] at hstep
    subst hstep
    exact ⟨rfl, rfl, rfl, rfl, .storeOccupied p, (History.Aside.refl _).enter p (by simp)⟩
  | queueDisarm p caller =>
    simp only [rubyStep, hpc, Option.some.injEq] at hstep
    subst hstep
    exact ⟨rfl, rfl, rfl, rfl, .storeOccupied p, (History.Aside.refl _).enter p (by simp)⟩
  | releaseMessage p caller | closeMessage p =>
    simp only [rubyStep, hpc, Option.some.injEq] at hstep
    subst hstep
    exact .of_eq ⟨rfl, rfl, rfl, rfl, rfl⟩
      (((History.Aside.refl _).record _ rfl).enter p (by simp))
  | queueStore p caller =>
    simp only [rubyStep, hpc] at hstep
    cases caller <;> cases hstep <;>
      exact ⟨rfl, rfl, rfl, rfl, .storeReleased p, (History.Aside.refl _).enter p (by simp)⟩

end EndpointSecurity
