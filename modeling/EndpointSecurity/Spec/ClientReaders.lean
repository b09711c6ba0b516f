import EndpointSecurity.Spec.ClientClose

/-!
# The readers of a slot

The watchdog can find an entry of its heap due just as Ruby releases the slot of that entry.
It registers as a reader of the slot and then looks at `occupied` and `position` again;
`message_release` clears `occupied` and then waits for the readers. Whichever comes first, the
message is not released while the watchdog answers it.

## Key results

- `Readers`: while the watchdog answers an entry, the position of the entry is in its slot
- `reachable_readers`: the invariant holds in every reachable state
-/

namespace EndpointSecurity

open TransitionSystem (Reachable)

/-- The entry for whose slot the watchdog is counted as a reader. -/
def WatchdogPc.reading : WatchdogPc → Option Entry
  | .recheck entry _ | .exchange entry _ | .respond entry _ | .count entry | .notify entry
  | .notifyWrite entry | .subReader entry => some entry
  | _ => none

/-- The entry that the watchdog has found in its slot and is about to answer. -/
def WatchdogPc.matched : WatchdogPc → Option Entry
  | .exchange entry _ | .respond entry _ => some entry
  | _ => none

/-- A position in this stage may be in the hands of the watchdog. -/
def Stage.exposed : Stage → Bool
  | .marked | .queued | .taken | .disarmed => true
  | _ => false

/-- The invariant of every run. -/
structure Readers (s : State) : Prop where
  readers : ∀ i, (s.queue.slots i).readers =
    if s.watchdog.reading.map Entry.slot = some i then 1 else 0
  unoccupied : ∀ p caller, s.ruby = .queueDisarm p (.release caller) →
    (s.queue.slot p).occupied = false
  matched : ∀ e, s.watchdog.matched = some e →
    s.queue.index e.position = e.slot ∧ (s.history.stage e.position).exposed
  kept : ∀ p caller e, s.ruby = .releaseMessage p caller → s.watchdog.matched = some e →
    e.position ≠ p

theorem readers_init (cfg : Config) : Readers (.init cfg) where
  readers := by simp [State.init, Queue.init, WatchdogPc.reading]
  unoccupied := by simp [State.init]
  matched := by simp [State.init, WatchdogPc.matched]
  kept := by simp [State.init]

/-! ## One step -/

variable {cfg : Config} {s s' : State} {k : Nat} {i : Input}

/-- The watchdog answers nothing once it has halted. -/
theorem WatchdogPc.matched_of_halted {pc : WatchdogPc} (h : pc.halted) : pc.matched = none := by
  cases pc <;> first | rfl | cases h

/-- The watchdog is registered with the slot of the entry that it answers. -/
theorem WatchdogPc.reading_of_matched {pc : WatchdogPc} {e : Entry} (h : pc.matched = some e) :
    pc.reading = some e := by
  cases pc <;> simp_all [matched, reading]

/-- A step of a callback, which leaves the readers and the exposed positions alone. -/
theorem Readers.callback (h : Readers s)
    (hreaders : ∀ j, (s'.queue.slots j).readers = (s.queue.slots j).readers)
    (hoccupied : ∀ p caller, s.ruby = .queueDisarm p caller →
      (s'.queue.slots (s.queue.index p)).occupied = (s.queue.slot p).occupied)
    (hexposed : ∀ p, (s.history.stage p).exposed → (s'.history.stage p).exposed)
    (hsame : s'.queue.capacity = s.queue.capacity ∧ s'.watchdog = s.watchdog ∧
      s'.ruby = s.ruby := by
        exact ⟨rfl, rfl, rfl⟩) : Readers s' := by
  obtain ⟨hcap, hwatchdog, hruby⟩ := hsame
  have hindex : ∀ p, s'.queue.index p = s.queue.index p := fun p => by
    rw [Queue.index, Queue.index, Queue.mask, Queue.mask, hcap]
  constructor
  case readers => rw [hwatchdog]; exact fun j => (hreaders j).trans (h.readers j)
  case unoccupied =>
    intro p caller hp
    rw [hruby] at hp
    rw [Queue.slot, hindex, hoccupied p _ hp]
    exact h.unoccupied p caller hp
  case matched =>
    intro e he
    rw [hwatchdog] at he
    obtain ⟨hslot, hst⟩ := h.matched e he
    exact ⟨(hindex _).trans hslot, hexposed _ hst⟩
  case kept => rw [hwatchdog, hruby]; exact h.kept

theorem callbackStep_readers (hslots : SlotsInv cfg s) (h : Readers s)
    (hstep : callbackStep cfg k i s = some s') : Readers s' := by
  cases hpc : s.callback k with
  | absent | loadClosed | retain | drop | publishRequest | respond | loadDequeue | loadDepthMax
  | notifyWrite | leave =>
    simp only [callbackStep, hpc, Option.some.injEq] at hstep
    subst hstep
    exact h.callback (fun _ => rfl) (fun _ _ _ => rfl) (fun _ => id)
  | refuse | overflow =>
    simp only [callbackStep, hpc, Option.some.injEq] at hstep
    obtain ⟨stats, log, heq⟩ := s.respondUnqueued_eq cfg i k
    rw [heq] at hstep
    subst hstep
    exact h.callback (fun _ => rfl) (fun _ _ _ => rfl) (fun _ => id)
  -- Claiming turns an unclaimed position, which the watchdog cannot have in its hands
  | enqueue pc =>
    have hloop := SeqRing.Ring.ClaimOk.step i.spurious (hslots.claiming k pc hpc)
    simp only [callbackStep, hpc, Queue.enqueue] at hstep
    cases hres : s.queue.ring.claimStep i.spurious pc with
    | running | none =>
      simp only [hres, Option.some.injEq] at hstep
      subst hstep
      exact h.callback (fun _ => rfl) (fun _ _ _ => rfl) (fun _ => id)
    | got p =>
      simp only [hres, Option.some.injEq] at hstep hloop
      obtain ⟨rfl, hseq⟩ := hloop
      have hfree := hslots.slots.next_unclaimed
      subst hstep
      refine h.callback ?_ ?_ (fun p hp => stage_update Stage.exposed hp fun hq => ?_)
      · grind
      · grind [Queue.slot]
      · rw [Queue.ring_enq, hfree] at hq
        cases hq
  -- A claimed position is not exposed before it is marked, so filling its slot disturbs nobody
  | fill p =>
    have hst := hslots.callbacks.holds k p .claimed (by rw [hpc]; rfl)
    simp only [callbackStep, hpc, Option.some.injEq] at hstep
    subst hstep
    refine h.callback ?_ ?_ (fun r hr => stage_update Stage.exposed hr ?_)
    · grind
    · grind [Queue.slot]
    · simp [hst, Stage.exposed]
  | storeOccupied p =>
    have hst := hslots.callbacks.holds k p .filled (by rw [hpc]; rfl)
    simp only [callbackStep, hpc, Option.some.injEq] at hstep
    subst hstep
    refine h.callback ?_ (fun r caller hr => ?_) (fun r hr => stage_update Stage.exposed hr ?_)
    · grind
    · -- The slot being released is in use by its position, hence it is not the one being marked
      have hst' := hslots.ruby.holds r .unreferenced (by rw [hr]; rfl)
      have hne : r ≠ p := by
        rintro rfl
        cases hst.symm.trans hst'
      have hidx := hslots.slots.alone (p := p) (by rw [hst]; rfl) r hne (by rw [hst']; rfl)
      grind [Queue.slot]
    · simp [hst, Stage.exposed]
  | arm p pc =>
    simp only [callbackStep, hpc] at hstep
    cases hres : s.requests.arm i.spurious pc <;> simp only [hres, Option.some.injEq] at hstep <;>
      subst hstep
    all_goals exact h.callback (fun _ => rfl) (fun _ _ _ => rfl) (fun _ => id)
  | answer p =>
    simp only [callbackStep, hpc, State.answer] at hstep
    split_ifs at hstep <;> cases hstep
    · refine h.callback ?_ ?_ (fun _ => id)
      · grind
      · grind [Queue.slot]
    · exact h.callback (fun _ => rfl) (fun _ _ _ => rfl) (fun _ => id)
  | raiseDepthMax | notify =>
    simp only [callbackStep, hpc] at hstep
    split_ifs at hstep <;> cases hstep <;>
      exact h.callback (fun _ => rfl) (fun _ _ _ => rfl) (fun _ => id)
  | storeSequence p =>
    simp only [callbackStep, hpc, Option.some.injEq] at hstep
    subst hstep
    refine h.callback ?_ ?_ (fun r hr => stage_update Stage.exposed hr fun _ => rfl)
    · grind
    · grind [Queue.slot]
  | returned => simp [callbackStep, hpc] at hstep

/-- A step of the watchdog that changes neither what it reads nor what is occupied. -/
theorem Readers.watchdog (h : Readers s)
    (hreaders : ∀ j, (s'.queue.slots j).readers = (s.queue.slots j).readers)
    (hoccupied : ∀ j, (s'.queue.slots j).occupied = (s.queue.slots j).occupied)
    (hreading : s'.watchdog.reading = s.watchdog.reading)
    (hmatched : ∀ e, s'.watchdog.matched = some e → s.watchdog.matched = some e)
    (hsame : s'.queue.capacity = s.queue.capacity ∧ s'.ruby = s.ruby ∧
      s'.history.stage = s.history.stage := by exact ⟨rfl, rfl, rfl⟩) : Readers s' := by
  obtain ⟨hcap, hruby, hstage⟩ := hsame
  have hindex : ∀ p, s'.queue.index p = s.queue.index p := fun p => by
    rw [Queue.index, Queue.index, Queue.mask, Queue.mask, hcap]
  constructor
  case readers => rw [hreading]; exact fun j => (hreaders j).trans (h.readers j)
  case unoccupied =>
    intro p caller hp
    rw [hruby] at hp
    rw [Queue.slot, hindex, hoccupied]
    exact h.unoccupied p caller hp
  case matched =>
    intro e he
    rw [hindex, hstage]
    exact h.matched e (hmatched e he)
  case kept => rw [hruby]; exact fun p caller e hp he => h.kept p caller e hp (hmatched e he)

/-- A step after which the watchdog is not answering any position. -/
theorem Readers.watchdogUnmatched (h : Readers s)
    (hreading : s'.watchdog.reading = s.watchdog.reading)
    (hmatched : s'.watchdog.matched = none)
    (hsame : s'.queue = s.queue ∧ s'.ruby = s.ruby ∧ s'.history.stage = s.history.stage := by
        exact ⟨rfl, rfl, rfl⟩) : Readers s' := by
  obtain ⟨hqueue, hruby, hstage⟩ := hsame
  refine h.watchdog ?_ ?_ hreading (by simp [hmatched]) ⟨by rw [hqueue], hruby, hstage⟩
  · exact fun _ => by rw [hqueue]
  · exact fun _ => by rw [hqueue]

/-- The position that the watchdog has found occupied and matching is in its slot, and it is
    exposed: a native method that is past the wait for readers has cleared the mark before. -/
theorem Readers.match (hslots : SlotsInv cfg s) (hclosing : Closing s) (h : Readers s) {e : Entry}
    (hrunning : s.watchdog.halted = false) (hocc : (s.queue.slots e.slot).occupied)
    (hpos : (s.queue.slots e.slot).position = e.position) :
    s.queue.index e.position = e.slot ∧ (s.history.stage e.position).exposed ∧
      ∀ p caller, s.ruby = .releaseMessage p caller → e.position ≠ p := by
  -- An occupied slot holds the position that its `position` field says
  obtain ⟨hindex, hst⟩ := hslots.slots.occupied_position hocc
  rw [hpos] at hindex hst
  -- The close answers and empties the queue only after the watchdog has stopped
  have hnothalted : s.closed → s.ruby.closeStage < 3 := by
    intro hc
    by_contra hstage
    have hstopped := hclosing.halted hc (by omega)
    rw [hclosing.stopped, hrunning] at hstopped
    cases hstopped
  have hnotclose : s.ruby.closeStage ≠ 4 := by
    intro hstage
    have := hnothalted (hclosing.closed (by omega))
    omega
  refine ⟨hindex, ?_, ?_⟩
  · -- Between the last wait for readers and the release of the slot, the mark is cleared
    cases hcase : s.history.stage e.position <;>
      simp [hcase, Stage.occupied, Stage.exposed] at hst ⊢
    -- A position that a close has dequeued: the close is past its wait for the watchdog
    case drained =>
      have hholds := hslots.ruby.held e.position (by rw [hcase]; rfl)
      cases hpc : s.ruby <;> simp [hpc, hcase, RubyPc.holds, RubyPc.closeStage] at hholds hnotclose
    -- A position that is being released: `message_release` has cleared `occupied` before
    case unreferenced =>
      have hholds := hslots.ruby.held e.position (by rw [hcase]; rfl)
      cases hpc : s.ruby <;> simp [hpc, hcase, RubyPc.holds] at hholds
      rename_i p caller
      cases caller with
      | close => exact hnotclose (by rw [hpc]; rfl)
      | release caller =>
        have := h.unoccupied p caller hpc
        rw [hholds, Queue.slot, hindex, hocc] at this
        cases this
  -- Once the wait for readers is over, the slot's position is disarmed and no longer occupied
  · rintro p caller hp rfl
    rw [hslots.ruby.holds _ .disarmed (by rw [hp]; rfl)] at hst
    simp [Stage.occupied] at hst

theorem watchdogStep_readers (hslots : SlotsInv cfg s) (hclosing : Closing s) (h : Readers s)
    (hstep : watchdogStep cfg i s = some s') : Readers s' := by
  cases hpc : s.watchdog with
  | popLoad | popStore | popRelease | respond | count | notifyWrite | wait | exiting
  | deleting =>
    simp only [watchdogStep, hpc, Option.some.injEq] at hstep
    subst hstep
    exact h.watchdogUnmatched (by rw [hpc]; rfl) rfl
  | loadRunning | popSequence | loadOccupied | stopped =>
    simp only [watchdogStep, hpc, Option.some.injEq] at hstep
    subst hstep
    split <;>
      exact h.watchdogUnmatched (by rw [hpc]; rfl) rfl
  | clock | notify | asleep =>
    simp only [watchdogStep, hpc] at hstep
    split_ifs at hstep <;> cases hstep <;>
      exact h.watchdogUnmatched (by rw [hpc]; rfl) rfl
  | addReader entry now | subReader entry =>
    have hreaders := h.readers
    simp only [hpc, WatchdogPc.reading] at hreaders
    simp only [watchdogStep, hpc, Option.some.injEq] at hstep
    subst hstep
    refine ⟨fun j => ?_, fun p caller hp => ?_, by simp [WatchdogPc.matched],
      by simp [WatchdogPc.matched]⟩
    -- The count of the slot goes up or down by one, with the entry that is being read
    · have hj := hreaders j
      simp only [Queue.slots_storeReaders, WatchdogPc.reading]
      grind
    · have := h.unoccupied p caller hp
      grind [Queue.slot]
  | recheck entry now =>
    simp only [watchdogStep, hpc] at hstep
    split_ifs at hstep with hgone <;> cases hstep
    · exact h.watchdogUnmatched (by rw [hpc]; rfl) rfl
    · simp only [Bool.or_eq_true, Bool.not_eq_true', decide_eq_true_eq, not_or, Bool.not_eq_false,
        not_not] at hgone
      obtain ⟨hindex, hst, hkept⟩ :=
        h.match hslots hclosing (by rw [hpc]; rfl) hgone.1 hgone.2
      refine ⟨fun j => ?_, h.unoccupied, ?_, ?_⟩
      · rw [h.readers j, hpc]
        rfl
      · rintro _ ⟨⟩
        exact ⟨hindex, hst⟩
      · rintro p caller _ hp ⟨⟩
        exact hkept p caller hp
  | exchange entry now =>
    simp only [watchdogStep, hpc, State.answer] at hstep
    split_ifs at hstep <;> cases hstep
    · refine h.watchdog ?_ ?_ (by rw [hpc]; rfl) (by rw [hpc]; exact fun _ => id)
      · grind
      · grind
    · exact h.watchdogUnmatched (by rw [hpc]; rfl) rfl
  | deleted => simp [watchdogStep, hpc] at hstep

/-- A step of a native method, which leaves the readers alone. -/
theorem Readers.ruby (h : Readers s)
    (hreaders : ∀ j, (s'.queue.slots j).readers = (s.queue.slots j).readers)
    (hexposed : ∀ e, s.watchdog.matched = some e → (s.history.stage e.position).exposed →
      (s'.history.stage e.position).exposed)
    (hunoccupied : ∀ p caller, s'.ruby = .queueDisarm p (.release caller) →
      (s'.queue.slot p).occupied = false)
    (hkept : ∀ p caller e, s'.ruby = .releaseMessage p caller → s.watchdog.matched = some e →
      e.position ≠ p)
    (hsame : s'.queue.capacity = s.queue.capacity ∧ s'.watchdog = s.watchdog := by
        exact ⟨rfl, rfl⟩) : Readers s' := by
  obtain ⟨hcap, hwatchdog⟩ := hsame
  refine ⟨?_, hunoccupied, fun e he => ?_, ?_⟩
  · rw [hwatchdog]
    exact fun j => (hreaders j).trans (h.readers j)
  · rw [hwatchdog] at he
    obtain ⟨hslot, hst⟩ := h.matched e he
    refine ⟨?_, hexposed e he hst⟩
    rwa [Queue.index, Queue.mask, hcap]
  · rwa [hwatchdog]

/-- A step of a native method that is not part of a release, or ends it. -/
theorem Readers.rubyMove (h : Readers s)
    (hreaders : ∀ j, (s'.queue.slots j).readers = (s.queue.slots j).readers)
    (hexposed : ∀ e, s.watchdog.matched = some e → (s.history.stage e.position).exposed →
      (s'.history.stage e.position).exposed)
    (hreleasing : s'.ruby.releasing = none)
    (hsame : s'.queue.capacity = s.queue.capacity ∧ s'.watchdog = s.watchdog := by
        exact ⟨rfl, rfl⟩) : Readers s' := by
  refine h.ruby hreaders hexposed (fun p caller hp => ?_) (fun p caller e hp => ?_) hsame
  · simp [hp, RubyPc.releasing] at hreleasing
  · simp [hp, RubyPc.releasing] at hreleasing

/-- A step of a native method that is not part of a release and moves no position on. -/
theorem Readers.rubyCalm (h : Readers s)
    (hreaders : ∀ j, (s'.queue.slots j).readers = (s.queue.slots j).readers)
    (hreleasing : s'.ruby.releasing = none)
    (hsame : s'.queue.capacity = s.queue.capacity ∧ s'.watchdog = s.watchdog ∧
      s'.history.stage = s.history.stage := by exact ⟨rfl, rfl, rfl⟩) : Readers s' := by
  obtain ⟨hcap, hwatchdog, hstage⟩ := hsame
  exact h.rubyMove hreaders (by simp [hstage]) hreleasing ⟨hcap, hwatchdog⟩

theorem callStep_readers {call : Call} (h : Readers s) (hstep : callStep cfg call s = some s') :
    Readers s' := by
  simp only [callStep] at hstep
  split_ifs at hstep
  have hrelease : ∀ p caller stats, Readers ({ s with stats }.releaseCall p caller) := by
    intro p caller stats
    simp only [State.releaseCall]
    split_ifs <;> exact h.rubyCalm (fun _ => rfl) rfl
  cases call with
  | drain | close | read | retain =>
    simp only [beginCall] at hstep
    split_ifs at hstep <;> cases hstep <;> exact h.rubyCalm (fun _ => rfl) rfl
  | wake =>
    cases hstep
    exact h.rubyCalm (fun _ => rfl) rfl
  | respond p verdict =>
    simp only [beginCall] at hstep
    split_ifs at hstep
    · cases hstep
      exact h.rubyCalm (fun _ => rfl) rfl
    · split at hstep <;> cases hstep <;> exact h.rubyCalm (fun _ => rfl) rfl
  | release p =>
    simp only [beginCall] at hstep
    split_ifs at hstep
    cases hstep
    exact hrelease p .method s.stats
  | autoRelease p =>
    simp only [beginCall] at hstep
    split_ifs at hstep <;> cases hstep
    · exact h.rubyCalm (fun _ => rfl) rfl
    · exact hrelease p .method s.stats
  | free p =>
    simp only [beginCall] at hstep
    split_ifs at hstep <;> cases hstep <;> exact hrelease p .free _

/-- `esrb_respond_slot` returns. -/
theorem Readers.respondReturn (h : Readers s) (p : Nat) (sent success : Bool)
    (caller : RespondCaller) : Readers (s.respondReturn cfg p sent success caller) := by
  cases caller <;> exact h.rubyCalm (fun _ => rfl) rfl

theorem rubyStep_readers (hslots : SlotsInv cfg s) (hclosing : Closing s) (h : Readers s)
    (hstep : rubyStep cfg i s = some s') : Readers s' := by
  cases hpc : s.ruby with
  | idle => simp [rubyStep, hpc] at hstep
  | drainClear | drainDepth | stopWatchdog | storeDeleteReady | answerSend | closeSend =>
    simp only [rubyStep, hpc, Option.some.injEq] at hstep
    subst hstep
    exact h.rubyCalm (fun _ => rfl) rfl
  | drainRead maximum =>
    simp only [rubyStep, hpc] at hstep
    split_ifs at hstep <;> cases hstep
    · exact h.rubyCalm (fun _ => rfl) rfl
    · exact h.rubyCalm (fun _ => rfl) rfl
    · exact h.rubyCalm (fun _ => rfl) rfl
    · exact h.rubyCalm (fun _ => rfl) rfl
    · refine h.rubyCalm (fun _ => rfl) ?_
      rcases drainNext_eq maximum.toNat [] with hnext | hnext <;> rw [hnext] <;> rfl
  | drainDelivered left batch =>
    simp only [rubyStep, hpc, Option.some.injEq] at hstep
    subst hstep
    refine h.rubyCalm (fun _ => rfl) ?_
    rcases drainNext_eq (left - 1) batch with hnext | hnext <;> rw [hnext] <;> rfl
  | drainDequeue left batch pc =>
    simp only [rubyStep, hpc, Queue.dequeue] at hstep
    cases hres : s.queue.ring.takeStep i.spurious pc with
    | running | none =>
      simp only [hres, Option.some.injEq] at hstep
      subst hstep
      exact h.rubyCalm (fun _ => rfl) rfl
    | got p =>
      simp only [hres, Option.some.injEq] at hstep
      subst hstep
      refine h.rubyMove (fun _ => rfl) (fun e _ he => ?_) rfl
      exact stage_update Stage.exposed he fun _ => rfl
  | drainDepthDequeue | answerOccupied =>
    simp only [rubyStep, hpc] at hstep
    split_ifs at hstep <;> cases hstep <;> exact h.rubyCalm (fun _ => rfl) rfl
  | notify caller =>
    simp only [rubyStep, hpc] at hstep
    split_ifs at hstep <;> cases hstep
    · cases caller <;> exact h.rubyCalm (fun _ => rfl) rfl
    · exact h.rubyCalm (fun _ => rfl) rfl
  | notifyWrite caller =>
    simp only [rubyStep, hpc, Option.some.injEq] at hstep
    subst hstep
    cases caller <;> exact h.rubyCalm (fun _ => rfl) rfl
  | respondClosed p caller =>
    simp only [rubyStep, hpc] at hstep
    split_ifs at hstep <;> cases hstep
    · exact h.respondReturn ..
    · exact h.rubyCalm (fun _ => rfl) rfl
  | respondExchange p caller =>
    simp only [rubyStep, hpc, State.answer] at hstep
    split_ifs at hstep <;> cases hstep
    · exact h.rubyCalm (by grind) rfl
    · exact h.respondReturn ..
  | respondSend p caller =>
    simp only [rubyStep, hpc, Option.some.injEq] at hstep
    subst hstep
    apply Readers.respondReturn
    exact ⟨h.readers, h.unoccupied, h.matched, h.kept⟩
  | disarm p caller =>
    simp only [rubyStep, hpc, Option.some.injEq] at hstep
    subst hstep
    refine h.ruby (by grind) (fun e _ he => ?_) (by simp) (by simp)
    exact stage_update Stage.exposed he fun _ => rfl
  | awaitReaders p caller =>
    simp only [rubyStep, hpc, Option.some.injEq] at hstep
    subst hstep
    split_ifs with hreaders
    · exact h
    · refine h.ruby (fun _ => rfl) (fun _ _ => id) (by simp) ?_
      rintro _ _ e ⟨⟩ he rfl
      -- The watchdog is counted as a reader of the slot while it answers this position
      have hcount := h.readers e.slot
      rw [WatchdogPc.reading_of_matched he, Option.map_some, if_pos rfl, ← (h.matched e he).1]
        at hcount
      exact hreaders (by rw [Queue.slot, hcount]; simp)
  | releaseMessage p caller =>
    have hst := hslots.ruby.holds p .disarmed (by rw [hpc]; rfl)
    simp only [rubyStep, hpc, Option.some.injEq] at hstep
    subst hstep
    refine h.ruby (fun _ => rfl) (fun e he hexp => ?_) ?_ (by simp)
    · change (Function.update s.history.stage p .unreferenced e.position).exposed
      rwa [Function.update_of_ne (h.kept p caller e hpc he)]
    · rintro _ _ ⟨⟩
      exact hslots.slots.unoccupied (by rw [hst]; rfl) (by rw [hst]; rfl) (by rw [hst]; simp)
  | queueDisarm p caller =>
    have hst := hslots.ruby.holds p .unreferenced (by rw [hpc]; rfl)
    simp only [rubyStep, hpc, Option.some.injEq] at hstep
    subst hstep
    refine h.ruby (by grind) (fun e _ hexp => ?_) (by simp) (by simp)
    exact stage_update Stage.exposed hexp (by simp [hst, Stage.exposed])
  | queueAwait p caller =>
    simp only [rubyStep, hpc, Option.some.injEq] at hstep
    subst hstep
    split_ifs
    · exact h
    · exact h.ruby (fun _ => rfl) (fun _ _ => id) (by simp) (by simp)
  | queueStore p caller =>
    have hst := hslots.ruby.holds p .cleared (by rw [hpc]; rfl)
    simp only [rubyStep, hpc] at hstep
    have hexposed : ∀ r, (s.history.stage r).exposed →
        (Function.update s.history.stage p .released r).exposed :=
      fun r hr => stage_update Stage.exposed hr (by simp [hst, Stage.exposed])
    cases caller <;> cases hstep <;>
      exact h.rubyMove (by grind [State.releaseReturn, State.finish])
        (fun e _ => hexposed e.position) rfl
  | awaitCallbacks | awaitWatchdog | join =>
    simp only [rubyStep, hpc, Option.some.injEq] at hstep
    subst hstep
    split_ifs
    all_goals
      first
      | exact h
      | exact h.rubyCalm (fun _ => rfl) rfl
  | answerExchange | closeExchange =>
    simp only [rubyStep, hpc, State.answer] at hstep
    split_ifs at hstep <;> cases hstep
    · exact h.rubyCalm (by grind) rfl
    · exact h.rubyCalm (fun _ => rfl) rfl
  | closeDequeue pc =>
    simp only [rubyStep, hpc, Queue.dequeue] at hstep
    cases hres : s.queue.ring.takeStep i.spurious pc with
    | running | none =>
      simp only [hres, Option.some.injEq] at hstep
      subst hstep
      exact h.rubyCalm (fun _ => rfl) rfl
    | got p =>
      have hhalted : s.watchdog.halted := by
        rw [← hclosing.stopped]
        exact hclosing.halted (hclosing.closed (by simp [hpc, RubyPc.closeStage]))
          (by simp [hpc, RubyPc.closeStage])
      simp only [hres, Option.some.injEq] at hstep
      subst hstep
      -- The watchdog has ended by now, hence it answers no position
      refine h.rubyMove (fun _ => rfl) (fun e he => ?_) rfl
      rw [WatchdogPc.matched_of_halted hhalted] at he
      cases he
  | closeMessage p =>
    have hst := hslots.ruby.holds p .drained (by rw [hpc]; rfl)
    simp only [rubyStep, hpc, Option.some.injEq] at hstep
    subst hstep
    refine h.rubyMove (fun _ => rfl) (fun e _ hexp => ?_) rfl
    change (Function.update s.history.stage p .unreferenced e.position).exposed
    exact stage_update Stage.exposed hexp (by simp [hst, Stage.exposed])

/-- The invariant holds in every reachable state. -/
theorem reachable_readers (hs : Reachable (step cfg) (.init cfg) s) : Readers s := by
  apply hs.invariant (readers_init cfg)
  intro s a s' hs h hstep
  have hslots := reachable_slots hs
  have hclosing := reachable_closing hs
  cases a with
  | callback k input => exact callbackStep_readers hslots h hstep
  | watchdog input => exact watchdogStep_readers hslots hclosing h hstep
  | call call => exact callStep_readers h hstep
  | ruby input => exact rubyStep_readers hslots hclosing h hstep

end EndpointSecurity
