import EndpointSecurity.ForStd.Progress
import EndpointSecurity.Spec.ClientWatchdog

/-!
# The methods of a client return

Three kinds of threads wait for one another: `close` for the callbacks and for the watchdog,
`message_release` for the watchdog to leave the slot, and the watchdog for `close` to let it
delete the native client. From every reachable state these waits can be ended by the threads that
are waited for, whatever the clock, Endpoint Security and the condition variable do meanwhile,
provided that no weak compare-and-set fails spuriously for ever. A rank for each kind of thread
says how many steps it still needs, and the ranks are brought down in turn.

## Key results

- `callback_returns`: a callback left alone returns within a fixed number of steps
- `watchdog_halts`: told to stop, the watchdog alone comes to the end of its loop
- `watchdog_deletes`: the broadcast of `close` is not lost, and the native client is deleted
- `native_methods_return`: whatever native method is being executed, from every reachable state
  the threads that are on their way can make it return
-/

namespace EndpointSecurity

open SeqRing (LoopPc)
open TransitionSystem (Reachable Completes CanReach)

variable {cfg : Config} {s s' : State} {k : Nat} {i : Input}

/-- Those who make the steps of a client. -/
inductive Party where
  | callback (k : Nat)
  | watchdog
  /-- The native method that is being executed -/
  | ruby
  /-- Ruby, which calls a native method. -/
  | call (call : Call)

/-- The step of a party with an input, which it does not choose. -/
def Party.action : Party → Input → Action
  | .callback k, i => .callback k i
  | .watchdog, i => .watchdog i
  | .ruby, i => .ruby i
  | .call c, _ => .call c

/-- No weak compare-and-set fails although the word has the expected value. -/
def Input.strong (i : Input) : Prop := i.spurious = false

/-! ## The callbacks -/

/-- The steps that are left to a callback while nobody else moves. -/
def CallbackPc.rank (queue : Queue) (requests : Requests) : CallbackPc → Nat
  | .returned _ => 0
  | .leave _ => 1
  | .notifyWrite _ | .drop | .refuse => 2
  | .notify _ | .overflow => 3
  | .storeSequence _ => 4
  -- An exchange that finds another maximum is made once more, with that maximum.
  | .raiseDepthMax _ _ maximum => if maximum = queue.depthMax then 5 else 6
  | .loadDepthMax _ _ => 7
  | .loadDequeue _ => 8
  | .respond _ | .publishRequest _ _ => 9
  | .answer _ => 10
  | .arm _ pc => 10 + requests.ring.claimRank pc
  | .storeOccupied _ => 15
  | .fill _ => 16
  | .enqueue pc => 16 + queue.ring.claimRank pc
  | .retain => 21
  | .loadClosed => 22
  | .absent => 23

theorem CallbackPc.rank_le (queue : Queue) (requests : Requests) (pc : CallbackPc) :
    pc.rank queue requests ≤ 23 := by
  cases pc with
  | arm p pc =>
    have := requests.ring.claimRank_bounds pc
    simp only [rank]
    omega
  | enqueue pc =>
    have := queue.ring.claimRank_bounds pc
    simp only [rank]
    omega
  | raiseDepthMax p depth maximum =>
    simp only [rank]
    split_ifs <;> omega
  | _ => simp only [rank]; omega

/-- Every step of a callback that meets no spurious failure brings it closer to its return. -/
theorem callbackStep_rank (hslots : SlotsInv cfg s) (htickets : Tickets s)
    (hi : i.spurious = false) (hrunning : ∀ outcome, s.callback k ≠ .returned outcome) :
    ∃ s', callbackStep cfg k i s = some s' ∧
      (s'.callback k).rank s'.queue s'.requests < (s.callback k).rank s.queue s.requests := by
  cases hpc : s.callback k with
  | absent | retain | drop | fill | publishRequest | respond | loadDequeue | loadDepthMax
  | storeSequence | notifyWrite | leave =>
    refine ⟨_, by simp only [callbackStep, hpc]; rfl, ?_⟩
    simp [CallbackPc.rank, SeqRing.Ring.claimRank]
  | refuse | overflow =>
    refine ⟨_, by simp only [callbackStep, hpc]; rfl, ?_⟩
    simp [CallbackPc.rank]
  | loadClosed =>
    refine ⟨_, by simp only [callbackStep, hpc]; rfl, ?_⟩
    cases s.closed <;> simp [CallbackPc.rank]
  | storeOccupied p =>
    refine ⟨_, by simp only [callbackStep, hpc]; rfl, ?_⟩
    cases (cfg.arrivals k).isAuth <;> simp [CallbackPc.rank, SeqRing.Ring.claimRank]
  -- A turn of the claim loop lowers the loop's own rank, unless the loop comes to its end
  | enqueue pc =>
    have hbounds := s.queue.ring.claimRank_bounds pc
    simp only [callbackStep, hpc, Queue.enqueue, hi]
    cases hres : s.queue.ring.claimStep false pc with
    | running pc' =>
      have hlt := hslots.slots.ring.claimRank_lt hres
      exact ⟨_, rfl, by simpa [CallbackPc.rank] using hlt⟩
    | got p => exact ⟨_, rfl, by simp [CallbackPc.rank]; omega⟩
    | none => exact ⟨_, rfl, by simp [CallbackPc.rank]; omega⟩
  | arm p pc =>
    have hbounds := s.requests.ring.claimRank_bounds pc
    simp only [callbackStep, hpc, Requests.arm, hi]
    cases hres : s.requests.ring.claimStep false pc with
    | running pc' =>
      have hlt := htickets.ring.claimRank_lt hres
      exact ⟨_, rfl, by simpa [CallbackPc.rank] using hlt⟩
    | got t => exact ⟨_, rfl, by simp [CallbackPc.rank]; omega⟩
    | none => exact ⟨_, rfl, by simp [CallbackPc.rank]; omega⟩
  | answer p =>
    simp only [callbackStep, hpc]
    split_ifs <;> exact ⟨_, rfl, by simp [CallbackPc.rank]⟩
  | raiseDepthMax p depth maximum =>
    simp only [callbackStep, hpc, hi]
    -- The exchange finds the maximum that was read, and the callback is done with it
    split_ifs with hdeeper hsame
    · exact ⟨_, rfl, by simp [CallbackPc.rank, hsame.1]⟩
    -- Another maximum was found; nobody else moves, so the next exchange will find it again
    · have hne : maximum ≠ s.queue.depthMax := fun heq => hsame ⟨heq.symm, rfl⟩
      exact ⟨_, rfl, by simp [CallbackPc.rank, hne]⟩
    · refine ⟨_, rfl, ?_⟩
      simp only [CallbackPc.rank, Function.update_self]
      split_ifs <;> omega
  | notify p =>
    simp only [callbackStep, hpc]
    split_ifs <;> exact ⟨_, rfl, by simp [CallbackPc.rank]⟩
  | returned outcome => exact absurd hpc (hrunning outcome)

/-- A callback returns within 24 steps of its own, wherever the others have been stopped. -/
theorem callback_returns (hs : Reachable (step cfg) (.init cfg) s) (k : Nat) :
    Completes (step cfg) (Party.callback k).action Input.strong
      (fun t => ∃ outcome, t.callback k = .returned outcome) 24 s := by
  apply Completes.of_rank (I := fun _ => True) (fun t => (t.callback k).rank t.queue t.requests)
    ?_ hs trivial (Nat.lt_succ_of_le (CallbackPc.rank_le ..))
  intro t i ht _ hrunning hi
  obtain ⟨t', hstep, hlt⟩ := callbackStep_rank (reachable_slots ht) (reachable_tickets ht) hi
    (not_exists.mp hrunning)
  exact ⟨t', hstep, .inr ⟨trivial, hlt⟩⟩

/-! ## The watchdog -/

theorem Heap.size_upLoop (fuel : Nat) (h : Heap) (index : Nat) :
    (upLoop fuel h index).size = h.size := by
  induction fuel generalizing h index with
  | zero => rfl
  | succ fuel ih =>
    simp only [upLoop]
    split_ifs
    · rfl
    · exact ih ..
    · rfl

theorem Heap.size_downLoop (fuel : Nat) (h : Heap) (index : Nat) :
    (downLoop fuel h index).size = h.size := by
  induction fuel generalizing h index with
  | zero => rfl
  | succ fuel ih =>
    simp only [downLoop]
    split_ifs
    · rfl
    · rfl
    · exact ih ..

/-- A request takes up one more place in the heap at most. -/
theorem Heap.size_set_le (h : Heap) (request : Entry) : (h.set request).size ≤ h.size + 1 := by
  simp only [set, up, down]
  -- Both loops move an entry about within the heap
  split_ifs
  · rw [size_downLoop, size_upLoop]
    exact Nat.le_succ _
  · exact Nat.le_succ _
  · rw [size_downLoop, size_upLoop]

/-- The steps that are left to a watchdog that has been told to stop: it still sets the requests
    that wait, and hands out entries while they are due. -/
def WatchdogPc.rank (requests : Requests) (heap : Heap) : WatchdogPc → Nat
  | .stopped | .asleep | .deleting | .deleted => 0
  | .exiting => 1
  | .loadRunning => 2
  | .wait => 3
  | .clock => 4 + 10 * heap.size
  | .subReader _ => 5 + 10 * heap.size
  | .notifyWrite _ => 6 + 10 * heap.size
  | .notify _ => 7 + 10 * heap.size
  | .count _ => 8 + 10 * heap.size
  | .respond _ _ => 9 + 10 * heap.size
  | .exchange _ _ => 10 + 10 * heap.size
  | .recheck _ _ => 11 + 10 * heap.size
  | .addReader _ _ => 12 + 10 * heap.size
  | .loadOccupied _ _ => 13 + 10 * heap.size
  | .popStore _ => 14 + 10 * heap.size + 14 * (requests.enqueuePosition - requests.dequeuePosition)
  | .popSequence _ =>
    15 + 10 * heap.size + 14 * (requests.enqueuePosition - requests.dequeuePosition)
  | .popLoad => 16 + 10 * heap.size + 14 * (requests.enqueuePosition - requests.dequeuePosition)
  -- The request has left the ring, and is about to take up a place in the heap.
  | .popRelease _ _ =>
    27 + 10 * heap.size + 14 * (requests.enqueuePosition - requests.dequeuePosition)

/-- The watchdog needs a bounded number of steps for what it has. -/
theorem WatchdogPc.rank_le (htickets : Tickets s) (htracking : Tracking s) :
    s.watchdog.rank s.requests s.heap ≤ 27 + 24 * s.queue.capacity := by
  have hsize := htracking.good.size_le
  have hwaiting := htickets.ring.enq_le
  rw [htracking.capacity] at hsize
  rw [show s.requests.ring.capacity = s.queue.capacity from htickets.capacity] at hwaiting
  simp only [Requests.ring_enq, Requests.ring_deq] at hwaiting
  cases s.watchdog <;> simp only [rank] <;> omega

/-- Every step of the watchdog brings it closer to its end, but for the one that begins a new
    pass. -/
theorem watchdogStep_rank (cfg : Config) (htickets : Tickets s) (htracking : Tracking s)
    (hrunning : s.watchdog.halted = false)
    (hlast : s.watchdog = .loadRunning → s.watchdogRunning = false) :
    ∃ s', watchdogStep cfg i s = some s' ∧
      s'.watchdog.rank s'.requests s'.heap < s.watchdog.rank s.requests s.heap := by
  cases hpc : s.watchdog with
  -- Only a watchdog that has been told to stop may count the end of the pass
  | loadRunning =>
    refine ⟨_, by simp only [watchdogStep, hpc]; rfl, ?_⟩
    simp [WatchdogPc.rank, hlast hpc]
  | popLoad | addReader | respond | count | notifyWrite | subReader | wait | exiting =>
    refine ⟨_, by simp only [watchdogStep, hpc]; rfl, ?_⟩
    simp [WatchdogPc.rank, State.sendSlot, State.sendResponse, State.writePipe]
  | popSequence t =>
    refine ⟨_, by simp only [watchdogStep, hpc]; rfl, ?_⟩
    -- An empty ring ends the popping; what is left are the entries of the heap
    cases s.requests.ready t <;> simp [WatchdogPc.rank]; omega
  | popStore t =>
    -- What is about to be popped has been published, hence it is counted
    have hnext := htickets.popping t (by rw [hpc]; rfl)
    have hready := htickets.ready t hpc
    subst hnext
    have hpublished : s.history.ticketPhase s.requests.dequeuePosition = .published :=
      htickets.ring.filled_published hready
    have hlt := htickets.ring.active_lt (by rw [hpublished]; rfl)
    refine ⟨_, by simp only [watchdogStep, hpc]; rfl, ?_⟩
    simp only [Requests.ring_enq] at hlt
    simp only [WatchdogPc.rank, Requests.advanceDequeue]
    omega
  -- The ring has one request less and the heap one entry more, which the weights allow for
  | popRelease t request =>
    have hsize := s.heap.size_set_le request
    refine ⟨_, by simp only [watchdogStep, hpc]; rfl, ?_⟩
    simp only [WatchdogPc.rank, Requests.release]
    omega
  | clock =>
    simp only [watchdogStep, hpc]
    split_ifs with hdue
    -- An entry that is due leaves the heap, and pays for its answer with its ten steps
    · obtain ⟨-, -, hsize, -⟩ := htracking.good.remove hdue.1
      refine ⟨_, rfl, ?_⟩
      simp only [WatchdogPc.rank, hsize]
      omega
    -- Nothing is due any more: the watchdog goes to its wait
    · refine ⟨_, rfl, ?_⟩
      simp only [WatchdogPc.rank]
      omega
  | loadOccupied entry now =>
    refine ⟨_, by simp only [watchdogStep, hpc]; rfl, ?_⟩
    cases (s.queue.slots entry.slot).occupied <;> simp [WatchdogPc.rank]
  | recheck entry now =>
    simp only [watchdogStep, hpc]
    split_ifs <;> exact ⟨_, rfl, by simp [WatchdogPc.rank]⟩
  | exchange entry now =>
    simp only [watchdogStep, hpc]
    split_ifs <;> exact ⟨_, rfl, by simp [WatchdogPc.rank, State.answer]⟩
  | notify entry =>
    simp only [watchdogStep, hpc]
    split_ifs <;> exact ⟨_, rfl, by simp [WatchdogPc.rank, State.setNotified]⟩
  | stopped | asleep | deleting | deleted => simp [hpc, WatchdogPc.halted] at hrunning

/-- What the watchdog leaves alone of what the other threads go by. -/
structure State.Steady (s s' : State) : Prop where
  ruby : s'.ruby = s.ruby
  callback : s'.callback = s.callback
  watchdogRunning : s'.watchdogRunning = s.watchdogRunning
  deleteReady : s'.deleteReady = s.deleteReady
  closed : s'.closed = s.closed
  capacity : s'.queue.capacity = s.queue.capacity
  enqueuePosition : s'.queue.enqueuePosition = s.queue.enqueuePosition
  dequeuePosition : s'.queue.dequeuePosition = s.queue.dequeuePosition

theorem watchdogStep_steady (hstep : watchdogStep cfg i s = some s') : s.Steady s' := by
  cases hpc : s.watchdog with
  | loadRunning | popLoad | popSequence | popStore | popRelease | loadOccupied | addReader
  | respond | count | notifyWrite | subReader | wait | exiting | stopped | deleting =>
    simp only [watchdogStep, hpc, Option.some.injEq] at hstep
    subst hstep
    exact ⟨rfl, rfl, rfl, rfl, rfl, rfl, rfl, rfl⟩
  | clock | recheck | exchange | notify | asleep =>
    simp only [watchdogStep, hpc] at hstep
    split_ifs at hstep <;> cases hstep <;> exact ⟨rfl, rfl, rfl, rfl, rfl, rfl, rfl, rfl⟩
  | deleted => simp [watchdogStep, hpc] at hstep

theorem State.Steady.refl (s : State) : s.Steady s := ⟨rfl, rfl, rfl, rfl, rfl, rfl, rfl, rfl⟩

theorem State.Steady.trans {t : State} (h : s.Steady s') (h' : s'.Steady t) : s.Steady t where
  ruby := h'.ruby.trans h.ruby
  callback := h'.callback.trans h.callback
  watchdogRunning := h'.watchdogRunning.trans h.watchdogRunning
  deleteReady := h'.deleteReady.trans h.deleteReady
  closed := h'.closed.trans h.closed
  capacity := h'.capacity.trans h.capacity
  enqueuePosition := h'.enqueuePosition.trans h.enqueuePosition
  dequeuePosition := h'.dequeuePosition.trans h.dequeuePosition

/-- The watchdog alone leaves the slot that it reads. -/
theorem watchdog_leaves (hs : Reachable (step cfg) (.init cfg) s) (fits : Input → Prop) :
    CanReach (step cfg) Party.action fits (· = .watchdog)
      (fun t => t.watchdog.reading = none ∧ s.Steady t) s := by
  refine CanReach.keeping (CanReach.of_rank (I := fun _ => True)
    (fun t => t.watchdog.rank t.requests t.heap) ?_ hs trivial) (.refl s) ?_
  · intro t ht _ hreading
    have hrunning : t.watchdog.halted = false := by
      -- A watchdog that reads a slot has not left its loop
      cases hpc : t.watchdog <;> simp_all [WatchdogPc.reading, WatchdogPc.halted]
    refine CanReach.turn (b := .watchdog) rfl fun i _ => ?_
    obtain ⟨t', hstep, hlt⟩ := watchdogStep_rank (i := i) cfg (reachable_tickets ht)
      (reachable_tracking ht) hrunning (fun hpc => by simp [hpc, WatchdogPc.reading] at hreading)
    exact ⟨t', hstep, .now ⟨trivial, hlt⟩⟩
  · rintro t b i t' rfl hstep hkeep
    exact hkeep.trans (watchdogStep_steady hstep)

/-- Once the watchdog is told to stop, it sets the requests that wait, answers what is due and
    leaves its loop, all within a number of steps that the capacity bounds. -/
theorem watchdog_halts (hs : Reachable (step cfg) (.init cfg) s)
    (hstop : s.watchdogRunning = false) (fits : Input → Prop) :
    Completes (step cfg) Party.watchdog.action fits (fun t => t.watchdog.halted ∧ s.Steady t)
      (28 + 24 * cfg.capacity.val) s := by
  have hcap := (reachable_slots hs).slots.capacity
  have hle := WatchdogPc.rank_le (reachable_tickets hs) (reachable_tracking hs)
  refine Completes.of_rank (I := s.Steady) (fun t => t.watchdog.rank t.requests t.heap) ?_ hs
    (.refl s) (by omega)
  intro t i ht hkeep hrunning _
  have hrunning : t.watchdog.halted = false := by
    simpa only [hkeep, and_true, Bool.not_eq_true] using hrunning
  -- It goes through `loadRunning` only once more, and finds the flag clear
  obtain ⟨t', hstep, hlt⟩ := watchdogStep_rank (i := i) cfg (reachable_tickets ht)
    (reachable_tracking ht) hrunning (fun _ => hkeep.watchdogRunning.trans hstop)
  exact ⟨t', hstep, .inr ⟨hkeep.trans (watchdogStep_steady hstep), hlt⟩⟩

/-! ## The native methods -/

/-- How a close asks the watchdog to stop and lets it delete the native client. -/
structure Shutdown (s : State) : Prop where
  stopping : s.ruby = .awaitWatchdog → s.watchdogRunning = false
  closed : s.ruby = .storeDeleteReady ∨ s.ruby = .join → s.closed
  deleting : s.ruby = .join → s.deleteReady

/-- The flags that the watchdog goes by stay as they are. -/
structure State.SameFlags (s s' : State) : Prop where
  watchdogRunning : s'.watchdogRunning = s.watchdogRunning
  deleteReady : s'.deleteReady = s.deleteReady
  signalled : s'.signalled = s.signalled

/-- What the callbacks leave alone of what the native methods go by. -/
theorem callbackStep_steady (hstep : callbackStep cfg k i s = some s') :
    s'.ruby = s.ruby ∧ s'.watchdog = s.watchdog ∧ s.SameFlags s' ∧ s'.closed = s.closed ∧
      ∀ j, j ≠ k → s'.callback j = s.callback j := by
  cases hpc : s.callback k with
  | absent | loadClosed | retain | drop | fill | storeOccupied | publishRequest | respond
  | loadDequeue | loadDepthMax | storeSequence | notifyWrite | leave =>
    simp only [callbackStep, hpc, Option.some.injEq] at hstep
    subst hstep
    exact ⟨rfl, rfl, ⟨rfl, rfl, rfl⟩, rfl, fun j hj => Function.update_of_ne hj ..⟩
  | refuse | overflow =>
    simp only [callbackStep, hpc, Option.some.injEq] at hstep
    obtain ⟨stats, log, heq⟩ := s.respondUnqueued_eq cfg i k
    rw [heq] at hstep
    subst hstep
    exact ⟨rfl, rfl, ⟨rfl, rfl, rfl⟩, rfl, fun j hj => Function.update_of_ne hj ..⟩
  | enqueue pc =>
    simp only [callbackStep, hpc, Queue.enqueue] at hstep
    cases hres : s.queue.ring.claimStep i.spurious pc <;>
      simp only [hres, Option.some.injEq] at hstep <;> subst hstep <;>
      exact ⟨rfl, rfl, ⟨rfl, rfl, rfl⟩, rfl, fun j hj => Function.update_of_ne hj ..⟩
  | arm p pc =>
    simp only [callbackStep, hpc] at hstep
    cases hres : s.requests.arm i.spurious pc <;>
      simp only [hres, Option.some.injEq] at hstep <;> subst hstep <;>
      exact ⟨rfl, rfl, ⟨rfl, rfl, rfl⟩, rfl, fun j hj => Function.update_of_ne hj ..⟩
  | answer | notify | raiseDepthMax =>
    simp only [callbackStep, hpc] at hstep
    split_ifs at hstep <;> cases hstep <;>
      exact ⟨rfl, rfl, ⟨rfl, rfl, rfl⟩, rfl, fun j hj => Function.update_of_ne hj ..⟩
  | returned => simp [callbackStep, hpc] at hstep

/-- A thread that changes nothing of a close keeps the invariant. -/
theorem Shutdown.frame (h : Shutdown s) (hruby : s'.ruby = s.ruby)
    (hrunning : s'.watchdogRunning = s.watchdogRunning) (hready : s'.deleteReady = s.deleteReady)
    (hclosed : s'.closed = s.closed) : Shutdown s' where
  stopping := by rw [hruby, hrunning]; exact h.stopping
  closed := by rw [hruby, hclosed]; exact h.closed
  deleting := by rw [hruby, hready]; exact h.deleting

/-- Where a native method neither waits for the watchdog nor ends a close. -/
def RubyPc.calm : RubyPc → Bool
  | .awaitWatchdog | .storeDeleteReady | .join => false
  | _ => true

theorem Shutdown.of_calm (h : s.ruby.calm) : Shutdown s := by
  refine ⟨fun hpc => ?_, fun hpc => ?_, fun hpc => ?_⟩
  · simp [hpc, RubyPc.calm] at h
  · rcases hpc with hpc | hpc <;> simp [hpc, RubyPc.calm] at h
  · simp [hpc, RubyPc.calm] at h

theorem drainNext_calm (left : Nat) (batch : List Nat) : (drainNext left batch).calm := by
  unfold drainNext
  split_ifs <;> rfl

theorem callStep_calm {call : Call} (hstep : callStep cfg call s = some s') : s'.ruby.calm := by
  have hrelease : ∀ (s : State) p caller, (s.releaseCall p caller).ruby.calm := by
    intro s p caller
    unfold State.releaseCall
    split_ifs <;> rfl
  simp only [callStep] at hstep
  split_ifs at hstep
  cases call with
  | drain | read | retain | close =>
    simp only [beginCall] at hstep
    split_ifs at hstep <;> cases hstep <;> rfl
  | wake =>
    cases hstep
    rfl
  | respond p verdict =>
    simp only [beginCall] at hstep
    split_ifs at hstep
    · cases hstep
      rfl
    · split at hstep <;> cases hstep <;> rfl
  | release p | free p =>
    simp only [beginCall] at hstep
    split_ifs at hstep <;> cases hstep <;> exact hrelease ..
  | autoRelease p =>
    simp only [beginCall] at hstep
    split_ifs at hstep <;> cases hstep
    · rfl
    · exact hrelease ..

theorem rubyStep_shutdown (hclosing : Closing s) (h : Shutdown s)
    (hstep : rubyStep cfg i s = some s') : Shutdown s' := by
  cases hpc : s.ruby with
  | idle => simp [rubyStep, hpc] at hstep
  | stopWatchdog =>
    simp only [rubyStep, hpc, Option.some.injEq] at hstep
    subst hstep
    -- The close has just asked the watchdog to stop
    exact ⟨fun _ => rfl, by rintro (⟨⟨⟩⟩ | ⟨⟨⟩⟩), by rintro ⟨⟩⟩
  | awaitWatchdog =>
    simp only [rubyStep, hpc, Option.some.injEq] at hstep
    subst hstep
    split_ifs
    · exact .of_calm rfl
    · exact h
  | storeDeleteReady =>
    simp only [rubyStep, hpc, Option.some.injEq] at hstep
    subst hstep
    -- The broadcast of `delete_ready` comes before the join
    exact ⟨by rintro ⟨⟩, fun _ => h.closed (.inl hpc), fun _ => rfl⟩
  | join =>
    simp only [rubyStep, hpc, Option.some.injEq] at hstep
    subst hstep
    split_ifs
    · exact .of_calm rfl
    · exact h
  | closeDequeue pc =>
    have hclosed : s.closed := hclosing.closed (by simp [hpc, RubyPc.closeStage])
    simp only [rubyStep, hpc] at hstep
    cases hres : s.queue.dequeue i.spurious pc <;> simp only [hres, Option.some.injEq] at hstep <;>
      subst hstep
    -- The queue has been emptied, which is what the last stage of a close begins with
    case none => exact ⟨by rintro ⟨⟩, fun _ => hclosed, by rintro ⟨⟩⟩
    all_goals exact .of_calm rfl
  | drainClear | drainDepth | disarm | releaseMessage | queueDisarm | answerSend | closeSend
  | closeMessage =>
    simp only [rubyStep, hpc, Option.some.injEq] at hstep
    subst hstep
    exact .of_calm rfl
  | drainRead maximum =>
    simp only [rubyStep, hpc] at hstep
    split_ifs at hstep <;> cases hstep
    · exact .of_calm rfl
    · exact .of_calm rfl
    · exact .of_calm rfl
    · exact .of_calm rfl
    · exact .of_calm (drainNext_calm ..)
  | drainDelivered left batch =>
    simp only [rubyStep, hpc, Option.some.injEq] at hstep
    subst hstep
    exact .of_calm (drainNext_calm ..)
  | awaitReaders | queueAwait | awaitCallbacks =>
    simp only [rubyStep, hpc, Option.some.injEq] at hstep
    subst hstep
    split_ifs
    · exact h
    · exact .of_calm rfl
  | drainDepthDequeue | answerOccupied | answerExchange | closeExchange =>
    simp only [rubyStep, hpc] at hstep
    split_ifs at hstep <;> cases hstep <;> exact .of_calm rfl
  | drainDequeue left batch pc =>
    simp only [rubyStep, hpc] at hstep
    cases hres : s.queue.dequeue i.spurious pc <;> simp only [hres, Option.some.injEq] at hstep <;>
      subst hstep <;> exact .of_calm rfl
  | notify caller =>
    simp only [rubyStep, hpc] at hstep
    split_ifs at hstep <;> cases hstep <;> exact .of_calm (by cases caller <;> rfl)
  | notifyWrite caller =>
    simp only [rubyStep, hpc, Option.some.injEq] at hstep
    subst hstep
    exact .of_calm (by cases caller <;> rfl)
  | respondClosed p caller | respondExchange p caller =>
    simp only [rubyStep, hpc] at hstep
    split_ifs at hstep <;> cases hstep <;> exact .of_calm (by cases caller <;> rfl)
  | respondSend p caller =>
    simp only [rubyStep, hpc, Option.some.injEq] at hstep
    subst hstep
    exact .of_calm (by cases caller <;> rfl)
  | queueStore p caller =>
    simp only [rubyStep, hpc] at hstep
    cases caller <;> cases hstep <;> exact .of_calm rfl

theorem reachable_shutdown (hs : Reachable (step cfg) (.init cfg) s) : Shutdown s := by
  apply hs.invariant (Shutdown.of_calm rfl)
  intro s a s' hs h hstep
  cases a with
  | callback k input =>
    obtain ⟨hruby, -, hflags, hclosed, -⟩ := callbackStep_steady hstep
    exact h.frame hruby hflags.watchdogRunning hflags.deleteReady hclosed
  | watchdog input =>
    have hsteady := watchdogStep_steady hstep
    exact h.frame hsteady.ruby hsteady.watchdogRunning hsteady.deleteReady hsteady.closed
  | call call => exact .of_calm (callStep_calm hstep)
  -- A close is the only method that goes where the invariant says anything
  | ruby input => exact rubyStep_shutdown (reachable_closing hs) h hstep

/-! ## The flags of the watchdog -/

/-- Calling a native method touches none of the flags that the watchdog goes by. -/
theorem callStep_flags {call : Call} (hstep : callStep cfg call s = some s') :
    s.SameFlags s' ∧ (s.closed → s'.closed) := by
  have hrelease : ∀ p caller stats, s.SameFlags ({ s with stats }.releaseCall p caller) ∧
      (s.closed → ({ s with stats }.releaseCall p caller).closed) := by
    intro p caller stats
    unfold State.releaseCall
    split_ifs <;> exact ⟨⟨rfl, rfl, rfl⟩, id⟩
  simp only [callStep] at hstep
  split_ifs at hstep
  cases call with
  | drain | read | retain =>
    simp only [beginCall] at hstep
    split_ifs at hstep <;> cases hstep <;> exact ⟨⟨rfl, rfl, rfl⟩, id⟩
  | close =>
    simp only [beginCall] at hstep
    split_ifs at hstep <;> cases hstep
    · exact ⟨⟨rfl, rfl, rfl⟩, id⟩
    · exact ⟨⟨rfl, rfl, rfl⟩, fun _ => rfl⟩
  | wake =>
    cases hstep
    exact ⟨⟨rfl, rfl, rfl⟩, id⟩
  | respond p verdict =>
    simp only [beginCall] at hstep
    split_ifs at hstep
    · cases hstep
      exact ⟨⟨rfl, rfl, rfl⟩, id⟩
    · split at hstep <;> cases hstep <;> exact ⟨⟨rfl, rfl, rfl⟩, id⟩
  | release p =>
    simp only [beginCall] at hstep
    split_ifs at hstep
    cases hstep
    exact hrelease p .method s.stats
  | autoRelease p =>
    simp only [beginCall] at hstep
    split_ifs at hstep <;> cases hstep
    · exact ⟨⟨rfl, rfl, rfl⟩, id⟩
    · exact hrelease p .method s.stats
  | free p =>
    simp only [beginCall] at hstep
    split_ifs at hstep <;> cases hstep <;> exact hrelease p .free _

/-- Only a close stores in the flags that the watchdog goes by. -/
theorem rubyStep_flags (hstep : rubyStep cfg i s = some s') (hstop : s.ruby ≠ .stopWatchdog)
    (hready : s.ruby ≠ .storeDeleteReady) : s.SameFlags s' ∧ s'.closed = s.closed := by
  cases hpc : s.ruby with
  | idle => simp [rubyStep, hpc] at hstep
  | stopWatchdog => exact absurd hpc hstop
  | storeDeleteReady => exact absurd hpc hready
  | drainDelivered | drainClear | drainDepth | disarm | releaseMessage | queueDisarm | answerSend
  | closeSend | closeMessage =>
    simp only [rubyStep, hpc, Option.some.injEq] at hstep
    subst hstep
    exact ⟨⟨rfl, rfl, rfl⟩, rfl⟩
  | awaitReaders | queueAwait | awaitCallbacks | awaitWatchdog | join =>
    simp only [rubyStep, hpc, Option.some.injEq] at hstep
    subst hstep
    split_ifs <;> exact ⟨⟨rfl, rfl, rfl⟩, rfl⟩
  | drainRead | drainDepthDequeue | answerOccupied | answerExchange | closeExchange =>
    simp only [rubyStep, hpc] at hstep
    split_ifs at hstep <;> cases hstep <;> exact ⟨⟨rfl, rfl, rfl⟩, rfl⟩
  | drainDequeue left batch pc | closeDequeue pc =>
    simp only [rubyStep, hpc] at hstep
    cases hres : s.queue.dequeue i.spurious pc <;> simp only [hres, Option.some.injEq] at hstep <;>
      subst hstep <;> exact ⟨⟨rfl, rfl, rfl⟩, rfl⟩
  | notify caller =>
    simp only [rubyStep, hpc] at hstep
    split_ifs at hstep <;> cases hstep
    · cases caller <;> exact ⟨⟨rfl, rfl, rfl⟩, rfl⟩
    · exact ⟨⟨rfl, rfl, rfl⟩, rfl⟩
  | notifyWrite caller =>
    simp only [rubyStep, hpc, Option.some.injEq] at hstep
    subst hstep
    cases caller <;> exact ⟨⟨rfl, rfl, rfl⟩, rfl⟩
  | respondClosed p caller | respondExchange p caller =>
    simp only [rubyStep, hpc] at hstep
    split_ifs at hstep <;> cases hstep <;> cases caller <;> exact ⟨⟨rfl, rfl, rfl⟩, rfl⟩
  | respondSend p caller =>
    simp only [rubyStep, hpc, Option.some.injEq] at hstep
    cases caller with
    | method call answer raises =>
      obtain ⟨result, returned, rfl⟩ := State.of_respondReturn hstep
      exact ⟨⟨rfl, rfl, rfl⟩, rfl⟩
    | release caller =>
      subst hstep
      exact ⟨⟨rfl, rfl, rfl⟩, rfl⟩
  | queueStore p caller =>
    simp only [rubyStep, hpc] at hstep
    cases caller <;> cases hstep <;> exact ⟨⟨rfl, rfl, rfl⟩, rfl⟩

/-- What the flags tell about where the watchdog is. -/
structure Flagged (s : State) : Prop where
  running : s.closed = false → s.watchdogRunning
  /-- The watchdog stays in its loop until it has been told to stop. -/
  leaving : s.watchdog = .exiting ∨ s.watchdog.halted → s.watchdogRunning = false
  halted : s.deleteReady → s.watchdog.halted
  /-- A watchdog that sleeps although it may delete the native client has been woken. -/
  woken : s.deleteReady → s.watchdog = .asleep → s.signalled

/-- A thread other than the watchdog that leaves the flags alone. -/
theorem Flagged.frame (h : Flagged s) (hflags : s.SameFlags s')
    (hwatchdog : s'.watchdog = s.watchdog) (hclosed : s.closed → s'.closed) : Flagged s' where
  running hopen := by
    rw [hflags.watchdogRunning]
    apply h.running
    by_contra hnot
    rw [hclosed (by simpa using hnot)] at hopen
    cases hopen
  leaving := by rw [hwatchdog, hflags.watchdogRunning]; exact h.leaving
  halted := by rw [hwatchdog, hflags.deleteReady]; exact h.halted
  -- A wakeup that has been sent stays sent until the watchdog has seen it
  woken := by rw [hwatchdog, hflags.deleteReady, hflags.signalled]; exact h.woken

theorem watchdogStep_flagged (h : Flagged s) (hstep : watchdogStep cfg i s = some s') :
    Flagged s' := by
  have hsteady := watchdogStep_steady hstep
  have hrunning : s'.closed = false → s'.watchdogRunning := by
    rw [hsteady.closed, hsteady.watchdogRunning]
    exact h.running
  -- In its loop the watchdog has not been told to delete the native client
  have hloop : s.watchdog.halted = false → s'.watchdog ≠ .exiting → s'.watchdog.halted = false →
      Flagged s' := by
    intro hold hexiting hnew
    have hready : s'.deleteReady = false := by
      rw [hsteady.deleteReady]
      by_contra hnot
      rw [h.halted (by simpa using hnot)] at hold
      cases hold
    exact ⟨hrunning, by simp [hexiting, hnew], by simp [hready], by simp [hready]⟩
  cases hpc : s.watchdog with
  | loadRunning =>
    have hold : s.watchdog.halted = false := by rw [hpc]; rfl
    simp only [watchdogStep, hpc, Option.some.injEq] at hstep
    subst hstep
    constructor
    case running => exact hrunning
    case leaving => cases hflag : s.watchdogRunning <;> simp [WatchdogPc.halted]
    case halted => exact fun hready => absurd (h.halted hready) (by simp [hold])
    case woken => exact fun hready => absurd (h.halted hready) (by simp [hold])
  -- It leaves the loop only for having found the flag clear
  | exiting =>
    have hstop : s.watchdogRunning = false := h.leaving (.inl hpc)
    simp only [watchdogStep, hpc, Option.some.injEq] at hstep
    subst hstep
    exact ⟨hrunning, fun _ => hstop, fun _ => rfl, fun _ => by rintro ⟨⟩⟩
  | stopped =>
    have hstop : s.watchdogRunning = false := h.leaving (.inr (by rw [hpc]; rfl))
    simp only [watchdogStep, hpc, Option.some.injEq] at hstep
    subst hstep
    constructor
    case running => exact hrunning
    case leaving => exact fun _ => hstop
    case halted => exact fun _ => by dsimp only; split_ifs <;> rfl
    case woken =>
      -- The flag has just been tested
      intro hready hasleep
      rw [if_pos hready] at hasleep
      cases hasleep
  | asleep =>
    have hstop : s.watchdogRunning = false := h.leaving (.inr (by rw [hpc]; rfl))
    simp only [watchdogStep, hpc] at hstep
    split_ifs at hstep
    cases hstep
    -- From its sleep it goes back to the test of the flag
    exact ⟨hrunning, fun _ => hstop, fun _ => rfl, fun _ => by rintro ⟨⟩⟩
  | deleting =>
    have hstop : s.watchdogRunning = false := h.leaving (.inr (by rw [hpc]; rfl))
    simp only [watchdogStep, hpc, Option.some.injEq] at hstep
    subst hstep
    exact ⟨hrunning, fun _ => hstop, fun _ => rfl, fun _ => by rintro ⟨⟩⟩
  | deleted => simp [watchdogStep, hpc] at hstep
  | clock | recheck | exchange | notify =>
    have hold : s.watchdog.halted = false := by rw [hpc]; rfl
    simp only [watchdogStep, hpc] at hstep
    split_ifs at hstep <;> cases hstep <;> exact hloop hold (by simp) rfl
  | popSequence | loadOccupied =>
    have hold : s.watchdog.halted = false := by rw [hpc]; rfl
    simp only [watchdogStep, hpc, Option.some.injEq] at hstep
    subst hstep
    exact hloop hold (by dsimp only; split_ifs <;> simp) (by dsimp only; split_ifs <;> rfl)
  | popLoad | popStore | popRelease | addReader | respond | count | notifyWrite | subReader
  | wait =>
    have hold : s.watchdog.halted = false := by rw [hpc]; rfl
    simp only [watchdogStep, hpc, Option.some.injEq] at hstep
    subst hstep
    exact hloop hold (by simp) rfl

theorem rubyStep_flagged (hclosing : Closing s) (hshutdown : Shutdown s) (h : Flagged s)
    (hstep : rubyStep cfg i s = some s') : Flagged s' := by
  by_cases hstop : s.ruby = .stopWatchdog
  · have hclosed : s.closed := hclosing.closed (by simp [hstop, RubyPc.closeStage])
    simp only [rubyStep, hstop, Option.some.injEq] at hstep
    subst hstep
    -- `watchdog_running` is cleared here, which the watchdog has not acted on yet
    exact ⟨fun hopen => by simp [hclosed] at hopen, fun _ => rfl, h.halted, h.woken⟩
  · by_cases hready : s.ruby = .storeDeleteReady
    · -- `close` has waited for the watchdog to leave its loop
      have hhalted : s.watchdog.halted := by
        rw [← hclosing.stopped]
        exact hclosing.halted (hshutdown.closed (.inl hready)) (by rw [hready]; decide)
      simp only [rubyStep, hready, Option.some.injEq] at hstep
      subst hstep
      -- The broadcast signals a watchdog that is asleep, if there is one
      exact ⟨h.running, h.leaving, fun _ => hhalted, fun _ hasleep => by simpa using hasleep⟩
    · obtain ⟨hflags, hclosed⟩ := rubyStep_flags hstep hstop hready
      exact h.frame hflags (rubyStep_aside hstep).watchdog (by rw [hclosed]; exact id)

theorem reachable_flagged (hs : Reachable (step cfg) (.init cfg) s) : Flagged s := by
  apply hs.invariant
  case hinit => constructor <;> simp [State.init, WatchdogPc.halted]
  case hstep =>
    intro s a s' hs h hstep
    cases a with
    | callback k input =>
      obtain ⟨-, hwatchdog, hflags, hclosed, -⟩ := callbackStep_steady hstep
      exact h.frame hflags hwatchdog (by rw [hclosed]; exact id)
    | watchdog input => exact watchdogStep_flagged h hstep
    | call call =>
      obtain ⟨hflags, hclosed⟩ := callStep_flags hstep
      exact h.frame hflags (callStep_aside hstep).watchdog hclosed
    | ruby input => exact rubyStep_flagged (reachable_closing hs) (reachable_shutdown hs) h hstep

/-- The steps that are left to a watchdog that may delete the native client. -/
def WatchdogPc.deleteRank : WatchdogPc → Nat
  | .asleep => 3
  | .stopped => 2
  | .deleting => 1
  | _ => 0

/-- A watchdog that may delete the native client does so within four steps of its own, whether it
    has gone to sleep before it was told or not, and whether `es_delete_client` succeeds or not. -/
theorem watchdog_deletes (hs : Reachable (step cfg) (.init cfg) s) (hready : s.deleteReady)
    (fits : Input → Prop) :
    Completes (step cfg) Party.watchdog.action fits (fun t => t.watchdog = .deleted ∧ s.Steady t) 4
      s := by
  refine Completes.of_rank (I := s.Steady) (fun t => t.watchdog.deleteRank) ?_ hs (.refl s) ?_
  · intro t i ht hkeep hnot _
    have hready : t.deleteReady := hkeep.deleteReady.trans hready
    have hflagged := reachable_flagged ht
    have hhalted := hflagged.halted hready
    have hnot : t.watchdog ≠ .deleted := fun hpc => hnot ⟨hpc, hkeep⟩
    suffices hsome : ∃ t', watchdogStep cfg i t = some t' ∧
        t'.watchdog.deleteRank < t.watchdog.deleteRank by
      obtain ⟨t', hstep, hlt⟩ := hsome
      exact ⟨t', hstep, .inr ⟨hkeep.trans (watchdogStep_steady hstep), hlt⟩⟩
    cases hpc : t.watchdog with
    | stopped =>
      refine ⟨_, by simp only [watchdogStep, hpc]; rfl, ?_⟩
      simp [hready, WatchdogPc.deleteRank]
    | asleep =>
      have hwoken := hflagged.woken hready hpc
      refine ⟨_, by simp only [watchdogStep, hpc, hwoken, Bool.true_or, if_true]; rfl, ?_⟩
      simp [WatchdogPc.deleteRank]
    | deleting =>
      refine ⟨_, by simp only [watchdogStep, hpc]; rfl, ?_⟩
      simp [WatchdogPc.deleteRank]
    | deleted => exact absurd hpc hnot
    | _ => simp [hpc, WatchdogPc.halted] at hhalted
  · cases s.watchdog <;> simp [WatchdogPc.deleteRank]

/-! ## The steps of a native method -/

/-- The steps that are left to a native method that nobody keeps waiting. -/
def RubyPc.rank (queue : Queue) (pipe : Nat) : RubyPc → Nat
  | .idle => 0
  | .notifyWrite _ | .queueStore _ (.release _) => 1
  | .notify _ | .queueAwait _ (.release _) => 2
  | .drainDepthDequeue _ _ | .queueDisarm _ (.release _) | .join => 3
  | .drainDepth _ | .releaseMessage _ _ | .storeDeleteReady => 4
  | .drainClear _ | .awaitReaders _ _ => 5
  | .disarm _ _ => 6
  | .respondSend _ _ => 7
  | .respondExchange _ _ => 8
  | .respondClosed _ _ => 9
  -- Every pass of `client_drain` takes one message off what it may still take.
  | .drainDelivered left _ => 6 + 6 * left
  | .drainDequeue left _ pc => 6 + 6 * left + queue.ring.takeRank pc
  | .drainRead maximum => 10 + 6 * maximum.toNat + pipe
  -- Every pass of `client_drain_and_release` takes one message off the queue.
  | .closeDequeue pc =>
    5 + 10 * (queue.enqueuePosition - queue.dequeuePosition) + queue.ring.takeRank pc
  | .queueStore _ .close => 9 + 10 * (queue.enqueuePosition - queue.dequeuePosition)
  | .queueAwait _ .close => 10 + 10 * (queue.enqueuePosition - queue.dequeuePosition)
  | .queueDisarm _ .close => 11 + 10 * (queue.enqueuePosition - queue.dequeuePosition)
  | .closeMessage _ => 12 + 10 * (queue.enqueuePosition - queue.dequeuePosition)
  | .closeSend _ => 13 + 10 * (queue.enqueuePosition - queue.dequeuePosition)
  | .closeExchange _ => 14 + 10 * (queue.enqueuePosition - queue.dequeuePosition)
  -- `client_answer_occupied` visits every slot once.
  | .answerOccupied index =>
    10 + 10 * (queue.enqueuePosition - queue.dequeuePosition) + 3 * (queue.capacity - index)
  | .answerSend index =>
    11 + 10 * (queue.enqueuePosition - queue.dequeuePosition) + 3 * (queue.capacity - (index + 1))
  | .answerExchange index =>
    12 + 10 * (queue.enqueuePosition - queue.dequeuePosition) + 3 * (queue.capacity - (index + 1))
  | .awaitWatchdog =>
    11 + 10 * (queue.enqueuePosition - queue.dequeuePosition) + 3 * queue.capacity
  | .stopWatchdog =>
    12 + 10 * (queue.enqueuePosition - queue.dequeuePosition) + 3 * queue.capacity
  | .awaitCallbacks =>
    13 + 10 * (queue.enqueuePosition - queue.dequeuePosition) + 3 * queue.capacity

/-- The native method being executed does not have to wait for another thread. -/
def State.unblocked (s : State) : Prop :=
  match s.ruby with
  | .awaitReaders p _ | .queueAwait p _ => (s.queue.slot p).readers = 0
  | .awaitCallbacks => s.activeCallbacks = 0
  | .awaitWatchdog => s.watchdogStopped
  | .join => s.watchdog = .deleted
  | _ => True

theorem drainNext_rank (queue : Queue) (pipe left : Nat) (batch : List Nat) :
    (drainNext left batch).rank queue pipe ≤ if left = 0 then 5 else 9 + 6 * left := by
  unfold drainNext
  split_ifs
  · exact Nat.le_refl 5
  · simp only [RubyPc.rank, SeqRing.Ring.takeRank]
    omega

theorem drainNext_ne (left : Nat) (batch : List Nat) :
    drainNext left batch ≠ .awaitCallbacks := by
  unfold drainNext
  split_ifs <;> simp

/-- What the taking loop gets had not been dequeued, so that the queue becomes shorter. -/
theorem SlotsInv.dequeued (hslots : SlotsInv cfg s) {pc : LoopPc} {p : Nat}
    (htaking : s.ruby.taking = some pc) (hgot : s.queue.dequeue i.spurious pc = .got p) :
    p = s.queue.dequeuePosition ∧ s.queue.dequeuePosition < s.queue.enqueuePosition := by
  have hloop := SeqRing.Ring.TakeOk.step i.spurious (hslots.taking pc htaking)
  rw [show s.queue.ring.takeStep i.spurious pc = .got p from hgot] at hloop
  obtain ⟨rfl, hseq⟩ := hloop
  have hpublished : (s.history.stage s.queue.dequeuePosition).phase = .published :=
    hslots.slots.ring.filled_published hseq
  exact ⟨rfl, hslots.slots.ring.active_lt (by simp only [hpublished]; rfl)⟩

/-- Every step of a native method that neither meets a spurious failure nor has to wait brings
    it closer to its return. -/
theorem rubyStep_rank (cfg : Config) (hslots : SlotsInv cfg s) (hi : i.spurious = false)
    (hrunning : s.ruby ≠ .idle) (hready : s.unblocked) :
    ∃ s', rubyStep cfg i s = some s' ∧ s'.ruby ≠ .awaitCallbacks ∧
      s'.ruby.rank s'.queue s'.pipe < s.ruby.rank s.queue s.pipe := by
  cases hpc : s.ruby with
  | idle => exact absurd hpc hrunning
  | drainClear | drainDepth | disarm | releaseMessage | stopWatchdog | storeDeleteReady
  | closeMessage =>
    refine ⟨_, by simp only [rubyStep, hpc]; rfl, by simp, ?_⟩
    simp [RubyPc.rank]
  | closeSend | answerSend =>
    refine ⟨_, by simp only [rubyStep, hpc]; rfl, by simp, ?_⟩
    simp [RubyPc.rank, State.sendSlot, State.sendResponse]
  | drainRead maximum =>
    have hnext := drainNext_rank s.queue s.pipe maximum.toNat []
    simp only [rubyStep, hpc]
    split_ifs with hcount
    · refine ⟨_, rfl, by simp, ?_⟩
      simp only [RubyPc.rank]
      omega
    · exact ⟨_, rfl, by simp [State.finish], by simp only [RubyPc.rank, State.finish]; omega⟩
    · exact ⟨_, rfl, by simp [State.finish], by simp only [RubyPc.rank, State.finish]; omega⟩
    · exact ⟨_, rfl, by simp [State.finish], by simp only [RubyPc.rank, State.finish]; omega⟩
    · refine ⟨_, rfl, drainNext_ne maximum.toNat [], Nat.lt_of_le_of_lt hnext ?_⟩
      show _ < 10 + 6 * maximum.toNat + s.pipe
      split_ifs <;> omega
  | drainDelivered left batch =>
    have hnext := drainNext_rank s.queue s.pipe (left - 1) batch
    refine ⟨_, by simp only [rubyStep, hpc]; rfl, drainNext_ne (left - 1) batch,
      Nat.lt_of_le_of_lt hnext ?_⟩
    show _ < 6 + 6 * left
    split_ifs <;> omega
  | drainDequeue left batch pc =>
    have hbounds := s.queue.ring.takeRank_bounds pc
    simp only [rubyStep, hpc, Queue.dequeue, hi]
    cases hres : s.queue.ring.takeStep false pc with
    | running pc' =>
      have hlt := hslots.slots.ring.takeRank_lt hres
      exact ⟨_, rfl, by simp, by simpa [RubyPc.rank] using hlt⟩
    | got p => exact ⟨_, rfl, by simp, by simp only [RubyPc.rank]; omega⟩
    | none => exact ⟨_, rfl, by simp, by simp only [RubyPc.rank]; omega⟩
  | closeDequeue pc =>
    have hbounds := s.queue.ring.takeRank_bounds pc
    have hgot := fun p => hslots.dequeued (p := p) (i := i) (by rw [hpc]; rfl)
    simp only [rubyStep, hpc, Queue.dequeue, hi] at hgot ⊢
    cases hres : s.queue.ring.takeStep false pc with
    | running pc' =>
      have hlt := hslots.slots.ring.takeRank_lt hres
      exact ⟨_, rfl, by simp, by simpa [RubyPc.rank] using hlt⟩
    | got p =>
      obtain ⟨rfl, hlt⟩ := hgot p hres
      refine ⟨_, rfl, by simp, ?_⟩
      simp only [RubyPc.rank, Queue.advanceDequeue]
      omega
    | none => exact ⟨_, rfl, by simp, by simp only [RubyPc.rank]; omega⟩
  | drainDepthDequeue batch enqueued =>
    simp only [rubyStep, hpc]
    split_ifs <;> exact ⟨_, rfl, by simp [State.finish], by simp [RubyPc.rank, State.finish]⟩
  | notify caller =>
    simp only [rubyStep, hpc]
    split_ifs
    · cases caller <;>
        exact ⟨_, rfl, by simp [State.notifyReturn, State.finish],
          by simp [RubyPc.rank, State.notifyReturn, State.finish]⟩
    · exact ⟨_, rfl, by simp, by simp [RubyPc.rank]⟩
  | notifyWrite caller =>
    refine ⟨_, by simp only [rubyStep, hpc]; rfl, ?_⟩
    cases caller <;> simp [RubyPc.rank, State.notifyReturn, State.finish]
  | respondClosed p caller | respondExchange p caller =>
    simp only [rubyStep, hpc]
    split_ifs <;> refine ⟨_, rfl, ?_⟩ <;> cases caller <;>
      simp [RubyPc.rank, State.respondReturn, State.finish]
  | respondSend p caller =>
    refine ⟨_, by simp only [rubyStep, hpc]; rfl, ?_⟩
    cases caller <;> simp [RubyPc.rank, State.respondReturn, State.finish]
  | awaitReaders p caller =>
    have hreaders : (s.queue.slot p).readers = 0 := by simpa [State.unblocked, hpc] using hready
    refine ⟨_, by simp only [rubyStep, hpc]; rfl, ?_⟩
    simp [RubyPc.rank, hreaders]
  | queueDisarm p caller =>
    refine ⟨_, by simp only [rubyStep, hpc]; rfl, by simp, ?_⟩
    cases caller <;> simp [RubyPc.rank, Queue.storeOccupied, Queue.modify]
  | queueAwait p caller =>
    have hreaders : (s.queue.slot p).readers = 0 := by simpa [State.unblocked, hpc] using hready
    refine ⟨_, by simp only [rubyStep, hpc]; rfl, ?_⟩
    cases caller <;> simp [RubyPc.rank, hreaders]
  | queueStore p caller =>
    simp only [rubyStep, hpc]
    cases caller with
    | release caller =>
      exact ⟨_, rfl, by simp [State.releaseReturn, State.finish],
        by simp [RubyPc.rank, State.releaseReturn, State.finish]⟩
    | close =>
      refine ⟨_, rfl, by simp, ?_⟩
      simp only [RubyPc.rank, SeqRing.Ring.takeRank, Queue.storeReleased, Queue.modify]
      omega
  | awaitCallbacks =>
    have hactive : s.activeCallbacks = 0 := by simpa [State.unblocked, hpc] using hready
    refine ⟨_, by simp only [rubyStep, hpc]; rfl, ?_⟩
    simp [RubyPc.rank, hactive]
  | awaitWatchdog =>
    have hstopped : s.watchdogStopped := by simpa [State.unblocked, hpc] using hready
    refine ⟨_, by simp only [rubyStep, hpc]; rfl, ?_⟩
    simp [RubyPc.rank, hstopped]
  | join =>
    have hdeleted : s.watchdog = .deleted := by simpa [State.unblocked, hpc] using hready
    refine ⟨_, by simp only [rubyStep, hpc]; rfl, ?_⟩
    simp [RubyPc.rank, hdeleted]
  | answerOccupied index =>
    simp only [rubyStep, hpc]
    split_ifs
    · exact ⟨_, rfl, by simp, by simp only [RubyPc.rank]; omega⟩
    · exact ⟨_, rfl, by simp, by simp only [RubyPc.rank]; omega⟩
    · exact ⟨_, rfl, by simp, by simp only [RubyPc.rank, SeqRing.Ring.takeRank]; omega⟩
  | answerExchange index =>
    simp only [rubyStep, hpc]
    split_ifs <;> refine ⟨_, rfl, by simp, ?_⟩
    · simp [RubyPc.rank, State.answer, Queue.storeAnswerState, Queue.modify]
    · simp [RubyPc.rank]
  | closeExchange p =>
    simp only [rubyStep, hpc]
    split_ifs <;> refine ⟨_, rfl, by simp, ?_⟩
    · simp [RubyPc.rank, State.answer, Queue.storeAnswerState, Queue.modify]
    · simp [RubyPc.rank]

/-! ## Waiting -/

/-- The watchdog alone ends the wait of a native method that does not wait for callbacks. -/
theorem unblock (hs : Reachable (step cfg) (.init cfg) s) (hne : s.ruby ≠ .awaitCallbacks)
    (fits : Input → Prop) :
    CanReach (step cfg) Party.action fits (· = .watchdog) (fun t => t.unblocked ∧ s.Steady t)
      s := by
  cases hpc : s.ruby with
  | awaitReaders p caller | queueAwait p caller =>
    apply (watchdog_leaves hs fits).bind hs
    rintro t ht ⟨hreading, hsteady⟩
    refine .now ⟨?_, hsteady⟩
    have hruby := hsteady.ruby.trans hpc
    have hreaders : (t.queue.slot p).readers = _ := (reachable_readers ht).readers _
    simpa [State.unblocked, hruby, hreading] using hreaders
  | awaitWatchdog =>
    have hstop := (reachable_shutdown hs).stopping hpc
    refine CanReach.bind hs ((watchdog_halts hs hstop fits).canReach rfl) ?_
    rintro t ht ⟨hhalted, hsteady⟩
    refine .now ⟨?_, hsteady⟩
    have hruby := hsteady.ruby.trans hpc
    have hstopped := (reachable_closing ht).stopped.trans hhalted
    simpa only [State.unblocked, hruby] using hstopped
  | join =>
    -- `close` has set `delete_ready` before it joins the thread
    have hready := (reachable_shutdown hs).deleting hpc
    refine CanReach.bind hs ((watchdog_deletes hs hready fits).canReach rfl) ?_
    rintro t - ⟨hdeleted, hsteady⟩
    refine .now ⟨?_, hsteady⟩
    have hruby := hsteady.ruby.trans hpc
    simpa only [State.unblocked, hruby] using hdeleted
  | awaitCallbacks => exact absurd hpc hne
  | _ => exact .now ⟨by simp only [State.unblocked, hpc], .refl s⟩

/-- The steps that are left to a native method that waits do not depend on the watchdog. -/
theorem State.Steady.rank (h : s.Steady s') (hblocked : ¬s.unblocked) :
    s'.ruby.rank s'.queue s'.pipe = s.ruby.rank s.queue s.pipe := by
  rw [h.ruby]
  cases hpc : s.ruby with
  | awaitReaders | join => rfl
  | queueAwait p caller =>
    cases caller <;> simp only [RubyPc.rank, h.enqueuePosition, h.dequeuePosition]
  | awaitCallbacks | awaitWatchdog =>
    simp only [RubyPc.rank, h.capacity, h.enqueuePosition, h.dequeuePosition]
  | _ => simp [State.unblocked, hpc] at hblocked

/-- A native method that does not wait for callbacks returns with the help of the watchdog. -/
theorem returns_with_watchdog (hs : Reachable (step cfg) (.init cfg) s)
    (hne : s.ruby ≠ .awaitCallbacks) :
    CanReach (step cfg) Party.action Input.strong (fun b => b = .watchdog ∨ b = .ruby)
      (·.ruby = .idle) s := by
  refine CanReach.of_rank (I := (·.ruby ≠ .awaitCallbacks))
    (fun t => t.ruby.rank t.queue t.pipe) (fun t ht hne hrunning => ?_) hs hne
  by_cases hready : t.unblocked
  · refine CanReach.turn (b := .ruby) (.inr rfl) fun i hi => ?_
    obtain ⟨t', hstep, hne', hlt⟩ := rubyStep_rank cfg (reachable_slots ht) hi hrunning hready
    exact ⟨t', hstep, .now ⟨hne', hlt⟩⟩
  · -- A method that waits has a rank that the watchdog does not change
    apply ((unblock ht hne Input.strong).allow fun _ => .inl).bind ht
    rintro u hu ⟨hready', hsteady⟩
    refine CanReach.turn (b := .ruby) (.inr rfl) fun i hi => ?_
    obtain ⟨t', hstep, hne', hlt⟩ := rubyStep_rank cfg (reachable_slots hu) hi
      (hsteady.ruby ▸ hrunning) hready'
    exact ⟨t', hstep, .now ⟨hne', Nat.lt_of_lt_of_eq hlt (hsteady.rank hready)⟩⟩

/-- The callbacks of a finite set return, one after another, and nothing else moves. -/
theorem callbacks_return (hs : Reachable (step cfg) (.init cfg) s) (ks : Finset Nat) :
    CanReach (step cfg) Party.action Input.strong (fun b => ∃ k ∈ ks, b = .callback k)
      (fun t => (∀ k ∈ ks, (t.callback k).inside = false) ∧ t.ruby = s.ruby ∧
        ∀ k ∉ ks, t.callback k = s.callback k) s := by
  induction ks using Finset.induction_on with
  | empty => exact .now ⟨by simp, rfl, fun _ _ => rfl⟩
  | insert k ks hk ih =>
    have hallow : ∀ b, (∃ j ∈ ks, b = Party.callback j) →
        ∃ j ∈ insert k ks, b = .callback j := by
      rintro b ⟨j, hj, rfl⟩
      exact ⟨j, Finset.mem_insert_of_mem hj, rfl⟩
    apply (ih.allow hallow).bind hs
    rintro t ht ⟨hreturned, hruby, hother⟩
    have hreturns : CanReach (step cfg) Party.action Input.strong (· = .callback k) _ t :=
      (callback_returns ht k).canReach rfl
    have hlast := hreturns.keeping
      (K := fun u => u.ruby = t.ruby ∧ ∀ j, j ≠ k → u.callback j = t.callback j)
      ⟨rfl, fun _ _ => rfl⟩ (by
        rintro u b i u' rfl hstep ⟨hruby, hother⟩
        obtain ⟨hruby', -, -, -, hother'⟩ := callbackStep_steady hstep
        exact ⟨hruby'.trans hruby, fun j hj => (hother' j hj).trans (hother j hj)⟩)
    apply (hlast.allow fun b hb => ⟨k, Finset.mem_insert_self k ks, hb⟩).bind ht
    rintro u - ⟨⟨outcome, hpc⟩, hruby', hother'⟩
    refine .now ⟨fun j hj => ?_, hruby'.trans hruby, fun j hj => ?_⟩
    · rcases Finset.mem_insert.mp hj with rfl | hj
      · rw [hpc]
        rfl
      · rw [hother' j (ne_of_mem_of_not_mem hj hk)]
        exact hreturned j hj
    · obtain ⟨hjk, hj⟩ := not_or.mp (mt Finset.mem_insert.mpr hj)
      rw [hother' j hjk, hother j hj]

/-- No callback is counted once none is inside. -/
theorem Closing.inactive (h : Closing s) (hinside : ∀ k, (s.callback k).inside = false) :
    s.activeCallbacks = 0 := by
  obtain ⟨inside, hcard, hmem⟩ := h.active
  rw [← hcard, Finset.card_eq_zero]
  refine Finset.eq_empty_of_forall_notMem fun k hk => ?_
  have hcounted := (hmem k).mp hk
  rw [hinside k] at hcounted
  cases hcounted

/-- What each kind of thread can do, in every reachable state, whatever Endpoint Security and the
    clock answer at each step, and whenever the wait for a condition ends by itself:
    - a callback left alone returns within 24 steps, if none of them fails spuriously;
    - the watchdog, once told to stop, leaves its loop within a number of steps that the capacity
      bounds;
    - the watchdog, once told that it may, deletes the native client within 4 steps;
    - a native method returns with the help of the watchdog alone, unless it is a `close` that
      still waits for callbacks, and that one returns with the help of the callbacks that are
      under way; here too no step may fail spuriously. -/
theorem native_methods_return (hs : Reachable (step cfg) (.init cfg) s) :
    (∀ k, Completes (step cfg) (Party.callback k).action Input.strong
      (fun t => ∃ outcome, t.callback k = .returned outcome) 24 s) ∧
    (s.watchdogRunning = false → Completes (step cfg) Party.watchdog.action (fun _ => True)
      (fun t => t.watchdog.halted ∧ s.Steady t) (28 + 24 * cfg.capacity.val) s) ∧
    (s.deleteReady → Completes (step cfg) Party.watchdog.action (fun _ => True)
      (fun t => t.watchdog = .deleted ∧ s.Steady t) 4 s) ∧
    (s.ruby ≠ .awaitCallbacks → CanReach (step cfg) Party.action Input.strong
      (fun b => b = .watchdog ∨ b = .ruby) (·.ruby = .idle) s) ∧
    CanReach (step cfg) Party.action Input.strong
      (fun b => b = .watchdog ∨ b = .ruby ∨ ∃ k, (s.callback k).inside ∧ b = .callback k)
      (·.ruby = .idle) s := by
  have halone := returns_with_watchdog hs
  refine ⟨callback_returns hs, fun hstop => watchdog_halts hs hstop _,
    fun hready => watchdog_deletes hs hready _, halone, ?_⟩
  by_cases hwait : s.ruby = .awaitCallbacks
  · obtain ⟨inside, -, hmem⟩ := (reachable_closing hs).active
    have hcallbacks := callbacks_return hs inside
    refine (hcallbacks.allow ?_).bind hs ?_
    · rintro b ⟨k, hk, rfl⟩
      exact .inr (.inr ⟨k, (hmem k).mp hk, rfl⟩)
    · rintro t ht ⟨hreturned, hruby, hother⟩
      have hactive := (reachable_closing ht).inactive fun k => by
        by_cases hk : k ∈ inside
        · exact hreturned k hk
        · rw [hother k hk]
          simpa using mt (hmem k).mpr hk
      have hpc := hruby.trans hwait
      refine CanReach.turn (b := .ruby) (.inr (.inl rfl)) fun i _ => ?_
      have hstep : step cfg (.ruby i) t = some { t with ruby := .stopWatchdog } := by
        simp [step, rubyStep, hpc, hactive]
      refine ⟨_, hstep, (returns_with_watchdog (ht.step hstep) (by simp)).allow ?_⟩
      rintro b (rfl | rfl)
      · exact .inl rfl
      · exact .inr (.inl rfl)
  · apply (halone hwait).allow
    rintro b (rfl | rfl)
    · exact .inl rfl
    · exact .inr (.inl rfl)

/-- A message is on its way, and Ruby closes the client. -/
def closeEarly : List Action := callbackSteps 0 5 ++ [Action.call .close]

theorem native_methods_return_early :
    CanReach (step smallClient) Party.action Input.strong
      (fun b => b = .watchdog ∨ b = .ruby ∨
        ∃ k, ((TransitionSystem.final (step smallClient) closeEarly (.init smallClient)
          (by decide)).callback k).inside ∧ b = .callback k)
      (·.ruby = .idle)
      (TransitionSystem.final (step smallClient) closeEarly (.init smallClient) (by decide)) :=
  (native_methods_return (.final _)).2.2.2.2

end EndpointSecurity
