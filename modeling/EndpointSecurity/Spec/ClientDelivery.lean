import EndpointSecurity.ForStd.Outputs
import EndpointSecurity.Spec.ClientProgress
import EndpointSecurity.Spec.ClientRecords
import EndpointSecurity.Spec.ClientWakeup

/-!
# What the drains of a run return

`client_drain` returns the messages to the dispatcher in batches. Whatever the callbacks and the
watchdog do meanwhile, the batches of a run, one after another, are the messages in the order in
which their callbacks have claimed their positions, none left out and none returned twice.

## Key results

- `Delivered`: how what has been returned is related to the state
- `claimed_later`: the order of the positions is the one in which the callbacks have claimed them
- `delivered_in_order`: the batches of every run
-/

namespace EndpointSecurity

open TransitionSystem (Reachable run outputs outputs_invariant)

variable {cfg : Config} {s s' : State} {k p : Nat} {i : Input}

/-- The batch that `client_drain` has dequeued so far. -/
def RubyPc.batch : RubyPc → List Nat
  | .drainDequeue _ batch _ | .drainDelivered _ batch | .drainClear batch | .drainDepth batch
  | .drainDepthDequeue batch _ | .notify (.drain batch) | .notifyWrite (.drain batch) => batch
  | _ => []

/-- The message that has been dequeued and not been counted as delivered yet. -/
def RubyPc.uncounted : RubyPc → Nat
  | .drainDelivered _ _ => 1
  | _ => 0

/-- The batch that a native method returns with a step, as the messages that Ruby sees in it. -/
def State.returns (s s' : State) : Option (List Nat) :=
  match s.ruby, s'.ruby, s'.result with
  | .idle, _, _ => none
  | _, .idle, .messages batch => some (batch.map fun p => (s'.wrapper p).message)
  | _, _, _ => none

/-- The batches that the drains of a run return, in the order in which they return them. -/
def batches (cfg : Config) (as : List Action) (s : State) : List (List Nat) :=
  outputs (step cfg) (fun s _ s' => (s.returns s').toList) as s

/-- The messages of the first `n` positions, in the order of the positions. -/
def State.firstMessages (s : State) (n : Nat) : List Nat := (List.range n).map s.history.owner

/-- What has been returned so far, with the batch that is about to be, is the messages of the
    first positions: of all that have been dequeued, unless the client has been closed. -/
structure Delivered (s : State) (returned : List (List Nat)) (n : Nat) : Prop where
  inOrder : returned.flatten ++ s.ruby.batch.map s.history.owner = s.firstMessages n
  dequeued : n ≤ s.queue.dequeuePosition
  all : s.closed = false → n = s.queue.dequeuePosition
  counted : s.stats.delivered + s.ruby.uncounted = n
  wrapped : ∀ p ∈ s.ruby.batch, p < n ∧ (s.wrapper p).message = s.history.owner p
  opened : s.ruby.draining → s.closed = false

theorem delivered_init (cfg : Config) : Delivered (.init cfg) [] 0 where
  inOrder := rfl
  dequeued := Nat.le_refl 0
  all _ := rfl
  counted := rfl
  wrapped := by simp [State.init, RubyPc.batch]
  opened := by simp [State.init, RubyPc.draining]

/-! ## One step -/

/-- The positions that have been claimed keep their owners. -/
theorem callbackStep_owner (hslots : SlotsInv cfg s) (hstep : callbackStep cfg k i s = some s')
    (hp : p < s.queue.enqueuePosition) : s'.history.owner p = s.history.owner p := by
  cases hpc : s.callback k with
  | absent | loadClosed | retain | drop | fill | storeOccupied | publishRequest | respond
  | loadDequeue | loadDepthMax | storeSequence | notifyWrite | leave =>
    simp only [callbackStep, hpc, Option.some.injEq] at hstep
    subst hstep
    rfl
  | refuse | overflow =>
    simp only [callbackStep, hpc, Option.some.injEq] at hstep
    obtain ⟨stats, log, heq⟩ := s.respondUnqueued_eq cfg i k
    rw [heq] at hstep
    subst hstep
    rfl
  | enqueue pc =>
    have hloop := SeqRing.Ring.ClaimOk.step i.spurious (hslots.claiming k pc hpc)
    simp only [callbackStep, hpc, Queue.enqueue] at hstep
    cases hres : s.queue.ring.claimStep i.spurious pc with
    | running | none =>
      simp only [hres, Option.some.injEq] at hstep
      subst hstep
      rfl
    | got q =>
      simp only [hres, Option.some.injEq] at hstep hloop
      obtain ⟨rfl, -⟩ := hloop
      subst hstep
      -- The position that is claimed has not been dequeued, so that its owner is news to nobody
      exact Function.update_of_ne (Nat.ne_of_lt hp) ..
  | arm p pc =>
    simp only [callbackStep, hpc] at hstep
    cases hres : s.requests.arm i.spurious pc <;>
      simp only [hres, Option.some.injEq] at hstep <;> subst hstep <;> rfl
  | answer | notify | raiseDepthMax =>
    simp only [callbackStep, hpc] at hstep
    split_ifs at hstep <;> cases hstep <;> rfl
  | returned => simp [callbackStep, hpc] at hstep

/-- What the callbacks leave alone of what has been dequeued. -/
theorem callbackStep_dequeued (hstep : callbackStep cfg k i s = some s') :
    s'.queue.dequeuePosition = s.queue.dequeuePosition ∧
      s'.stats.delivered = s.stats.delivered := by
  cases hpc : s.callback k with
  | absent | loadClosed | retain | drop | fill | storeOccupied | publishRequest
  | loadDequeue | loadDepthMax | storeSequence | notifyWrite | leave =>
    simp only [callbackStep, hpc, Option.some.injEq] at hstep
    subst hstep
    exact ⟨rfl, rfl⟩
  | respond p =>
    simp only [callbackStep, hpc, Option.some.injEq] at hstep
    subst hstep
    exact ⟨rfl, rfl⟩
  | refuse | overflow =>
    simp only [callbackStep, hpc, State.respondUnqueued, Option.some.injEq] at hstep
    subst hstep
    split_ifs <;> exact ⟨rfl, rfl⟩
  | enqueue pc =>
    simp only [callbackStep, hpc, Queue.enqueue] at hstep
    cases hres : s.queue.ring.claimStep i.spurious pc <;>
      simp only [hres, Option.some.injEq] at hstep <;> subst hstep <;> exact ⟨rfl, rfl⟩
  | arm p pc =>
    simp only [callbackStep, hpc] at hstep
    cases hres : s.requests.arm i.spurious pc <;>
      simp only [hres, Option.some.injEq] at hstep <;> subst hstep <;> exact ⟨rfl, rfl⟩
  | answer | notify | raiseDepthMax =>
    simp only [callbackStep, hpc] at hstep
    split_ifs at hstep <;> cases hstep <;> exact ⟨rfl, rfl⟩
  | returned => simp [callbackStep, hpc] at hstep

/-- What the watchdog leaves alone of it. -/
theorem watchdogStep_dequeued (hstep : watchdogStep cfg i s = some s') :
    s'.queue.dequeuePosition = s.queue.dequeuePosition ∧
      s'.stats.delivered = s.stats.delivered ∧ s'.history.owner = s.history.owner := by
  cases hpc : s.watchdog with
  | loadRunning | popLoad | popSequence | popStore | popRelease | loadOccupied | addReader
  | respond | count | notifyWrite | subReader | wait | exiting | stopped | deleting =>
    simp only [watchdogStep, hpc, Option.some.injEq] at hstep
    subst hstep
    exact ⟨rfl, rfl, rfl⟩
  | clock | recheck | exchange | notify | asleep =>
    simp only [watchdogStep, hpc] at hstep
    split_ifs at hstep <;> cases hstep <;> exact ⟨rfl, rfl, rfl⟩
  | deleted => simp [watchdogStep, hpc] at hstep

/-- A step of a thread other than Ruby's returns nothing and changes nothing of it. -/
theorem Delivered.background {returned : List (List Nat)} {n : Nat} (hslots : SlotsInv cfg s)
    (h : Delivered s returned n) (hbackground : s.Background s')
    (hdequeue : s'.queue.dequeuePosition = s.queue.dequeuePosition)
    (hdelivered : s'.stats.delivered = s.stats.delivered)
    (howner : ∀ p, p < s.queue.enqueuePosition → s'.history.owner p = s.history.owner p) :
    Delivered s' returned n := by
  obtain ⟨hruby, hwrapper, hclosed, -⟩ := hbackground
  -- All that has been returned or is being collected has been claimed
  have hkept : ∀ p, p < n → s'.history.owner p = s.history.owner p := fun p hp =>
    howner p (Nat.lt_of_lt_of_le hp (Nat.le_trans h.dequeued hslots.slots.ring.deq_le))
  constructor
  case inOrder =>
    have hbatch : s.ruby.batch.map s'.history.owner = s.ruby.batch.map s.history.owner :=
      List.map_congr_left fun p hp => hkept p (h.wrapped p hp).1
    have hfirst : s'.firstMessages n = s.firstMessages n :=
      List.map_congr_left fun p hp => hkept p (List.mem_range.mp hp)
    rw [hruby, hbatch, hfirst]
    exact h.inOrder
  case dequeued => rw [hdequeue]; exact h.dequeued
  case all => rw [hclosed, hdequeue]; exact h.all
  case counted => rw [hdelivered, hruby]; exact h.counted
  case wrapped =>
    rw [hruby, hwrapper]
    intro p hp
    obtain ⟨hlt, hmessage⟩ := h.wrapped p hp
    exact ⟨hlt, hmessage.trans (hkept p hlt).symm⟩
  case opened => rw [hruby, hclosed]; exact h.opened

/-- A step of a native method other than `client_drain`: it dequeues only once the client has been
    closed. -/
theorem Delivered.rubyCalm {returned : List (List Nat)} {n : Nat} (h : Delivered s returned n)
    (hold : s.ruby.batch = [] ∧ s.ruby.uncounted = 0)
    (hnew : s'.ruby.batch = [] ∧ s'.ruby.uncounted = 0)
    (hopened : s'.ruby.draining → s'.closed = false)
    (hdequeue : s.queue.dequeuePosition ≤ s'.queue.dequeuePosition)
    (hclosed : s'.closed = false →
      s.closed = false ∧ s'.queue.dequeuePosition = s.queue.dequeuePosition)
    (hsame : s'.stats.delivered = s.stats.delivered ∧ s'.history.owner = s.history.owner := by
      exact ⟨rfl, rfl⟩) : Delivered s' returned n := by
  obtain ⟨hdelivered, howner⟩ := hsame
  obtain ⟨hbatch, huncounted⟩ := hold
  obtain ⟨hbatch', huncounted'⟩ := hnew
  constructor
  case inOrder =>
    have hinOrder := h.inOrder
    rw [hbatch] at hinOrder
    rw [hbatch', State.firstMessages, howner]
    exact hinOrder
  case dequeued => exact Nat.le_trans h.dequeued hdequeue
  case all =>
    intro hopen
    -- As long as the client is open only `client_drain` dequeues
    obtain ⟨hopen', hsame⟩ := hclosed hopen
    rw [hsame]
    exact h.all hopen'
  case counted =>
    rw [hdelivered, huncounted', ← huncounted]
    exact h.counted
  case wrapped => simp [hbatch']
  case opened => exact hopened

/-- A step of a native method that does nothing to the queue. -/
theorem Delivered.rubyAside {returned : List (List Nat)} {n : Nat} (h : Delivered s returned n)
    (hold : s.ruby.batch = [] ∧ s.ruby.uncounted = 0)
    (hnew : s'.ruby.batch = [] ∧ s'.ruby.uncounted = 0)
    (hdraining : s'.ruby.draining = false)
    (hsame : s'.queue.dequeuePosition = s.queue.dequeuePosition ∧ s'.closed = s.closed ∧
      s'.stats.delivered = s.stats.delivered ∧ s'.history.owner = s.history.owner := by
        exact ⟨rfl, rfl, rfl, rfl⟩) : Delivered s' returned n := by
  obtain ⟨hdequeue, hclosed, hdelivered, howner⟩ := hsame
  refine h.rubyCalm hold hnew (by simp [hdraining]) (Nat.le_of_eq hdequeue.symm) (fun hopen => ?_)
    ⟨hdelivered, howner⟩
  exact ⟨hclosed ▸ hopen, hdequeue⟩

theorem callStep_delivered {call : Call} {returned : List (List Nat)} {n : Nat}
    (h : Delivered s returned n) (hstep : callStep cfg call s = some s') :
    Delivered s' (returned ++ (s.returns s').toList) n := by
  have hidle : s.ruby = .idle := by
    simp only [callStep] at hstep
    split_ifs at hstep with hidle
    exact hidle
  have hreturns : s.returns s' = none := by simp [State.returns, hidle]
  rw [hreturns, Option.toList_none, List.append_nil]
  have hcalm : ∀ t : State, t.ruby.batch = [] ∧ t.ruby.uncounted = 0 →
      -- A call that begins has collected nothing yet
      (t.ruby.draining → t.closed = false) → t.queue = s.queue →
      (t.closed = false → s.closed = false) →
      t.stats.delivered = s.stats.delivered ∧ t.history.owner = s.history.owner →
      Delivered t returned n := by
    intro t hnew hopened hqueue hclosed hsame
    refine h.rubyCalm (by simp [hidle, RubyPc.batch, RubyPc.uncounted]) hnew hopened ?_ ?_ hsame
    · rw [hqueue]
    · exact fun hopen => ⟨hclosed hopen, by rw [hqueue]⟩
  have hrelease : ∀ p caller stats, stats.delivered = s.stats.delivered →
      Delivered ({ s with stats }.releaseCall p caller) returned n := by
    intro p caller stats hstats
    simp only [State.releaseCall]
    split_ifs <;> exact hcalm _ ⟨rfl, rfl⟩ (by rintro ⟨⟩) rfl id ⟨hstats, rfl⟩
  simp only [callStep, if_pos hidle] at hstep
  cases call with
  | drain maximum =>
    simp only [beginCall] at hstep
    split_ifs at hstep with hlong hclosed <;> cases hstep
    · exact hcalm _ ⟨rfl, rfl⟩ (by rintro ⟨⟩) rfl id ⟨rfl, rfl⟩
    · exact hcalm _ ⟨rfl, rfl⟩ (by rintro ⟨⟩) rfl id ⟨rfl, rfl⟩
    -- A drain that begins has found the client open
    · exact hcalm _ ⟨rfl, rfl⟩ (fun _ => by simpa using hclosed) rfl id ⟨rfl, rfl⟩
  | wake =>
    cases hstep
    exact hcalm _ ⟨rfl, rfl⟩ (by rintro ⟨⟩) rfl id ⟨rfl, rfl⟩
  | close =>
    simp only [beginCall] at hstep
    split_ifs at hstep <;> cases hstep
    · exact hcalm _ ⟨rfl, rfl⟩ (by rintro ⟨⟩) rfl id ⟨rfl, rfl⟩
    -- From now on `all` is not asked for any more
    · exact hcalm _ ⟨rfl, rfl⟩ (by rintro ⟨⟩) rfl (by rintro ⟨⟩) ⟨rfl, rfl⟩
  | respond p verdict =>
    simp only [beginCall] at hstep
    split_ifs at hstep
    · cases hstep
      exact hcalm _ ⟨rfl, rfl⟩ (by rintro ⟨⟩) rfl id ⟨rfl, rfl⟩
    · split at hstep <;> cases hstep <;>
        exact hcalm _ ⟨rfl, rfl⟩ (by rintro ⟨⟩) rfl id ⟨rfl, rfl⟩
  | read p | retain p =>
    simp only [beginCall] at hstep
    split_ifs at hstep <;> cases hstep <;>
      exact hcalm _ ⟨rfl, rfl⟩ (by rintro ⟨⟩) rfl id ⟨rfl, rfl⟩
  | release p =>
    simp only [beginCall] at hstep
    split_ifs at hstep
    cases hstep
    exact hrelease p .method s.stats rfl
  | autoRelease p =>
    simp only [beginCall] at hstep
    split_ifs at hstep <;> cases hstep
    · exact hcalm _ ⟨rfl, rfl⟩ (by rintro ⟨⟩) rfl id ⟨rfl, rfl⟩
    · exact hrelease p .method s.stats rfl
  | free p =>
    simp only [beginCall] at hstep
    split_ifs at hstep <;> cases hstep <;> exact hrelease p .free _ rfl

/-- A step of `client_drain` that neither dequeues nor returns. -/
theorem Delivered.drainFrame {returned : List (List Nat)} {n : Nat} (h : Delivered s returned n)
    (hdraining : s.ruby.draining) (hbatch : s'.ruby.batch = s.ruby.batch)
    (hcounted : s'.stats.delivered + s'.ruby.uncounted = s.stats.delivered + s.ruby.uncounted)
    (hsame : s'.queue = s.queue ∧ s'.history = s.history ∧ s'.closed = s.closed ∧
      s'.wrapper = s.wrapper := by exact ⟨rfl, rfl, rfl, rfl⟩) : Delivered s' returned n := by
  obtain ⟨hqueue, hhistory, hclosed, hwrapper⟩ := hsame
  constructor
  case inOrder =>
    rw [hbatch, State.firstMessages, hhistory]
    exact h.inOrder
  case dequeued => rw [hqueue]; exact h.dequeued
  case all => rw [hclosed, hqueue]; exact h.all
  case counted => rw [hcounted]; exact h.counted
  case wrapped => rw [hbatch, hwrapper, hhistory]; exact h.wrapped
  case opened => rw [hclosed]; exact fun _ => h.opened hdraining

/-- `client_drain` returns its batch. -/
theorem Delivered.drainReturn {returned : List (List Nat)} {n : Nat}
    (h : Delivered s returned n) (batch : List Nat) (hbatch : s.ruby.batch = batch)
    (huncounted : s.ruby.uncounted = 0)
    (hreturns : s.returns s' = some (batch.map fun p => (s.wrapper p).message))
    (hsame : s'.ruby = .idle ∧ s'.queue = s.queue ∧ s'.history = s.history ∧
      s'.closed = s.closed ∧ s'.stats = s.stats := by exact ⟨rfl, rfl, rfl, rfl, rfl⟩) :
    Delivered s' (returned ++ (s.returns s').toList) n := by
  obtain ⟨hruby, hqueue, hhistory, hclosed, hstats⟩ := hsame
  -- The wrappers of the batch still have the messages that the drain has made them for
  have hmessages : batch.map (fun p => (s.wrapper p).message) = batch.map s.history.owner :=
    List.map_congr_left fun p hp => (h.wrapped p (hbatch ▸ hp)).2
  constructor
  case inOrder =>
    have hinOrder := h.inOrder
    rw [hbatch] at hinOrder
    rw [State.firstMessages] at hinOrder
    rw [hreturns, hruby, hmessages, State.firstMessages, hhistory]
    simpa [RubyPc.batch] using hinOrder
  case dequeued => rw [hqueue]; exact h.dequeued
  case all => rw [hclosed, hqueue]; exact h.all
  case counted =>
    have hcounted := h.counted
    rw [huncounted] at hcounted
    rw [hstats, hruby]
    exact hcounted
  case wrapped => simp [hruby, RubyPc.batch]
  case opened => simp [hruby, RubyPc.draining]

theorem Stage.full_of_published {st : Stage} (h : st.phase = .published) : st.full := by
  cases st <;> first | rfl | cases h

/-- `client_drain` dequeues the next message and wraps it. -/
theorem Delivered.drainTake {returned : List (List Nat)} {n left : Nat} {batch : List Nat}
    {pc : SeqRing.LoopPc} (hslots : SlotsInv cfg s) (h : Delivered s returned n)
    (hpc : s.ruby = .drainDequeue left batch pc)
    (hgot : s.queue.dequeue i.spurious pc = .got p) :
    Delivered { s with
      ruby := .drainDelivered left (batch ++ [p])
      queue := s.queue.advanceDequeue p
      wrapper := Function.update s.wrapper p
        { live := true, valid := true, held := false, message := (s.queue.slot p).message }
      history := s.history.enter p .taken } returned (n + 1) := by
  have hopen := h.opened (by rw [hpc]; rfl)
  have hn := h.all hopen
  -- An open client is dequeued by drains only, so the next position is the next one to be returned
  obtain ⟨rfl, hlt⟩ := hslots.dequeued (by rw [hpc]; rfl) hgot
  have hloop := SeqRing.Ring.TakeOk.step i.spurious (hslots.taking pc (by rw [hpc]; rfl))
  rw [show s.queue.ring.takeStep i.spurious pc = .got _ from hgot] at hloop
  -- It has been published, which is when its message is in the slot
  have hpublished : (s.history.stage s.queue.dequeuePosition).phase = .published :=
    hslots.slots.ring.filled_published hloop.2
  have hmessage := ((hslots.slots.slot s.queue.dequeuePosition).full
    (Stage.full_of_published hpublished)).1
  have hbatch : s.ruby.batch = batch := by rw [hpc]; rfl
  subst hn
  constructor
  case inOrder =>
    have hinOrder := h.inOrder
    rw [hbatch, State.firstMessages] at hinOrder
    simp only [RubyPc.batch, State.firstMessages, List.map_append, List.map_cons, List.map_nil,
      List.range_succ, History.enter]
    rw [← List.append_assoc, hinOrder]
  case dequeued => exact Nat.le_refl _
  case all => exact fun _ => rfl
  case counted =>
    have hcounted := h.counted
    rw [hpc] at hcounted
    simp only [RubyPc.uncounted] at hcounted ⊢
    omega
  case wrapped =>
    intro q hq
    -- What was in the batch before, and the new position
    rcases List.mem_append.mp hq with hq | hq
    · obtain ⟨hlt', hmessage'⟩ := h.wrapped q (hbatch ▸ hq)
      refine ⟨Nat.lt_succ_of_lt hlt', ?_⟩
      show (Function.update s.wrapper _ _ q).message = _
      rw [Function.update_of_ne (Nat.ne_of_lt hlt')]
      exact hmessage'
    · obtain rfl := List.mem_singleton.mp hq
      refine ⟨Nat.lt_succ_self _, ?_⟩
      show (Function.update s.wrapper _ _ _).message = _
      rw [Function.update_self]
      exact hmessage
  case opened => exact fun _ => hopen

theorem drainNext_batch (left : Nat) (batch : List Nat) :
    (drainNext left batch).batch = batch ∧ (drainNext left batch).uncounted = 0 := by
  unfold drainNext
  split_ifs <;> exact ⟨rfl, rfl⟩

/-- A method that goes on returns nothing. -/
theorem State.returns_busy (hbusy : s'.ruby ≠ .idle) : s.returns s' = none := by
  unfold returns
  split
  · rfl
  · exact absurd ‹_› hbusy
  · rfl

/-- A method other than `client_drain` returns no batch. -/
theorem State.returns_other (hother : ∀ batch, s'.result ≠ .messages batch) :
    s.returns s' = none := by
  unfold returns
  split
  · rfl
  · exact absurd ‹_› (hother _)
  · rfl

/-- A step that returns no batch. -/
theorem Delivered.silent {returned : List (List Nat)} {n : Nat} (h : Delivered s' returned n)
    (hnone : s.returns s' = none) : ∃ n', Delivered s' (returned ++ (s.returns s').toList) n' := by
  rw [hnone, Option.toList_none, List.append_nil]
  exact ⟨n, h⟩

/-- `esrb_respond_slot` returns to its caller. -/
theorem Delivered.respondReturn {returned : List (List Nat)} {n : Nat} {t : State}
    {sent success : Bool} {caller : RespondCaller} (h : Delivered s returned n)
    (hold : s.ruby.batch = [] ∧ s.ruby.uncounted = 0)
    (hsame : t.queue.dequeuePosition = s.queue.dequeuePosition ∧ t.closed = s.closed ∧
      t.stats.delivered = s.stats.delivered ∧ t.history.owner = s.history.owner := by
        exact ⟨rfl, rfl, rfl, rfl⟩) :
    ∃ n', Delivered (t.respondReturn cfg p sent success caller)
      (returned ++ (s.returns (t.respondReturn cfg p sent success caller)).toList) n' := by
  cases caller with
  | method call answer raises =>
    have hframe : Delivered (t.respondReturn cfg p sent success (.method call answer raises))
      returned n := h.rubyAside hold ⟨rfl, rfl⟩ rfl hsame
    refine hframe.silent (State.returns_other fun batch => ?_)
    simp only [State.respondReturn, State.finish]
    split_ifs <;> simp
  | release caller =>
    have hframe : Delivered (t.respondReturn cfg p sent success (.release caller)) returned n :=
      h.rubyAside hold ⟨rfl, rfl⟩ rfl hsame
    exact hframe.silent (State.returns_busy (by simp [State.respondReturn]))

theorem rubyStep_delivered {returned : List (List Nat)} {n : Nat} (hslots : SlotsInv cfg s)
    (hclosing : Closing s) (h : Delivered s returned n) (hstep : rubyStep cfg i s = some s') :
    ∃ n', Delivered s' (returned ++ (s.returns s').toList) n' := by
  cases hpc : s.ruby with
  | idle => simp [rubyStep, hpc] at hstep
  | drainRead maximum =>
    obtain ⟨hbatch, huncounted⟩ := drainNext_batch maximum.toNat []
    simp only [rubyStep, hpc] at hstep
    split_ifs at hstep <;> cases hstep
    · exact (h.drainFrame (by rw [hpc]; rfl) (by rw [hpc]) (by rw [hpc])).silent
        (State.returns_busy (by simp))
    -- A drain that raises has dequeued nothing
    · exact (h.drainFrame (by rw [hpc]; rfl) (by rw [hpc]; rfl) (by rw [hpc]; rfl)).silent
        (State.returns_other (by simp [State.finish]))
    · exact (h.drainFrame (by rw [hpc]; rfl) (by rw [hpc]; rfl) (by rw [hpc]; rfl)).silent
        (State.returns_other (by simp [State.finish]))
    · exact (h.drainFrame (by rw [hpc]; rfl) (by rw [hpc]; rfl) (by rw [hpc]; rfl)).silent
        (State.returns_other (by simp [State.finish]))
    · refine (h.drainFrame (by rw [hpc]; rfl) ?_ ?_).silent (State.returns_busy ?_)
      · rw [hpc]
        exact hbatch
      · rw [hpc, huncounted]
        rfl
      · rcases drainNext_eq maximum.toNat [] with heq | heq <;> simp [heq]
  | drainDelivered left batch =>
    obtain ⟨hbatch, huncounted⟩ := drainNext_batch (left - 1) batch
    simp only [rubyStep, hpc, Option.some.injEq] at hstep
    subst hstep
    refine (h.drainFrame (by rw [hpc]; rfl) ?_ ?_).silent (State.returns_busy ?_)
    · rw [hpc]
      exact hbatch
    · rw [hpc, huncounted]
      rfl
    · rcases drainNext_eq (left - 1) batch with heq | heq <;> simp [heq]
  | drainClear batch | drainDepth batch =>
    simp only [rubyStep, hpc, Option.some.injEq] at hstep
    subst hstep
    exact (h.drainFrame (by rw [hpc]; rfl) (by rw [hpc]; rfl) (by rw [hpc]; rfl)).silent
      (State.returns_busy (by simp))
  | drainDequeue left batch pc =>
    simp only [rubyStep, hpc] at hstep
    cases hres : s.queue.dequeue i.spurious pc with
    | running | none =>
      simp only [hres, Option.some.injEq] at hstep
      subst hstep
      exact (h.drainFrame (by rw [hpc]; rfl) (by rw [hpc]; rfl) (by rw [hpc]; rfl)).silent
        (State.returns_busy (by simp))
    | got p =>
      simp only [hres, Option.some.injEq] at hstep
      subst hstep
      exact (h.drainTake hslots hpc hres).silent (State.returns_busy (by simp))
  | drainDepthDequeue batch enqueued =>
    simp only [rubyStep, hpc] at hstep
    split_ifs at hstep <;> cases hstep
    · exact (h.drainFrame (by rw [hpc]; rfl) (by rw [hpc]; rfl) (by rw [hpc]; rfl)).silent
        (State.returns_busy (by simp))
    · exact ⟨n, h.drainReturn batch (by rw [hpc]; rfl) (by rw [hpc]; rfl)
        (by simp [State.returns, hpc, State.finish])⟩
  | notify caller =>
    simp only [rubyStep, hpc] at hstep
    cases caller with
    | drain batch =>
      split_ifs at hstep <;> cases hstep
      · exact ⟨n, h.drainReturn batch (by rw [hpc]; rfl) (by rw [hpc]; rfl)
          (by simp [State.returns, State.notifyReturn, hpc, State.finish])⟩
      · exact (h.drainFrame (by rw [hpc]; rfl) (by rw [hpc]; rfl) (by rw [hpc]; rfl)).silent
          (State.returns_busy (by simp))
    | wake | close =>
      split_ifs at hstep <;> cases hstep
      · exact (h.rubyAside (by rw [hpc]; exact ⟨rfl, rfl⟩) ⟨rfl, rfl⟩ rfl).silent
          (State.returns_other (by simp [State.notifyReturn, State.finish]))
      · exact (h.rubyAside (by rw [hpc]; exact ⟨rfl, rfl⟩) ⟨rfl, rfl⟩ rfl).silent
          (State.returns_busy (by simp))
  | notifyWrite caller =>
    simp only [rubyStep, hpc, Option.some.injEq] at hstep
    subst hstep
    cases caller with
    | drain batch =>
      exact ⟨n, h.drainReturn batch (by rw [hpc]; rfl) (by rw [hpc]; rfl)
        (by simp [State.returns, State.notifyReturn, hpc, State.finish, State.writePipe])⟩
    | wake | close =>
      exact (h.rubyAside (by rw [hpc]; exact ⟨rfl, rfl⟩) ⟨rfl, rfl⟩ rfl).silent
        (State.returns_other (by simp [State.notifyReturn, State.finish]))
  | respondClosed p caller =>
    simp only [rubyStep, hpc] at hstep
    split_ifs at hstep <;> cases hstep
    · exact h.respondReturn (by rw [hpc]; exact ⟨rfl, rfl⟩)
    · exact (h.rubyAside (by rw [hpc]; exact ⟨rfl, rfl⟩) ⟨rfl, rfl⟩ rfl).silent
        (State.returns_busy (by simp))
  | respondExchange p caller =>
    simp only [rubyStep, hpc] at hstep
    split_ifs at hstep <;> cases hstep
    · exact (h.rubyAside (by rw [hpc]; exact ⟨rfl, rfl⟩) ⟨rfl, rfl⟩ rfl).silent
        (State.returns_busy (by simp))
    · exact h.respondReturn (by rw [hpc]; exact ⟨rfl, rfl⟩)
  | respondSend p caller =>
    simp only [rubyStep, hpc, Option.some.injEq] at hstep
    subst hstep
    exact h.respondReturn (by rw [hpc]; exact ⟨rfl, rfl⟩)
  | disarm | releaseMessage | queueDisarm | stopWatchdog | closeSend | closeMessage | answerSend
  | storeDeleteReady =>
    simp only [rubyStep, hpc, Option.some.injEq] at hstep
    subst hstep
    exact (h.rubyAside (by rw [hpc]; exact ⟨rfl, rfl⟩) ⟨rfl, rfl⟩ rfl).silent
      (State.returns_busy (by simp))
  | awaitReaders | queueAwait | awaitCallbacks =>
    simp only [rubyStep, hpc, Option.some.injEq] at hstep
    subst hstep
    split_ifs
    · exact h.silent (State.returns_busy (by simp [hpc]))
    · exact (h.rubyAside (by rw [hpc]; exact ⟨rfl, rfl⟩) ⟨rfl, rfl⟩ rfl).silent
        (State.returns_busy (by simp))
  | awaitWatchdog | join =>
    simp only [rubyStep, hpc, Option.some.injEq] at hstep
    subst hstep
    split_ifs
    · exact (h.rubyAside (by rw [hpc]; exact ⟨rfl, rfl⟩) ⟨rfl, rfl⟩ rfl).silent
        (State.returns_busy (by simp))
    · exact h.silent (State.returns_busy (by simp [hpc]))
  | queueStore p caller =>
    simp only [rubyStep, hpc] at hstep
    cases caller <;> cases hstep
    · exact (h.rubyAside (by rw [hpc]; exact ⟨rfl, rfl⟩) ⟨rfl, rfl⟩ rfl).silent
        (State.returns_other (by simp [State.releaseReturn, State.finish]))
    · exact (h.rubyAside (by rw [hpc]; exact ⟨rfl, rfl⟩) ⟨rfl, rfl⟩ rfl).silent
        (State.returns_busy (by simp))
  | answerOccupied | answerExchange | closeExchange =>
    simp only [rubyStep, hpc] at hstep
    split_ifs at hstep <;> cases hstep <;>
      exact (h.rubyAside (by rw [hpc]; exact ⟨rfl, rfl⟩) ⟨rfl, rfl⟩ rfl).silent
        (State.returns_busy (by simp))
  | closeDequeue pc =>
    have hclosed : s.closed := hclosing.closed (by simp [hpc, RubyPc.closeStage])
    simp only [rubyStep, hpc] at hstep
    cases hres : s.queue.dequeue i.spurious pc with
    | running | none =>
      simp only [hres, Option.some.injEq] at hstep
      subst hstep
      exact (h.rubyAside (by rw [hpc]; exact ⟨rfl, rfl⟩) ⟨rfl, rfl⟩ rfl).silent
        (State.returns_busy (by simp))
    | got p =>
      -- `close` dequeues, too, but what it dequeues is returned to nobody
      obtain ⟨rfl, -⟩ := hslots.dequeued (by rw [hpc]; rfl) hres
      simp only [hres, Option.some.injEq] at hstep
      subst hstep
      refine (h.rubyCalm (by rw [hpc]; exact ⟨rfl, rfl⟩) ⟨rfl, rfl⟩ (by rintro ⟨⟩)
        (Nat.le_succ _) fun hopen => ?_).silent (State.returns_busy (by simp))
      exact absurd hclosed (by simpa using hopen)

/-! ## Runs -/

/-- The other threads return nothing to Ruby. -/
theorem State.returns_same (hruby : s'.ruby = s.ruby) : s.returns s' = none := by
  by_cases hidle : s.ruby = .idle
  · simp [returns, hidle]
  · exact returns_busy (by rwa [hruby])

/-- The messages of a run's batches are those of its first positions. -/
theorem run_delivered {as : List Action} (hrun : run (step cfg) as (.init cfg) = some s) :
    ∃ n, Delivered s (batches cfg as (.init cfg)) n := by
  apply outputs_invariant (I := fun s returned => ∃ n, Delivered s returned n) hrun
    ⟨0, delivered_init cfg⟩
  rintro s a s' returned hs ⟨n, h⟩ hstep
  have hslots := reachable_slots hs
  cases a with
  | callback k input =>
    obtain ⟨hdequeue, hdelivered⟩ := callbackStep_dequeued hstep
    have hbackground := callbackStep_records hstep
    exact (h.background hslots hbackground hdequeue hdelivered
      fun p hp => callbackStep_owner hslots hstep hp).silent (State.returns_same hbackground.ruby)
  | watchdog input =>
    obtain ⟨hdequeue, hdelivered, howner⟩ := watchdogStep_dequeued hstep
    have hbackground := watchdogStep_records hstep
    exact (h.background hslots hbackground hdequeue hdelivered
      fun p _ => by rw [howner]).silent (State.returns_same hbackground.ruby)
  | call call => exact ⟨n, callStep_delivered h hstep⟩
  | ruby input => exact rubyStep_delivered hslots (reachable_closing hs) h hstep

/-- A callback keeps the position that it has claimed. -/
theorem callbackStep_position (hstep : callbackStep cfg k i s = some s')
    (hp : (s.callback k).position = some p) : (s'.callback k).position = some p := by
  cases hpc : s.callback k with
  | absent | loadClosed | refuse | retain | enqueue | overflow | drop =>
    simp [hpc, CallbackPc.position] at hp
  | fill | publishRequest | respond | loadDequeue | loadDepthMax | storeSequence | notifyWrite =>
    simp only [callbackStep, hpc, Option.some.injEq] at hstep
    subst hstep
    simpa [hpc, CallbackPc.position] using hp
  | leave outcome =>
    simp only [callbackStep, hpc, Option.some.injEq] at hstep
    subst hstep
    cases outcome with
    | refused | dropped => simp [hpc, CallbackPc.position] at hp
    | queued q => simpa [hpc, CallbackPc.position] using hp
  | storeOccupied q =>
    simp only [callbackStep, hpc, Option.some.injEq] at hstep
    subst hstep
    cases hauth : (cfg.arrivals k).isAuth <;> simpa [hpc, hauth, CallbackPc.position] using hp
  | arm q pc =>
    simp only [callbackStep, hpc] at hstep
    cases hres : s.requests.arm i.spurious pc <;>
      simp only [hres, Option.some.injEq] at hstep <;> subst hstep <;>
      simpa [hpc, CallbackPc.position] using hp
  | answer | notify | raiseDepthMax =>
    simp only [callbackStep, hpc] at hstep
    split_ifs at hstep <;> cases hstep <;> simpa [hpc, CallbackPc.position] using hp
  | returned => simp [callbackStep, hpc] at hstep

/-- No step takes a position away from the callback that has claimed it. -/
theorem step_position {a : Action} (hstep : step cfg a s = some s')
    (hp : (s.callback k).position = some p) : (s'.callback k).position = some p := by
  cases a with
  | callback j input =>
    rcases eq_or_ne k j with rfl | hne
    · exact callbackStep_position hstep hp
    · obtain ⟨-, -, -, -, hother⟩ := callbackStep_steady hstep
      rwa [hother k hne]
  | watchdog input => rwa [(watchdogStep_steady hstep).callback]
  | call call => rwa [(callStep_aside hstep).callback]
  | ruby input => rwa [(rubyStep_aside hstep).callback]

/-- A callback that claims its position later claims a later position. -/
theorem claimed_later {as : List Action} {j q : Nat} (hs : Reachable (step cfg) (.init cfg) s)
    (hrun : run (step cfg) as s = some s') (hp : (s.callback k).position = some p)
    (hnone : (s.callback j).position = none) (hq : (s'.callback j).position = some q) : p < q := by
  have hslots := reachable_slots hs
  have hslots' := reachable_slots (hs.run hrun)
  have hclaimed := (hslots.callbacks.position k p hp).1
  have hlt : p < s.queue.enqueuePosition :=
    Nat.lt_of_not_le fun hle => hclaimed (Stage.unclaimed_of_phase
      ((hslots.slots.ring.unclaimed p).mpr hle))
  refine Nat.lt_of_lt_of_le hlt (Nat.le_of_not_lt fun hlt' => ?_)
  -- What had been claimed before belongs to another callback for good
  have hclaimed' : s.history.stage q ≠ .unclaimed := by
    intro hunclaimed
    -- The claimed positions are an initial segment, and `q` was in it
    have := (hslots.slots.ring.unclaimed q).mp (by simp only [hunclaimed]; rfl)
    exact absurd hlt' (Nat.not_lt.mpr this)
  have hholder := hslots.callbacks.claimed q hclaimed'
  have hkept : ∀ (as : List Action) (t : State), run (step cfg) as t = some s' →
      (t.callback (s.history.owner q)).position = some q →
      (s'.callback (s.history.owner q)).position = some q := by
    intro as
    induction as with
    | nil =>
      rintro t ⟨⟩ ht
      exact ht
    | cons a as ih =>
      intro t hrun ht
      obtain ⟨t', hstep, hrun⟩ := Option.bind_eq_some_iff.mp hrun
      exact ih t' hrun (step_position hstep ht)
  have howner := (hslots'.callbacks.position _ q (hkept as s hrun hholder)).2
  have howner' := (hslots'.callbacks.position j q hq).2
  rw [← howner'.symm.trans howner] at hholder
  rw [hnone] at hholder
  cases hholder

/-- In every run, cut anywhere in two:
    - the batches that the drains return, one after another and with the one that is being
      collected, are the messages of the first `n` positions in the order of the positions, each
      once; as long as the client has not been closed, `n` counts all that has been dequeued;
    - `delivered` counts them;
    - message `k` of a callback that has claimed position `p` comes in place `p`;
    - a callback that has claimed its position before the cut comes before one that has not. -/
theorem delivered_in_order {before after : List Action} {t : State}
    (hbefore : run (step cfg) before (.init cfg) = some t)
    (hafter : run (step cfg) after t = some s) :
    (∃ n ≤ s.queue.dequeuePosition,
      (batches cfg (before ++ after) (.init cfg)).flatten ++ s.ruby.batch.map s.history.owner =
        s.firstMessages n ∧
      (s.firstMessages n).Nodup ∧ s.stats.delivered + s.ruby.uncounted = n ∧
      (s.closed = false → n = s.queue.dequeuePosition) ∧
      ∀ k p, (s.callback k).position = some p → p < n → (s.firstMessages n)[p]? = some k) ∧
    ∀ j k p q, (t.callback j).position = some p → (t.callback k).position = none →
      (s.callback k).position = some q → p < q := by
  have hrun : run (step cfg) (before ++ after) (.init cfg) = some s := by
    rw [TransitionSystem.run_append, hbefore, Option.bind_some, hafter]
  have ht : Reachable (step cfg) (.init cfg) t := .of_run hbefore
  obtain ⟨n, h⟩ := run_delivered hrun
  have hslots := reachable_slots (.of_run hrun)
  -- Whatever has been returned has a callback that has claimed it
  have hclaimed : ∀ p, p < n → s.history.stage p ≠ .unclaimed := by
    intro p hp hunclaimed
    have hle := (hslots.slots.ring.unclaimed p).mp (by simp only [hunclaimed]; rfl)
    have hdeq := hslots.slots.ring.deq_le
    have hn := h.dequeued
    simp only [Queue.ring_enq, Queue.ring_deq] at hle hdeq
    omega
  refine ⟨⟨n, h.dequeued, h.inOrder, ?_, h.counted, h.all, fun k p hp hlt => ?_⟩,
    fun j k p q hp hnone hq => claimed_later ht hafter hp hnone hq⟩
  -- Two positions with one owner are the position that this callback has claimed
  · refine List.Nodup.map_on (fun p hp q hq heq => ?_) List.nodup_range
    have hp' := hslots.callbacks.claimed p (hclaimed p (List.mem_range.mp hp))
    have hq' := hslots.callbacks.claimed q (hclaimed q (List.mem_range.mp hq))
    rw [heq, hq'] at hp'
    exact (Option.some.inj hp').symm
  · have howner := (hslots.callbacks.position k p hp).2
    simp [State.firstMessages, hlt, howner]

/-- Two messages are queued; one drain has returned the first, and another is on its way. -/
def drainTwice : List Action × List Action :=
  (callbackSteps 1 15 ++ [Action.call (.drain 1)] ++ List.replicate 9 (Action.ruby {}),
    callbackSteps 3 15 ++ [Action.call (.drain 1)] ++ List.replicate 5 (Action.ruby {}))

theorem delivered_in_order_twice :
    let t := TransitionSystem.final (step smallClient) drainTwice.1 (.init smallClient)
      (by decide +kernel)
    let s := TransitionSystem.final (step smallClient) drainTwice.2 t (by decide +kernel)
    ∃ n ≤ s.queue.dequeuePosition,
      (batches smallClient (drainTwice.1 ++ drainTwice.2) (.init smallClient)).flatten ++
        s.ruby.batch.map s.history.owner = s.firstMessages n := by
  intro t s
  obtain ⟨⟨n, hn, hinOrder, -⟩, -⟩ := @delivered_in_order smallClient s _ _ t
    (Option.some_get _).symm (Option.some_get _).symm
  exact ⟨n, hn, hinOrder⟩

end EndpointSecurity
