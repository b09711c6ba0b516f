import EndpointSecurity.ForStd.TransitionSystem
import EndpointSecurity.Native.ClientThreads

/-!
# The slots of a client

A slot is used over and over again; the history keeps one record for each position that ever
lived in it. The invariant of this file says that the slot of a position in use is a faithful
copy of that record, and which thread may move a position on to its next stage.

## Key results

- `SlotsInv`: the slots agree with the history, and positions are held by one thread each
- `reachable_slots`: the invariant holds in every reachable state
-/

namespace EndpointSecurity

open SeqRing (Phase LoopPc Ring)
open TransitionSystem (Reachable)

/-! ## Who holds which position -/

/-- The position that a callback is working on, and the stage it has brought it to. -/
def CallbackPc.holds : CallbackPc → Option (Nat × Stage)
  | .fill p => some (p, .claimed)
  | .storeOccupied p => some (p, .filled)
  | .arm p _ | .publishRequest p _ | .answer p | .respond p | .loadDequeue p | .loadDepthMax p _
  | .raiseDepthMax p _ _ | .storeSequence p => some (p, .marked)
  | .absent | .loadClosed | .refuse | .retain | .enqueue _ | .overflow | .drop | .notify _
  | .notifyWrite _ | .leave _ | .returned _ => none

/-- The position that a callback has claimed, once it has. -/
def CallbackPc.position : CallbackPc → Option Nat
  | .fill p | .storeOccupied p | .arm p _ | .publishRequest p _ | .answer p | .respond p
  | .loadDequeue p | .loadDepthMax p _ | .raiseDepthMax p _ _ | .storeSequence p | .notify p
  | .notifyWrite p | .leave (.queued p) | .returned (.queued p) => some p
  | .absent | .loadClosed | .refuse | .retain | .enqueue _ | .overflow | .drop
  | .leave .refused | .leave .dropped | .returned .refused | .returned .dropped => none

/-- The position that a native method is working on, and the stage it is in. -/
def RubyPc.holds : RubyPc → Option (Nat × Stage)
  | .respondClosed p _ | .respondExchange p _ | .respondSend p _ | .disarm p _ =>
    some (p, .taken)
  | .awaitReaders p _ | .releaseMessage p _ => some (p, .disarmed)
  | .queueDisarm p _ => some (p, .unreferenced)
  | .queueAwait p _ | .queueStore p _ => some (p, .cleared)
  | .closeExchange p | .closeSend p | .closeMessage p => some (p, .drained)
  | .idle | .drainRead _ | .drainDequeue _ _ _ | .drainDelivered _ _ | .drainClear _
  | .drainDepth _ | .drainDepthDequeue _ _ | .notify _ | .notifyWrite _ | .awaitCallbacks
  | .stopWatchdog | .awaitWatchdog | .answerOccupied _ | .answerExchange _ | .answerSend _
  | .closeDequeue _ | .storeDeleteReady | .join => none

/-- The position whose wrapper `message_release` is about to invalidate, once it is past
    answering it. -/
def RubyPc.releasing : RubyPc → Option Nat
  | .awaitReaders p _ | .releaseMessage p _ | .queueDisarm p (.release _)
  | .queueAwait p (.release _) | .queueStore p (.release _) => some p
  | _ => none

/-- The dequeueing loop that a native method is in. -/
def RubyPc.taking : RubyPc → Option LoopPc
  | .drainDequeue _ _ pc | .closeDequeue pc => some pc
  | _ => none

/-- Held by the callback that has claimed the position. -/
def Stage.held : Stage → Bool
  | .claimed | .filled | .marked => true
  | _ => false

/-- Held by a native method. -/
def Stage.worked : Stage → Bool
  | .drained | .disarmed | .unreferenced | .cleared => true
  | _ => false

/-- Each callback claims one position at most, and holds it until it publishes it. -/
structure CallbacksOk (stage : Nat → Stage) (owner : Nat → Nat) (callback : Nat → CallbackPc) :
    Prop where
  position : ∀ k p, (callback k).position = some p → stage p ≠ .unclaimed ∧ owner p = k
  claimed : ∀ p, stage p ≠ .unclaimed → (callback (owner p)).position = some p
  holds : ∀ k p st, (callback k).holds = some (p, st) → stage p = st
  held : ∀ p, (stage p).held → (callback (owner p)).holds = some (p, stage p)

/-- A native method holds the position that it is working on, and the wrappers that are valid
    are those of the positions in Ruby's hands. -/
structure RubyOk (stage : Nat → Stage) (wrapper : Nat → Wrapper) (ruby : RubyPc) : Prop where
  holds : ∀ p st, ruby.holds = some (p, st) → stage p = st
  held : ∀ p, (stage p).worked → ruby.holds = some (p, stage p)
  taken : ∀ p, stage p = .taken → (wrapper p).valid
  releasing : ∀ p, ruby.releasing = some p → (wrapper p).valid
  valid : ∀ p, (wrapper p).valid → stage p = .taken ∨ ruby.releasing = some p

/-- A slot agrees with the record of position `p`, as far as its stage goes. -/
structure SlotOk (cfg : Config) (slot : Slot) (p : Nat) (st : Stage) (owner fireAt : Nat) :
    Prop where
  position : st.phase.active → slot.position = p
  full : st.full → slot.message = owner ∧ slot.client = (cfg.arrivals owner).client ∧
    slot.fireAt = fireAt
  answer : st.full → (slot.answerState = .notAuth ↔ cfg.isAuth owner = false)
  occupied : st.occupied → slot.occupied

/-- Nothing is said about the slot of a position that is not in use. -/
theorem SlotOk.inactive {cfg : Config} {slot : Slot} {p owner fireAt : Nat} {st : Stage}
    (h : st.phase.active = false) : SlotOk cfg slot p st owner fireAt := by
  have hfull : st.full = false := by cases st <;> first | rfl | contradiction
  have hocc : st.occupied = false := by cases st <;> first | rfl | contradiction
  exact ⟨by simp [h], by simp [hfull], by simp [hfull], by simp [hocc]⟩

/-- The slots agree with the record of the positions in use. -/
structure SlotsOk (cfg : Config) (q : Queue) (stage : Nat → Stage) (owner fireAt : Nat → Nat) :
    Prop where
  capacity : q.capacity = cfg.capacity.val
  ring : SeqRing.Inv q.ring fun p => (stage p).phase
  slot : ∀ p, SlotOk cfg (q.slot p) p (stage p) (owner p) (fireAt p)
  occupant : ∀ i, (q.slots i).occupied →
    ∃ p, q.index p = i ∧ ((stage p).occupied ∨ stage p = .unreferenced)

/-- The invariant of every run. -/
structure SlotsInv (cfg : Config) (s : State) : Prop where
  slots : SlotsOk cfg s.queue s.history.stage s.history.owner s.history.fireAt
  callbacks : CallbacksOk s.history.stage s.history.owner s.callback
  claiming : ∀ k pc, s.callback k = .enqueue pc → s.queue.ring.ClaimOk pc
  taking : ∀ pc, s.ruby.taking = some pc → s.queue.ring.TakeOk pc
  ruby : RubyOk s.history.stage s.wrapper s.ruby

theorem slotsInv_init (cfg : Config) : SlotsInv cfg (.init cfg) where
  slots := {
    capacity := rfl
    ring := SeqRing.Inv.empty cfg.capacity.pow cfg.capacity.two_le
    slot _ := .inactive rfl
    occupant := by simp [State.init, Queue.init] }
  callbacks := ⟨by simp [State.init, CallbackPc.position], by simp [State.init, History.init],
    by simp [State.init, CallbackPc.holds], by simp [State.init, History.init, Stage.held]⟩
  claiming := by simp [State.init]
  taking := by simp [State.init, RubyPc.taking]
  ruby := ⟨by simp [State.init, RubyPc.holds], by simp [State.init, History.init, Stage.worked],
    by simp [State.init, History.init], by simp [State.init, RubyPc.releasing],
    by simp [State.init]⟩

/-! ## What each operation does to the slots -/

@[simp] theorem Stage.held_iff (st : Stage) :
    st.held ↔ st = .claimed ∨ st = .filled ∨ st = .marked := by
  cases st <;> simp [held]

@[simp] theorem Stage.worked_iff (st : Stage) :
    st.worked ↔ st = .drained ∨ st = .disarmed ∨ st = .unreferenced ∨ st = .cleared := by
  cases st <;> simp [worked]

theorem Stage.active_of_occupied {st : Stage} (h : st.occupied ∨ st = .unreferenced) :
    st.phase.active := by
  cases st <;> simp_all [occupied, phase, Phase.active]

theorem Stage.unclaimed_of_phase {st : Stage} (h : st.phase = .unclaimed) : st = .unclaimed := by
  cases st <;> simp_all [phase]

/-- The phases of the positions after one of them has entered a stage. -/
theorem phase_update (stage : Nat → Stage) (p : Nat) (st : Stage) :
    (fun r => (Function.update stage p st r).phase) =
      Function.update (fun r => (stage r).phase) p st.phase :=
  funext fun r => Function.apply_update (fun _ => Stage.phase) stage p st r

/-- What holds of the stage of a position still does when a position moves on, unless it is that
    one and its next stage is not like it. -/
theorem stage_update (P : Stage → Bool) {stage : Nat → Stage} {p r : Nat} {st : Stage}
    (hr : P (stage r)) (hst : P (stage p) → P st) : P (Function.update stage p st r) := by
  rcases eq_or_ne r p with rfl | hne
  · rw [Function.update_self]
    exact hst hr
  · rwa [Function.update_of_ne hne]

namespace SlotsOk

variable {cfg : Config} {q q' : Queue} {stage stage' : Nat → Stage}
  {owner owner' fireAt fireAt' : Nat → Nat} {p : Nat} {st : Stage}

theorem index_lt (h : SlotsOk cfg q stage owner fireAt) (p : Nat) : q.index p < q.capacity := by
  have hpos := h.ring.two_le
  rw [Queue.ring_capacity] at hpos
  rw [← Queue.ring_index, Ring.index_eq_mod h.ring.pow]
  exact Nat.mod_lt _ (Nat.lt_of_lt_of_le Nat.two_pos hpos)

/-- Nobody has claimed the next position yet. -/
theorem next_unclaimed (h : SlotsOk cfg q stage owner fireAt) :
    stage q.enqueuePosition = .unclaimed :=
  Stage.unclaimed_of_phase ((h.ring.unclaimed _).mpr (Nat.le_refl _))

/-- The position of an occupied slot. -/
theorem occupied_position (h : SlotsOk cfg q stage owner fireAt) {i : Nat}
    (hocc : (q.slots i).occupied) : q.index (q.slots i).position = i ∧
      ((stage (q.slots i).position).occupied ∨ stage (q.slots i).position = .unreferenced) := by
  obtain ⟨p, rfl, hp⟩ := h.occupant i hocc
  have hpos : (q.slots (q.index p)).position = p :=
    (h.slot p).position (Stage.active_of_occupied hp)
  rw [hpos]
  exact ⟨rfl, hp⟩

/-- A position in use whose slot is not shared with any other changes, and its slot with it. -/
theorem update (h : SlotsOk cfg q stage owner fireAt) (p : Nat)
    (hcap : q'.capacity = q.capacity)
    (hring : SeqRing.Inv q'.ring fun r => (stage' r).phase)
    (hslots : ∀ i, i ≠ q.index p → q'.slots i = q.slots i)
    (halone : ∀ r, r ≠ p → (stage r).phase.active → q.index r ≠ q.index p)
    (hother : ∀ r, r ≠ p → stage' r = stage r ∧ owner' r = owner r ∧ fireAt' r = fireAt r)
    (hself : SlotOk cfg (q'.slot p) p (stage' p) (owner' p) (fireAt' p))
    (hocc : (q'.slot p).occupied → (stage' p).occupied ∨ stage' p = .unreferenced) :
    SlotsOk cfg q' stage' owner' fireAt' := by
  have hindex : ∀ r, q'.index r = q.index r := fun r => by
    simp only [Queue.index, Queue.mask, hcap]
  refine ⟨hcap.trans h.capacity, hring, fun r => ?_, fun i hi => ?_⟩
  · rcases eq_or_ne r p with rfl | hne
    · exact hself
    · obtain ⟨hst, hown, hfire⟩ := hother r hne
      rw [hst, hown, hfire]
      by_cases hact : (stage r).phase.active
      · have heq : q'.slot r = q.slot r := by
          simp only [Queue.slot, hindex]
          exact hslots _ (halone r hne hact)
        rw [heq]
        exact h.slot r
      · -- The slot may have passed to another position by now
        exact .inactive (Bool.eq_false_iff.mpr hact)
  · by_cases heq : i = q.index p
    · subst heq
      exact ⟨p, hindex p, hocc (by simpa only [Queue.slot, hindex] using hi)⟩
    · rw [hslots i heq] at hi
      obtain ⟨r, rfl, hr⟩ := h.occupant i hi
      have hne : r ≠ p := fun hrp => heq (by rw [hrp])
      exact ⟨r, hindex r, by rwa [(hother r hne).1]⟩

/-- The slot of a position in use is not shared. -/
theorem alone (h : SlotsOk cfg q stage owner fireAt) (hp : (stage p).phase.active) :
    ∀ r, r ≠ p → (stage r).phase.active → q.index r ≠ q.index p :=
  fun _ hne hr heq => hne (h.ring.active_unique hr hp heq)

/-- The holder of a position writes to its slot and moves it on to another stage, without
    touching the sequence word. -/
theorem move (h : SlotsOk cfg q stage owner fireAt) {f : Slot → Slot}
    (hp : (stage p).phase.active) (hphase : st.phase = (stage p).phase)
    (hseq : ∀ s, (f s).sequence = s.sequence)
    (hfire : ∀ r, r ≠ p → fireAt' r = fireAt r)
    (hself : SlotOk cfg (f (q.slot p)) p st (owner p) (fireAt' p))
    (hocc : (f (q.slot p)).occupied → st.occupied ∨ st = .unreferenced) :
    SlotsOk cfg (q.modify (q.index p) f) (Function.update stage p st) owner fireAt' := by
  apply h.update p
  · rfl
  · rw [q.ring_modify _ (hseq _), phase_update, hphase, Function.update_eq_self]
    exact h.ring
  · exact fun i hi => Function.update_of_ne hi ..
  · exact h.alone hp
  · exact fun r hne => ⟨Function.update_of_ne hne .., rfl, hfire r hne⟩
  · rwa [Queue.slot_modify_self, Function.update_self]
  · rwa [Queue.slot_modify_self, Function.update_self]

/-- The slot of a position in use is not marked as occupied in the other stages. -/
theorem unoccupied (h : SlotsOk cfg q stage owner fireAt) (hact : (stage p).phase.active)
    (hst : (stage p).occupied = false) (hne : stage p ≠ .unreferenced) :
    (q.slot p).occupied = false := by
  by_contra hocc
  obtain ⟨r, hr, hst'⟩ := h.occupant (q.index p) (Bool.not_eq_false _ ▸ hocc)
  cases h.ring.active_unique (Stage.active_of_occupied hst') hact hr
  simp [hst, hne] at hst'

/-- The claimer fills its slot. -/
theorem fill (h : SlotsOk cfg q stage owner fireAt) (hp : stage p = .claimed) {fire : Nat}
    {answerState : AnswerState}
    (hanswer : answerState = .notAuth ↔ cfg.isAuth (owner p) = false) :
    SlotsOk cfg
      ((q.storeFields p (owner p) (cfg.arrivals (owner p)).client fire).storeAnswerState
        (q.index p) answerState)
      (Function.update stage p .filled) owner (Function.update fireAt p fire) := by
  have hact : (stage p).phase.active := by rw [hp]; rfl
  have hocc := h.unoccupied hact (by rw [hp]; rfl) (by rw [hp]; simp)
  rw [Queue.storeFields, Queue.storeAnswerState, Queue.modify_modify]
  apply h.move hact
  · rw [hp]
    rfl
  · exact fun _ => rfl
  · exact fun r hne => Function.update_of_ne hne ..
  · exact ⟨fun _ => (h.slot p).position hact, fun _ => ⟨rfl, rfl, by simp⟩, fun _ => hanswer,
      by simp [Stage.occupied]⟩
  · intro hocc'
    exact absurd hocc (by simpa using hocc')

/-- The claimer marks its slot as occupied. -/
theorem mark (h : SlotsOk cfg q stage owner fireAt) (hp : stage p = .filled) :
    SlotsOk cfg (q.storeOccupied p true) (Function.update stage p .marked) owner fireAt := by
  have hslot := h.slot p
  rw [hp] at hslot
  apply h.move
  · rw [hp]
    rfl
  · rw [hp]
    rfl
  · exact fun _ => rfl
  · exact fun _ _ => rfl
  · exact ⟨fun _ => hslot.position rfl, fun _ => hslot.full rfl, fun _ => hslot.answer rfl,
      fun _ => rfl⟩
  · exact fun _ => .inl rfl

/-- Anybody changes the readers of a slot, or its answer state if that does not change whether
    there is something to answer. -/
theorem touch (h : SlotsOk cfg q stage owner fireAt) {i : Nat} (answerState : Slot → AnswerState)
    (readers : Slot → Nat)
    (hanswer : answerState (q.slots i) = .notAuth ↔ (q.slots i).answerState = .notAuth) :
    SlotsOk cfg
      (q.modify i fun s => { s with answerState := answerState s, readers := readers s })
      stage owner fireAt := by
  refine ⟨h.capacity, ?_, fun p => ?_, fun j hj => h.occupant j ?_⟩
  · rw [Queue.ring_modify _ _ rfl]
    exact h.ring
  · have hp := h.slot p
    rw [Queue.slot] at hp ⊢
    change SlotOk cfg ((Queue.modify ..).slots (q.index p)) ..
    rw [Queue.slots_modify]
    -- The slot of this position, or another one
    split_ifs with heq
    · rw [heq] at hp
      exact ⟨hp.position, hp.full, fun hst => hanswer.trans (hp.answer hst), hp.occupied⟩
    · exact hp
  · rw [Queue.slots_modify] at hj
    split_ifs at hj with heq
    · rwa [heq]
    · exact hj

/-- A claim, when the slot of the next position is ready. -/
theorem claim (h : SlotsOk cfg q stage owner fireAt) (k : Nat)
    (hseq : (q.slot q.enqueuePosition).sequence = q.enqueuePosition) :
    SlotsOk cfg ((q.advanceEnqueue q.enqueuePosition).storePosition q.enqueuePosition)
      (Function.update stage q.enqueuePosition .claimed)
      (Function.update owner q.enqueuePosition k) fireAt := by
  have hfree : ∀ r, (stage r).phase.active → q.index r ≠ q.index q.enqueuePosition :=
    fun r hr => h.ring.ready_free hseq hr
  apply h.update q.enqueuePosition
  · rfl
  · rw [Queue.ring_storePosition, Queue.ring_advanceEnqueue, phase_update]
    exact h.ring.claim hseq
  · exact fun i hi => Function.update_of_ne hi ..
  · exact fun r _ hr => hfree r hr
  · exact fun r hne => ⟨Function.update_of_ne hne .., Function.update_of_ne hne .., rfl⟩
  · rw [Queue.storePosition, Queue.slot_modify_self, Function.update_self]
    exact ⟨fun _ => rfl, by simp [Stage.full], by simp [Stage.full], by simp [Stage.occupied]⟩
  · rw [Queue.storePosition, Queue.slot_modify_self]
    intro hocc
    -- A marked slot has a position in use, but the ring says that this one is free.
    obtain ⟨r, hr, hst⟩ := h.occupant _ hocc
    exact absurd hr (hfree r (Stage.active_of_occupied hst))

/-- Exchanging an answer state from pending to answered. -/
theorem storeAnswered (h : SlotsOk cfg q stage owner fireAt) {i : Nat}
    (hpending : (q.slots i).answerState = .pending) :
    SlotsOk cfg (q.storeAnswerState i .answered) stage owner fireAt :=
  h.touch (fun _ => .answered) Slot.readers (by simp [hpending])

theorem storeReaders (h : SlotsOk cfg q stage owner fireAt) (i readers : Nat) :
    SlotsOk cfg (q.storeReaders i readers) stage owner fireAt :=
  h.touch Slot.answerState (fun _ => readers) Iff.rfl

theorem storeDepthMax (h : SlotsOk cfg q stage owner fireAt) (depth : Nat) :
    SlotsOk cfg (q.storeDepthMax depth) stage owner fireAt :=
  ⟨h.capacity, h.ring, h.slot, h.occupant⟩

/-- A publication by the claimer. -/
theorem publish (h : SlotsOk cfg q stage owner fireAt) (hp : stage p = .marked) :
    SlotsOk cfg (q.storePublished p) (Function.update stage p .queued) owner fireAt := by
  have hact : (stage p).phase.active := by rw [hp]; rfl
  have hslot := h.slot p
  rw [hp] at hslot
  apply h.update p
  · rfl
  · rw [Queue.ring_storePublished (hslot.position rfl), phase_update]
    exact h.ring.publish (by simp only [hp]; rfl)
  · exact fun i hi => Function.update_of_ne hi ..
  · exact h.alone hact
  · exact fun r hne => ⟨Function.update_of_ne hne .., rfl, rfl⟩
  · rw [Queue.storePublished, Queue.slot_modify_self, Function.update_self]
    exact ⟨fun _ => hslot.position rfl, fun _ => hslot.full rfl, fun _ => hslot.answer rfl,
      fun _ => hslot.occupied rfl⟩
  · rw [Function.update_self]
    exact fun _ => .inl rfl

/-- The next position is dequeued, when its slot says that it is published. -/
theorem take (h : SlotsOk cfg q stage owner fireAt) (hst : st = .taken ∨ st = .drained)
    (hseq : (q.slot q.dequeuePosition).sequence = q.dequeuePosition + 1) :
    stage q.dequeuePosition = .queued ∧ SlotsOk cfg (q.advanceDequeue q.dequeuePosition)
      (Function.update stage q.dequeuePosition st) owner fireAt := by
  have hpub := h.ring.filled_published hseq
  have hp : stage q.dequeuePosition = .queued := by
    -- `queued` is the only stage whose position the ring takes as published.
    cases hph : stage q.dequeuePosition <;> simp [hph, Stage.phase] at hpub ⊢
  have hslot := h.slot q.dequeuePosition
  rw [hp] at hslot
  refine ⟨hp, h.update q.dequeuePosition rfl ?_ (fun _ _ => rfl) (h.alone ?_) ?_ ?_ ?_⟩
  · rw [Queue.ring_advanceDequeue, phase_update]
    have hphase : st.phase = .taken := by rcases hst with rfl | rfl <;> rfl
    rw [hphase]
    exact h.ring.take hseq
  · rw [hp]
    rfl
  · exact fun r hne => ⟨Function.update_of_ne hne .., rfl, rfl⟩
  · rw [Function.update_self]
    exact ⟨fun _ => hslot.position rfl, fun _ => hslot.full rfl, fun _ => hslot.answer rfl,
      fun _ => hslot.occupied rfl⟩
  · rw [Function.update_self]
    exact fun _ => .inl (by rcases hst with rfl | rfl <;> rfl)

/-- `message_release` clears the mark of a slot that it is about to release. -/
theorem disarm (h : SlotsOk cfg q stage owner fireAt) (hp : stage p = .taken) :
    SlotsOk cfg (q.storeOccupied p false) (Function.update stage p .disarmed) owner fireAt := by
  have hslot := h.slot p
  rw [hp] at hslot
  exact h.move (by rw [hp]; rfl) (by rw [hp]; rfl) (fun _ => rfl) (fun _ _ => rfl)
    ⟨fun _ => hslot.position rfl, fun _ => hslot.full rfl, fun _ => hslot.answer rfl,
      by simp [Stage.occupied]⟩ (by simp)

/-- The message of a slot is released. -/
theorem unreference (h : SlotsOk cfg q stage owner fireAt)
    (hp : stage p = .disarmed ∨ stage p = .drained) :
    SlotsOk cfg q (Function.update stage p .unreferenced) owner fireAt := by
  have hact : (stage p).phase.active := by rcases hp with hp | hp <;> rw [hp] <;> rfl
  have hphase : Stage.unreferenced.phase = (stage p).phase := by
    rcases hp with hp | hp <;> rw [hp] <;> rfl
  have hslot := h.slot p
  -- No word of the queue changes: only the message has lost its reference.
  apply h.update p rfl
  · rw [phase_update, hphase, Function.update_eq_self]
    exact h.ring
  · exact fun _ _ => rfl
  · exact h.alone hact
  · exact fun r hne => ⟨Function.update_of_ne hne .., rfl, rfl⟩
  · rw [Function.update_self]
    have hfull : (stage p).full := by rcases hp with hp | hp <;> rw [hp] <;> rfl
    exact ⟨fun _ => hslot.position hact, fun _ => hslot.full hfull, fun _ => hslot.answer hfull,
      by simp [Stage.occupied]⟩
  · rw [Function.update_self]
    exact fun _ => .inr rfl

/-- `esrb_queue_release` clears the mark of a slot. -/
theorem clear (h : SlotsOk cfg q stage owner fireAt) (hp : stage p = .unreferenced) :
    SlotsOk cfg (q.storeOccupied p false) (Function.update stage p .cleared) owner fireAt := by
  have hslot := h.slot p
  rw [hp] at hslot
  exact h.move (by rw [hp]; rfl) (by rw [hp]; rfl) (fun _ => rfl) (fun _ _ => rfl)
    ⟨fun _ => hslot.position rfl, fun _ => hslot.full rfl, fun _ => hslot.answer rfl,
      by simp [Stage.occupied]⟩ (by simp)

/-- A release of a slot that is no longer marked as occupied. -/
theorem release (h : SlotsOk cfg q stage owner fireAt) (hp : stage p = .cleared) :
    SlotsOk cfg (q.storeReleased p) (Function.update stage p .released) owner fireAt := by
  have hact : (stage p).phase.active := by rw [hp]; rfl
  have hpos := (h.slot p).position hact
  have hocc := h.unoccupied hact (by rw [hp]; rfl) (by rw [hp]; simp)
  apply h.update p
  · rfl
  · rw [Queue.ring_storeReleased hpos, phase_update]
    exact h.ring.release (by simp only [hp]; rfl)
  · exact fun i hi => Function.update_of_ne hi ..
  · exact h.alone hact
  · exact fun r hne => ⟨Function.update_of_ne hne .., rfl, rfl⟩
  · rw [Function.update_self]
    exact .inactive rfl
  · rw [Queue.storeReleased, Queue.slot_modify_self]
    simp [hocc]

end SlotsOk

/-! ## What each operation does to the holders -/

/-- A callback that holds a position has claimed it. -/
theorem CallbackPc.position_of_holds {pc : CallbackPc} {p : Nat} {st : Stage}
    (h : pc.holds = some (p, st)) : pc.position = some p ∧ st.held := by
  cases pc <;> simp_all [CallbackPc.holds, CallbackPc.position]

namespace CallbacksOk

variable {stage : Nat → Stage} {owner : Nat → Nat} {callback : Nat → CallbackPc} {k p : Nat}
  {pc : CallbackPc} {st st' : Stage}

/-- A step of a callback that keeps its hold. -/
theorem frame (h : CallbacksOk stage owner callback) (hpos : pc.position = (callback k).position)
    (hholds : pc.holds = (callback k).holds) :
    CallbacksOk stage owner (Function.update callback k pc) := by
  have hpos' : ∀ j, (Function.update callback k pc j).position = (callback j).position := by grind
  have hholds' : ∀ j, (Function.update callback k pc j).holds = (callback j).holds := by grind
  exact ⟨by simpa only [hpos'] using h.position, by simpa only [hpos'] using h.claimed,
    by simpa only [hholds'] using h.holds, by simpa only [hholds'] using h.held⟩

/-- A callback claims a position. -/
theorem claim (h : CallbacksOk stage owner callback) (hfree : stage p = .unclaimed)
    (hnone : (callback k).position = none) :
    CallbacksOk (Function.update stage p .claimed) (Function.update owner p k)
      (Function.update callback k (.fill p)) := by
  have hholds : (callback k).holds = none := by
    cases hk : (callback k).holds with
    | none => rfl
    | some x => cases (hnone.symm.trans (CallbackPc.position_of_holds hk).1)
  obtain ⟨hposition, hclaimer, hholding, hholder⟩ := h
  -- The claimed position was nobody's, and the claimer had none.
  refine ⟨fun j r hj => ?_, fun r hr => ?_, fun j r st hj => ?_, fun r hr => ?_⟩
  · have := hposition j r
    grind [CallbackPc.position]
  · have := hclaimer r
    grind [CallbackPc.position]
  · have := hholding j r st
    have := fun x (hx : (callback j).holds = some (r, x)) => CallbackPc.position_of_holds hx
    grind [CallbackPc.holds]
  · have := hholder r
    grind [CallbackPc.holds]

/-- A callback moves the position that it holds on. -/
theorem move (h : CallbacksOk stage owner callback) (hholds : (callback k).holds = some (p, st))
    (hpos : pc.position = some p) (hst' : st' ≠ .unclaimed)
    (hpc : pc.holds = if st'.held then some (p, st') else none) :
    CallbacksOk (Function.update stage p st') owner (Function.update callback k pc) := by
  have hk := CallbackPc.position_of_holds hholds
  obtain ⟨hposition, hclaimer, hholding, hholder⟩ := h
  have hown := hposition k p hk.1
  -- Another callback cannot hold `p`: each position has one owner.
  refine ⟨fun j r hj => ?_, fun r hr => ?_, fun j r st hj => ?_, fun r hr => ?_⟩
  · have := hposition j r
    grind
  · have := hclaimer r
    grind
  · have := hholding j r st
    have := hposition j r
    have := fun x (hx : (callback j).holds = some (r, x)) => CallbackPc.position_of_holds hx
    grind
  · have := hholder r
    grind

/-- Another thread moves a position on that no callback holds. -/
theorem other (h : CallbacksOk stage owner callback) (hst : (stage p).held = false)
    (hclaimed : stage p ≠ .unclaimed) (hst' : st'.held = false) (hclaimed' : st' ≠ .unclaimed) :
    CallbacksOk (Function.update stage p st') owner callback := by
  obtain ⟨hposition, hclaimer, hholding, hholder⟩ := h
  refine ⟨fun j r hj => ?_, fun r hr => ?_, fun j r st hj => ?_, fun r hr => ?_⟩
  · have := hposition j r
    grind
  · have := hclaimer r
    grind
  · have := hholding j r st
    have := CallbackPc.position_of_holds hj
    grind
  · have := hholder r
    grind

end CallbacksOk

/-- A native method works on positions that have been dequeued. -/
theorem RubyPc.stage_of_holds {pc : RubyPc} {p : Nat} {st : Stage} (h : pc.holds = some (p, st)) :
    st = .taken ∨ st.worked := by
  cases pc <;> simp_all [RubyPc.holds]

/-- `message_release` works on the position whose wrapper it is about to invalidate. -/
theorem RubyPc.holds_of_releasing {pc : RubyPc} {p : Nat} (h : pc.releasing = some p) :
    ∃ st, pc.holds = some (p, st) ∧ st.worked := by
  cases pc with
  | queueDisarm r caller | queueAwait r caller | queueStore r caller =>
    cases caller <;> simp_all [releasing, holds]
  | _ => simp_all [releasing, holds]

namespace RubyOk

variable {stage : Nat → Stage} {wrapper : Nat → Wrapper} {ruby pc : RubyPc} {p : Nat}
  {st st' : Stage}

/-- A step of a native method that keeps its hold. -/
theorem frame (h : RubyOk stage wrapper ruby) (hholds : pc.holds = ruby.holds)
    (hrel : pc.releasing = ruby.releasing) : RubyOk stage wrapper pc :=
  ⟨by rw [hholds]; exact h.holds, by rw [hholds]; exact h.held, h.taken,
    by rw [hrel]; exact h.releasing, by rw [hrel]; exact h.valid⟩

/-- A callback moves a position on. -/
theorem other (h : RubyOk stage wrapper ruby) (htaken : stage p ≠ .taken)
    (hst' : st'.worked = false) (htaken' : st' ≠ .taken)
    (hholds : ∀ st, ruby.holds ≠ some (p, st)) :
    RubyOk (Function.update stage p st') wrapper ruby := by
  obtain ⟨hholding, hworked, htakenValid, hreleasing, hvalidTaken⟩ := h
  refine ⟨fun r st hr => ?_, fun r hr => ?_, fun r hr => ?_, hreleasing, fun r hr => ?_⟩
  · have := hholding r st hr
    grind
  · have := hworked r
    grind
  · have := htakenValid r
    grind
  · have := hvalidTaken r hr
    grind

/-- A method that works on no position, or on one that stays in the hands of its wrapper, goes
    on to do so. -/
theorem relax (h : RubyOk stage wrapper ruby)
    (hold : ∀ r st, ruby.holds = some (r, st) → st = .taken) (hrel : ruby.releasing = none)
    (hnew : ∀ r st, pc.holds = some (r, st) → st = .taken ∧ stage r = .taken)
    (hrel' : pc.releasing = none) : RubyOk stage wrapper pc := by
  obtain ⟨hholding, hworked, htakenValid, hreleasing, hvalidTaken⟩ := h
  refine ⟨fun r st hr => by grind, fun r hr => ?_, htakenValid, by simp [hrel'], fun r hr => ?_⟩
  · have := hold r (stage r) (hworked r hr)
    rw [this] at hr
    cases hr
  · have := hvalidTaken r hr
    grind

/-- A change to the wrappers that invalidates none of them. -/
theorem rewrap (h : RubyOk stage wrapper ruby) {wrapper' : Nat → Wrapper}
    (hvalid : ∀ r, (wrapper' r).valid = (wrapper r).valid) : RubyOk stage wrapper' ruby :=
  ⟨h.holds, h.held, by simpa only [hvalid] using h.taken, by simpa only [hvalid] using h.releasing,
    by simpa only [hvalid] using h.valid⟩

/-- `client_drain` dequeues a position and wraps it. -/
theorem take (h : RubyOk stage wrapper ruby) {w : Wrapper} (hw : w.valid)
    (hold : ruby.holds = none) (hrel : ruby.releasing = none)
    (hnew : pc.holds = none) (hrel' : pc.releasing = none) :
    RubyOk (Function.update stage p .taken) (Function.update wrapper p w) pc := by
  obtain ⟨hholding, hworked, htakenValid, hreleasing, hvalidTaken⟩ := h
  refine ⟨by simp [hnew], fun r hr => ?_, fun r hr => ?_, by simp [hrel'], fun r hr => ?_⟩
  · have := hworked r
    grind [Stage.worked]
  · have := htakenValid r
    grind
  · have := hvalidTaken r
    grind

/-- A native method moves the position that it works on to another stage, keeping hold of it. -/
theorem work (h : RubyOk stage wrapper ruby) (hst' : st'.worked)
    (hold : ruby.holds = some (p, stage p) ∨ ruby.holds = none ∧ stage p = .queued)
    (hnew : pc.holds = some (p, st'))
    (hrel : pc.releasing = if (wrapper p).valid then some p else none) :
    RubyOk (Function.update stage p st') wrapper pc := by
  obtain ⟨hholding, hworked, htakenValid, hreleasing, hvalidTaken⟩ := h
  have htaken : st' ≠ .taken := by rintro rfl; cases hst'
  have hrelease := fun r (hr : ruby.releasing = some r) => RubyPc.holds_of_releasing hr
  -- `p` was the position that was being worked on, or none was and `p` was queued.
  refine ⟨fun r st hr => by grind, fun r hr => ?_, fun r hr => ?_, fun r hr => ?_, fun r hr => ?_⟩
  · have := hworked r
    grind
  · have := htakenValid r
    grind
  · grind
  · have := hvalidTaken r hr
    have := hrelease r
    grind

/-- A native method releases the slot that it works on and invalidates the wrapper. -/
theorem release (h : RubyOk stage wrapper ruby) {wrapper' : Nat → Wrapper}
    (hold : ruby.holds = some (p, .cleared)) (hnew : pc.holds = none) (hrel : pc.releasing = none)
    (hinvalid : (wrapper' p).valid = false)
    (hvalid : ∀ r, r ≠ p → (wrapper' r).valid = (wrapper r).valid) :
    RubyOk (Function.update stage p .released) wrapper' pc := by
  obtain ⟨hholding, hworked, htakenValid, hreleasing, hvalidTaken⟩ := h
  have hrelease := fun r (hr : ruby.releasing = some r) => RubyPc.holds_of_releasing hr
  refine ⟨by simp [hnew], fun r hr => ?_, fun r hr => ?_, by simp [hrel], fun r hr => ?_⟩
  · have := hworked r
    grind [Stage.worked]
  · have := htakenValid r
    grind
  · have := hvalidTaken r
    grind

end RubyOk

/-! ## One step -/

variable {cfg : Config} {s s' : State} {k : Nat} {i : Input}

/-- Answering a message that is not queued changes a log and a counter only. -/
theorem State.respondUnqueued_eq (s : State) (cfg : Config) (i : Input) (m : Nat) :
    ∃ stats log, s.respondUnqueued cfg i m =
      { s with stats, history := { s.history with log := log } } := by
  unfold State.respondUnqueued
  split_ifs
  · exact ⟨_, _, rfl⟩
  · exact ⟨_, _, rfl⟩

/-- `respond` returns to Ruby with a result, and with a record of the return. -/
theorem State.of_respondReturn {p call : Nat} {sent success raises : Bool} {answer : Answer}
    (hreturn : s.respondReturn cfg p sent success (.method call answer raises) = s') :
    ∃ result returned,
      s' = { s with ruby := .idle, result, history := { s.history with returned } } :=
  ⟨_, _, hreturn.symm⟩

/-- A step of a callback that changes neither the stage of a position nor its hold on one. -/
theorem SlotsInv.callbackFrame (h : SlotsInv cfg s) {pc : CallbackPc}
    (hcallback : s'.callback = Function.update s.callback k pc)
    (hslots : SlotsOk cfg s'.queue s.history.stage s.history.owner s.history.fireAt)
    (hpos : pc.position = (s.callback k).position) (hholds : pc.holds = (s.callback k).holds)
    (hloop : ∀ l, pc = .enqueue l → s.queue.ring.ClaimOk l)
    (hsame : s'.queue.ring = s.queue.ring ∧ s'.history.stage = s.history.stage ∧
      s'.history.owner = s.history.owner ∧ s'.history.fireAt = s.history.fireAt ∧
      s'.wrapper = s.wrapper ∧ s'.ruby = s.ruby := by
        exact ⟨rfl, rfl, rfl, rfl, rfl, rfl⟩) : SlotsInv cfg s' := by
  obtain ⟨hring, hstage, howner, hfire, hwrapper, hruby⟩ := hsame
  constructor
  case slots => rw [hstage, howner, hfire]; exact hslots
  case callbacks => rw [hstage, howner, hcallback]; exact h.callbacks.frame hpos hholds
  case claiming =>
    intro j l hj
    rw [hcallback, Function.update_apply] at hj
    rw [hring]
    split_ifs at hj
    · exact hloop l hj
    · exact h.claiming j l hj
  case taking => rw [hring, hruby]; exact h.taking
  case ruby => rw [hstage, hwrapper, hruby]; exact h.ruby

/-- A step of a callback that moves its position on. -/
theorem SlotsInv.callbackMove (h : SlotsInv cfg s) {pc : CallbackPc} {p : Nat} {st : Stage}
    (st' : Stage)
    (hcallback : s'.callback = Function.update s.callback k pc)
    (hholds : (s.callback k).holds = some (p, st)) (hpos : pc.position = some p)
    (hst' : st'.held ∨ st' = .queued) (hpc : pc.holds = if st'.held then some (p, st') else none)
    (hslots : SlotsOk cfg s'.queue s'.history.stage s'.history.owner s'.history.fireAt)
    (hclaim : ∀ l, s.queue.ring.ClaimOk l → s'.queue.ring.ClaimOk l)
    (htake : ∀ l, s.queue.ring.TakeOk l → s'.queue.ring.TakeOk l)
    (hsame : s'.history.stage = Function.update s.history.stage p st' ∧
      s'.history.owner = s.history.owner ∧ s'.wrapper = s.wrapper ∧ s'.ruby = s.ruby := by
        exact ⟨rfl, rfl, rfl, rfl⟩) : SlotsInv cfg s' := by
  obtain ⟨hstage, howner, hwrapper, hruby⟩ := hsame
  have hp := h.callbacks.holds k p st hholds
  have hheld := (CallbackPc.position_of_holds hholds).2
  constructor
  case slots => exact hslots
  case callbacks =>
    rw [hstage, howner, hcallback]
    exact h.callbacks.move hholds hpos (by rintro rfl; simp at hst') hpc
  case claiming =>
    intro j l hj
    rw [hcallback, Function.update_apply] at hj
    split_ifs at hj
    · rw [hj] at hpos
      cases hpos
    · exact hclaim l (h.claiming j l hj)
  case taking => rw [hruby]; exact fun l hl => htake l (h.taking l hl)
  -- The position is in the hands of a callback, so not in those of a native method.
  case ruby =>
    rw [hstage, hwrapper, hruby]
    apply h.ruby.other
    · rw [hp]
      rintro rfl
      simp at hheld
    · rcases hst' with hst' | rfl
      · cases st' <;> simp_all [Stage.worked]
      · rfl
    · rintro rfl
      simp at hst'
    · intro st'' hst''
      have hp' := h.ruby.holds p st'' hst''
      have hw := RubyPc.stage_of_holds hst''
      simp only [Stage.held_iff, Stage.worked_iff] at hheld hw
      grind

/-- A callback claims the next position. -/
theorem SlotsInv.callbackClaim (h : SlotsInv cfg s) {l : LoopPc} (hpc : s.callback k = .enqueue l)
    (hseq : (s.queue.slot s.queue.enqueuePosition).sequence = s.queue.enqueuePosition)
    (hcallback : s'.callback = Function.update s.callback k (.fill s.queue.enqueuePosition))
    (hqueue : s'.queue =
      (s.queue.advanceEnqueue s.queue.enqueuePosition).storePosition s.queue.enqueuePosition)
    (hhistory : s'.history = s.history.claim k s.queue.enqueuePosition)
    (hwrapper : s'.wrapper = s.wrapper) (hruby : s'.ruby = s.ruby) : SlotsInv cfg s' := by
  have hring : s'.queue.ring = s.queue.ring.claim := by
    rw [hqueue, Queue.ring_storePosition, Queue.ring_advanceEnqueue]
  have hfree := h.slots.next_unclaimed
  constructor
  case slots => rw [hqueue, hhistory]; exact h.slots.claim k hseq
  case callbacks =>
    rw [hcallback, hhistory]
    exact h.callbacks.claim hfree (by rw [hpc]; rfl)
  -- The claim advances `enqueuePosition`, which the other loops have loaded before.
  case claiming =>
    intro j l' hj
    rw [hcallback, Function.update_apply] at hj
    rw [hring]
    split_ifs at hj
    exact (h.claiming j l' hj).claim
  case taking => rw [hring, hruby]; exact fun l hl => (h.taking l hl).claim
  case ruby =>
    rw [hwrapper, hruby, hhistory]
    apply h.ruby.other
    · rw [hfree]
      simp
    · rfl
    · simp
    · intro st hst
      have hw := RubyPc.stage_of_holds hst
      rw [← h.ruby.holds _ st hst, hfree] at hw
      simp at hw

theorem callbackStep_slots (h : SlotsInv cfg s) (hstep : callbackStep cfg k i s = some s') :
    SlotsInv cfg s' := by
  cases hpc : s.callback k with
  | absent | drop | loadDequeue | loadDepthMax | publishRequest | respond | notifyWrite =>
    simp only [callbackStep, hpc, Option.some.injEq] at hstep
    subst hstep
    exact h.callbackFrame rfl h.slots (by rw [hpc]; rfl) (by rw [hpc]; rfl) (by simp)
  | loadClosed =>
    simp only [callbackStep, hpc, Option.some.injEq] at hstep
    subst hstep
    refine h.callbackFrame (k := k) rfl h.slots ?_ ?_ ?_
    all_goals split <;> simp [hpc, CallbackPc.position, CallbackPc.holds]
  | refuse | overflow =>
    simp only [callbackStep, hpc, Option.some.injEq] at hstep
    obtain ⟨stats, log, heq⟩ := s.respondUnqueued_eq cfg i k
    rw [heq] at hstep
    subst hstep
    exact h.callbackFrame rfl h.slots (by rw [hpc]; rfl) (by rw [hpc]; rfl) (by simp)
  | retain =>
    simp only [callbackStep, hpc, Option.some.injEq] at hstep
    subst hstep
    exact h.callbackFrame rfl h.slots (by rw [hpc]; rfl) (by rw [hpc]; rfl)
      (by rintro _ ⟨⟩; trivial)
  | enqueue pc =>
    have hloop := SeqRing.Ring.ClaimOk.step i.spurious (h.claiming k pc hpc)
    simp only [callbackStep, hpc, Queue.enqueue] at hstep
    cases hres : s.queue.ring.claimStep i.spurious pc with
    | running pc' =>
      simp only [hres, Option.some.injEq] at hstep hloop
      subst hstep
      exact h.callbackFrame rfl h.slots (by rw [hpc]; rfl) (by rw [hpc]; rfl)
        (by rintro _ ⟨⟩; exact hloop)
    | none =>
      simp only [hres, Option.some.injEq] at hstep
      subst hstep
      exact h.callbackFrame rfl h.slots (by rw [hpc]; rfl) (by rw [hpc]; rfl) (by simp)
    | got p =>
      simp only [hres, Option.some.injEq] at hstep hloop
      -- The exchange succeeds only while the loaded position is still the next one.
      obtain ⟨rfl, hseq⟩ := hloop
      subst hstep
      exact h.callbackClaim hpc hseq rfl rfl rfl rfl rfl
  | fill p =>
    simp only [callbackStep, hpc, Option.some.injEq] at hstep
    subst hstep
    have hst := h.callbacks.holds k p .claimed (by rw [hpc]; rfl)
    -- The callback that fills a position is its owner.
    obtain ⟨-, rfl⟩ := h.callbacks.position k p (by rw [hpc]; rfl)
    refine h.callbackMove .filled rfl (by rw [hpc]; rfl) rfl (.inl rfl) rfl ?_ ?_ ?_
    · exact h.slots.fill hst (by simp only [Config.isAuth]; split <;> simp_all)
    · simp
    · simp
  | storeOccupied p =>
    simp only [callbackStep, hpc, Option.some.injEq] at hstep
    subst hstep
    have hst := h.callbacks.holds k p .filled (by rw [hpc]; rfl)
    split <;>
      exact h.callbackMove .marked rfl (by rw [hpc]; rfl) rfl (.inl rfl) rfl (h.slots.mark hst)
        (by simp) (by simp)
  | arm p pc =>
    simp only [callbackStep, hpc] at hstep
    cases hres : s.requests.arm i.spurious pc <;> simp only [hres, Option.some.injEq] at hstep <;>
      subst hstep
    all_goals
      exact h.callbackFrame rfl h.slots (by rw [hpc]; rfl) (by rw [hpc]; rfl) (by simp)
  | answer p =>
    simp only [callbackStep, hpc] at hstep
    split_ifs at hstep with hpending <;> cases hstep
    · exact h.callbackFrame rfl (h.slots.storeAnswered hpending) (by rw [hpc]; rfl)
        (by rw [hpc]; rfl) (by simp) ⟨Queue.ring_storeAnswerState .., rfl, rfl, rfl, rfl, rfl⟩
    · exact h.callbackFrame rfl h.slots (by rw [hpc]; rfl) (by rw [hpc]; rfl) (by simp)
  | raiseDepthMax p depth maximum =>
    simp only [callbackStep, hpc] at hstep
    split_ifs at hstep <;> cases hstep
    · exact h.callbackFrame rfl (h.slots.storeDepthMax depth) (by rw [hpc]; rfl) (by rw [hpc]; rfl)
        (by simp)
    all_goals
      exact h.callbackFrame rfl h.slots (by rw [hpc]; rfl) (by rw [hpc]; rfl) (by simp)
  | storeSequence p =>
    simp only [callbackStep, hpc, Option.some.injEq] at hstep
    subst hstep
    have hst := h.callbacks.holds k p .marked (by rw [hpc]; rfl)
    -- The sequence word is computed from the position in the slot.
    have hpos := (h.slots.slot p).position (by rw [hst]; rfl)
    have hphase : (s.history.stage p).phase = .claimed := by rw [hst]; rfl
    refine h.callbackMove .queued rfl (by rw [hpc]; rfl) rfl (.inr rfl) rfl (h.slots.publish hst)
      ?_ ?_
    · intro l hl
      rw [Queue.ring_storePublished hpos]
      exact hl.publish h.slots.ring (by simp only [hphase]; rfl)
    · intro l hl
      rw [Queue.ring_storePublished hpos]
      exact hl.publish h.slots.ring hphase
  | notify p =>
    simp only [callbackStep, hpc] at hstep
    split_ifs at hstep <;> cases hstep
    all_goals
      exact h.callbackFrame rfl h.slots (by rw [hpc]; rfl) (by rw [hpc]; rfl) (by simp)
  | leave outcome =>
    simp only [callbackStep, hpc, Option.some.injEq] at hstep
    subst hstep
    exact h.callbackFrame rfl h.slots (by rw [hpc]; cases outcome <;> rfl) (by rw [hpc]; rfl)
      (by simp)
  | returned => simp [callbackStep, hpc] at hstep

/-- A step of the watchdog or of a native method that moves no position on. -/
theorem SlotsInv.frame (h : SlotsInv cfg s)
    (hslots : SlotsOk cfg s'.queue s.history.stage s.history.owner s.history.fireAt)
    (hruby : RubyOk s.history.stage s'.wrapper s'.ruby)
    (hsame : s'.queue.ring = s.queue.ring ∧ s'.history.stage = s.history.stage ∧
      s'.history.owner = s.history.owner ∧ s'.history.fireAt = s.history.fireAt ∧
      s'.callback = s.callback)
    (hloop : ∀ l, s'.ruby.taking = some l → s.queue.ring.TakeOk l) : SlotsInv cfg s' := by
  obtain ⟨hring, hstage, howner, hfire, hcallback⟩ := hsame
  constructor
  case slots => rw [hstage, howner, hfire]; exact hslots
  case callbacks => rw [hstage, howner, hcallback]; exact h.callbacks
  case claiming => rw [hring, hcallback]; exact h.claiming
  case taking => rw [hring]; exact hloop
  case ruby => rw [hstage]; exact hruby

theorem watchdogStep_slots (h : SlotsInv cfg s) (hstep : watchdogStep cfg i s = some s') :
    SlotsInv cfg s' := by
  cases hpc : s.watchdog with
  | loadRunning | popLoad | popSequence | popStore | popRelease | loadOccupied | respond | count
  | notifyWrite | wait | exiting | stopped | deleting =>
    simp only [watchdogStep, hpc, Option.some.injEq] at hstep
    subst hstep
    exact h.frame h.slots h.ruby ⟨rfl, rfl, rfl, rfl, rfl⟩ h.taking
  | clock | recheck | notify | asleep =>
    simp only [watchdogStep, hpc] at hstep
    split_ifs at hstep <;> cases hstep <;>
      exact h.frame h.slots h.ruby ⟨rfl, rfl, rfl, rfl, rfl⟩ h.taking
  -- The watchdog writes to slots that others hold, but only what nobody's hold is about.
  | addReader entry now | subReader entry =>
    simp only [watchdogStep, hpc, Option.some.injEq] at hstep
    subst hstep
    exact h.frame (h.slots.storeReaders ..) h.ruby
      ⟨Queue.ring_storeReaders .., rfl, rfl, rfl, rfl⟩ h.taking
  | exchange entry now =>
    simp only [watchdogStep, hpc] at hstep
    split_ifs at hstep with hpending <;> cases hstep
    · exact h.frame (h.slots.storeAnswered hpending) h.ruby
        ⟨Queue.ring_storeAnswerState .., rfl, rfl, rfl, rfl⟩ h.taking
    · exact h.frame h.slots h.ruby ⟨rfl, rfl, rfl, rfl, rfl⟩ h.taking
  | deleted => simp [watchdogStep, hpc] at hstep

/-- While no native method is being executed, what Ruby holds are the valid wrappers. -/
theorem SlotsInv.taken_of_valid (h : SlotsInv cfg s) (hidle : s.ruby = .idle) {p : Nat}
    (hvalid : (s.wrapper p).valid) : s.history.stage p = .taken := by
  rcases h.ruby.valid p hvalid with hst | hrel
  · exact hst
  · simp [hidle, RubyPc.releasing] at hrel

/-- A native method takes its next step outside the loops of `esrb_queue_dequeue`. -/
theorem SlotsInv.frameOut (h : SlotsInv cfg s)
    (hslots : SlotsOk cfg s'.queue s.history.stage s.history.owner s.history.fireAt)
    (hruby : RubyOk s.history.stage s'.wrapper s'.ruby) (htaking : s'.ruby.taking = none)
    (hsame : s'.queue.ring = s.queue.ring ∧ s'.history.stage = s.history.stage ∧
      s'.history.owner = s.history.owner ∧ s'.history.fireAt = s.history.fireAt ∧
      s'.callback = s.callback := by exact ⟨rfl, rfl, rfl, rfl, rfl⟩) : SlotsInv cfg s' :=
  h.frame hslots hruby hsame (by simp [htaking])

/-- A native method begins or ends. -/
theorem SlotsInv.relax (h : SlotsInv cfg s)
    (hold : ∀ r st, s.ruby.holds = some (r, st) → st = .taken) (hrel : s.ruby.releasing = none)
    (hnew : ∀ r st, s'.ruby.holds = some (r, st) → st = .taken ∧ s.history.stage r = .taken)
    (hrel' : s'.ruby.releasing = none)
    (hvalid : ∀ r, (s'.wrapper r).valid = (s.wrapper r).valid)
    (hslots : SlotsOk cfg s'.queue s.history.stage s.history.owner s.history.fireAt)
    (htaking : s'.ruby.taking = none)
    (hsame : s'.queue.ring = s.queue.ring ∧ s'.history.stage = s.history.stage ∧
      s'.history.owner = s.history.owner ∧ s'.history.fireAt = s.history.fireAt ∧
      s'.callback = s.callback := by exact ⟨rfl, rfl, rfl, rfl, rfl⟩) : SlotsInv cfg s' :=
  h.frameOut hslots ((h.ruby.relax hold hrel hnew hrel').rewrap hvalid) htaking hsame

/-- A native method goes on, or ends, without a position to work on. -/
theorem SlotsInv.letGo (h : SlotsInv cfg s)
    (hold : ∀ r st, s.ruby.holds = some (r, st) → st = .taken) (hrel : s.ruby.releasing = none)
    (hnew : s'.ruby.holds = none) (hrel' : s'.ruby.releasing = none)
    (hvalid : ∀ r, (s'.wrapper r).valid = (s.wrapper r).valid)
    (hslots : SlotsOk cfg s'.queue s.history.stage s.history.owner s.history.fireAt)
    (htaking : s'.ruby.taking = none)
    (hsame : s'.queue.ring = s.queue.ring ∧ s'.history.stage = s.history.stage ∧
      s'.history.owner = s.history.owner ∧ s'.history.fireAt = s.history.fireAt ∧
      s'.callback = s.callback := by exact ⟨rfl, rfl, rfl, rfl, rfl⟩) : SlotsInv cfg s' :=
  h.relax hold hrel (by simp [hnew]) hrel' hvalid hslots htaking hsame

theorem callStep_slots {call : Call} (h : SlotsInv cfg s) (hstep : callStep cfg call s = some s') :
    SlotsInv cfg s' := by
  simp only [callStep] at hstep
  split_ifs at hstep with hidle
  have hold : ∀ r st, s.ruby.holds = some (r, st) → st = .taken := by simp [hidle, RubyPc.holds]
  have hrel : s.ruby.releasing = none := by rw [hidle]; rfl
  -- `release`, `auto_release` and `free` all begin with `message_release`.
  have hrelease : ∀ p caller stats, SlotsInv cfg
      ({ s with stats }.releaseCall p caller) := by
    intro p caller stats
    simp only [State.releaseCall]
    split_ifs with hvalid
    · refine h.relax hold hrel ?_ rfl (fun _ => rfl) h.slots rfl
      rintro r st ⟨⟩
      exact ⟨rfl, h.taken_of_valid hidle hvalid⟩
    · refine h.letGo hold hrel rfl rfl (fun r => ?_) h.slots rfl
      simp only [State.releaseReturn, Function.update_apply]
      split_ifs with hr
      · rw [hr]
        exact (Bool.eq_false_iff.mpr hvalid).symm
      · rfl
  cases call with
  | drain | close | read =>
    simp only [beginCall] at hstep
    split_ifs at hstep <;> cases hstep <;>
      exact h.letGo hold hrel rfl rfl (fun _ => rfl) h.slots rfl
  | wake =>
    cases hstep
    exact h.letGo hold hrel rfl rfl (fun _ => rfl) h.slots rfl
  | respond p verdict =>
    simp only [beginCall] at hstep
    split_ifs at hstep with hlive hvalid
    · cases hstep
      exact h.letGo hold hrel rfl rfl (fun _ => rfl) h.slots rfl
    · split at hstep <;> cases hstep
      · exact h.letGo hold hrel rfl rfl (fun _ => rfl) h.slots rfl
      · refine h.relax hold hrel ?_ rfl (fun _ => rfl) h.slots rfl
        rintro r st ⟨⟩
        exact ⟨rfl, h.taken_of_valid hidle (by simpa using hvalid)⟩
  | retain p =>
    simp only [beginCall] at hstep
    split_ifs at hstep <;> cases hstep
    · exact h.letGo hold hrel rfl rfl (fun _ => rfl) h.slots rfl
    · refine h.letGo hold hrel rfl rfl (fun r => ?_) h.slots rfl
      simp only [Function.update_apply]
      split_ifs with hr
      · rw [hr]
      · rfl
  | release p =>
    simp only [beginCall] at hstep
    split_ifs at hstep
    cases hstep
    exact hrelease p .method s.stats
  | autoRelease p =>
    simp only [beginCall] at hstep
    split_ifs at hstep <;> cases hstep
    · exact h.letGo hold hrel rfl rfl (fun _ => rfl) h.slots rfl
    · exact hrelease p .method s.stats
  | free p =>
    simp only [beginCall] at hstep
    split_ifs at hstep <;> cases hstep <;> exact hrelease p .free _

/-- `esrb_respond_slot` returns. -/
theorem SlotsInv.respondReturn (h : SlotsInv cfg s) {p : Nat}
    (hholds : s.ruby.holds = some (p, .taken)) (hrel : s.ruby.releasing = none)
    (sent success : Bool) (caller : RespondCaller) :
    SlotsInv cfg (s.respondReturn cfg p sent success caller) := by
  have hold : ∀ r st, s.ruby.holds = some (r, st) → st = .taken := by
    intro r st hr
    cases hholds.symm.trans hr
    rfl
  cases caller with
  | method => exact h.letGo hold hrel rfl rfl (fun _ => rfl) h.slots rfl
  | release caller =>
    refine h.relax hold hrel ?_ rfl (fun _ => rfl) h.slots rfl
    rintro r st ⟨⟩
    exact ⟨rfl, h.ruby.holds p .taken hholds⟩

/-- A native method moves a position on. -/
theorem SlotsInv.rubyMove (h : SlotsInv cfg s) (p : Nat) (st' : Stage)
    (hst : (s.history.stage p).phase = .published ∨ (s.history.stage p).phase = .taken)
    (hst' : st'.phase = .taken ∨ st'.phase = .released)
    (hslots : SlotsOk cfg s'.queue s'.history.stage s'.history.owner s'.history.fireAt)
    (hruby : RubyOk s'.history.stage s'.wrapper s'.ruby)
    (hclaim : ∀ l, s.queue.ring.ClaimOk l → s'.queue.ring.ClaimOk l)
    (htaking : ∀ l, s'.ruby.taking = some l → s'.queue.ring.TakeOk l)
    (hsame : s'.history.stage = Function.update s.history.stage p st' ∧
      s'.history.owner = s.history.owner ∧ s'.callback = s.callback := by
        exact ⟨rfl, rfl, rfl⟩) : SlotsInv cfg s' := by
  obtain ⟨hstage, howner, hcallback⟩ := hsame
  refine ⟨hslots, ?_, ?_, htaking, hruby⟩
  · rw [hstage, howner, hcallback]
    -- A position that is published or taken is not held by a callback any more.
    apply h.callbacks.other
    · cases hp : s.history.stage p <;> simp_all [Stage.phase, Stage.held]
    · intro hp
      simp [hp, Stage.phase] at hst
    · cases st' <;> simp_all [Stage.phase, Stage.held]
    · rintro rfl
      simp [Stage.phase] at hst'
  · rw [hcallback]
    exact fun j l hj => hclaim l (h.claiming j l hj)

/-- A native method moves the position that it works on to another stage, keeping hold of it. -/
theorem SlotsInv.rubyWork (h : SlotsInv cfg s) {p : Nat} {st : Stage} (st' : Stage)
    (hholds : s.ruby.holds = some (p, st)) (hst' : st'.worked)
    (hslots : SlotsOk cfg s'.queue s'.history.stage s'.history.owner s'.history.fireAt)
    (hholds' : s'.ruby.holds = some (p, st'))
    (hrel : s'.ruby.releasing = if (s.wrapper p).valid then some p else none)
    (htaking : s'.ruby.taking = none)
    (hsame : s'.history.stage = Function.update s.history.stage p st' ∧
      s'.history.owner = s.history.owner ∧ s'.callback = s.callback ∧ s'.wrapper = s.wrapper ∧
      s'.queue.ring = s.queue.ring := by exact ⟨rfl, rfl, rfl, rfl, rfl⟩) : SlotsInv cfg s' := by
  obtain ⟨hstage, howner, hcallback, hwrapper, hring⟩ := hsame
  have hp := h.ruby.holds p st hholds
  refine h.rubyMove p st' ?_ ?_ hslots ?_ ?_ ?_ ⟨hstage, howner, hcallback⟩
  · rw [hp]
    rcases RubyPc.stage_of_holds hholds with rfl | hw
    · exact .inr rfl
    · cases st <;> simp_all [Stage.phase]
  · cases st' <;> simp_all [Stage.phase]
  · rw [hstage, hwrapper]
    exact h.ruby.work hst' (.inl (hp ▸ hholds)) hholds' hrel
  · rw [hring]
    exact fun _ => id
  · rw [htaking]
    simp

/-- A native method that works on no position goes on without one, in a loop of
    `esrb_queue_dequeue`. -/
theorem SlotsInv.rubyLoop (h : SlotsInv cfg s) (hold : s.ruby.holds = none)
    (hrel : s.ruby.releasing = none) (hnew : s'.ruby.holds = none)
    (hrel' : s'.ruby.releasing = none) (hwrapper : s'.wrapper = s.wrapper)
    (hslots : SlotsOk cfg s'.queue s.history.stage s.history.owner s.history.fireAt)
    (hloop : ∀ l, s'.ruby.taking = some l → s.queue.ring.TakeOk l)
    (hsame : s'.queue.ring = s.queue.ring ∧ s'.history.stage = s.history.stage ∧
      s'.history.owner = s.history.owner ∧ s'.history.fireAt = s.history.fireAt ∧
      s'.callback = s.callback := by exact ⟨rfl, rfl, rfl, rfl, rfl⟩) : SlotsInv cfg s' := by
  have hruby := h.ruby.relax (by simp [hold]) hrel (by simp [hnew]) hrel'
  exact h.frame hslots (hruby.rewrap (by simp [hwrapper])) hsame hloop

/-- A native method that works on no position goes on without one. -/
theorem SlotsInv.rubyCalm (h : SlotsInv cfg s) (hold : s.ruby.holds = none)
    (hrel : s.ruby.releasing = none) (hnew : s'.ruby.holds = none)
    (hrel' : s'.ruby.releasing = none) (hwrapper : s'.wrapper = s.wrapper)
    (hslots : SlotsOk cfg s'.queue s.history.stage s.history.owner s.history.fireAt)
    (htaking : s'.ruby.taking = none)
    (hsame : s'.queue.ring = s.queue.ring ∧ s'.history.stage = s.history.stage ∧
      s'.history.owner = s.history.owner ∧ s'.history.fireAt = s.history.fireAt ∧
      s'.callback = s.callback := by exact ⟨rfl, rfl, rfl, rfl, rfl⟩) : SlotsInv cfg s' :=
  h.letGo (by simp [hold]) hrel hnew hrel' (by simp [hwrapper]) hslots htaking hsame

/-- Outside `message_release`, the wrapper of a position that Ruby does not hold is invalid. -/
theorem SlotsInv.invalid (h : SlotsInv cfg s) {p : Nat} (hst : s.history.stage p ≠ .taken)
    (hrel : s.ruby.releasing = none) : (s.wrapper p).valid = false := by
  by_contra hvalid
  rcases h.ruby.valid p (by simpa using hvalid) with hst' | hrel'
  · exact hst hst'
  · cases hrel.symm.trans hrel'

/-- The wrapper of a position is valid when `message_release` is releasing it, and invalid when
    `client_close_native` is. -/
theorem SlotsInv.releasing_eq (h : SlotsInv cfg s) {p : Nat} (hst : (s.history.stage p).worked)
    (hholds : ∀ r, s.ruby.releasing = some r → r = p) :
    s.ruby.releasing = if (s.wrapper p).valid then some p else none := by
  cases hrel : s.ruby.releasing with
  | none =>
    rw [h.invalid (fun hst' => by simp [hst'] at hst) hrel]
    rfl
  | some r =>
    have hr := hholds r hrel
    subst hr
    rw [h.ruby.releasing r hrel]
    rfl

/-- `client_drain` or `client_close_native` dequeues the next position. -/
theorem SlotsInv.rubyTake (h : SlotsInv cfg s) {st : Stage} (hst : st = .taken ∨ st = .drained)
    (hseq : (s.queue.slot s.queue.dequeuePosition).sequence = s.queue.dequeuePosition + 1)
    (hqueue : s'.queue = s.queue.advanceDequeue s.queue.dequeuePosition)
    (hhistory : s'.history = s.history.enter s.queue.dequeuePosition st)
    (hcallback : s'.callback = s.callback) (hloop : s'.ruby.taking = none)
    (hruby : s.history.stage s.queue.dequeuePosition = .queued →
      RubyOk s'.history.stage s'.wrapper s'.ruby) : SlotsInv cfg s' := by
  obtain ⟨hp, hslots⟩ := h.slots.take hst hseq
  -- The sequence word says that the position is queued, whoever dequeues it.
  refine h.rubyMove s.queue.dequeuePosition st (by rw [hp]; exact .inl rfl) ?_ ?_ (hruby hp) ?_ ?_
    ⟨by rw [hhistory]; rfl, by rw [hhistory]; rfl, hcallback⟩
  · rcases hst with rfl | rfl <;> exact .inl rfl
  · rw [hqueue, hhistory]
    exact hslots
  · rw [hqueue, Queue.ring_advanceDequeue]
    exact fun l hl => hl.take
  · rw [hloop]
    simp

theorem drainNext_eq (left : Nat) (batch : List Nat) :
    drainNext left batch = .drainClear batch ∨
      drainNext left batch = .drainDequeue left batch .load := by
  unfold drainNext
  split_ifs
  · exact .inl rfl
  · exact .inr rfl

theorem rubyStep_slots (h : SlotsInv cfg s) (hstep : rubyStep cfg i s = some s') :
    SlotsInv cfg s' := by
  cases hpc : s.ruby with
  | idle => simp [rubyStep, hpc] at hstep
  | drainClear batch | drainDepth batch | stopWatchdog | storeDeleteReady | answerSend =>
    simp only [rubyStep, hpc, Option.some.injEq] at hstep
    subst hstep
    exact h.rubyCalm (by rw [hpc]; rfl) (by rw [hpc]; rfl) rfl rfl rfl h.slots rfl
  | drainRead maximum =>
    simp only [rubyStep, hpc] at hstep
    split_ifs at hstep <;> cases hstep
    · exact h.rubyCalm (by rw [hpc]; rfl) (by rw [hpc]; rfl) rfl rfl rfl h.slots rfl
    · exact h.rubyCalm (by rw [hpc]; rfl) (by rw [hpc]; rfl) rfl rfl rfl h.slots rfl
    · exact h.rubyCalm (by rw [hpc]; rfl) (by rw [hpc]; rfl) rfl rfl rfl h.slots rfl
    · exact h.rubyCalm (by rw [hpc]; rfl) (by rw [hpc]; rfl) rfl rfl rfl h.slots rfl
    · rcases drainNext_eq maximum.toNat [] with hnext | hnext <;> rw [hnext] <;>
        exact h.rubyLoop (by rw [hpc]; rfl) (by rw [hpc]; rfl) rfl rfl rfl h.slots
          (by rintro _ ⟨⟩ <;> trivial)
  | drainDelivered left batch =>
    simp only [rubyStep, hpc, Option.some.injEq] at hstep
    subst hstep
    rcases drainNext_eq (left - 1) batch with hnext | hnext <;> rw [hnext] <;>
      exact h.rubyLoop (by rw [hpc]; rfl) (by rw [hpc]; rfl) rfl rfl rfl h.slots
        (by rintro _ ⟨⟩ <;> trivial)
  -- The loops of `esrb_queue_dequeue`: what they have loaded stays true while they run.
  | drainDequeue left batch pc =>
    have hloop := SeqRing.Ring.TakeOk.step i.spurious
      (h.taking pc (by rw [hpc]; rfl))
    simp only [rubyStep, hpc, Queue.dequeue] at hstep
    cases hres : s.queue.ring.takeStep i.spurious pc with
    | running pc' =>
      simp only [hres, Option.some.injEq] at hstep hloop
      subst hstep
      exact h.rubyLoop (by rw [hpc]; rfl) (by rw [hpc]; rfl) rfl rfl rfl h.slots
        (by rintro _ ⟨⟩; exact hloop)
    | none =>
      simp only [hres, Option.some.injEq] at hstep
      subst hstep
      exact h.rubyCalm (by rw [hpc]; rfl) (by rw [hpc]; rfl) rfl rfl rfl h.slots rfl
    | got p =>
      simp only [hres, Option.some.injEq] at hstep hloop
      obtain ⟨rfl, hseq⟩ := hloop
      subst hstep
      refine h.rubyTake (.inl rfl) hseq rfl rfl rfl rfl fun _ => ?_
      exact h.ruby.take rfl (by rw [hpc]; rfl) (by rw [hpc]; rfl) rfl rfl
  | closeDequeue pc =>
    have hloop := SeqRing.Ring.TakeOk.step i.spurious
      (h.taking pc (by rw [hpc]; rfl))
    simp only [rubyStep, hpc, Queue.dequeue] at hstep
    cases hres : s.queue.ring.takeStep i.spurious pc with
    | running pc' =>
      simp only [hres, Option.some.injEq] at hstep hloop
      subst hstep
      exact h.rubyLoop (by rw [hpc]; rfl) (by rw [hpc]; rfl) rfl rfl rfl h.slots
        (by rintro _ ⟨⟩; exact hloop)
    | none =>
      simp only [hres, Option.some.injEq] at hstep
      subst hstep
      exact h.rubyCalm (by rw [hpc]; rfl) (by rw [hpc]; rfl) rfl rfl rfl h.slots rfl
    | got p =>
      simp only [hres, Option.some.injEq] at hstep hloop
      obtain ⟨rfl, hseq⟩ := hloop
      subst hstep
      refine h.rubyTake (.inr rfl) hseq rfl rfl rfl rfl fun hp => ?_
      -- `close` wraps nothing: the position has no valid wrapper.
      have hinvalid : (s.wrapper s.queue.ring.deq).valid = false :=
        h.invalid (by rw [Queue.ring_deq, hp]; simp) (by rw [hpc]; rfl)
      exact h.ruby.work rfl (.inr ⟨by rw [hpc]; rfl, hp⟩) rfl (by rw [hinvalid]; rfl)
  | drainDepthDequeue | answerOccupied =>
    simp only [rubyStep, hpc] at hstep
    split_ifs at hstep <;> cases hstep <;>
      exact h.rubyLoop (by rw [hpc]; rfl) (by rw [hpc]; rfl) rfl rfl rfl h.slots
        (by rintro _ ⟨⟩ <;> trivial)
  | notify caller =>
    simp only [rubyStep, hpc] at hstep
    split_ifs at hstep <;> cases hstep
    · cases caller <;> exact h.rubyCalm (by rw [hpc]; rfl) (by rw [hpc]; rfl) rfl rfl rfl
        h.slots rfl
    · exact h.rubyCalm (by rw [hpc]; rfl) (by rw [hpc]; rfl) rfl rfl rfl h.slots rfl
  | notifyWrite caller =>
    simp only [rubyStep, hpc, Option.some.injEq] at hstep
    subst hstep
    cases caller <;> exact h.rubyCalm (by rw [hpc]; rfl) (by rw [hpc]; rfl) rfl rfl rfl h.slots rfl
  | awaitCallbacks | awaitWatchdog | join =>
    simp only [rubyStep, hpc, Option.some.injEq] at hstep
    subst hstep
    split_ifs
    all_goals
      first
      | exact h
      | exact h.rubyCalm (by rw [hpc]; rfl) (by rw [hpc]; rfl) rfl rfl rfl h.slots rfl
  | answerExchange index =>
    simp only [rubyStep, hpc] at hstep
    split_ifs at hstep with hpending <;> cases hstep
    · exact h.rubyCalm (by rw [hpc]; rfl) (by rw [hpc]; rfl) rfl rfl rfl
        (h.slots.storeAnswered hpending) rfl ⟨Queue.ring_storeAnswerState .., rfl, rfl, rfl, rfl⟩
    · exact h.rubyCalm (by rw [hpc]; rfl) (by rw [hpc]; rfl) rfl rfl rfl h.slots rfl
  -- `esrb_respond_slot` leaves the position in the hands of its wrapper.
  | respondClosed p caller =>
    have hholds : s.ruby.holds = some (p, .taken) := by rw [hpc]; rfl
    simp only [rubyStep, hpc] at hstep
    split_ifs at hstep <;> cases hstep
    · exact h.respondReturn hholds (by rw [hpc]; rfl) ..
    · exact h.frameOut h.slots (h.ruby.frame hholds.symm (by rw [hpc]; rfl)) rfl
  | respondExchange p caller =>
    have hholds : s.ruby.holds = some (p, .taken) := by rw [hpc]; rfl
    simp only [rubyStep, hpc] at hstep
    split_ifs at hstep with hpending <;> cases hstep
    · exact h.frameOut (h.slots.storeAnswered hpending)
        (h.ruby.frame hholds.symm (by rw [hpc]; rfl)) rfl
        ⟨Queue.ring_storeAnswerState .., rfl, rfl, rfl, rfl⟩
    · exact h.respondReturn hholds (by rw [hpc]; rfl) ..
  | respondSend p caller =>
    simp only [rubyStep, hpc, Option.some.injEq] at hstep
    subst hstep
    apply SlotsInv.respondReturn
    · exact h.frame h.slots h.ruby ⟨rfl, rfl, rfl, rfl, rfl⟩ h.taking
    · exact (by rw [hpc]; rfl : s.ruby.holds = some (p, .taken))
    · exact (by rw [hpc]; rfl : s.ruby.releasing = none)
  -- From here on the position is held by the method, while its wrapper is still valid.
  | disarm p caller =>
    have hholds : s.ruby.holds = some (p, .taken) := by rw [hpc]; rfl
    have hst := h.ruby.holds p _ hholds
    simp only [rubyStep, hpc, Option.some.injEq] at hstep
    subst hstep
    refine h.rubyWork .disarmed hholds rfl (h.slots.disarm hst) rfl ?_ rfl
      ⟨rfl, rfl, rfl, rfl, Queue.ring_storeOccupied ..⟩
    rw [h.ruby.taken p hst]
    rfl
  | awaitReaders p caller =>
    have hholds : s.ruby.holds = some (p, .disarmed) := by rw [hpc]; rfl
    simp only [rubyStep, hpc, Option.some.injEq] at hstep
    subst hstep
    split_ifs
    · exact h
    · exact h.frameOut h.slots (h.ruby.frame hholds.symm (by rw [hpc]; rfl)) rfl
  | releaseMessage p caller =>
    have hholds : s.ruby.holds = some (p, .disarmed) := by rw [hpc]; rfl
    have hst := h.ruby.holds p _ hholds
    simp only [rubyStep, hpc, Option.some.injEq] at hstep
    subst hstep
    refine h.rubyWork .unreferenced hholds rfl (h.slots.unreference (.inl hst)) rfl ?_ rfl
    rw [h.ruby.releasing p (by rw [hpc]; rfl)]
    rfl
  | closeExchange p =>
    have hholds : s.ruby.holds = some (p, .drained) := by rw [hpc]; rfl
    simp only [rubyStep, hpc] at hstep
    split_ifs at hstep with hpending <;> cases hstep
    · exact h.frameOut (h.slots.storeAnswered hpending)
        (h.ruby.frame hholds.symm (by rw [hpc]; rfl)) rfl
        ⟨Queue.ring_storeAnswerState .., rfl, rfl, rfl, rfl⟩
    · exact h.frameOut h.slots (h.ruby.frame hholds.symm (by rw [hpc]; rfl)) rfl
  | closeSend p =>
    have hholds : s.ruby.holds = some (p, .drained) := by rw [hpc]; rfl
    simp only [rubyStep, hpc, Option.some.injEq] at hstep
    subst hstep
    exact h.frameOut h.slots (h.ruby.frame hholds.symm (by rw [hpc]; rfl)) rfl
  | closeMessage p =>
    have hholds : s.ruby.holds = some (p, .drained) := by rw [hpc]; rfl
    have hst := h.ruby.holds p _ hholds
    simp only [rubyStep, hpc, Option.some.injEq] at hstep
    subst hstep
    refine h.rubyWork .unreferenced hholds rfl (h.slots.unreference (.inr hst)) rfl ?_ rfl
    have hinvalid := h.invalid (by rw [hst]; simp : s.history.stage p ≠ .taken)
      (by rw [hpc]; rfl)
    rw [hinvalid]
    rfl
  -- `esrb_queue_release` is called by `message_release` and by `close`.
  | queueDisarm p caller =>
    have hholds : s.ruby.holds = some (p, .unreferenced) := by rw [hpc]; rfl
    have hst := h.ruby.holds p _ hholds
    simp only [rubyStep, hpc, Option.some.injEq] at hstep
    subst hstep
    have hrel := h.releasing_eq (by rw [hst]; rfl : (s.history.stage p).worked)
      (by rw [hpc]; cases caller <;> rintro r ⟨⟩; rfl)
    refine h.rubyWork .cleared hholds rfl (h.slots.clear hst) rfl ?_ rfl
      ⟨rfl, rfl, rfl, rfl, Queue.ring_storeOccupied ..⟩
    rw [← hrel, hpc]
    cases caller <;> rfl
  | queueAwait p caller =>
    have hholds : s.ruby.holds = some (p, .cleared) := by rw [hpc]; rfl
    simp only [rubyStep, hpc, Option.some.injEq] at hstep
    subst hstep
    split_ifs
    · exact h
    · exact h.frameOut h.slots (h.ruby.frame hholds.symm (by rw [hpc]; cases caller <;> rfl)) rfl
  | queueStore p caller =>
    have hholds : s.ruby.holds = some (p, .cleared) := by rw [hpc]; rfl
    have hst := h.ruby.holds p _ hholds
    have hpos := (h.slots.slot p).position (by rw [hst]; rfl)
    have hphase : (s.history.stage p).phase = .taken := by rw [hst]; rfl
    have hrel := h.releasing_eq (by rw [hst]; rfl : (s.history.stage p).worked)
      (by rw [hpc]; cases caller <;> rintro r ⟨⟩; rfl)
    have hclaim : ∀ l, s.queue.ring.ClaimOk l → (s.queue.storeReleased p).ring.ClaimOk l := by
      rw [Queue.ring_storeReleased hpos]
      exact fun l hl => hl.release h.slots.ring (by simp only [hphase]; rfl)
    simp only [rubyStep, hpc] at hstep
    cases caller with
    | release caller =>
      cases hstep
      refine h.rubyMove p .released (.inr hphase) (.inr rfl) (h.slots.release hst) ?_ hclaim
        (by simp [State.releaseReturn, State.finish, RubyPc.taking])
      -- The slot goes back to the ring and the wrapper becomes invalid in one step.
      refine h.ruby.release hholds rfl rfl ?_ fun r hr => ?_
      · simp [State.releaseReturn]
      · simp [State.releaseReturn, Function.update_of_ne hr]
    | close =>
      cases hstep
      refine h.rubyMove p .released (.inr hphase) (.inr rfl) (h.slots.release hst) ?_ hclaim
        (by rintro _ ⟨⟩; trivial)
      refine h.ruby.release hholds rfl rfl ?_ fun _ _ => rfl
      exact h.invalid (by rw [hst]; simp) (by rw [hpc]; rfl)

/-- The invariant holds in every reachable state. -/
theorem reachable_slots (hs : Reachable (step cfg) (.init cfg) s) : SlotsInv cfg s := by
  apply hs.invariant (slotsInv_init cfg)
  intro s a s' _ h hstep
  cases a with
  | callback k input => exact callbackStep_slots h hstep
  | watchdog input => exact watchdogStep_slots h hstep
  | call call => exact callStep_slots h hstep
  | ruby input => exact rubyStep_slots h hstep

/-- A small client: two slots, and AUTH and NOTIFY messages in turn. -/
def smallClient : Config where
  capacity := ⟨2, by decide, by decide, ⟨1, rfl⟩⟩
  defaultAuth := .allow
  defaultCache := false
  strictCache := false
  margin := ⟨1, 5, by decide, by decide⟩
  minMarginTicks := 5
  pipeLimit := 4
  pipeLimit_pos := by decide
  authOpen := 1
  cacheable _ := true
  arrivals k := ⟨7, if k % 2 = 0 then .auth else .notify, 0, 1000⟩

/-- The `k`-th call of `handle_message` makes `n` steps. -/
def callbackSteps (k n : Nat) : List Action := List.replicate n (.callback k {})

end EndpointSecurity
