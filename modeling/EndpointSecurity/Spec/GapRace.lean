import EndpointSecurity.ForStd.TransitionSystem
import EndpointSecurity.Native.SequenceGaps
import Mathlib.Tactic.SplitIfs

/-!
# Gaps that concurrent callbacks invent

`record_sequence_gaps` exchanges the last number of a stream and its first-message flag in two
steps, and compares with whatever number was stored before. Two callbacks that deliver the
first two messages can exchange the last number in one order and the flag in the other; then
the first message is compared with the initial zero. Numbers that arrive out of order leave
gaps too.

## Key results

- `gaps_invented`: two messages with consecutive numbers and a gap of four
- `no_gaps_invented`: when every callback that finds the flag set is at most one ahead of its
  predecessor there is no gap, and when one is not it goes on to add one
-/

namespace EndpointSecurity.SequenceGaps

open TransitionSystem (Reachable)

variable {eventTypeLast : Nat}

/-- Have the calls numbered below `count`, and no others, been made and finished? -/
def State.finished (s : State eventTypeLast) (count : Nat) : Prop :=
  (∀ k < count, s.callback k = .done) ∧ ∀ k, count ≤ k → s.callback k = .idle

/-- Messages of version 4 and up whose numbers are distinct and fill a range. -/
structure Contiguous (messages : Nat → Message) (count first : Nat) : Prop where
  version : ∀ k < count, 4 ≤ (messages k).version
  distinct : ∀ k < count, ∀ k' < count,
    (messages k).globalSeqNum = (messages k').globalSeqNum → k = k'
  range : ∀ n, (∃ k < count, (messages k).globalSeqNum.toNat = n) ↔
    first ≤ n ∧ n < first + count

/-- Messages number 5, 6, 7, … -/
def fromFive (k : Nat) : Message := ⟨4, 0, 0, 5 + UInt64.ofNat k⟩

/-- Both callbacks store their numbers in order; the second one sets the flag first. -/
def flagOvertaken : List Action :=
  [.callback 0, .callback 0, .callback 0, .callback 1, .callback 1, .callback 1, .callback 1,
    .callback 0, .callback 0]

/-- Concurrent callbacks can invent gaps. -/
theorem gaps_invented : ¬ ∀ (messages : Nat → Message) (count first : Nat),
    Contiguous messages count first → ∀ s : State 1, Reachable (step messages) .init s →
      s.finished count → s.stats.seqGaps = 0 := by
  intro hall
  have hcontiguous : Contiguous fromFive 2 5 := by
    refine ⟨fun _ _ => Nat.le_refl _, by decide, fun n => ?_⟩
    constructor
    · rintro ⟨k, hk, rfl⟩
      revert k
      decide
    · intro hn
      exact ⟨n - 5, by omega, by
        obtain rfl | rfl : n = 5 ∨ n = 6 := by omega
        all_goals decide⟩
  have hzero := hall fromFive 2 5 hcontiguous
    (TransitionSystem.final (step fromFive) flagOvertaken .init (by decide +kernel)) (.final _)
    ⟨by decide +kernel, fun k hk => ?_⟩
  · revert hzero
    decide +kernel
  · obtain ⟨i, rfl⟩ := Nat.exists_eq_add_of_le hk
    rw [Nat.add_comm]
    rfl

/-- A callback that runs alone on an open client does what `recordSequenceGaps` does at once. -/
theorem callback_alone {messages : Nat → Message} {s : State eventTypeLast} {k : Nat}
    (hidle : s.callback k = .idle) (hopen : s.closed = false) :
    ∃ n s', TransitionSystem.run (step messages) (List.replicate n (.callback k)) s = some s' ∧
      s'.callback k = .done ∧ s'.stats = recordSequenceGaps s.stats (messages k) := by
  cases hm : (messages k).stream eventTypeLast with
  | none =>
    refine ⟨2, ?_⟩
    simp [TransitionSystem.run, List.replicate, step, callbackStep, recordSequenceGaps, hm, hidle,
      hopen]
  | some counted =>
    obtain ⟨stream, number⟩ := counted
    cases hgap : isGap ((s.stats.exchangeLast stream number).tally stream).seen
        (s.stats.tally stream).last number with
    | false =>
      refine ⟨4, ?_⟩
      simp [TransitionSystem.run, List.replicate, step, callbackStep, recordSequenceGaps, hm,
        hidle, hopen, hgap]
    | true =>
      refine ⟨5, ?_⟩
      simp [TransitionSystem.run, List.replicate, step, callbackStep, recordSequenceGaps, hm,
        hidle, hopen, hgap]

/-! ## When no gap is invented -/

/-- The number stored last, zero before the first one. -/
def lastStored : List (Nat × UInt64) → UInt64
  | [] => 0
  | (_, number) :: _ => number

/-- The number stored directly before that of call `k`, zero if there was none. -/
def storedBefore (k : Nat) : List (Nat × UInt64) → UInt64
  | [] => 0
  | (k', _) :: older => if k' = k then lastStored older else storedBefore k older

/-- The condition on a step: a callback that is about to find the flag of its stream set has a
    number at most one above the one stored directly before its own. -/
def OneAhead (a : Action) (s : State eventTypeLast) : Prop :=
  match a with
  | .callback k =>
    match s.callback k with
    | .exchangeSeen stream number _ =>
      (s.stats.tally stream).seen = true → number ≤ storedBefore k (s.stored stream) + 1
    | _ => True
  | .close => True

instance (a : Action) (s : State eventTypeLast) : Decidable (OneAhead a s) := by
  unfold OneAhead
  split
  · split <;> infer_instance
  · infer_instance

/-- The steps that meet the condition. -/
def orderedStep (messages : Nat → Message) (a : Action) (s : State eventTypeLast) :
    Option (State eventTypeLast) :=
  if OneAhead a s then step messages a s else none

/-- What the exchanges of the last numbers return. -/
structure LastOk (s : State eventTypeLast) : Prop where
  last : ∀ stream, (s.stats.tally stream).last = lastStored (s.stored stream)
  previous : ∀ k stream number previous, s.callback k = .exchangeSeen stream number previous →
    previous = storedBefore k (s.stored stream)

variable {messages : Nat → Message} {s s' : State eventTypeLast} {k : Nat} {m : Message}

/-- A callback that moves on without having just stored a number. -/
theorem LastOk.move (h : LastOk s) {stats : Stats eventTypeLast} {pc : RecordPc eventTypeLast}
    (hlast : ∀ stream, (stats.tally stream).last = (s.stats.tally stream).last)
    (hpc : ∀ stream number previous, pc ≠ .exchangeSeen stream number previous) :
    LastOk { s with stats, callback := Function.update s.callback k pc } where
  last stream := (hlast stream).trans (h.last stream)
  previous k' stream number previous hk' := by
    dsimp only at hk'
    rcases eq_or_ne k' k with rfl | hne
    · rw [Function.update_self] at hk'
      exact absurd hk' (hpc stream number previous)
    · rw [Function.update_of_ne hne] at hk'
      exact h.previous k' stream number previous hk'

theorem callbackStep_lastOk (h : LastOk s) (hstep : callbackStep k m s = some s') :
    LastOk s' := by
  cases hpc : s.callback k with
  | idle =>
    simp only [callbackStep, hpc, Option.some.injEq] at hstep
    subst hstep
    exact h.move (fun _ => rfl) (by simp)
  | loadClosed =>
    simp only [callbackStep, hpc] at hstep
    split_ifs at hstep
    · cases hstep
      exact h.move (fun _ => rfl) (by simp)
    · split at hstep <;> cases hstep <;> exact h.move (fun _ => rfl) (by simp)
  | exchangeLast stream number =>
    simp only [callbackStep, hpc, Option.some.injEq] at hstep
    subst hstep
    refine ⟨fun stream' => ?_, fun k' stream' number' previous hk' => ?_⟩
    · simp only [Stats.exchangeLast, Function.update_apply]
      split_ifs
      · rfl
      · exact h.last stream'
    · simp only [Function.update_apply] at hk' ⊢
      split_ifs at hk' with hk
      · -- The callback that has just stored its number
        cases hk'
        rw [if_pos rfl, storedBefore, if_pos hk.symm]
        exact h.last stream
      · rw [h.previous k' stream' number' previous hk']
        split_ifs with hstream
        · rw [storedBefore, if_neg (Ne.symm hk), hstream]
        · rfl
  | exchangeSeen stream number previous =>
    simp only [callbackStep, hpc, Option.some.injEq] at hstep
    subst hstep
    refine h.move (fun stream' => ?_) (by split_ifs <;> simp)
    simp only [Stats.exchangeSeen, Function.update_apply]
    split_ifs with hstream
    · rw [hstream]
    · rfl
  | addGaps amount =>
    simp only [callbackStep, hpc, Option.some.injEq] at hstep
    subst hstep
    exact h.move (fun _ => rfl) (by simp)
  | done => simp [callbackStep, hpc] at hstep

/-- The exchanges of the last numbers return the number stored before in every reachable
    state. -/
theorem reachable_lastOk (hs : Reachable (step messages) .init s) : LastOk s := by
  apply hs.invariant
  · exact ⟨fun _ => rfl, by simp [State.init]⟩
  · intro s a s' _ h hstep
    cases a with
    | callback k => exact callbackStep_lastOk h hstep
    | close =>
      cases hstep
      exact ⟨h.last, h.previous⟩

/-- No gap has been counted and no callback is about to add one. -/
structure Quiet (s : State eventTypeLast) : Prop where
  seqGaps : s.stats.seqGaps = 0
  callback : ∀ k amount, s.callback k ≠ .addGaps amount

/-- A callback that moves on without a gap to add. -/
theorem Quiet.move (h : Quiet s) {stats : Stats eventTypeLast} {pc : RecordPc eventTypeLast}
    {stored : Stream eventTypeLast → List (Nat × UInt64)}
    (hgaps : stats.seqGaps = s.stats.seqGaps) (hpc : ∀ amount, pc ≠ .addGaps amount) :
    Quiet { s with stats, callback := Function.update s.callback k pc, stored } where
  seqGaps := hgaps.trans h.seqGaps
  callback k' amount := by
    rcases eq_or_ne k' k with rfl | hne
    · simpa using hpc amount
    · simpa [hne] using h.callback k' amount

/-- A number at most one ahead makes no gap. -/
theorem isGap_eq_false {seen : Bool} {previous number : UInt64}
    (h : seen = true → number ≤ previous + 1) : isGap seen previous number = false := by
  cases seen with
  | false => rfl
  | true => simpa [isGap] using h rfl

theorem callbackStep_quiet (h : Quiet s) (hlast : LastOk s) (hahead : OneAhead (.callback k) s)
    (hstep : callbackStep k m s = some s') : Quiet s' := by
  cases hpc : s.callback k with
  | idle | exchangeLast =>
    simp only [callbackStep, hpc, Option.some.injEq] at hstep
    subst hstep
    exact h.move rfl (by simp)
  | loadClosed =>
    simp only [callbackStep, hpc] at hstep
    split_ifs at hstep
    · cases hstep
      exact h.move rfl (by simp)
    · split at hstep <;> cases hstep <;> exact h.move rfl (by simp)
  | exchangeSeen stream number previous =>
    simp only [OneAhead, hpc, ← hlast.previous k stream number previous hpc] at hahead
    simp only [callbackStep, hpc, isGap_eq_false hahead, Option.some.injEq] at hstep
    subst hstep
    exact h.move rfl (by simp)
  | addGaps amount => exact absurd hpc (h.callback k amount)
  | done => simp [callbackStep, hpc] at hstep

/-- What the steps that meet the condition reach, all steps reach. -/
theorem reachable_of_ordered (hs : Reachable (orderedStep messages) .init s) :
    Reachable (step messages) .init s := by
  refine hs.invariant .init fun s a s' _ ih hstep => ?_
  simp only [orderedStep] at hstep
  split_ifs at hstep
  exact ih.step hstep

/-- Gaps are invented by the steps that do not meet the condition, and by no others:

    * in every run whose steps all meet the condition, no gap is counted,
    * in every reachable state, a callback that does not meet the condition goes on to add a
      gap that is not zero. -/
theorem no_gaps_invented :
    (∀ s : State eventTypeLast, Reachable (orderedStep messages) .init s →
      s.stats.seqGaps = 0) ∧
    (∀ s : State eventTypeLast, Reachable (step messages) .init s →
      ∀ k, ¬ OneAhead (.callback k) s → ∃ amount ≠ 0, ∃ s',
        step messages (.callback k) s = some s' ∧ s'.callback k = .addGaps amount) := by
  refine ⟨fun s hs => ?_, fun s hs k hnot => ?_⟩
  · have hquiet : Quiet s := by
      refine hs.invariant ⟨rfl, by simp [State.init]⟩ fun s a s' hs h hstep => ?_
      have hlast := reachable_lastOk (reachable_of_ordered hs)
      simp only [orderedStep] at hstep
      split_ifs at hstep with hahead
      cases a with
      | callback k => exact callbackStep_quiet h hlast hahead hstep
      | close =>
        cases hstep
        exact ⟨h.seqGaps, h.callback⟩
    exact hquiet.seqGaps
  · have hlast := reachable_lastOk hs
    cases hpc : s.callback k with
    | exchangeSeen stream number previous =>
      simp only [OneAhead, hpc, ← hlast.previous k stream number previous hpc,
        Classical.not_imp, UInt64.not_le] at hnot
      obtain ⟨hseen, hgt⟩ := hnot
      have hgap : isGap (s.stats.tally stream).seen previous number = true := by
        simp [isGap, hseen, hgt]
      refine ⟨number - previous - 1, fun hzero => ?_, _, by
        simp only [step, callbackStep, hpc, hgap]; rfl, by simp⟩
      -- Only the successor differs from its predecessor by one
      have hsucc : number = previous + 1 := by grind
      exact UInt64.lt_irrefl _ (hsucc ▸ hgt)
    | _ => simp [OneAhead, hpc] at hnot

/-- Both callbacks store their numbers in order, and set the flag in order. -/
def flagInOrder : List Action :=
  [.callback 0, .callback 0, .callback 0, .callback 1, .callback 1, .callback 1, .callback 0,
    .callback 1]

/-- With the flag set in order, interleaved callbacks leave no gap. -/
theorem no_gaps_invented_in_order :
    let s : State 1 := TransitionSystem.final (orderedStep fromFive) flagInOrder .init
      (by decide +kernel)
    s.finished 2 ∧ s.stats.seqGaps = 0 := by
  intro s
  refine ⟨⟨by decide +kernel, fun k hk => ?_⟩, no_gaps_invented.1 s (.final _)⟩
  obtain ⟨i, rfl⟩ := Nat.exists_eq_add_of_le hk
  rw [Nat.add_comm]
  rfl

end EndpointSecurity.SequenceGaps
