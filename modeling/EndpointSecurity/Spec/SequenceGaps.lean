import EndpointSecurity.ForStd.Gaps
import EndpointSecurity.Native.SequenceGaps
import Mathlib.Algebra.BigOperators.Group.Finset.Piecewise

/-!
# Gap counting is exact for in-order delivery

Messages handled one after another: what is kept of a stream is its last number, and the
counter is the sum of what is missing from the streams, modulo `2 ^ 64`.

## Key results

- `gaps_exact`: the counter is exact when every stream is increasing
-/

namespace EndpointSecurity.SequenceGaps

variable {eventTypeLast : Nat}

/-! ## The numbers of a stream -/

/-- The numbers of stream `k` among some messages. -/
def numbers (k : Stream eventTypeLast) (ms : List Message) : List UInt64 :=
  ms.filterMap fun m => (m.stream eventTypeLast).bind fun (k', number) =>
    if k' = k then some number else none

/-- How many numbers are missing from stream `k`. -/
def missing (k : Stream eventTypeLast) (ms : List Message) : Nat :=
  Gaps.missing ((numbers k ms).map UInt64.toNat)

/-- The messages are delivered in order. -/
def InOrder (eventTypeLast : Nat) (ms : List Message) : Prop :=
  ∀ k : Stream eventTypeLast, (numbers k ms).Pairwise (· < ·)

/-- What is kept of a stream with these numbers. -/
def tallyOf (ns : List UInt64) : Tally :=
  match ns.getLast? with
  | none => ⟨0, false⟩
  | some last => ⟨last, true⟩

variable {k : Stream eventTypeLast} {ms : List Message} {m : Message} {number : UInt64}

@[simp] theorem numbers_append (k : Stream eventTypeLast) (ms ms' : List Message) :
    numbers k (ms ++ ms') = numbers k ms ++ numbers k ms' := List.filterMap_append ..

/-- A message adds its number to its own stream only. -/
theorem numbers_singleton (k : Stream eventTypeLast) {k' : Stream eventTypeLast}
    (hm : m.stream eventTypeLast = some (k', number)) :
    numbers k [m] = if k' = k then [number] else [] := by
  simp only [numbers, List.filterMap_cons, List.filterMap_nil, hm, Option.bind_some]
  split_ifs <;> rfl

/-- A message of no stream adds no number. -/
theorem numbers_uncounted (k : Stream eventTypeLast)
    (hm : m.stream eventTypeLast = none) : numbers k [m] = [] := by
  simp [numbers, hm]

theorem InOrder.left {ms' : List Message} (h : InOrder eventTypeLast (ms ++ ms')) :
    InOrder eventTypeLast ms := by
  intro k
  have hk := h k
  rw [numbers_append] at hk
  exact (List.pairwise_append.mp hk).1

/-! ## One message -/

/-- What a number adds to the counter. -/
def added (tally : Tally) (number : UInt64) : UInt64 :=
  if isGap tally.seen tally.last number then number - tally.last - 1 else 0

variable {s : Stats eventTypeLast} {ns : List UInt64}

/-- A counted message updates its own stream and adds its gap. -/
theorem recordSequenceGaps_counted (hm : m.stream eventTypeLast = some (k, number)) :
    recordSequenceGaps s m = { s with
      tally := Function.update s.tally k ⟨number, true⟩
      seqGaps := s.seqGaps + added (s.tally k) number } := by
  simp only [recordSequenceGaps, hm, added, Stats.exchangeLast, Stats.exchangeSeen,
    Stats.addGaps, Function.update_self, Function.update_idem]
  split_ifs <;> simp

/-- Any other message changes nothing. -/
theorem recordSequenceGaps_uncounted (hm : m.stream eventTypeLast = none) :
    recordSequenceGaps s m = s := by
  simp only [recordSequenceGaps, hm]

/-- A drop is counted elsewhere. -/
theorem handleMessage_open (refused : Bool) :
    (handleMessage false s m refused).tally = (recordSequenceGaps s m).tally ∧
      (handleMessage false s m refused).seqGaps = (recordSequenceGaps s m).seqGaps := by
  cases refused <;> exact ⟨rfl, rfl⟩

/-- The last number of an increasing stream that goes on is not the greatest of all, so the
    comparison does not wrap around. -/
theorem tallyOf_last_lt (hinc : (ns ++ [number]).Pairwise (· < ·)) (hseen : (tallyOf ns).seen) :
    (tallyOf ns).last < number ∧ (tallyOf ns).last.toNat + 1 < 2 ^ 64 := by
  cases hlast : ns.getLast? with
  | none => simp [tallyOf, hlast] at hseen
  | some last =>
    have hlt : last < number :=
      (List.pairwise_append.mp hinc).2.2 last (List.mem_of_getLast? hlast) number
        List.mem_cons_self
    have hnat : last.toNat < number.toNat := hlt
    have hmax : number.toNat < 2 ^ 64 := number.toNat_lt
    simp only [tallyOf, hlast]
    exact ⟨hlt, by omega⟩

/-- The number that follows an increasing stream adds exactly what is missing before it. -/
theorem added_tallyOf (hinc : (ns ++ [number]).Pairwise (· < ·)) :
    (added (tallyOf ns) number).toNat = Gaps.before (ns.map UInt64.toNat) number.toNat := by
  cases hlast : ns.getLast? with
  | none => simp [added, isGap, tallyOf, Gaps.before, hlast]
  | some last =>
    have hbound := tallyOf_last_lt hinc (by simp [tallyOf, hlast])
    simp only [tallyOf, hlast] at hbound
    have hlt : last.toNat < number.toNat := hbound.1
    have hsucc : (last + 1).toNat = last.toNat + 1 := by
      rw [UInt64.toNat_add]
      exact Nat.mod_eq_of_lt hbound.2
    simp only [added, isGap, tallyOf, hlast, Gaps.before, List.getLast?_map, Option.map_some,
      Bool.true_and, decide_eq_true_eq, gt_iff_lt, UInt64.lt_iff_toNat_lt, hsucc]
    split_ifs with hgap
    · have hsub : (number - last).toNat = number.toNat - last.toNat :=
        UInt64.toNat_sub_of_le _ _ (UInt64.le_iff_toNat_le.mpr (Nat.le_of_lt hlt))
      have hone : (1 : UInt64) ≤ number - last := by
        rw [UInt64.le_iff_toNat_le, hsub]
        exact Nat.sub_pos_of_lt hlt
      rw [UInt64.toNat_sub_of_le _ _ hone, hsub]
      rfl
    · have hnext : number.toNat = last.toNat + 1 := by omega
      rw [hnext]
      simp

/-! ## All messages -/

/-- What the client keeps after the messages `ms`. -/
structure Counted (ms : List Message) (s : Stats eventTypeLast) : Prop where
  tally : ∀ k, s.tally k = tallyOf (numbers k ms)
  seqGaps : s.seqGaps.toNat = (∑ k : Stream eventTypeLast, missing k ms) % 2 ^ 64

theorem counted_init : Counted [] (.init : Stats eventTypeLast) where
  tally _ := rfl
  seqGaps := by simp [missing, numbers, Gaps.missing, Stats.init]

/-- One more message keeps the account. -/
theorem Counted.handle (h : Counted ms s) (hinc : InOrder eventTypeLast (ms ++ [m]))
    (refused : Bool) : Counted (ms ++ [m]) (handleMessage false s m refused) := by
  obtain ⟨htally, hgaps⟩ := handleMessage_open (s := s) (m := m) refused
  cases hm : m.stream eventTypeLast with
  | none =>
    have hsame : ∀ k : Stream eventTypeLast, numbers k (ms ++ [m]) = numbers k ms := by
      intro k
      rw [numbers_append, numbers_uncounted k hm, List.append_nil]
    rw [recordSequenceGaps_uncounted hm] at htally hgaps
    refine ⟨fun k => ?_, ?_⟩
    · rw [htally, hsame, h.tally]
    · simp only [missing, hsame, hgaps]
      exact h.seqGaps
  | some counted =>
    obtain ⟨k, number⟩ := counted
    rw [recordSequenceGaps_counted hm] at htally hgaps
    have hk : numbers k (ms ++ [m]) = numbers k ms ++ [number] := by
      rw [numbers_append, numbers_singleton k hm, if_pos rfl]
    have hother : ∀ k', k ≠ k' → numbers k' (ms ++ [m]) = numbers k' ms := by
      intro k' hne
      rw [numbers_append, numbers_singleton k' hm, if_neg hne, List.append_nil]
    have hinck : (numbers k ms ++ [number]).Pairwise (· < ·) := hk ▸ hinc k
    -- The stream of the message misses what its number adds, the others what they missed
    have hmissing : ∀ k', missing k' (ms ++ [m]) = missing k' ms +
        if k' = k then (added (s.tally k) number).toNat else 0 := by
      intro k'
      rcases eq_or_ne k' k with rfl | hne
      · have hmap : ((numbers k' ms ++ [number]).map UInt64.toNat).Pairwise (· < ·) :=
          List.pairwise_map.mpr (hinck.imp fun hlt => UInt64.lt_iff_toNat_lt.mp hlt)
        rw [if_pos rfl, missing, hk, List.map_append, List.map_singleton,
          Gaps.missing_concat (by simpa using hmap), h.tally, added_tallyOf hinck, missing]
      · rw [if_neg hne, missing, hother k' hne.symm, missing, Nat.add_zero]
    dsimp only at htally hgaps
    refine ⟨fun k' => ?_, ?_⟩
    · rw [htally, Function.update_apply]
      split_ifs with hkk
      · rw [hkk, hk]
        simp [tallyOf]
      · rw [hother k' (Ne.symm hkk), h.tally]
    · rw [hgaps, UInt64.toNat_add, h.seqGaps, Finset.sum_congr rfl fun k' _ => hmissing k',
        Finset.sum_add_distrib, Finset.sum_ite_eq' Finset.univ k]
      simp

/-- All messages, handled in order. -/
theorem counted_handleAll (l : List (Message × Bool))
    (hinc : InOrder eventTypeLast (l.map Prod.fst)) :
    Counted (l.map Prod.fst) (handleAll l : Stats eventTypeLast) := by
  induction l using List.reverseRecOn with
  | nil => exact counted_init
  | append_singleton l m ih =>
    rw [List.map_append, List.map_singleton] at hinc ⊢
    rw [handleAll, List.foldl_append]
    exact (ih hinc.left).handle hinc m.2

/-- Messages that count for a stream. -/
def Message.counted (eventTypeLast : Nat) (m : Message) : Bool :=
  (m.stream eventTypeLast).isSome

/-- The messages that count, none of them refused. -/
def countedOnly (eventTypeLast : Nat) (l : List (Message × Bool)) : List (Message × Bool) :=
  ((l.map Prod.fst).filter (Message.counted eventTypeLast)).map fun m => (m, false)

/-- Messages of no stream have no numbers. -/
theorem numbers_filter (k : Stream eventTypeLast) (ms : List Message) :
    numbers k (ms.filter (Message.counted eventTypeLast)) = numbers k ms := by
  rw [numbers, List.filterMap_filter]
  congr 1
  funext m
  cases hm : m.stream eventTypeLast <;> simp [Message.counted, hm]

/-- Gap counting is exact for in-order delivery. For every list of messages, each refused by
    the queue or not, that are handled one after another on an open client, such that the
    numbers of every stream are strictly increasing,

    * the counter is the sum over the streams of what is missing from them, modulo `2 ^ 64`,
    * no comparison wraps around,
    * leaving out the messages of no stream, and the refusals, makes no difference. -/
theorem gaps_exact (l : List (Message × Bool)) (hinc : InOrder eventTypeLast (l.map Prod.fst)) :
    let s : Stats eventTypeLast := handleAll l
    s.seqGaps.toNat = (∑ k : Stream eventTypeLast, missing k (l.map Prod.fst)) % 2 ^ 64 ∧
    (∀ before m refused after (k : Stream eventTypeLast) number,
      l = before ++ (m, refused) :: after → m.stream eventTypeLast = some (k, number) →
      ((handleAll before).tally k).seen → ((handleAll before).tally k).last.toNat + 1 < 2 ^ 64) ∧
    (handleAll (countedOnly eventTypeLast l)).tally = s.tally ∧
    (handleAll (countedOnly eventTypeLast l) : Stats eventTypeLast).seqGaps = s.seqGaps := by
  intro s
  have h := counted_handleAll l hinc
  have hfst : (countedOnly eventTypeLast l).map Prod.fst =
      (l.map Prod.fst).filter (Message.counted eventTypeLast) := by
    simp [countedOnly, Function.comp_def]
  have hnumbers : ∀ k : Stream eventTypeLast,
      numbers k ((countedOnly eventTypeLast l).map Prod.fst) = numbers k (l.map Prod.fst) := by
    intro k
    rw [hfst, numbers_filter]
  have hcounted : InOrder eventTypeLast ((countedOnly eventTypeLast l).map Prod.fst) := by
    intro k
    rw [hnumbers]
    exact hinc k
  have h' := counted_handleAll (countedOnly eventTypeLast l) hcounted
  refine ⟨h.seqGaps, ?_, funext fun k => ?_, UInt64.toNat.inj ?_⟩
  · intro before m refused after k number hl hm hseen
    have hsplit : l.map Prod.fst = (before.map Prod.fst ++ [m]) ++ after.map Prod.fst := by
      simp [hl]
    have hbefore : InOrder eventTypeLast (before.map Prod.fst ++ [m]) := (hsplit ▸ hinc).left
    have hpast := counted_handleAll before hbefore.left
    have hk := hbefore k
    rw [numbers_append, numbers_singleton k hm, if_pos rfl] at hk
    rw [hpast.tally] at hseen ⊢
    exact (tallyOf_last_lt hk hseen).2
  · rw [h'.tally, h.tally, hnumbers]
  · rw [h'.seqGaps, h.seqGaps]
    simp only [missing, hnumbers]

/-- Numbers 5, 6 and 9 for all events, 1 and 4 for event type 0, a refusal and a message of
    version 1: four numbers are missing. -/
theorem gaps_exact_four :
    (handleAll [(⟨4, 0, 0, 5⟩, false), (⟨2, 0, 1, 0⟩, false), (⟨4, 1, 0, 6⟩, true),
      (⟨1, 0, 7, 7⟩, false), (⟨3, 0, 4, 0⟩, false), (⟨4, 0, 0, 9⟩, false)] : Stats 2).seqGaps.toNat
      = 4 := by
  have h := @gaps_exact 2 [(⟨4, 0, 0, 5⟩, false), (⟨2, 0, 1, 0⟩, false),
    (⟨4, 1, 0, 6⟩, true), (⟨1, 0, 7, 7⟩, false), (⟨3, 0, 4, 0⟩, false), (⟨4, 0, 0, 9⟩, false)]
    (by unfold InOrder; decide +kernel)
  exact h.1.trans (by decide +kernel)

end EndpointSecurity.SequenceGaps
