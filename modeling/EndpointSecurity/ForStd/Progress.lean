import EndpointSecurity.ForStd.TransitionSystem

/-!
# What a system can still come to

An invariant says what no run leads to. This file is about the other direction: that from where
a system is now, some of its parties can bring it to a state with a wanted property, whatever
the others do or fail to do. An action is a party together with an input, which its surroundings
choose anew for every step: `act b i` is the step of party `b` with input `i`. A rank that the
parties decrease, whatever the inputs, shows that they get there.

## Key results

- `Completes.of_rank`: one party alone gets there, within as many steps as its rank allows
- `CanReach.of_rank`: several parties get there when each round of theirs decreases the rank
-/

namespace TransitionSystem

variable {σ α β ι : Type _} {step : α → σ → Option σ} {act : β → ι → α} {fits : ι → Prop}
  {parties : β → Prop} {P Q : σ → Prop} {init s s' : σ} {b : β} {n : Nat}

/-- Whatever inputs that fit it is given, at most `n` steps of one party alone lead to a state
    with the property, and each of these steps can be made. -/
def Completes (step : α → σ → Option σ) (act : ι → α) (fits : ι → Prop) (P : σ → Prop) :
    Nat → σ → Prop
  | 0, s => P s
  | n + 1, s => P s ∨
      ∀ i, fits i → ∃ s', step (act i) s = some s' ∧ Completes step act fits P n s'

/-- Steps of some of the parties lead to a state with the property. Which party comes next may
    depend on the inputs so far, and every input that fits is possible at each step. -/
inductive CanReach (step : α → σ → Option σ) (act : β → ι → α) (fits : ι → Prop)
    (parties : β → Prop) (P : σ → Prop) : σ → Prop where
  | now {s : σ} (h : P s) : CanReach step act fits parties P s
  | next {s : σ} {b : β} (after : ι → σ) (hb : parties b)
      (hstep : ∀ i, fits i → step (act b i) s = some (after i))
      (h : ∀ i, fits i → CanReach step act fits parties P (after i)) :
      CanReach step act fits parties P s

/-- A party makes a step. -/
theorem CanReach.turn (hb : parties b)
    (h : ∀ i, fits i → ∃ s', step (act b i) s = some s' ∧ CanReach step act fits parties P s') :
    CanReach step act fits parties P s := by
  have hafter : ∀ i s', step (act b i) s = some s' → (step (act b i) s).getD s = s' := by
    intro i s' hstep
    rw [hstep, Option.getD_some]
  apply CanReach.next (fun i => (step (act b i) s).getD s) hb
  · intro i hi
    obtain ⟨s', hstep, -⟩ := h i hi
    rw [hafter i s' hstep, hstep]
  · intro i hi
    obtain ⟨s', hstep, hreach⟩ := h i hi
    rw [hafter i s' hstep]
    exact hreach

/-- More parties reach more. -/
theorem CanReach.allow {parties' : β → Prop} (h : CanReach step act fits parties P s)
    (hall : ∀ b, parties b → parties' b) : CanReach step act fits parties' P s := by
  induction h with
  | now h => exact .now h
  | next after hb hstep _ ih => exact .next after (hall _ hb) hstep ih

/-- What is reached with more inputs is reached with fewer. -/
theorem CanReach.restrict {fits' : ι → Prop} (h : CanReach step act fits parties P s)
    (hfits : ∀ i, fits' i → fits i) : CanReach step act fits' parties P s := by
  induction h with
  | now h => exact .now h
  | next after hb hstep _ ih =>
    exact .next after hb (fun i hi => hstep i (hfits i hi)) fun i hi => ih i (hfits i hi)

/-- What can be reached from all that can be reached can be reached. -/
theorem CanReach.bind (hs : Reachable step init s) (h : CanReach step act fits parties P s)
    (hnext : ∀ t, Reachable step init t → P t → CanReach step act fits parties Q t) :
    CanReach step act fits parties Q s := by
  induction h with
  | now h => exact hnext _ hs h
  | next after hb hstep _ ih =>
    exact .next after hb hstep fun i hi => ih i hi (hs.step (hstep i hi))

/-- What every step of the parties preserves still holds when the property is reached. -/
theorem CanReach.keeping {K : σ → Prop} (h : CanReach step act fits parties P s) (hK : K s)
    (hkeep : ∀ s b i s', parties b → step (act b i) s = some s' → K s → K s') :
    CanReach step act fits parties (fun t => P t ∧ K t) s := by
  induction h with
  | now h => exact .now ⟨h, hK⟩
  | next after hb hstep _ ih =>
    exact .next after hb hstep fun i hi => ih i hi (hkeep _ _ i _ hb (hstep i hi) hK)

/-- If from wherever the property does not hold yet the rank can be brought down, then the
    property can be reached. -/
theorem CanReach.of_rank {I : σ → Prop} (rank : σ → Nat)
    (hdown : ∀ s, Reachable step init s → I s → ¬P s →
      CanReach step act fits parties (fun t => I t ∧ rank t < rank s) s)
    (hs : Reachable step init s) (hI : I s) : CanReach step act fits parties P s := by
  induction hr : rank s using Nat.strongRecOn generalizing s with
  | ind n ih =>
    subst hr
    by_cases hP : P s
    · exact .now hP
    · apply (hdown s hs hI hP).bind hs
      rintro t ht ⟨hI', hlt⟩
      exact ih _ hlt ht hI' rfl

/-! ## One party alone -/

/-- If wherever the property does not hold yet every step of the party establishes it or brings
    the rank down, then the party establishes it within one step more than the rank. -/
theorem Completes.of_rank {act : ι → α} {I : σ → Prop} (rank : σ → Nat)
    (hdown : ∀ s i, Reachable step init s → I s → ¬P s → fits i →
      ∃ s', step (act i) s = some s' ∧ (P s' ∨ I s' ∧ rank s' < rank s))
    (hs : Reachable step init s) (hI : I s) (hlt : rank s < n) :
    Completes step act fits P n s := by
  induction n generalizing s with
  | zero => omega
  | succ n ih =>
    by_cases hP : P s
    · exact .inl hP
    · refine .inr fun i hi => ?_
      obtain ⟨s', hstep, hP' | ⟨hI', hdown'⟩⟩ := hdown s i hs hI hP hi
      · refine ⟨s', hstep, ?_⟩
        cases n with
        | zero => exact hP'
        | succ n => exact .inl hP'
      · exact ⟨s', hstep, ih (hs.step hstep) hI' (by omega)⟩

/-- What one party completes can be reached. -/
theorem Completes.canReach (h : Completes step (act b) fits P n s) (hb : parties b) :
    CanReach step act fits parties P s := by
  induction n generalizing s with
  | zero => exact .now h
  | succ n ih =>
    obtain hP | hsteps := h
    · exact .now hP
    · apply CanReach.turn hb
      intro i hi
      obtain ⟨s', hstep, hrest⟩ := hsteps i hi
      exact ⟨s', hstep, ih hrest⟩

end TransitionSystem
