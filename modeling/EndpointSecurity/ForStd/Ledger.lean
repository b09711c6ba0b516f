import Mathlib.Logic.Function.Basic
import Mathlib.Data.List.Count

/-!
# Ledgers of resources

A program acquires resources (memory, descriptors, locks, threads), uses them and releases them.
Its ledger is the list of what it has done with each, newest first. A ledger is in order when
nothing is acquired that is held already, and nothing is used or released that is not held.

## Key results

- `held_uses`, `held_acquires`, `held_releases`: several resources at once
- `held_returned`: what is given back leaves no trace
- `count_of_held`: a resource that is not held has been released as often as acquired
-/

namespace Ledger

/-- What a program does with a resource. -/
inductive Event (ρ : Type _) where
  | acquire (r : ρ)
  | use (r : ρ)
  | release (r : ρ)
  deriving DecidableEq, Repr

variable {ρ : Type _} [DecidableEq ρ]

/-- What is held after one more event, if the event is in order. -/
def step : Event ρ → (ρ → Bool) → Option (ρ → Bool)
  | .acquire r, hold => if hold r then none else some (Function.update hold r true)
  | .use r, hold => if hold r then some hold else none
  | .release r, hold => if hold r then some (Function.update hold r false) else none

/-- What is held after the events of a ledger, if all of them were in order. -/
def held : List (Event ρ) → Option (ρ → Bool)
  | [] => some fun _ => false
  | e :: ledger => (held ledger).bind (step e)

variable {ledger : List (Event ρ)} {hold hold' : ρ → Bool} {rs : List ρ} {r : ρ}

/-! ## One event -/

theorem held_use (h : held ledger = some hold) (hr : hold r) :
    held (.use r :: ledger) = some hold := by
  rw [held, h, Option.bind_some, step, if_pos hr]

theorem held_acquire (h : held ledger = some hold) (hr : hold r = false)
    (hold' : ρ → Bool) (hsame : ∀ a, hold' a = if a = r then true else hold a) :
    held (.acquire r :: ledger) = some hold' := by
  rw [held, h, Option.bind_some, step, if_neg (by simp [hr])]
  congr 1
  funext a
  rw [hsame, Function.update_apply]

theorem held_release (h : held ledger = some hold) (hr : hold r)
    (hold' : ρ → Bool) (hsame : ∀ a, hold' a = if a = r then false else hold a) :
    held (.release r :: ledger) = some hold' := by
  rw [held, h, Option.bind_some, step, if_pos hr]
  congr 1
  funext a
  rw [hsame, Function.update_apply]

/-! ## Several events -/

/-- Everything that is used is held. -/
theorem held_uses (rs : List ρ) (h : held ledger = some hold) (hrs : ∀ r ∈ rs, hold r) :
    held (rs.map .use ++ ledger) = some hold := by
  induction rs with
  | nil => exact h
  | cons r rs ih =>
    obtain ⟨hr, hrs⟩ := List.forall_mem_cons.mp hrs
    exact held_use (ih hrs) hr

/-- Several resources are acquired, none of them held. -/
theorem held_acquires (h : held ledger = some hold) (hrs : ∀ r ∈ rs, hold r = false)
    (hnodup : rs.Nodup) (hsame : ∀ a, hold' a = (decide (a ∈ rs) || hold a)) :
    held (rs.map .acquire ++ ledger) = some hold' := by
  induction rs generalizing hold' with
  | nil =>
    rw [List.map_nil, List.nil_append, h]
    congr 1
    funext a
    simp [hsame]
  | cons r rs ih =>
    obtain ⟨hr, hrs⟩ := List.forall_mem_cons.mp hrs
    obtain ⟨hnotin, hnodup⟩ := List.nodup_cons.mp hnodup
    refine held_acquire (ih hrs hnodup fun _ => rfl) (by simp [hr, hnotin]) _ fun a => ?_
    rw [hsame]
    by_cases heq : a = r <;> simp [heq]

/-- Several resources are released, all of them held. -/
theorem held_releases (h : held ledger = some hold) (hrs : ∀ r ∈ rs, hold r)
    (hnodup : rs.Nodup) (hsame : ∀ a, hold' a = (hold a && decide (a ∉ rs))) :
    held (rs.map .release ++ ledger) = some hold' := by
  induction rs generalizing hold' with
  | nil =>
    rw [List.map_nil, List.nil_append, h]
    congr 1
    funext a
    simp [hsame]
  | cons r rs ih =>
    obtain ⟨hr, hrs⟩ := List.forall_mem_cons.mp hrs
    obtain ⟨hnotin, hnodup⟩ := List.nodup_cons.mp hnodup
    refine held_release (ih hrs hnodup fun _ => rfl) (by simp [hr, hnotin]) _ fun a => ?_
    rw [hsame]
    by_cases heq : a = r <;> simp [heq]

/-- What is acquired and given back in any order leaves the ledger as it was. -/
theorem held_returned {rs' us : List ρ} (h : held ledger = some hold)
    (hrs : ∀ r ∈ rs, hold r = false) (hnodup : rs.Nodup) (hperm : rs'.Perm rs)
    (hus : ∀ r ∈ us, r ∈ rs) :
    held (rs'.map .release ++ (us.map .use ++ (rs.map .acquire ++ ledger))) = some hold := by
  refine held_releases (held_uses us (held_acquires h hrs hnodup fun _ => rfl) fun r hr => ?_)
    (fun r hr => ?_) (hperm.nodup_iff.mpr hnodup) fun a => ?_
  · simp [hus r hr]
  · simp [hperm.subset hr]
  · by_cases ha : a ∈ rs
    · simp [ha, hperm.mem_iff, hrs a ha]
    · simp [ha, hperm.mem_iff]

/-! ## Whole ledgers -/

/-- A resource has been acquired as often as it has been released, and once more if it is held. -/
theorem count_of_held (h : held ledger = some hold) (r : ρ) :
    ledger.count (.acquire r) = ledger.count (.release r) + (hold r).toNat := by
  induction ledger generalizing hold with
  | nil =>
    cases h
    rfl
  | cons e ledger ih =>
    obtain ⟨before, hbefore, hstep⟩ := Option.bind_eq_some_iff.mp h
    have hcount := ih hbefore
    cases e with
    | acquire a =>
      simp only [step] at hstep
      split_ifs at hstep with ha
      cases hstep
      rcases eq_or_ne a r with rfl | hne
      · have hnot : before a = false := by simpa using ha
        simp [hcount, hnot]
      · simp [hcount, hne, hne.symm]
    | use a =>
      simp only [step] at hstep
      split_ifs at hstep
      cases hstep
      simp [hcount]
    | release a =>
      simp only [step] at hstep
      split_ifs at hstep with ha
      cases hstep
      rcases eq_or_ne a r with rfl | hne
      · simp [hcount, ha]
      · simp [hcount, hne, hne.symm]

end Ledger
