import Mathlib.Data.Finset.Card

/-!
# Counters

A counter that a program keeps of something is exact when the things that it counts are a finite
set of that size. This file gives the steps by which a counter stays exact.

## Key results

- `Tally.succ`: one more thing is counted
- `Tally.or`: the sum of two counters
- `Tally.part`: what is counted has finite parts only
-/

/-- There are `n` things that satisfy `P`. -/
def Tally {α : Type _} (n : Nat) (P : α → Prop) : Prop :=
  ∃ F : Finset α, F.card = n ∧ ∀ a, a ∈ F ↔ P a

namespace Tally

variable {α : Type _} {m n : Nat} {P Q : α → Prop}

theorem zero (h : ∀ a, ¬P a) : Tally 0 P :=
  ⟨∅, Finset.card_empty, fun a => by simpa using h a⟩

theorem congr (h : Tally n P) (hsame : ∀ a, Q a ↔ P a) : Tally n Q := by
  obtain ⟨F, hcard, hmem⟩ := h
  exact ⟨F, hcard, fun a => (hmem a).trans (hsame a).symm⟩

/-- One more thing has come to satisfy the property. -/
theorem succ (h : Tally n P) {b : α} (hnew : ¬P b) (hsame : ∀ a, Q a ↔ a = b ∨ P a) :
    Tally (n + 1) Q := by
  classical
  obtain ⟨F, hcard, hmem⟩ := h
  have hb : b ∉ F := (hmem b).not.mpr hnew
  refine ⟨insert b F, ?_, fun a => ?_⟩
  · rw [Finset.card_insert_of_notMem hb, hcard]
  · rw [Finset.mem_insert, hmem a, hsame a]

/-- Nothing is counted by both of two counters. -/
theorem or (hP : Tally m P) (hQ : Tally n Q) (hdisjoint : ∀ a, P a → ¬Q a) :
    Tally (m + n) fun a => P a ∨ Q a := by
  classical
  obtain ⟨F, hcardF, hmemF⟩ := hP
  obtain ⟨G, hcardG, hmemG⟩ := hQ
  refine ⟨F ∪ G, ?_, fun a => ?_⟩
  · have hdisj : Disjoint F G := Finset.disjoint_left.mpr fun a hF hG =>
      hdisjoint a ((hmemF a).mp hF) ((hmemG a).mp hG)
    rw [Finset.card_union_of_disjoint hdisj, hcardF, hcardG]
  · rw [Finset.mem_union, hmemF, hmemG]

/-- Some of the things that are counted. -/
theorem part (h : Tally n P) (hpart : ∀ a, Q a → P a) : ∃ m ≤ n, Tally m Q := by
  classical
  obtain ⟨F, hcard, hmem⟩ := h
  refine ⟨(F.filter Q).card, ?_, F.filter Q, rfl, fun a => ?_⟩
  · rw [← hcard]
    exact Finset.card_filter_le F Q
  · rw [Finset.mem_filter, hmem a]
    exact ⟨And.right, fun hQ => ⟨hpart a hQ, hQ⟩⟩

/-- The things that the numbers below `n` have been given out to. -/
theorem of_range {f : Nat → α} (hP : ∀ a, P a ↔ ∃ p < n, f p = a)
    (hinjective : ∀ p < n, ∀ q < n, f p = f q → p = q) : Tally n P := by
  classical
  refine ⟨(Finset.range n).image f, ?_, fun a => ?_⟩
  · have hinj : Set.InjOn f (Finset.range n) := fun p hp q hq =>
      hinjective p (by simpa using hp) q (by simpa using hq)
    rw [Finset.card_image_of_injOn hinj, Finset.card_range]
  · rw [hP a]
    simp

end Tally
