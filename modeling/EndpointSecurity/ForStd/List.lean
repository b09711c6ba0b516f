import Mathlib.Data.List.Nodup

/-!
# List lemmas

A search by a key that no two elements of the list have, the longest start of a list whose
elements are of one class, and selections of elements by what they are mapped to.
-/

namespace List

variable {α β : Type} [DecidableEq β] {f : α → β} {xs : List α} {x : α}

/-- An element is found by its key when the keys are distinct. -/
theorem find?_key_of_nodup (h : (xs.map f).Nodup) (hx : x ∈ xs) :
    xs.find? (f · = f x) = some x := by
  cases hfind : xs.find? (f · = f x) with
  | none => simpa using List.find?_eq_none.mp hfind x hx
  | some y =>
    have hy : f y = f x := by simpa using List.find?_some hfind
    rw [List.inj_on_of_nodup_map h (List.mem_of_find?_eq_some hfind) hx hy]

/-- Where the keys are distinct, the order of the elements does not matter. -/
theorem find?_key_reverse (h : (xs.map f).Nodup) (b : β) :
    xs.reverse.find? (f · = b) = xs.find? (f · = b) := by
  have hreverse : (xs.reverse.map f).Nodup := by
    rw [List.map_reverse]
    exact List.nodup_reverse.mpr h
  cases hfind : xs.find? (f · = b) with
  | none =>
    rw [List.find?_eq_none] at hfind ⊢
    exact fun x hx => hfind x (List.mem_reverse.mp hx)
  | some x =>
    obtain rfl : f x = b := by simpa using List.find?_some hfind
    exact find?_key_of_nodup hreverse (List.mem_reverse.mpr (List.mem_of_find?_eq_some hfind))

/-- Where the keys are distinct, a search behind a choice of elements is one before it. -/
theorem find?_filterMap_key {γ : Type} {g : α → Option γ} {k : γ → β}
    (hk : ∀ x y, g x = some y → k y = f x) (h : (xs.map f).Nodup) (b : β) :
    (xs.filterMap g).find? (k · = b) = (xs.find? (f · = b)).bind g := by
  induction xs with
  | nil => rfl
  | cons x xs ih =>
    rw [List.map_cons, List.nodup_cons] at h
    by_cases hx : f x = b
    · rw [List.find?_cons_of_pos (by simpa using hx), Option.bind_some]
      cases hg : g x with
      | none =>
        -- No other element has the key of this one
        have hnone : xs.find? (f · = b) = none := by
          rw [List.find?_eq_none]
          intro y hy heq
          exact h.1 (List.mem_map.mpr ⟨y, hy, (of_decide_eq_true heq).trans hx.symm⟩)
        rw [List.filterMap_cons_none hg, ih h.2, hnone, Option.bind_none]
      | some y =>
        rw [List.filterMap_cons_some hg]
        exact List.find?_cons_of_pos (by simpa [hk x y hg] using hx)
    · rw [List.find?_cons_of_neg (by simpa using hx), ← ih h.2]
      cases hg : g x with
      | none => rw [List.filterMap_cons_none hg]
      | some y =>
        rw [List.filterMap_cons_some hg]
        exact List.find?_cons_of_neg (by simpa [hk x y hg] using hx)

/-- A choice of elements that keeps the keys keeps their order. -/
theorem map_filterMap_sublist {γ κ : Type} {f : α → κ} {g : α → Option γ} {k : γ → κ}
    (hk : ∀ x y, g x = some y → k y = f x) (xs : List α) :
    ((xs.filterMap g).map k).Sublist (xs.map f) := by
  induction xs with
  | nil => exact List.Sublist.refl _
  | cons x xs ih =>
    rw [List.map_cons]
    cases hg : g x with
    | none =>
      rw [List.filterMap_cons_none hg]
      exact ih.cons _
    | some y =>
      rw [List.filterMap_cons_some hg, List.map_cons, hk x y hg]
      exact ih.cons_cons _

/-- The elements of a list, of several with one key the first. -/
def uniqBy (f : α → β) : List α → List α
  | [] => []
  | x :: xs => x :: (uniqBy f xs).filter (f · ≠ f x)

theorem find?_uniqBy (xs : List α) (b : β) :
    (uniqBy f xs).find? (f · = b) = xs.find? (f · = b) := by
  induction xs with
  | nil => rfl
  | cons x xs ih =>
    rw [uniqBy]
    by_cases hx : f x = b
    · rw [List.find?_cons_of_pos (by simpa using hx), List.find?_cons_of_pos (by simpa using hx)]
    · rw [List.find?_cons_of_neg (by simpa using hx), List.find?_cons_of_neg (by simpa using hx),
        ← ih, List.find?_filter]
      -- What is filtered out does not have the key that is looked for
      congr 1
      funext y
      by_cases hy : f y = b
      · have hne : ¬ b = f x := fun h => hx h.symm
        simp [hy, hne]
      · simp [hy]

theorem nodup_uniqBy (xs : List α) : ((uniqBy f xs).map f).Nodup := by
  induction xs with
  | nil => exact List.nodup_nil
  | cons x xs ih =>
    rw [uniqBy, List.map_cons, List.nodup_cons]
    constructor
    · intro hmem
      obtain ⟨y, hy, heq⟩ := List.mem_map.mp hmem
      exact of_decide_eq_true (List.mem_filter.mp hy).2 heq
    · exact ih.sublist (List.filter_sublist.map f)

variable {γ : Type*} {p : γ → Bool} {u v a b : List γ}

theorem takeWhile_append_of_head (hu : ∀ c ∈ u, p c) (ha : ∀ c ∈ a.head?, ¬ p c) :
    (u ++ a).takeWhile p = u := by
  rw [List.takeWhile_append_of_pos hu]
  cases a with
  | nil => simp
  | cons c a => simp [ha c (by simp)]

theorem forall_mem_head?_cons {q : γ → Prop} {c : γ} (hc : q c) : ∀ d ∈ (c :: a).head?, q d := by
  intro d hd
  obtain rfl : c = d := by simpa using hd
  exact hc

/-- What a list starts with of one class, up to an element of another, is determined. -/
theorem append_inj_of_class (h : u ++ a = v ++ b) (hu : ∀ c ∈ u, p c) (hv : ∀ c ∈ v, p c)
    (ha : ∀ c ∈ a.head?, ¬ p c) (hb : ∀ c ∈ b.head?, ¬ p c) : u = v ∧ a = b := by
  have huv : u = v := by
    rw [← takeWhile_append_of_head hu ha, h, takeWhile_append_of_head hv hb]
  subst huv
  exact ⟨rfl, List.append_cancel_left h⟩

/-- Behind a list without the element, the element stands where it does in the rest. -/
theorem append_eq_append_cons_of_not_mem {c : γ} (hc : c ∉ u) (h : u ++ a = v ++ c :: b) :
    ∃ w, v = u ++ w ∧ a = w ++ c :: b := by
  rcases List.append_eq_append_iff.mp h with ⟨w, hv, ha⟩ | ⟨w, hu, hb⟩
  · exact ⟨w, hv, ha⟩
  · cases w with
    | nil => exact ⟨[], by rw [hu, List.append_nil, List.append_nil], hb.symm⟩
    | cons d w =>
      obtain ⟨rfl, -⟩ := List.cons.inj hb
      exact absurd (by rw [hu]; simp) hc

/-- Two tests that depend on what the elements are mapped to select the same iff they agree. -/
theorem map_filter_eq_iff {δ : Type*} {g : γ → δ} {xs : List γ} {p q : γ → Bool}
    (hp : ∀ x y, g x = g y → p x = p y) (hq : ∀ x y, g x = g y → q x = q y) :
    (xs.filter p).map g = (xs.filter q).map g ↔ ∀ x ∈ xs, p x = q x := by
  constructor
  · intro heq x hx
    have hmem : ∀ r : γ → Bool, (∀ x y, g x = g y → r x = r y) →
        (g x ∈ (xs.filter r).map g ↔ r x) := by
      intro r hr
      constructor
      · intro hmap
        obtain ⟨y, hy, hxy⟩ := List.mem_map.mp hmap
        rw [hr x y hxy.symm]
        exact (List.mem_filter.mp hy).2
      · exact fun hrx => List.mem_map_of_mem (List.mem_filter.mpr ⟨hx, hrx⟩)
    rw [Bool.eq_iff_iff, ← hmem p hp, ← hmem q hq, heq]
  · intro hall
    rw [List.filter_congr hall]

end List
