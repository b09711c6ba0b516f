import Mathlib.Data.List.Infix

/-!
# The first and the last occurrence of a pattern in a list

`strstr` is the C function on lists: what is left of the text from the first occurrence of the
pattern on. What stands before the end of that occurrence is the one prefix of the text that
ends in the pattern and has no shorter prefix that does.

`rindex` looks for the last occurrence that starts at an index or before it, and `fromLast` is
what is left of the text from the last occurrence on.
-/

namespace Substring

variable {α : Type*} {text pattern u v : List α}

/-- The list ends in the pattern, and none of its proper prefixes does. -/
def EndsOnce (pattern u : List α) : Prop :=
  pattern <:+ u ∧ ∀ v, v <+: u → pattern <:+ v → v = u

/-- The pattern ends in itself once: every prefix that ends in it is as long. -/
theorem endsOnce_self (pattern : List α) : EndsOnce pattern pattern :=
  ⟨List.suffix_refl _, fun _ hv hp => hv.eq_of_length_le hp.length_le⟩

/-- Of two prefixes of one text that end in the pattern once, neither is the shorter. -/
theorem EndsOnce.eq_of_within (hu : EndsOnce pattern u) (hv : EndsOnce pattern v)
    (hut : u <+: text) (hvt : v <+: text) : u = v := by
  -- The shorter one is a prefix of the longer
  rcases Nat.le_total u.length v.length with h | h
  · exact hv.2 u (List.prefix_of_prefix_length_le hut hvt h) hu.1
  · exact (hu.2 v (List.prefix_of_prefix_length_le hvt hut h) hv.1).symm

/-- One more element in front, where the pattern does not start with it. -/
theorem EndsOnce.cons {c : α} (hu : EndsOnce pattern u) (h : ¬ pattern <+: c :: u) :
    EndsOnce pattern (c :: u) := by
  refine ⟨hu.1.trans (List.suffix_cons c u), fun v hv hp => ?_⟩
  -- A prefix that ends in the pattern is the pattern, which does not stand in front, or has it
  -- behind its first element
  cases v with
  | nil => exact absurd (List.suffix_nil.mp hp ▸ List.nil_prefix) h
  | cons d v =>
    obtain ⟨rfl, hvu⟩ := List.cons_prefix_cons.mp hv
    rcases List.suffix_cons_iff.mp hp with rfl | hp
    · exact absurd hv h
    · rw [hu.2 v hvu hp]

/-- A list that ends in the pattern has a prefix that ends in it once. -/
theorem exists_endsOnce (h : pattern <:+ text) : ∃ u, u <+: text ∧ EndsOnce pattern u := by
  induction hn : text.length using Nat.strong_induction_on generalizing text with
  | _ n ih =>
    by_cases hv : ∀ v, v <+: text → pattern <:+ v → v = text
    · exact ⟨text, List.prefix_refl _, h, hv⟩
    · -- A shorter prefix that ends in the pattern has one in turn
      push Not at hv
      obtain ⟨v, hvt, hpv, hne⟩ := hv
      have hlt : v.length < n := by
        have := hvt.length_le
        have := mt hvt.eq_of_length hne
        omega
      obtain ⟨u, huv, hu⟩ := ih v.length hlt hpv rfl
      exact ⟨u, huv.trans hvt, hu⟩

/-! ## Searching -/

variable [DecidableEq α]

/-- `strstr` -/
def strstr : List α → List α → Option (List α)
  | [], pattern => if pattern = [] then some [] else none
  | c :: text, pattern => if pattern <+: c :: text then some (c :: text) else strstr text pattern

theorem strstr_start (h : pattern <+: text) : strstr text pattern = some text := by
  cases text with
  | nil => simp [strstr, List.prefix_nil.mp h]
  | cons c text => simp [strstr, h]

theorem strstr_cons_next {c : α} (h : ¬ pattern <+: c :: text) :
    strstr (c :: text) pattern = strstr text pattern := by
  simp [strstr, h]

theorem strstr_suffix (h : strstr text pattern = some u) : u <:+ text := by
  induction text with
  | nil =>
    unfold strstr at h
    split at h <;> simp_all
  | cons c text ih =>
    unfold strstr at h
    split at h
    · exact (Option.some.inj h) ▸ List.suffix_refl _
    · exact (ih h).trans (List.suffix_cons c text)

theorem prefix_of_strstr (h : strstr text pattern = some u) : pattern <+: u := by
  induction text with
  | nil =>
    unfold strstr at h
    split at h <;> simp_all
  | cons c text ih =>
    unfold strstr at h
    split at h
    · next hp => exact (Option.some.inj h) ▸ hp
    · exact ih h

/-- The text up to the end of the first occurrence. -/
def takeThrough (text pattern : List α) : Option (List α) :=
  (strstr text pattern).map fun rest =>
    text.take (text.length - rest.length + pattern.length)

theorem takeThrough_start (h : pattern <+: text) : takeThrough text pattern = some pattern := by
  simp [takeThrough, strstr_start h, ← List.prefix_iff_eq_take.mp h]

theorem takeThrough_cons {c : α} (h : ¬ pattern <+: c :: text) :
    takeThrough (c :: text) pattern = (takeThrough text pattern).map (c :: ·) := by
  unfold takeThrough
  rw [strstr_cons_next h]
  cases hs : strstr text pattern with
  | none => rfl
  | some rest =>
    have : rest.length ≤ text.length := (strstr_suffix hs).length_le
    -- What is cut off in front is one element longer
    have : text.length + 1 - rest.length + pattern.length =
        text.length - rest.length + pattern.length + 1 := by
      omega
    simp [this]

private theorem sound_takeThrough (h : takeThrough text pattern = some u) :
    u <+: text ∧ EndsOnce pattern u := by
  induction text generalizing u with
  | nil =>
    -- The first occurrence is in front, or that of the text behind the first element
    by_cases hp : pattern <+: []
    · rw [takeThrough_start hp, Option.some.injEq] at h
      exact h ▸ ⟨hp, endsOnce_self pattern⟩
    · simp_all [takeThrough, strstr]
  | cons c text ih =>
    by_cases hp : pattern <+: c :: text
    · rw [takeThrough_start hp, Option.some.injEq] at h
      exact h ▸ ⟨hp, endsOnce_self pattern⟩
    · rw [takeThrough_cons hp] at h
      obtain ⟨v, hv, rfl⟩ := Option.map_eq_some_iff.mp h
      have hvt : c :: v <+: c :: text := List.cons_prefix_cons.mpr ⟨rfl, (ih hv).1⟩
      exact ⟨hvt, (ih hv).2.cons fun h => hp (h.trans hvt)⟩

private theorem complete_takeThrough (hut : u <+: text) (hu : EndsOnce pattern u) :
    takeThrough text pattern = some u := by
  induction text generalizing u with
  | nil =>
    obtain rfl := List.prefix_nil.mp hut
    have hp : pattern <+: [] := by rw [List.suffix_nil.mp hu.1]
    rw [takeThrough_start hp, (endsOnce_self pattern).eq_of_within hu hp hut]
  | cons c text ih =>
    by_cases hp : pattern <+: c :: text
    · rw [takeThrough_start hp, (endsOnce_self pattern).eq_of_within hu hp hut]
    · -- The prefix starts with the first element, which the pattern does not
      cases u with
      | nil => exact absurd (List.suffix_nil.mp hu.1 ▸ List.nil_prefix) hp
      | cons d v =>
        obtain ⟨rfl, hvt⟩ := List.cons_prefix_cons.mp hut
        have hsuffix : pattern <:+ v := by
          rcases List.suffix_cons_iff.mp hu.1 with rfl | h
          · exact absurd hut hp
          · exact h
        have hv : EndsOnce pattern v := by
          refine ⟨hsuffix, fun w hw hpw => ?_⟩
          have := hu.2 (d :: w) (List.cons_prefix_cons.mpr ⟨rfl, hw⟩)
            (hpw.trans (List.suffix_cons d w))
          exact (List.cons.inj this).2
        rw [takeThrough_cons hp, ih hvt hv, Option.map_some]

/-- The text up to the end of the first occurrence is its prefix that ends in the pattern
    once. -/
theorem takeThrough_eq_some_iff :
    takeThrough text pattern = some u ↔ u <+: text ∧ EndsOnce pattern u :=
  ⟨sound_takeThrough, fun h => complete_takeThrough h.1 h.2⟩

theorem takeThrough_self : takeThrough u pattern = some u ↔ EndsOnce pattern u := by
  simp [takeThrough_eq_some_iff]

instance : Decidable (EndsOnce pattern u) := decidable_of_iff _ takeThrough_self

theorem isSome_strstr : (strstr text pattern).isSome ↔ pattern <:+: text := by
  induction text with
  | nil =>
    rw [strstr, List.infix_nil]
    split_ifs with h <;> simp [h]
  | cons c text ih =>
    by_cases h : pattern <+: c :: text
    · simp [strstr_start h, h.isInfix]
    · rw [strstr_cons_next h, ih, List.infix_cons_iff]
      exact (or_iff_right h).symm

/-! ## The last occurrence -/

/-- The last index up to `n` at which the pattern starts. -/
def rindex (text pattern : List α) : Nat → Option Nat
  | 0 => if pattern <+: text then some 0 else none
  | n + 1 => if pattern <+: text.drop (n + 1) then some (n + 1) else rindex text pattern n

/-- The text from the last occurrence of the pattern on. -/
def fromLast (pattern text : List α) : Option (List α) :=
  (rindex text pattern text.length).map text.drop

variable {n i : Nat} {a b t : List α}

theorem rindex_eq_some : rindex text pattern n = some i ↔
    i ≤ n ∧ pattern <+: text.drop i ∧ ∀ j, i < j → j ≤ n → ¬ pattern <+: text.drop j := by
  -- Induction on the index from which the pattern is looked for to the left
  induction n with
  | zero =>
    rw [rindex]
    split_ifs with h
    · constructor
      · rintro ⟨⟩
        exact ⟨Nat.le_refl 0, h, fun j hj hj' => by omega⟩
      · rintro ⟨hi, -, -⟩
        rw [Nat.le_zero.mp hi]
    · constructor
      · nofun
      · rintro ⟨hi, hp, -⟩
        rw [Nat.le_zero.mp hi] at hp
        exact absurd hp h
  | succ n ih =>
    rw [rindex]
    split_ifs with h
    · constructor
      · rintro ⟨⟩
        exact ⟨Nat.le_refl _, h, fun j hj hj' => by omega⟩
      · rintro ⟨hi, -, hlast⟩
        -- An index below the last one where the pattern starts is not the last
        rcases Nat.lt_or_eq_of_le hi with hlt | rfl
        · exact absurd h (hlast _ hlt (Nat.le_refl _))
        · rfl
    · rw [ih]
      constructor
      · rintro ⟨hi, hp, hlast⟩
        refine ⟨Nat.le_succ_of_le hi, hp, fun j hj hj' => ?_⟩
        rcases Nat.lt_or_eq_of_le hj' with hlt | rfl
        · exact hlast j hj (Nat.lt_succ_iff.mp hlt)
        · exact h
      · rintro ⟨hi, hp, hlast⟩
        have hne : i ≠ n + 1 := by
          rintro rfl
          exact h hp
        exact ⟨by omega, hp, fun j hj hj' => hlast j hj (Nat.le_succ_of_le hj')⟩

theorem rindex_eq_none :
    rindex text pattern n = none ↔ ∀ j ≤ n, ¬ pattern <+: text.drop j := by
  induction n with
  | zero =>
    rw [rindex]
    split_ifs with h <;> simp [h]
  | succ n ih =>
    rw [rindex]
    split_ifs with h
    · exact ⟨nofun, fun hall => absurd h (hall _ (Nat.le_refl _))⟩
    · rw [ih]
      constructor
      · intro hall j hj
        rcases Nat.lt_or_eq_of_le hj with hlt | rfl
        · exact hall j (Nat.lt_succ_iff.mp hlt)
        · exact h
      · exact fun hall j hj => hall j (Nat.le_succ_of_le hj)

/-- Texts in which the pattern starts at the same indices. -/
theorem rindex_congr {text' : List α}
    (h : ∀ j ≤ n, pattern <+: text.drop j ↔ pattern <+: text'.drop j) :
    rindex text pattern n = rindex text' pattern n := by
  induction n with
  | zero =>
    have hzero : pattern <+: text ↔ pattern <+: text' := h 0 (Nat.le_refl 0)
    simp only [rindex, hzero]
  | succ n ih =>
    rw [rindex, rindex, ih fun j hj => h j (Nat.le_succ_of_le hj)]
    simp only [h (n + 1) (Nat.le_refl _)]

/-- No occurrence of the pattern starts in `a`, or behind it, and goes on in `b`. -/
def Apart (pattern a b : List α) : Prop :=
  ∀ u v, pattern = u ++ v → v ≠ [] → u <:+ a → ¬ v <+: b

omit [DecidableEq α] in
theorem apart_of_head (h : ∀ c ∈ b.head?, c ∉ pattern) : Apart pattern a b := by
  rintro u v rfl hne - ⟨w, rfl⟩
  cases v with
  | nil => exact hne rfl
  | cons c v => exact h c (by simp) (by simp)

omit [DecidableEq α] in
/-- Where nothing goes on behind it, a text has the occurrences that it has alone. -/
theorem Apart.prefix_drop_iff (h : Apart pattern a b) {j : Nat} (hj : j ≤ a.length) :
    pattern <+: (a ++ b).drop j ↔ pattern <+: a.drop j := by
  rw [List.drop_append_of_le_length hj]
  constructor
  · intro hp
    rcases Nat.le_total pattern.length (a.drop j).length with hle | hle
    · exact List.prefix_of_prefix_length_le hp (List.prefix_append ..) hle
    · -- The part of the pattern that does not fit goes on in `b`
      obtain ⟨v, rfl⟩ := List.prefix_of_prefix_length_le (List.prefix_append (a.drop j) b) hp hle
      have hvb : v <+: b := (List.prefix_append_right_inj _).mp hp
      by_cases hv : v = []
      · rw [hv, List.append_nil]
      · exact absurd hvb (h _ v rfl hv (List.drop_suffix ..))
  · exact fun hp => hp.trans (List.prefix_append ..)

theorem Apart.rindex_append (h : Apart pattern a b) :
    rindex (a ++ b) pattern a.length = rindex a pattern a.length :=
  rindex_congr fun _ hj => h.prefix_drop_iff hj

/-- What stands before the last occurrence does not matter. -/
theorem fromLast_append_of_some (h : fromLast pattern b = some t) :
    fromLast pattern (a ++ b) = some t := by
  obtain ⟨i, hi, rfl⟩ := Option.map_eq_some_iff.mp h
  obtain ⟨hle, hp, hlast⟩ := rindex_eq_some.mp hi
  have hdrop : ∀ j, (a ++ b).drop (a.length + j) = b.drop j := fun j => by
    rw [← List.drop_drop, List.drop_left]
  -- The indices in the second text are those behind the length of the first
  have hfound : rindex (a ++ b) pattern (a ++ b).length = some (a.length + i) := by
    rw [rindex_eq_some, List.length_append, hdrop]
    refine ⟨by omega, hp, fun j hj hj' => ?_⟩
    obtain ⟨k, rfl⟩ := Nat.exists_eq_add_of_le (show a.length ≤ j by omega)
    rw [hdrop]
    exact hlast k (by omega) (by omega)
  rw [fromLast, hfound, Option.map_some, hdrop]

/-- A text without an occurrence stands behind the last one. -/
theorem fromLast_append_of_none (hpattern : pattern ≠ []) (hapart : Apart pattern a b)
    (h : fromLast pattern b = none) :
    fromLast pattern (a ++ b) = (fromLast pattern a).map (· ++ b) := by
  -- Behind the first text there is only an occurrence that the second text does not have
  have hnone : ∀ j, a.length < j → ¬ pattern <+: (a ++ b).drop j := by
    intro j hj hp
    obtain ⟨k, rfl⟩ := Nat.exists_eq_add_of_le (Nat.le_of_lt hj)
    rw [← List.drop_drop, List.drop_left] at hp
    rcases Nat.le_total k b.length with hk | hk
    · exact rindex_eq_none.mp (Option.map_eq_none_iff.mp h) k hk hp
    · rw [List.drop_eq_nil_of_le hk] at hp
      exact hpattern (List.prefix_nil.mp hp)
  -- So the search comes to the first text, where it finds what is there alone
  have hsame : rindex (a ++ b) pattern (a ++ b).length = rindex a pattern a.length := by
    rw [← hapart.rindex_append]
    cases hr : rindex (a ++ b) pattern a.length with
    | none =>
      rw [rindex_eq_none] at hr ⊢
      intro j hj
      rcases Nat.lt_or_ge a.length j with hlt | hge
      · exact hnone j hlt
      · exact hr j hge
    | some i =>
      obtain ⟨hle, hp, hlast⟩ := rindex_eq_some.mp hr
      rw [rindex_eq_some]
      refine ⟨by rw [List.length_append]; omega, hp, fun j hj hj' => ?_⟩
      rcases Nat.lt_or_ge a.length j with hlt | hge
      · exact hnone j hlt
      · exact hlast j hj hge
  rw [fromLast, hsame, fromLast, Option.map_map]
  cases hr : rindex a pattern a.length with
  | none => rfl
  | some i =>
    have hle := (rindex_eq_some.mp hr).1
    -- The occurrence is within the first text, which is all before the second
    simp [List.drop_append_of_le_length hle]

/-- There is a last occurrence iff there is one. -/
theorem fromLast_eq_none_iff : fromLast pattern text = none ↔ ¬ pattern <:+: text := by
  rw [fromLast, Option.map_eq_none_iff, rindex_eq_none]
  constructor
  · -- An occurrence starts behind what stands before it
    rintro hall ⟨front, back, rfl⟩
    refine hall front.length (by simp) ?_
    rw [List.append_assoc, List.drop_left]
    exact List.prefix_append ..
  · intro hnot j _ hp
    exact hnot (hp.isInfix.trans (List.drop_suffix ..).isInfix)

omit [DecidableEq α] in
/-- Where the front ends in an element that the pattern does not have, no occurrence starts in
    the front and goes on behind it. -/
theorem infix_append_iff_of_last (h : ∀ c ∈ a.getLast?, c ∉ pattern) :
    pattern <:+: a ++ b ↔ pattern <:+: a ∨ pattern <:+: b := by
  rw [List.infix_append_iff_ne_nil]
  constructor
  · rintro (ha | hb | ⟨l, l', hl, -, rfl, hla, -⟩)
    · exact .inl ha
    · exact .inr hb
    · -- The part in the front ends as the front does
      exfalso
      obtain ⟨front, rfl⟩ := hla
      refine h (l.getLast hl) ?_ (List.mem_append_left _ (List.getLast_mem hl))
      rw [List.getLast?_append_of_ne_nil _ hl, List.getLast?_eq_some_getLast hl]
      rfl
  · exact fun h => h.imp id .inl

end Substring
