import EndpointSecurity.Ruby.Availability

/-!
# Which comment a version comes from (`codegen/ir.rb`, `lib/endpoint_security/availability.rb`)

In the header a comment says from which macOS on the events below it exist, and it holds until
the next such comment. The scan goes through the lines with the version of the latest comment,
and a name that stands in several lines, or once more in a comment, has the version of the last
of them.

## Key results

- `lookup_scanAvailabilityLines`: the version of a name comes from the latest comment up to the
  last line that names it
- `isEventName_of_scanned`: what has a version is the name of an event
- `atLeast_trans`: a later macOS is at least what an earlier one is
-/

namespace EndpointSecurity.Codegen

open Regex

variable {w : WordClass}

/-! ## Names -/

/-- The names that `EVENT` matches -/
def IsEventName (name : String) : Prop :=
  ∃ rest : List Char, name.toList = "ES_EVENT_TYPE_".toList ++ rest ∧ ∀ c ∈ rest, isConstant c

theorem isEventName_of_eventNamed {line : List Char} {name : String}
    (h : eventNamed w line = some name) : IsEventName name := by
  obtain ⟨found, hfound, hhead⟩ := Option.bind_eq_some_iff.mp h
  obtain ⟨group, hgroup, rfl⟩ := Option.map_eq_some_iff.mp hhead
  obtain ⟨-, hm⟩ := search_sound hfound
  simp only [eventConstant, Regex.all, Matches, matches_literal, matches_many1] at hm
  -- Between the two looks, the group has the prefix and the longest rest
  obtain ⟨_, _, _, _, ⟨-, -, rfl⟩, ⟨_, _, _, _, ⟨_, ⟨_, _, _, _, ⟨rfl, rfl⟩,
    ⟨rest, _, _, _, ⟨-, hrest, rfl⟩, ⟨rfl, rfl⟩, rfl, rfl⟩, rfl, rfl⟩, rfl⟩, -, -, rfl⟩, -,
    hgroups⟩ := hm
  rw [hgroups] at hgroup
  cases hgroup
  exact ⟨rest, by rw [String.toList_ofList, List.append_nil], hrest⟩

/-! ## The lines -/

/-- The lines that are read: up to the one that ends the enumeration. -/
def eventLines : List (List Char) → List (List Char)
  | [] => []
  | line :: lines => if endsEvents line then [line] else line :: eventLines lines

/-- The version of the last of the comments -/
def lastAvailable (lines : List (List Char)) : Option String :=
  lines.reverse.findSome? availableIn

/-- The name stands last in a line where the latest comment has given the version. -/
def AvailableFrom (w : WordClass) (lines : List (List Char)) (name : String)
    (version : Option String) : Prop :=
  ∃ before line after, lines = before ++ line :: after ∧ eventNamed w line = some name ∧
    (∀ l ∈ after, eventNamed w l ≠ some name) ∧ version = lastAvailable (before ++ [line])

/-- What a line does to `current` and `versions`. -/
def scanAvailabilityLine (w : WordClass) (state : Option String × Availability)
    (line : List Char) : Option String × Availability :=
  let current := (availableIn line).or state.1
  (current, recordEvent w current line state.2)

variable {current : Option String} {versions : Availability} {lines : List (List Char)}
  {name : String} {version : Option String}

theorem scanAvailabilityLines_eq : scanAvailabilityLines w current versions lines =
    ((eventLines lines).foldl (scanAvailabilityLine w) (current, versions)).2 := by
  induction lines generalizing current versions with
  | nil => rfl
  | cons line lines ih =>
    rw [scanAvailabilityLines, eventLines]
    cases endsEvents line with
    | true => rfl
    | false => exact ih

theorem lastAvailable_append (line : List Char) :
    lastAvailable (lines ++ [line]) = (availableIn line).or (lastAvailable lines) := by
  rw [lastAvailable, List.reverse_append, List.reverse_singleton, List.singleton_append,
    List.findSome?_cons]
  cases availableIn line with
  | none => rw [Option.none_or, lastAvailable]
  | some version => rw [Option.some_or]

theorem foldl_scanAvailabilityLine_fst (lines : List (List Char)) :
    (lines.foldl (scanAvailabilityLine w) (none, [])).1 = lastAvailable lines := by
  induction lines using List.reverseRecOn with
  | nil => rfl
  | append_singleton lines line ih =>
    rw [List.foldl_concat, lastAvailable_append, ← ih, scanAvailabilityLine]

theorem lookup_recordEvent {line : List Char} :
    (recordEvent w current line versions).lookup name =
      if eventNamed w line = some name ∧ name ≠ lastConstant then some current
      else versions.lookup name := by
  rw [recordEvent]
  cases hnamed : eventNamed w line with
  | none => simp
  | some other =>
    by_cases hlast : other = lastConstant
    · simp only [hlast, if_true, Option.some.injEq]
      rw [if_neg (fun h => h.2 h.1.symm)]
    · simp only [if_neg hlast, Hash.lookup_store, Option.some.injEq]
      by_cases heq : name = other
      · rw [if_pos heq, if_pos ⟨heq.symm, heq ▸ hlast⟩]
      · rw [if_neg heq, if_neg (fun h => heq h.1.symm)]

theorem availableFrom_append {line : List Char} :
    AvailableFrom w (lines ++ [line]) name version ↔
      (eventNamed w line = some name ∧ version = lastAvailable (lines ++ [line])) ∨
      (eventNamed w line ≠ some name ∧ AvailableFrom w lines name version) := by
  constructor
  · rintro ⟨before, l, after, heq, hnamed, hafter, hversion⟩
    rcases List.eq_nil_or_concat after with rfl | ⟨after, l', rfl⟩
    · obtain ⟨rfl, hl⟩ := List.append_inj' heq rfl
      cases hl
      exact .inl ⟨hnamed, hversion⟩
    · rw [List.concat_eq_append] at heq hafter
      rw [← List.cons_append, ← List.append_assoc] at heq
      obtain ⟨rfl, hl⟩ := List.append_inj' heq rfl
      cases hl
      refine .inr ⟨hafter _ (by simp), before, l, after, rfl, hnamed, ?_, hversion⟩
      exact fun x hx => hafter x (List.mem_append_left _ hx)
  · rintro (⟨hnamed, hversion⟩ | ⟨hnot, before, l, after, rfl, hnamed, hafter, hversion⟩)
    · exact ⟨lines, line, [], rfl, hnamed, by simp, hversion⟩
    · refine ⟨before, l, after ++ [line], by simp, hnamed, ?_, hversion⟩
      intro x hx
      rcases List.mem_append.mp hx with hx | hx
      · exact hafter x hx
      · rw [List.mem_singleton.mp hx]
        exact hnot

theorem lookup_foldl_scanAvailabilityLine (lines : List (List Char)) :
    (lines.foldl (scanAvailabilityLine w) (none, [])).2.lookup name = some version ↔
      name ≠ lastConstant ∧ AvailableFrom w lines name version := by
  induction lines using List.reverseRecOn with
  | nil => simp [AvailableFrom]
  | append_singleton lines line ih =>
    rw [List.foldl_concat, scanAvailabilityLine, lookup_recordEvent, availableFrom_append,
      lastAvailable_append, foldl_scanAvailabilityLine_fst]
    by_cases hlast : name = lastConstant
    · rw [if_neg (fun h => h.2 hlast), ih]
      tauto
    · by_cases hnamed : eventNamed w line = some name
      · rw [if_pos ⟨hnamed, hlast⟩, Option.some.injEq]
        tauto
      · rw [if_neg (fun h => hnamed h.1), ih]
        tauto

/-- A name has the version of the latest comment up to the last line that names it. -/
theorem lookup_scanAvailabilityLines :
    (scanAvailabilityLines w none [] lines).lookup name = some version ↔
      name ≠ lastConstant ∧ AvailableFrom w (eventLines lines) name version := by
  rw [scanAvailabilityLines_eq, lookup_foldl_scanAvailabilityLine]

/-- What has a version is the name of an event. -/
theorem isEventName_of_scanned
    (h : (scanAvailabilityLines w none [] lines).lookup name = some version) :
    IsEventName name := by
  obtain ⟨-, _, _, _, -, hnamed, -⟩ := lookup_scanAvailabilityLines.mp h
  exact isEventName_of_eventNamed hnamed

end EndpointSecurity.Codegen

/-! ## Versions of macOS -/

namespace EndpointSecurity.Availability

theorem atLeast_nil_left {a : List Nat} (h : atLeast [] a) : ∀ b, atLeast b a := by
  induction a with
  | nil =>
    intro b
    cases b <;> rfl
  | cons x a ih =>
    rw [atLeast, List.all_cons, Bool.and_eq_true, beq_iff_eq] at h
    obtain ⟨rfl, ha⟩ := h
    intro b
    cases b with
    | nil => simpa [atLeast] using ha
    | cons y b =>
      rw [atLeast]
      split
      · exact ih ha b
      · simp only [decide_eq_true_eq]
        omega

/-- Without a version in the header an event exists everywhere. -/
theorem atLeast_empty (a : List Nat) : atLeast a (version "") = true :=
  atLeast_nil_left (a := []) rfl a

/-- A later macOS is at least what an earlier one is. -/
theorem atLeast_trans {a b c : List Nat} (hab : atLeast a b) (hbc : atLeast b c) :
    atLeast a c := by
  induction c generalizing a b with
  | nil => cases a <;> rfl
  | cons z c ih =>
    cases b with
    | nil => exact atLeast_nil_left hbc a
    | cons y b =>
      cases a with
      | nil =>
        rw [atLeast, List.all_cons, Bool.and_eq_true, beq_iff_eq] at hab
        obtain ⟨rfl, hb⟩ := hab
        rw [atLeast] at hbc
        split at hbc
        · next hz =>
          rw [atLeast, List.all_cons, ← hz, beq_self_eq_true, Bool.true_and]
          exact ih (a := []) hb hbc
        · simp at hbc
      | cons x a =>
        rw [atLeast] at hab hbc ⊢
        split at hab
        · next hxy =>
          subst hxy
          split at hbc
          · next hxz => exact if_pos hxz ▸ ih hab hbc
          · next hxz =>
            rw [if_neg hxz]
            exact hbc
        · next hxy =>
          rw [decide_eq_true_eq] at hab
          split at hbc
          · next hyz =>
            subst hyz
            rw [if_neg hxy, decide_eq_true_eq]
            exact hab
          · rw [decide_eq_true_eq] at hbc
            rw [if_neg (by omega), decide_eq_true_eq]
            omega

end EndpointSecurity.Availability
