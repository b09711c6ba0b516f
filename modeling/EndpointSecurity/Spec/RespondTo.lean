import EndpointSecurity.Ruby.ObjectModel

/-!
# What a view responds to

`method_missing` and `respond_to_missing?` each work out by themselves which field a method name
stands for. They agree on every name with a question mark. Without one, `respond_to_missing?`
also accepts the name of a predicate field that lacks its `is_`, which `method_missing` does not
resolve.

## Key results

- `Resolves`: which field a method name stands for
- `missing_of_resolves`, `missing_of_not_resolves`: `method_missing` goes by it
- `respondToMissing_agrees_iff`: when `respond_to_missing?` does
-/

namespace EndpointSecurity.ObjectModel

/-- The field that a method name stands for. -/
inductive Resolves (names : List String) : String → String → Prop
  | bare {x : String} : ¬ "?".toList <:+ x.toList → x ∈ names → Resolves names x x
  | predicate {x : String} : "is_" ++ x ∈ names → Resolves names (x ++ "?") ("is_" ++ x)
  | marked {x : String} : "is_" ++ x ∉ names → x ∈ names → Resolves names (x ++ "?") x

namespace View

/-! ## Question marks -/

variable {x name field : String}

theorem endsWithMark_iff : endsWithMark name = true ↔ "?".toList <:+ name.toList := by
  simp [endsWithMark]

@[simp] theorem endsWithMark_append (x : String) : endsWithMark (x ++ "?") = true := by
  rw [endsWithMark_iff, String.toList_append]
  exact List.suffix_append ..

@[simp] theorem deleteMark_append (x : String) : deleteMark (x ++ "?") = x := by
  rw [deleteMark, if_pos (endsWithMark_append x), String.toList_append]
  simp

theorem mark_inj {y : String} (h : x ++ "?" = y ++ "?") : y = x := by
  rw [← deleteMark_append y, ← h, deleteMark_append]

theorem deleteMark_of_bare (h : ¬ "?".toList <:+ name.toList) : deleteMark name = name := by
  rw [deleteMark, if_neg (mt endsWithMark_iff.mp h)]

/-- A name that ends in a question mark is another name with one. -/
theorem exists_of_marked (h : "?".toList <:+ name.toList) : ∃ x, name = x ++ "?" := by
  obtain ⟨front, hfront⟩ := h
  refine ⟨.ofList front, String.toList_injective ?_⟩
  rw [String.toList_append, String.toList_ofList, hfront]

/-! ## The two methods -/

variable {w : View Value}

theorem missing_of_bare (h : ¬ "?".toList <:+ name.toList) :
    w.missing name =
      if name ∈ w.fieldNames then (w.readField name).map wrapArray
      else .error (.noMethod name) := by
  have hmark : endsWithMark name = false := by
    rw [Bool.eq_false_iff]
    exact mt endsWithMark_iff.mp h
  simp [missing, deleteMark_of_bare h, hmark]

theorem missing_of_marked :
    w.missing (x ++ "?") =
      if "is_" ++ x ∈ w.fieldNames then (w.readField ("is_" ++ x)).map wrapArray
      else if x ∈ w.fieldNames then (w.readField x).map wrapArray
      else .error (.noMethod (x ++ "?")) := by
  by_cases his : "is_" ++ x ∈ w.fieldNames <;> simp [missing, his]

/-- For a name without its question mark it is the method that the accessors use. -/
theorem missing_eq_methodMissing (h : ¬ "?".toList <:+ name.toList) :
    w.missing name = w.methodMissing name false := by
  simp [missing_of_bare h, methodMissing]

theorem missing_of_resolves (h : Resolves w.fieldNames name field) :
    w.missing name = (w.readField field).map wrapArray := by
  cases h with
  | bare hbare hmem => rw [missing_of_bare hbare, if_pos hmem]
  | predicate his => rw [missing_of_marked, if_pos his]
  | marked his hmem => rw [missing_of_marked, if_neg his, if_pos hmem]

theorem missing_of_not_resolves (h : ∀ field, ¬ Resolves w.fieldNames name field) :
    w.missing name = .error (.noMethod name) := by
  by_cases hmark : "?".toList <:+ name.toList
  · obtain ⟨x, rfl⟩ := exists_of_marked hmark
    have his : "is_" ++ x ∉ w.fieldNames := fun his => h _ (.predicate his)
    have hx : x ∉ w.fieldNames := fun hx => h _ (.marked his hx)
    rw [missing_of_marked, if_neg his, if_neg hx]
  · have hname : name ∉ w.fieldNames := fun hname => h _ (.bare hmark hname)
    rw [missing_of_bare hmark, if_neg hname]

theorem respondToMissing_iff :
    w.respondToMissing name = true ↔
      deleteMark name ∈ w.fieldNames ∨ "is_" ++ deleteMark name ∈ w.fieldNames := by
  simp [respondToMissing]

/-- A name with a question mark: both fields count. -/
theorem resolves_marked {names : List String} :
    (∃ field, Resolves names (x ++ "?") field) ↔ x ∈ names ∨ "is_" ++ x ∈ names := by
  constructor
  · rintro ⟨field, h⟩
    generalize hname : x ++ "?" = name at h
    cases h with
    | bare hbare =>
      subst hname
      exact absurd (endsWithMark_iff.mp (endsWithMark_append x)) hbare
    | predicate his =>
      exact .inr (mark_inj hname ▸ his)
    | marked _ hmem =>
      exact .inl (mark_inj hname ▸ hmem)
  · intro h
    by_cases his : "is_" ++ x ∈ names
    · exact ⟨_, .predicate his⟩
    · exact ⟨_, .marked his (h.resolve_right his)⟩

/-- A name without one: only the field of that name does. -/
theorem resolves_bare {names : List String} (hbare : ¬ "?".toList <:+ name.toList) :
    (∃ field, Resolves names name field) ↔ name ∈ names := by
  constructor
  · rintro ⟨field, h⟩
    cases h with
    | bare _ hmem => exact hmem
    | predicate | marked => exact absurd (endsWithMark_iff.mp (endsWithMark_append _)) hbare
  · exact fun hmem => ⟨_, .bare hbare hmem⟩

/-- `method_missing` answers a name with the field that it stands for, and with a
    `NoMethodError` if it stands for none. `respond_to_missing?` tells which of the two it is for
    exactly those names that end in a question mark, are fields themselves, or do not become one
    with `is_` in front. -/
theorem respondToMissing_agrees_iff (w : View Value) (name : String) :
    (∀ field, Resolves w.fieldNames name field →
      w.missing name = (w.readField field).map wrapArray) ∧
    ((∀ field, ¬ Resolves w.fieldNames name field) → w.missing name = .error (.noMethod name)) ∧
    ((w.respondToMissing name = true ↔ ∃ field, Resolves w.fieldNames name field) ↔
      "?".toList <:+ name.toList ∨ name ∈ w.fieldNames ∨ "is_" ++ name ∉ w.fieldNames) := by
  refine ⟨fun field => missing_of_resolves, missing_of_not_resolves, ?_⟩
  by_cases hmark : "?".toList <:+ name.toList
  · obtain ⟨x, rfl⟩ := exists_of_marked hmark
    simp only [respondToMissing_iff, deleteMark_append, resolves_marked, hmark, true_or]
  · rw [respondToMissing_iff, deleteMark_of_bare hmark, resolves_bare hmark, or_iff_right hmark]
    by_cases hname : name ∈ w.fieldNames <;> by_cases his : "is_" ++ name ∈ w.fieldNames <;>
      simp [hname, his]

/-- A view of a process, with the field that says whether it is a platform binary. -/
def platformProcess : View Value where
  schema := "es_process_t"
  messageVersion := 1
  strictVersion := false
  fields := [⟨"is_platform_binary", 1, .bool true⟩]
  args := []
  env := []
  fds := []

/-- A process claims to respond to `platform_binary`, and raises a `NoMethodError`. -/
theorem respondToMissing_disagrees :
    ¬ ∀ (w : View Value) (name : String), methodFor w.viewClass name = .missing →
      (w.respondToMissing name = true ↔ w.missing name ≠ .error (.noMethod name)) := by
  intro hall
  have hbare : ¬ "?".toList <:+ "platform_binary".toList := by decide
  have hmissing : platformProcess.missing "platform_binary" =
      .error (.noMethod "platform_binary") := by
    rw [missing_of_bare hbare, if_neg (by decide)]
  exact (hall platformProcess "platform_binary" (by decide)).mp (by decide) hmissing

end View
end EndpointSecurity.ObjectModel
