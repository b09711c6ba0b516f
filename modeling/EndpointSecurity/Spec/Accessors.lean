import EndpointSecurity.ForStd.List
import EndpointSecurity.Spec.Copies

/-!
# Accessors and native fields

A view answers a field name of its schema with the native field, unless its class or `NativeView`
has a method of that name. `codesigning_flags` and `path` are such methods, and read the field;
the others replace it: `Event#env`, which is meant for exec events, hides the `env` of an `su`
event.

## Key results

- `call_of_passes`: an accessor that reaches its field gives it
- `exposes_iff_unshadowed`: the accessors and the entries of `to_h` give the native fields, for
  all contents of a schema, iff no method hides a field and `path` can ask for its truncation
-/

namespace EndpointSecurity.ObjectModel

/-! ## Schemas -/

/-- The public methods of Ruby's `Object` whose names are identifiers. -/
def objectMethods : List String :=
  ["class", "singleton_class", "dup", "clone", "itself", "then", "yield_self", "tap", "display",
    "hash", "inspect", "to_s", "freeze", "methods", "singleton_methods", "protected_methods",
    "private_methods", "public_methods", "instance_variables", "instance_variable_get",
    "instance_variable_set", "remove_instance_variable", "method", "public_method",
    "singleton_method", "define_singleton_method", "extend", "to_enum", "enum_for", "object_id",
    "send", "public_send", "instance_eval", "instance_exec", "__send__", "__id__"]

structure SchemaField where
  name : String
  minimumVersion : Nat
  deriving DecidableEq, Repr

/-- `esrb_schema_t`: the fields of a C structure, none of them named like a method that every
    Ruby object has. -/
structure Schema where
  name : String
  fields : List SchemaField
  nodup : (fields.map (·.name)).Nodup
  notObject : ∀ field ∈ fields, field.name ∉ objectMethods

/-- `w` is a view of a structure with this schema. -/
def View.HasSchema (w : View Value) (schema : Schema) : Prop :=
  w.schema = schema.name ∧
    w.fields.map (fun field => ⟨field.name, field.minimumVersion⟩) = schema.fields

theorem View.HasSchema.fieldNames {w : View Value} {schema : Schema} (h : w.HasSchema schema) :
    w.fieldNames = schema.fields.map (·.name) := by
  rw [← h.2, List.map_map]
  rfl

/-! ## What the accessors promise -/

/-- What the accessor of a field gives for a native value: the code signing flags in their
    wrapper, and an array as a `FieldArray`, except for the `path` of a file. -/
def exposed (c : ViewClass) (name : String) (value : Value) : Value :=
  if c = .process ∧ name = "codesigning_flags" then View.csFlags value
  else if c = .file ∧ name = "path" then value
  else View.wrapArray value

/-- The fields of the view and the descriptors of its exec event can be read and copied. -/
def View.Copyable (w : View Value) : Prop :=
  (∀ name ∈ w.fieldNames, ∃ value, w.readField name = .ok value ∧
    ∃ stack copy, deepCopy stack (exposed w.viewClass name value) = .ok copy) ∧
  ∀ fd ∈ w.execArray .fds, ∃ stack copy, valueToH stack fd = .ok copy

/-- The accessor of a field and the entry of `to_h` give the native field. -/
structure View.Exposes (w : View Value) (name : String) : Prop where
  /-- The accessor gives what `__read_field` gives. -/
  accessor : ∀ value, w.readField name = .ok value →
    ∀ stack, publicSend (stack + 1) w name = .ok (exposed w.viewClass name value)
  /-- The entry is the deep copy of it, whenever `to_h` returns. -/
  entry : ∀ value, w.readField name = .ok value → ∀ stack r, toH stack w = .ok r →
    ∃ entries copy, r = .hash entries ∧ entries.lookup name = some copy ∧
      deepCopy stack (exposed w.viewClass name value) = .ok copy
  /-- `to_h` returns when all there is to copy can be copied. -/
  returns : w.Copyable → ∃ stack r, toH stack w = .ok r

/-! ## The condition -/

/-- The field that `path_truncated?` reads. -/
def truncationField (names : List String) : String :=
  if names.contains "is_path_truncated" then "is_path_truncated" else "path_truncated"

/-- A call of this method reaches the field of the same name. -/
def View.Method.passes : View.Method → Bool
  | .codesigningFlags | .path | .missing => true
  | _ => false

/-- No field is hidden by a method, and where `path` is a method that asks for the truncation
    first, that can be read whenever the path can. -/
def Schema.Unshadowed (schema : Schema) : Prop :=
  ∀ field ∈ schema.fields,
    let method := View.methodFor (classForSchema schema.name) field.name
    method.passes ∧ (method = .path → ∃ truncation ∈ schema.fields,
      truncation.name = truncationField (schema.fields.map (·.name)) ∧
        truncation.minimumVersion ≤ field.minimumVersion)

/-! ## Method lookup -/

/-- A method that is found is one of those defined. -/
theorem mem_of_methodFor {c : ViewClass} {name : String} {method : View.Method}
    (h : View.methodFor c name = method) (hm : method ≠ .missing) :
    (name, method) ∈ View.ownMethods c ++ View.nativeViewMethods := by
  unfold View.methodFor at h
  cases hl : (View.ownMethods c ++ View.nativeViewMethods).lookup name with
  | none =>
    rw [hl] at h
    exact absurd h.symm hm
  | some found =>
    rw [hl] at h
    cases h
    obtain ⟨before, after, hmethods, -⟩ := List.lookup_eq_some_iff.mp hl
    rw [hmethods]
    exact List.mem_append_right _ (.head _)

theorem methodFor_codesigningFlags {c : ViewClass} {name : String} :
    View.methodFor c name = .codesigningFlags ↔ c = .process ∧ name = "codesigning_flags" := by
  constructor
  · intro h
    have hmem := mem_of_methodFor h (by decide)
    cases c <;> simp [View.ownMethods, View.nativeViewMethods] at hmem ⊢
    exact hmem
  · rintro ⟨rfl, rfl⟩
    decide

theorem methodFor_path {c : ViewClass} {name : String} :
    View.methodFor c name = .path ↔ c = .file ∧ name = "path" := by
  constructor
  · intro h
    have hmem := mem_of_methodFor h (by decide)
    cases c <;> simp [View.ownMethods, View.nativeViewMethods] at hmem ⊢
    exact hmem
  · rintro ⟨rfl, rfl⟩
    decide

/-! ## Accessors that reach their field -/

theorem View.methodMissing_of_mem {w : View Value} {name : String} (h : name ∈ w.fieldNames) :
    w.methodMissing name false = (w.readField name).map View.wrapArray := by
  simp [View.methodMissing, h]

theorem View.methodMissing_truncation (w : View Value) :
    w.methodMissing "path_truncated" true =
      if truncationField w.fieldNames ∈ w.fieldNames then
        (w.readField (truncationField w.fieldNames)).map View.wrapArray
      else .error (.noMethod "path_truncated") := by
  have hname : "is_" ++ "path_truncated" = "is_path_truncated" := rfl
  simp only [View.methodMissing, truncationField, hname, Bool.true_and,
    List.contains_iff_mem]

/-- What a field of the view is read as. -/
theorem View.readField_of_mem {w : View Value} (hnodup : w.fieldNames.Nodup)
    {field : Field Value} (hf : field ∈ w.fields) :
    w.readField field.name =
      if field.minimumVersion > w.messageVersion then
        if w.strictVersion then
          .error (.fieldUnavailable field.name field.minimumVersion w.messageVersion)
        else .ok .nil
      else .ok field.value := by
  have hfind : w.findField field.name = some field := List.find?_key_of_nodup hnodup hf
  rw [View.readField, hfind]

/-- An accessor that reaches its field gives what is read from it. -/
theorem View.call_of_passes {w : View Value} {name : String} {value : Value}
    (hname : name ∈ w.fieldNames)
    (hpass : (View.methodFor w.viewClass name).passes)
    (hpath : View.methodFor w.viewClass name = .path →
      ∃ truncated, w.methodMissing "path_truncated" true = .ok truncated)
    (hread : w.readField name = .ok value) :
    w.call name (View.methodFor w.viewClass name) = .ok (exposed w.viewClass name value) := by
  cases hm : View.methodFor w.viewClass name with
  | codesigningFlags =>
    obtain ⟨hc, rfl⟩ := methodFor_codesigningFlags.mp hm
    simp [View.call, hread, exposed, hc, Except.map]
  | path =>
    obtain ⟨hc, rfl⟩ := methodFor_path.mp hm
    obtain ⟨truncated, ht⟩ := hpath hm
    simp [View.call, View.path, ht, hread, exposed, hc, Except.bind]
  | missing =>
    have hflags : ¬ (w.viewClass = .process ∧ name = "codesigning_flags") := fun h => by
      rw [methodFor_codesigningFlags.mpr h] at hm
      cases hm
    have hfile : ¬ (w.viewClass = .file ∧ name = "path") := fun h => by
      rw [methodFor_path.mpr h] at hm
      cases hm
    rw [View.call, View.methodMissing_of_mem hname, hread, exposed, if_neg hflags, if_neg hfile]
    rfl
  | _ =>
    rw [hm] at hpass
    cases hpass

/-! ## Views of an unshadowed schema -/

section Unshadowed

variable {schema : Schema} {w : View Value} (hw : w.HasSchema schema)
  (hs : schema.Unshadowed) {name : String} (hname : name ∈ w.fieldNames)
include hw hs hname

/-- The method of a field's name reaches the field, and the truncation can be read where it is
    asked for. -/
theorem View.HasSchema.passes :
    (View.methodFor w.viewClass name).passes ∧
      ∀ value, w.readField name = .ok value → View.methodFor w.viewClass name = .path →
        ∃ truncated, w.methodMissing "path_truncated" true = .ok truncated := by
  have hnodup : w.fieldNames.Nodup := hw.fieldNames ▸ schema.nodup
  obtain ⟨field, hf, rfl⟩ := List.mem_map.mp hname
  have hmem : (⟨field.name, field.minimumVersion⟩ : SchemaField) ∈ schema.fields := by
    rw [← hw.2]
    exact List.mem_map_of_mem hf
  obtain ⟨hpass, hpath⟩ := hs _ hmem
  rw [← hw.1] at hpass hpath
  refine ⟨hpass, fun value hread hm => ?_⟩
  obtain ⟨truncation, ht, hname', hversion⟩ := hpath hm
  rw [← hw.2] at ht
  obtain ⟨field', hf', rfl⟩ := List.mem_map.mp ht
  rw [← hw.fieldNames] at hname'
  have hmem' : truncationField w.fieldNames ∈ w.fieldNames := hname' ▸ List.mem_map_of_mem hf'
  rw [View.methodMissing_truncation, if_pos hmem', ← hname', View.readField_of_mem hnodup hf']
  rw [View.readField_of_mem hnodup hf] at hread
  -- A message that has the path is not older than the truncation.
  have hgate : ¬ (field'.minimumVersion > w.messageVersion ∧ w.strictVersion) := by
    rintro ⟨hold, hstrict⟩
    rw [if_pos (Nat.lt_of_lt_of_le hold hversion), if_pos hstrict] at hread
    cases hread
  split
  next hold =>
    rw [if_neg fun hstrict => hgate ⟨hold, hstrict⟩]
    exact ⟨_, rfl⟩
  next => exact ⟨_, rfl⟩

theorem View.HasSchema.publicSend {value : Value} (hread : w.readField name = .ok value)
    (stack : Nat) :
    publicSend (stack + 1) w name = .ok (exposed w.viewClass name value) := by
  obtain ⟨hpass, hpath⟩ := hw.passes hs hname
  have htoH : View.methodFor w.viewClass name ≠ .toH := fun h => by
    rw [h] at hpass
    cases hpass
  rw [publicSend_call htoH]
  exact View.call_of_passes hname hpass (hpath value hread) hread

/-- The entries that `Event#to_h` adds are not those of fields. -/
theorem View.HasSchema.ne_exec (hevent : w.viewClass = .event) (kind : ExecKind) :
    View.methodFor .event name ≠ .exec kind := by
  intro h
  obtain ⟨hpass, -⟩ := hw.passes hs hname
  rw [hevent, h] at hpass
  cases hpass

theorem View.HasSchema.exposes : w.Exposes name where
  accessor value hread stack := hw.publicSend hs hname hread stack
  entry value hread stack r hr := by
    cases stack with
    | zero => cases hr
    | succ stack =>
      obtain ⟨copies, hcopies, hr⟩ := toH_eq_ok.mp hr
      obtain ⟨u, copy, hlookup, hsend, hcopy⟩ := hcopies.lookup hname
      have hu : u = exposed w.viewClass name value := by
        have h := hw.publicSend hs hname hread stack
        rw [publicSend_mono (Nat.le_succ stack) hsend] at h
        exact Except.ok.inj h
      subst hu
      have hcopy' := deepCopy_mono (Nat.le_succ stack) hcopy
      split at hr
      next hexec =>
        obtain ⟨fds, -, rfl⟩ := hr
        have hargs : name ≠ "args" := fun h => hw.ne_exec hs hname hexec.1 .args (h ▸ rfl)
        have henv : name ≠ "env" := fun h => hw.ne_exec hs hname hexec.1 .env (h ▸ rfl)
        have hfds : name ≠ "fds" := fun h => hw.ne_exec hs hname hexec.1 .fds (h ▸ rfl)
        exact ⟨_, copy, rfl, by simp [addExec, lookup_setEntry, hargs, henv, hfds, hlookup], hcopy'⟩
      next => exact ⟨copies, copy, hr, hlookup, hcopy'⟩
  returns hcopyable := by
    refine exists_toH (fun field hfield => ?_) hcopyable.2
    obtain ⟨value, hread, hcopy⟩ := hcopyable.1 field hfield
    exact ⟨_, ⟨1, hw.publicSend hs hfield hread 0⟩, hcopy⟩

end Unshadowed

/-! ## Hidden fields -/

/-- A view of a structure whose fields are all zero, of a message of this version. -/
def blankView (schema : Schema) (messageVersion : Nat) : View Value where
  schema := schema.name
  messageVersion := messageVersion
  strictVersion := true
  fields := schema.fields.map fun field => ⟨field.name, field.minimumVersion, .int 0⟩
  args := []
  env := []
  fds := []

theorem blankView_hasSchema (schema : Schema) (messageVersion : Nat) :
    (blankView schema messageVersion).HasSchema schema := by
  refine ⟨rfl, ?_⟩
  simp [blankView, Function.comp_def]

theorem readField_blankView {schema : Schema} {messageVersion : Nat} {field : SchemaField}
    (hf : field ∈ schema.fields) :
    (blankView schema messageVersion).readField field.name =
      if field.minimumVersion > messageVersion then
        .error (.fieldUnavailable field.name field.minimumVersion messageVersion)
      else .ok (.int 0) := by
  have hnodup : (blankView schema messageVersion).fieldNames.Nodup := by
    rw [(blankView_hasSchema schema messageVersion).fieldNames]
    exact schema.nodup
  have hmem : (⟨field.name, field.minimumVersion, .int 0⟩ : Field Value) ∈
      (blankView schema messageVersion).fields := List.mem_map.mpr ⟨field, hf, rfl⟩
  exact View.readField_of_mem hnodup hmem

/-- The fields of a blank view that can be read are zero. -/
theorem methodMissing_blankView {schema : Schema} {messageVersion : Nat} {name : String}
    {value : Value} (h : (blankView schema messageVersion).methodMissing name false = .ok value) :
    value = .int 0 := by
  by_cases hmem : name ∈ (blankView schema messageVersion).fieldNames
  · rw [View.methodMissing_of_mem hmem] at h
    rw [(blankView_hasSchema schema messageVersion).fieldNames] at hmem
    obtain ⟨field, hf, rfl⟩ := List.mem_map.mp hmem
    rw [readField_blankView hf] at h
    split at h
    · cases h
    · cases h
      rfl
  · simp [View.methodMissing, hmem] at h

/-- An accessor of a blank view that gives what is read, zero, reaches its field. -/
theorem passes_of_blankView {schema : Schema} {messageVersion : Nat} {name : String}
    (h : publicSend 1 (blankView schema messageVersion) name =
      .ok (exposed (classForSchema schema.name) name (.int 0))) :
    (View.methodFor (classForSchema schema.name) name).passes := by
  have hclass : classForSchema schema.name = (blankView schema messageVersion).viewClass := rfl
  rw [hclass] at h ⊢
  generalize hc : (blankView schema messageVersion).viewClass = c at h ⊢
  have hexposed : exposed c name (.int 0) = .int 0 ∨
      exposed c name (.int 0) = View.csFlags (.int 0) := by
    unfold exposed
    split
    · exact .inr rfl
    · exact .inl (by split <;> rfl)
  by_cases htoH : View.methodFor c name = .toH
  · rw [publicSend_toH (hc ▸ htoH)] at h
    cases h
  rw [publicSend_call (hc ▸ htoH), hc] at h
  cases hm : View.methodFor c name with
  | codesigningFlags | path | missing => rfl
  | toH => exact absurd hm htoH
  | pid | cdhashHex =>
    rw [hm] at h
    obtain ⟨value, hvalue, h⟩ := Except.bind_eq_ok.mp h
    rw [methodMissing_blankView hvalue] at h
    cases h
  | exec _ | fieldNames | schemaName | withArguments =>
    rw [hm] at h
    rcases hexposed with he | he <;> rw [he] at h <;> cases h

/-- When the accessors give the native fields for all contents, no field is hidden. -/
theorem unshadowed_of_accessors {schema : Schema}
    (h : ∀ w : View Value, w.HasSchema schema → ∀ name ∈ w.fieldNames, w.Exposes name) :
    schema.Unshadowed := by
  intro field hf
  have hsend : publicSend 1 (blankView schema field.minimumVersion) field.name =
      .ok (exposed (classForSchema schema.name) field.name (.int 0)) := by
    refine (h _ (blankView_hasSchema schema field.minimumVersion) field.name ?_).accessor _ ?_ 0
    · rw [(blankView_hasSchema schema field.minimumVersion).fieldNames]
      exact List.mem_map_of_mem hf
    · rw [readField_blankView hf, if_neg (Nat.lt_irrefl _)]
  refine ⟨passes_of_blankView hsend, fun hm => ?_⟩
  -- `path` has returned in a message just new enough for the path.
  have hmethod : View.methodFor (blankView schema field.minimumVersion).viewClass field.name =
      .path := hm
  rw [publicSend_call (by rw [hmethod]; decide), hmethod] at hsend
  obtain ⟨truncated, ht, -⟩ := Except.bind_eq_ok.mp hsend
  rw [View.methodMissing_truncation] at ht
  split at ht
  next hmem =>
    rw [(blankView_hasSchema schema field.minimumVersion).fieldNames] at hmem ht
    obtain ⟨truncation, htruncation, hname⟩ := List.mem_map.mp hmem
    refine ⟨truncation, htruncation, hname, Nat.le_of_not_gt fun hold => ?_⟩
    rw [← hname, readField_blankView htruncation, if_pos hold] at ht
    cases ht
  next => cases ht

/-- For every schema: the accessor and the entry of `to_h` of each field give the native field,
    for all contents, iff no method of the view's class or of `NativeView` hides a field, and
    `path` of a file can ask for its truncation. -/
theorem exposes_iff_unshadowed (schema : Schema) :
    (∀ w : View Value, w.HasSchema schema → ∀ name ∈ w.fieldNames, w.Exposes name) ↔
      schema.Unshadowed :=
  ⟨unshadowed_of_accessors, fun hs _ hw _ hname => hw.exposes hs hname⟩

/-- The fields of `es_event_su_t` in the generated table. -/
def suSchema : Schema where
  name := "es_event_su_t"
  fields := [⟨"success", 1⟩, ⟨"failure_message", 1⟩, ⟨"from_uid", 1⟩, ⟨"from_username", 1⟩,
    ⟨"has_to_uid", 1⟩, ⟨"to_uid", 1⟩, ⟨"to_username", 1⟩, ⟨"shell", 1⟩, ⟨"argc", 1⟩, ⟨"argv", 1⟩,
    ⟨"env_count", 1⟩, ⟨"env", 1⟩]
  nodup := by decide
  notObject := by decide

/-- An `su` event whose environment has one entry. -/
def suView : View Value where
  schema := "es_event_su_t"
  messageVersion := 10
  strictVersion := false
  fields := [⟨"success", 1, .bool true⟩, ⟨"failure_message", 1, .string [] .utf8⟩,
    ⟨"from_uid", 1, .int 501⟩, ⟨"from_username", 1, .string [97] .utf8⟩,
    ⟨"has_to_uid", 1, .bool true⟩, ⟨"to_uid", 1, .data "TaggedUnion" [("kind", .symbol "uid"),
      ("value", .int 0)]⟩, ⟨"to_username", 1, .string [98] .utf8⟩,
    ⟨"shell", 1, .string [99] .utf8⟩, ⟨"argc", 1, .int 0⟩, ⟨"argv", 1, .array []⟩,
    ⟨"env_count", 1, .int 1⟩, ⟨"env", 1, .array [.string [65, 61, 49] .utf8]⟩]
  args := []
  env := []
  fds := []

/-- `Event#env` of the `su` event is empty. -/
theorem su_env_hidden :
    ¬ ∀ (schema : Schema) (w : View Value), w.HasSchema schema → ∀ name ∈ w.fieldNames,
      w.Exposes name := by
  intro h
  have hw : suView.HasSchema suSchema := ⟨rfl, rfl⟩
  have hsend := (h suSchema suView hw "env" (by decide)).accessor
    (.array [.string [65, 61, 49] .utf8]) rfl 0
  cases hsend

end EndpointSecurity.ObjectModel
