import EndpointSecurity.ForStd.ExceptList
import EndpointSecurity.ForStd.List
import EndpointSecurity.Native.FieldReader

/-!
# Accepted field types and the native reader

The code generator accepts a field of a record type by the name of the record; the reader finds
the record by what `referenced_schema_name` cuts out of the type. The two agree on the records
whose names contain `_t` at their end only: of any other name the reader cuts off what follows
the first `_t`, and of the name of an enumeration it may leave the name of a record.
-/

namespace EndpointSecurity.FieldReader

open Codegen Substring

/-! ## What the code generator accepts -/

theorem validateFieldTypes_eq_ok_iff {records : List Record} {enumerations : List Enumeration} :
    validateFieldTypes records enumerations = .ok () ↔
      ∀ record ∈ records, ∀ field ∈ record.fields,
        supportedFieldType record field (records.map (·.name)) (enumerations.map (·.name)) := by
  unfold validateFieldTypes
  simp only [Except.forM_eq_ok]
  refine forall₄_congr fun record _ field _ => ?_
  split <;> simp_all

/-- A field of an accepted record that is not one of the special ones. -/
structure PlainField (ir : AcceptedIR) where
  record : Record
  field : Field
  record_mem : record ∈ ir.records
  field_mem : field ∈ record.fields
  plain : specialField record field = false

/-- The types that a field of a record type has: the record itself, or a pointer to it. -/
def Refers (name type : String) : Prop := type ∈ [name, name ++ " *", "const " ++ name ++ " *"]

instance {name type : String} : Decidable (Refers name type) :=
  inferInstanceAs (Decidable (type ∈ _))

/-- The types that branches of their own decode. -/
def tokenTypes : List String := ["es_string_token_t", "es_token_t"]

/-! ## Names -/

section Names

variable {name type : String}

theorem Refers.toList_eq (h : Refers name type) :
    ∃ front back, type.toList = front ++ (name.toList ++ back) ∧
      (front = [] ∨ front = "const ".toList) ∧
      (back = " *".toList ∨ front = [] ∧ back = []) := by
  simp only [Refers, List.mem_cons, List.not_mem_nil, or_false] at h
  rcases h with rfl | rfl | rfl
  · exact ⟨[], [], by simp⟩
  · exact ⟨[], " *".toList, by simp⟩
  · exact ⟨"const ".toList, " *".toList, by simp⟩

theorem isPointer_eq_false (h : IsTypeName name) : isPointer name = false := by
  unfold isPointer
  by_contra hstar
  simp only [List.contains_eq_mem, decide_eq_true_eq, Bool.not_eq_false] at hstar
  have := h.identifier _ hstar
  revert this
  decide

/-- The type of a field of a record type is no other C type of the SDK's. -/
theorem startsWith_of_refers (h : IsTypeName name) (href : Refers name type) :
    startsWith "union " type = false ∧ startsWith "struct " type = false := by
  obtain ⟨front, back, htype, hfront, -⟩ := href.toList_eq
  obtain ⟨rest, hrest⟩ := h.starts
  unfold startsWith
  rw [htype, ← hrest]
  rcases hfront with rfl | rfl
  · exact ⟨rfl, rfl⟩
  · exact ⟨rfl, rfl⟩

theorem startsWith_eq_true {part : String} :
    startsWith part type = true ↔ part.toList <+: type.toList := by
  simp [startsWith]

theorem isPointer_append (name : String) : isPointer (name ++ " *") = true := by
  simp [isPointer]

/-- The comparisons that the type of a record can meet are those with the token types and with
    `es_sha256_t *`. -/
theorem lookup_of_refers (table : List (String × NativeType × Place))
    (htable : ∀ entry ∈ table, ¬ startsWith "const " entry.1 ∧
      (startsWith "es_" entry.1 →
        entry.1 ∈ tokenTypes ++ ["es_string_token_t *", "es_sha256_t *"]))
    (h : IsTypeName name) (href : Refers name type) (htoken : name ∉ tokenTypes)
    (hsha : type ≠ "es_sha256_t *") : table.lookup type = none := by
  rw [List.lookup_eq_none_iff]
  intro entry hentry
  rw [bne_iff_ne]
  intro heq
  obtain ⟨hconst, hes⟩ := htable entry hentry
  rw [← heq, startsWith_eq_true] at hconst hes
  simp only [Refers, List.mem_cons, List.not_mem_nil, or_false] at href
  rcases href with rfl | rfl | rfl
  · have := hes h.starts
    simp only [List.mem_append, htoken, List.mem_cons, List.not_mem_nil, hsha, or_false,
      false_or] at this
    exact absurd (isPointer_eq_false h) (by rw [this]; decide)
  · have := hes (h.starts.trans (by simp))
    simp only [tokenTypes, List.cons_append, List.nil_append, List.mem_cons, List.not_mem_nil,
      hsha, or_false] at this
    have hpointer := isPointer_append name
    rcases this with heq | heq | heq
    · exact absurd hpointer (by rw [heq]; decide)
    · exact absurd hpointer (by rw [heq]; decide)
    · refine htoken ?_
      have : name ++ " *" = "es_string_token_t" ++ " *" := heq.trans (by decide)
      rw [String.append_left_inj] at this
      simp [tokenTypes, this]
  · exact hconst (by simp)

theorem includes_of_refers (h : IsTypeName name) (href : Refers name type) :
    includes "[20]" type = false := by
  unfold includes
  by_contra hne
  rw [Bool.not_eq_false, Option.isSome_iff_exists] at hne
  obtain ⟨u, hu⟩ := hne
  have hmem : '[' ∈ type.toList :=
    ((prefix_of_strstr hu).sublist.trans (strstr_suffix hu).sublist).subset (by simp)
  have hname : '[' ∉ name.toList := fun hc => by
    have := h.identifier _ hc
    revert this
    decide
  obtain ⟨front, back, htype, hfront, hback⟩ := href.toList_eq
  rw [htype] at hmem
  rcases hfront with rfl | rfl <;> rcases hback with rfl | ⟨hf, rfl⟩ <;> simp_all

/-- `es_` is found where the name of the record starts. -/
theorem strstr_of_refers (h : IsTypeName name) (href : Refers name type) :
    ∃ back, strstr type.toList "es_".toList = some (name.toList ++ back) := by
  obtain ⟨front, back, htype, hfront, -⟩ := href.toList_eq
  have hes : "es_".toList <+: name.toList ++ back := h.starts.trans (List.prefix_append _ _)
  rcases hfront with rfl | rfl
  · exact ⟨back, by rw [htype, List.nil_append, strstr_start hes]⟩
  · refine ⟨back, ?_⟩
    rw [htype, ← strstr_start hes]
    simp [strstr_cons_next, List.cons_prefix_cons]

/-- The reader cuts the name of a record off behind its first `_t`. -/
theorem referencedSchemaName_of_refers (h : IsTypeName name) (href : Refers name type) :
    ∃ u, u <+: name.toList ∧ EndsOnce "_t".toList u ∧
      referencedSchemaName type 128 = .ofList u := by
  obtain ⟨back, hstart⟩ := strstr_of_refers h href
  obtain ⟨u, hu, honce⟩ := exists_endsOnce h.ends
  refine ⟨u, hu, honce, ?_⟩
  have hcut : takeThrough (name.toList ++ back) "_t".toList = some u :=
    takeThrough_eq_some_iff.mpr ⟨hu.trans (List.prefix_append _ _), honce⟩
  unfold takeThrough at hcut
  obtain ⟨rest, hrest, hlength⟩ := Option.map_eq_some_iff.mp hcut
  -- What is cut out is a part of the name, so the buffer holds it
  have hroom : ¬ (name.toList ++ back).length - rest.length + 2 ≥ 128 := by
    have hshort : u.length < 128 := hu.length_le.trans_lt h.short
    have hsuffix := (strstr_suffix hrest).length_le
    have hpattern : 2 ≤ rest.length := (prefix_of_strstr hrest).length_le
    rw [← hlength, List.length_take, show "_t".toList.length = 2 from rfl] at hshort
    omega
  obtain ⟨hunion, hstruct⟩ := startsWith_of_refers h href
  unfold referencedSchemaName
  simp only [hunion, hstruct, hstart, hrest, Bool.or_false]
  rw [if_neg (by simp), if_neg hroom]
  exact congrArg String.ofList hlength

end Names

/-! ## Reading -/

section Reading

variable {ir : AcceptedIR} {f : PlainField ir} {offsetof : String → String → Nat}
  {mem : Memory} {w : View}

/-- The place of a field of a view. -/
def PlainField.place (f : PlainField ir) (offsetof : String → String → Nat) (w : View) : Nat :=
  w.address + offsetof f.record.name f.field.name

/-- `read_field` of a field of the view, with the generated tables. -/
def PlainField.read (f : PlainField ir) (offsetof : String → String → Nat) (mem : Memory)
    (w : View) : Except Error Decoded :=
  readField (emitSchemas offsetof ir.records) ir.enumerations mem w f.field.name

theorem findSchema_of_mem {record : Record} (h : record ∈ ir.records) :
    findSchema (emitSchemas offsetof ir.records) record.name =
      some (emitRecord offsetof record) := by
  have hnodup : ((emitSchemas offsetof ir.records).map (·.name)).Nodup := by
    simpa [emitSchemas, Function.comp_def, emitRecord] using ir.recordNames_nodup
  exact List.find?_key_of_nodup hnodup (List.mem_map_of_mem h)

/-- A schema that is found is that of the record with its name. -/
theorem of_findSchema {name : String} {schema : Schema}
    (h : findSchema (emitSchemas offsetof ir.records) name = some schema) :
    ∃ record ∈ ir.records, record.name = name ∧ schema = emitRecord offsetof record := by
  unfold findSchema at h
  have hname := List.find?_some h
  obtain ⟨record, hrecord, rfl⟩ := List.mem_map.mp (List.mem_of_find?_eq_some h)
  exact ⟨record, hrecord, of_decide_eq_true hname, rfl⟩

theorem referencedSchemaName_ne_empty {name type : String} (hname : IsTypeName name)
    (href : Refers name type) : referencedSchemaName type 128 ≠ "" := by
  obtain ⟨u, -, honce, hcut⟩ := referencedSchemaName_of_refers hname href
  rw [hcut]
  intro h
  have : u = [] := by simpa using congrArg String.toList h
  exact absurd honce.1.length_le (by simp [this])

/-- For the type of a record, or of an enumeration, the reader finds the schema of the record
    whose name is the part of that name before the end of its first `_t`. -/
theorem findSchema_referenced_iff (offsetof : String → String → Nat) {name type : String}
    (hname : IsTypeName name) (href : Refers name type) {schema : Schema} :
    findSchema (emitSchemas offsetof ir.records) (referencedSchemaName type 128) = some schema ↔
      ∃ record ∈ ir.records, EndsOnce "_t".toList record.name.toList ∧
        record.name.toList <+: name.toList ∧ schema = emitRecord offsetof record := by
  obtain ⟨u, hu, honce, hcut⟩ := referencedSchemaName_of_refers hname href
  rw [hcut]
  constructor
  · intro h
    obtain ⟨record, hrecord, hru, rfl⟩ := of_findSchema h
    have : record.name.toList = u := by rw [hru, String.toList_ofList]
    exact ⟨record, hrecord, this ▸ honce, this ▸ hu, rfl⟩
  · rintro ⟨record, hrecord, hr, hprefix, rfl⟩
    have : u = record.name.toList := honce.eq_of_within hr hu hprefix
    rw [this, String.ofList_toList]
    exact findSchema_of_mem hrecord

theorem findField_of_schema (hw : w.schema = emitRecord offsetof f.record) :
    findField w f.field.name =
      some { name := f.field.name, type := f.field.type,
             offset := offsetof f.record.name f.field.name,
             minimumVersion := f.field.minimumVersion } := by
  have hnodup : ((emitRecord offsetof f.record).fields.map (·.name)).Nodup := by
    simpa [emitRecord, Function.comp_def] using ir.fieldNames_nodup _ f.record_mem
  unfold findField
  rw [hw]
  exact List.find?_key_of_nodup hnodup (List.mem_map_of_mem f.field_mem)

/-- The fields that the reader knows by their places are special ones. -/
theorem PlainField.notMem_arrayFields (f : PlainField ir) :
    (f.field.name, f.record.name) ∉ arrayFields := by
  have harrays : ∀ place ∈ arrayFields, specialFields.contains (place.2 ++ "." ++ place.1) := by
    decide
  intro h
  have := f.plain
  rw [specialField, harrays _ h] at this
  cases this

theorem PlainField.not_pipe (f : PlainField ir) :
    ¬ (f.record.name = "es_fd_t" ∧ f.field.name = "pipe") := by
  rintro ⟨hrecord, hfield⟩
  have := f.plain
  rw [specialField, hrecord, hfield] at this
  revert this
  decide

/-- A plain field of a type other than a union is decoded by its type alone. -/
theorem PlainField.read_eq (hw : w.schema = emitRecord offsetof f.record)
    (gate : f.field.minimumVersion ≤ w.messageVersion)
    (hunion : startsWith "union " f.field.type = false) :
    f.read offsetof mem w =
      .ok (match structureBranches.lookup f.field.type with
        | some branch => decode mem (f.place offsetof w) branch
        | none =>
          if includes "[20]" f.field.type then .native .bytes20 (f.place offsetof w)
          else
            match pointerBranches.lookup f.field.type with
            | some branch => decode mem (f.place offsetof w) branch
            | none => readReferenced (emitSchemas offsetof ir.records) ir.enumerations mem w
              f.field.type (f.place offsetof w)) := by
  have hschema : w.schema.name = f.record.name := by rw [hw]; rfl
  unfold PlainField.read readField
  rw [findField_of_schema hw]
  simp only [hunion, hschema, f.notMem_arrayFields, and_false, if_false, Nat.not_lt.mpr gate,
    Bool.false_eq_true, readTyped, f.not_pipe]
  rfl

/-- For a field of a record type, other than the ones with branches of their own, the reader
    looks for the schema. -/
theorem PlainField.read_of_refers (hw : w.schema = emitRecord offsetof f.record)
    (gate : f.field.minimumVersion ≤ w.messageVersion) {name : String} (hname : IsTypeName name)
    (href : Refers name f.field.type) (htoken : name ∉ tokenTypes)
    (hsha : f.field.type ≠ "es_sha256_t *") :
    f.read offsetof mem w =
      .ok (readReferenced (emitSchemas offsetof ir.records) ir.enumerations mem w f.field.type
        (f.place offsetof w)) := by
  have hstructure :=
    lookup_of_refers structureBranches (by decide) hname href htoken hsha
  have hpointer := lookup_of_refers pointerBranches (by decide) hname href htoken hsha
  rw [f.read_eq hw gate (startsWith_of_refers hname href).1, hstructure, hpointer]
  simp only [includes_of_refers hname href, Bool.false_eq_true, if_false]

/-- A field of the type `es_sha256_t *` is a hash or `nil`. -/
theorem PlainField.read_sha256 (hw : w.schema = emitRecord offsetof f.record)
    (gate : f.field.minimumVersion ≤ w.messageVersion) (htype : f.field.type = "es_sha256_t *") :
    f.read offsetof mem w = .ok (decode mem (f.place offsetof w) (.sha256, .pointer)) := by
  rw [f.read_eq hw gate (by rw [htype]; decide), htype]
  rfl

/-- A field of a token type is a token. -/
theorem PlainField.read_token (mem : Memory) (hw : w.schema = emitRecord offsetof f.record)
    (gate : f.field.minimumVersion ≤ w.messageVersion) (htype : f.field.type ∈ tokenTypes) :
    ∃ native, f.read offsetof mem w = .ok (.native native (f.place offsetof w)) := by
  simp only [tokenTypes, List.mem_cons, List.not_mem_nil, or_false] at htype
  rcases htype with htype | htype
  · exact ⟨.stringToken, by rw [f.read_eq hw gate (by rw [htype]; decide), htype]; rfl⟩
  · exact ⟨.token, by rw [f.read_eq hw gate (by rw [htype]; decide), htype]; rfl⟩

/-- Where a view of the field's record would be. -/
def PlainField.target (f : PlainField ir) (offsetof : String → String → Nat) (mem : Memory)
    (w : View) : Nat :=
  if isPointer f.field.type then mem.pointer (f.place offsetof w) else f.place offsetof w

theorem PlainField.target_ne_zero (f : PlainField ir) (offsetof : String → String → Nat)
    (nonNull : isPointer f.field.type → mem.pointer (f.place offsetof w) ≠ 0) :
    f.target offsetof mem w ≠ 0 := by
  unfold PlainField.target
  split
  · next h => exact nonNull h
  · have := w.address_ne
    unfold PlainField.place
    omega

section Referenced

variable {schemas : List Schema} {enumerations : List Enumeration} {type : String}
  {address : Nat}

theorem readReferenced_of_some {schema : Schema} (hne : referencedSchemaName type 128 ≠ "")
    (hfind : findSchema schemas (referencedSchemaName type 128) = some schema)
    (h : (if isPointer type then mem.pointer address else address) ≠ 0) :
    readReferenced schemas enumerations mem w type address =
      .view { w with
        address := if isPointer type then mem.pointer address else address
        schema := schema
        address_ne := h } := by
  simp [readReferenced, hne, hfind, wrap, h]

theorem readReferenced_of_none
    (hfind : findSchema schemas (referencedSchemaName type 128) = none) {v : View} :
    readReferenced schemas enumerations mem w type address ≠ .view v := by
  simp only [readReferenced, hfind, Option.isSome_none, Bool.false_eq_true, and_false, if_false]
  intro h
  split at h
  · cases h
  · split at h
    · cases h
    · split at h
      · unfold decode at h
        split at h
        · cases h
        · split at h <;> cases h
      · cases h

theorem readReferenced_enum (hfind : findSchema schemas (referencedSchemaName type 128) = none)
    (hpointer : isPointer type = false) (hes : startsWith "es_" type) :
    readReferenced schemas enumerations mem w type address =
      .enum type (mem.int32 address) (enumSymbol enumerations type (mem.int32 address)) := by
  simp [readReferenced, hfind, hpointer, hes]

end Referenced

/-! ## Agreement -/

/-- What the reader decodes a field to is what the code generator accepted it as: a record is
    the view of that record, where the field is or where it points to, and an enumeration is a
    symbol of that enumeration. -/
structure Agrees (f : PlainField ir) (offsetof : String → String → Nat) (mem : Memory)
    (w : View) : Prop where
  record : ∀ record ∈ ir.records, record.name ∉ tokenTypes → Refers record.name f.field.type →
    ∃ v : View, f.read offsetof mem w = .ok (.view v) ∧
      v.schema = emitRecord offsetof record ∧
      v.address =
        (if isPointer f.field.type then mem.pointer (f.place offsetof w)
          else f.place offsetof w) ∧
      v.messageVersion = w.messageVersion ∧ v.strictVersion = w.strictVersion
  enum : ∀ enumeration ∈ ir.enumerations, f.field.type = enumeration.name →
    f.read offsetof mem w =
      .ok (.enum f.field.type (mem.int32 (f.place offsetof w))
        (enumSymbol ir.enumerations f.field.type (mem.int32 (f.place offsetof w))))

/-- The name of a record has `_t` at its end only, and the type is not decoded as a hash; and
    what is before the end of the first `_t` in the name of an enumeration is the name of no
    record, nor is the enumeration named like a token. -/
structure Readable (ir : AcceptedIR) (type : String) : Prop where
  record : ∀ record ∈ ir.records, record.name ∉ tokenTypes → Refers record.name type →
    EndsOnce "_t".toList record.name.toList ∧ type ≠ "es_sha256_t *"
  enum : ∀ enumeration ∈ ir.enumerations, type = enumeration.name → type ∉ tokenTypes ∧
    ∀ record ∈ ir.records, EndsOnce "_t".toList record.name.toList →
      ¬ record.name.toList <+: type.toList

/-- A field of a record type is a view of that record if the name ends in its only `_t`. -/
theorem PlainField.read_view (hw : w.schema = emitRecord offsetof f.record)
    (gate : f.field.minimumVersion ≤ w.messageVersion) {record : Record}
    (hrecord : record ∈ ir.records) (href : Refers record.name f.field.type)
    (htoken : record.name ∉ tokenTypes) (hsha : f.field.type ≠ "es_sha256_t *")
    (honce : EndsOnce "_t".toList record.name.toList) (h : f.target offsetof mem w ≠ 0) :
    f.read offsetof mem w =
      .ok (.view { w with
        address := f.target offsetof mem w
        schema := emitRecord offsetof record
        address_ne := h }) := by
  have hname := ir.recordNames record hrecord
  rw [f.read_of_refers hw gate hname href htoken hsha]
  refine congrArg Except.ok (readReferenced_of_some (referencedSchemaName_ne_empty hname href) ?_ h)
  exact (findSchema_referenced_iff offsetof hname href).mpr
    ⟨record, hrecord, honce, List.prefix_refl _, rfl⟩

/-- A field of a record type that is a view of that record has a name that ends in its only
    `_t`. -/
theorem PlainField.endsOnce_of_read_view (hw : w.schema = emitRecord offsetof f.record)
    (gate : f.field.minimumVersion ≤ w.messageVersion) (htarget : f.target offsetof mem w ≠ 0)
    {record : Record} (hrecord : record ∈ ir.records) (href : Refers record.name f.field.type)
    (htoken : record.name ∉ tokenTypes) {v : View} (hread : f.read offsetof mem w = .ok (.view v))
    (hv : v.schema = emitRecord offsetof record) :
    EndsOnce "_t".toList record.name.toList ∧ f.field.type ≠ "es_sha256_t *" := by
  have hsha : f.field.type ≠ "es_sha256_t *" := fun hsha => by
    rw [f.read_sha256 hw gate hsha, decode] at hread
    split at hread <;> cases hread
  have hname := ir.recordNames record hrecord
  rw [f.read_of_refers hw gate hname href htoken hsha, Except.ok.injEq] at hread
  refine ⟨?_, hsha⟩
  cases hfind : findSchema (emitSchemas offsetof ir.records)
      (referencedSchemaName f.field.type 128) with
  | none => exact absurd hread (readReferenced_of_none hfind)
  | some schema =>
    rw [readReferenced_of_some (referencedSchemaName_ne_empty hname href) hfind htarget,
      Decoded.view.injEq] at hread
    obtain ⟨found, -, honce, -, hschema⟩ := (findSchema_referenced_iff offsetof hname href).mp hfind
    -- The schema that was found is the record's, by their names
    have : found.name = record.name := by
      rw [← hread, hschema] at hv
      exact congrArg Schema.name hv
    rwa [this] at honce

/-- A field of an enumeration's type is a symbol unless it is a token or the reader finds a
    record in the name. -/
theorem PlainField.read_enum_iff (hw : w.schema = emitRecord offsetof f.record)
    (gate : f.field.minimumVersion ≤ w.messageVersion) (htarget : f.target offsetof mem w ≠ 0)
    (hname : IsTypeName f.field.type) :
    f.read offsetof mem w =
        .ok (.enum f.field.type (mem.int32 (f.place offsetof w))
          (enumSymbol ir.enumerations f.field.type (mem.int32 (f.place offsetof w)))) ↔
      f.field.type ∉ tokenTypes ∧
        ∀ record ∈ ir.records, EndsOnce "_t".toList record.name.toList →
          ¬ record.name.toList <+: f.field.type.toList := by
  have href : Refers f.field.type f.field.type := .head _
  by_cases htoken : f.field.type ∈ tokenTypes
  · obtain ⟨native, hread⟩ := f.read_token mem hw gate htoken
    simp [hread, htoken]
  have hsha : f.field.type ≠ "es_sha256_t *" := fun hsha =>
    absurd (isPointer_eq_false hname) (by rw [hsha]; decide)
  rw [f.read_of_refers hw gate hname href htoken hsha, Except.ok.injEq]
  cases hfind : findSchema (emitSchemas offsetof ir.records)
      (referencedSchemaName f.field.type 128) with
  | none =>
    rw [readReferenced_enum hfind (isPointer_eq_false hname) (startsWith_eq_true.mpr hname.starts)]
    refine iff_of_true rfl ⟨htoken, fun record hrecord honce hprefix => ?_⟩
    have := (findSchema_referenced_iff offsetof hname href).mpr
      ⟨record, hrecord, honce, hprefix, rfl⟩
    rw [hfind] at this
    cases this
  | some schema =>
    rw [readReferenced_of_some (referencedSchemaName_ne_empty hname href) hfind htarget]
    obtain ⟨record, hrecord, honce, hprefix, -⟩ :=
      (findSchema_referenced_iff offsetof hname href).mp hfind
    exact iff_of_false (by simp) fun h => h.2 record hrecord honce hprefix

/-- The reader agrees with the code generator on a plain field exactly when it finds the name of
    the record in the type, and none in the name of an enumeration. -/
theorem agrees_iff_readable (ir : AcceptedIR) (f : PlainField ir)
    (offsetof : String → String → Nat) (mem : Memory) (w : View)
    (hw : w.schema = emitRecord offsetof f.record)
    (gate : f.field.minimumVersion ≤ w.messageVersion)
    (nonNull : isPointer f.field.type → mem.pointer (f.place offsetof w) ≠ 0) :
    Agrees f offsetof mem w ↔ Readable ir f.field.type := by
  have htarget := f.target_ne_zero offsetof nonNull
  have henum {enumeration : Enumeration} (h : enumeration ∈ ir.enumerations)
      (htype : f.field.type = enumeration.name) :=
    f.read_enum_iff hw gate htarget (htype ▸ ir.enumNames enumeration h)
  constructor
  · intro h
    refine ⟨fun record hrecord htoken href => ?_, fun enumeration hmem htype => ?_⟩
    · obtain ⟨v, hread, hv, -⟩ := h.record record hrecord htoken href
      exact f.endsOnce_of_read_view hw gate htarget hrecord href htoken hread hv
    · exact (henum hmem htype).mp (h.enum enumeration hmem htype)
  · intro h
    refine ⟨fun record hrecord htoken href => ?_, fun enumeration hmem htype => ?_⟩
    · obtain ⟨honce, hsha⟩ := h.record record hrecord htoken href
      exact ⟨_, f.read_view hw gate hrecord href htoken hsha honce htarget, rfl, rfl, rfl, rfl⟩
    · exact (henum hmem htype).mpr (h.enum enumeration hmem htype)

end Reading

/-! ## Some records of the SDK -/

def remoteThreadCreate : Record where
  name := "es_event_remote_thread_create_t"
  fields := [⟨"target", "es_process_t *", 1⟩, ⟨"thread_state", "es_thread_state_t *", 1⟩]

def result : Record where
  name := "es_result_t"
  fields := [⟨"result_type", "es_result_type_t", 1⟩]

def sampleIR : AcceptedIR where
  records :=
    [remoteThreadCreate, result,
      ⟨"es_thread_state_t", [⟨"flavor", "int", 1⟩, ⟨"state", "es_token_t", 1⟩]⟩,
      ⟨"es_process_t", [⟨"ppid", "int", 1⟩, ⟨"session_id", "int", 1⟩]⟩]
  enumerations := [⟨"es_result_type_t", [⟨"ES_RESULT_TYPE_AUTH", "auth", 0⟩]⟩]
  recordNames_nodup := by simp [remoteThreadCreate, result]
  fieldNames_nodup := by simp [remoteThreadCreate, result]
  recordNames := by decide +kernel
  enumNames := by decide +kernel
  accepted := by decide +kernel

def sampleTarget : PlainField sampleIR where
  record := remoteThreadCreate
  field := ⟨"target", "es_process_t *", 1⟩
  record_mem := .head _
  field_mem := .head _
  plain := by decide +kernel

def sampleThreadState : PlainField sampleIR where
  record := remoteThreadCreate
  field := ⟨"thread_state", "es_thread_state_t *", 1⟩
  record_mem := .head _
  field_mem := .tail _ (.head _)
  plain := by decide +kernel

def sampleResultType : PlainField sampleIR where
  record := result
  field := ⟨"result_type", "es_result_type_t", 1⟩
  record_mem := .tail _ (.head _)
  field_mem := .head _
  plain := by decide +kernel

/-- A memory where every pointer is `0x2000` and every integer 0. -/
def sampleMemory : Memory where
  pointer _ := 0x2000
  int32 _ := 0
  isPipe _ := false

def sampleView (record : Record) : View where
  address := 0x1000
  schema := emitRecord (fun _ _ => 8) record
  messageVersion := 1
  strictVersion := false
  address_ne := by decide

/-- A target process is read as a process. -/
theorem agrees_iff_readable_target :
    Agrees sampleTarget (fun _ _ => 8) sampleMemory (sampleView remoteThreadCreate) := by
  refine (agrees_iff_readable sampleIR sampleTarget (fun _ _ => 8) sampleMemory
    (sampleView remoteThreadCreate) rfl (by decide) (by decide)).mpr ⟨?_, ?_⟩
  · decide +kernel
  · decide +kernel

/-- The state of a thread is accepted by the code generator and read as `nil`, and the type of a
    result is read as a result. -/
theorem thread_state_not_read :
    ¬ Agrees sampleThreadState (fun _ _ => 8) sampleMemory (sampleView remoteThreadCreate) ∧
      ¬ Agrees sampleResultType (fun _ _ => 8) sampleMemory (sampleView result) := by
  have hstate : sampleThreadState.read (fun _ _ => 8) sampleMemory (sampleView remoteThreadCreate)
      = .ok .nil := rfl
  have htype : sampleResultType.read (fun _ _ => 8) sampleMemory (sampleView result)
      = .ok (.view { sampleView result with address := 0x1008, address_ne := by decide }) := rfl
  constructor
  · intro h
    obtain ⟨v, hread, -⟩ := h.record _ (.tail _ (.tail _ (.head _))) (by decide) (by decide)
    rw [hstate] at hread
    cases hread
  · intro h
    have hread := h.enum _ (.head _) rfl
    rw [htype] at hread
    cases hread

end EndpointSecurity.FieldReader
