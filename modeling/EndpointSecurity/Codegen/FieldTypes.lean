import EndpointSecurity.ForStd.Substring

/-!
# The field types that the code generator accepts (`codegen/ir.rb`, `codegen/emit_c.rb`)

The records and enumerations of the SDK headers are read from the AST of clang, with the type of
every field as text. `validate_field_types!` stops at the first field whose type is not on its
lists; what it lets pass is emitted as the schema table that the native reader works from.
-/

namespace EndpointSecurity.Codegen

/-- `Field` -/
structure Field where
  name : String
  type : String
  minimumVersion : Nat
  deriving DecidableEq, Repr

/-- `Record` -/
structure Record where
  name : String
  fields : List Field
  deriving DecidableEq, Repr

/-- `EnumValue` -/
structure EnumValue where
  name : String
  symbol : String
  value : Int
  deriving DecidableEq, Repr

/-- `Enumeration` -/
structure Enumeration where
  name : String
  values : List EnumValue
  deriving DecidableEq, Repr

/-! ## Validation -/

/-- `SCALAR_TYPES` -/
def scalarTypes : List String :=
  ["bool", "_Bool", "unsigned long long", "uint64_t", "long long", "int64_t", "unsigned long",
    "long", "unsigned int", "uint32_t", "int", "int32_t", "unsigned short", "uint16_t", "short",
    "int16_t", "unsigned char", "uint8_t", "signed char", "int8_t", "char", "es_string_token_t",
    "es_token_t", "audit_token_t", "struct stat", "struct timespec", "struct timeval",
    "struct attrlist"]

/-- `POINTER_TYPES` -/
def pointerTypes : List String :=
  ["struct statfs *", "struct _acl *", "es_sha256_t *", "audit_token_t *"]

/-- `SPECIAL_FIELDS` -/
def specialFields : List String :=
  ["es_token_t.data", "es_string_token_t.data", "es_muted_path_t.events",
    "es_muted_process_t.events", "es_muted_paths_t.paths", "es_muted_processes_t.processes",
    "es_event_su_t.argv", "es_event_su_t.env", "es_event_authorization_petition_t.rights",
    "es_event_authorization_judgement_t.results", "es_event_od_attribute_set_t.attribute_values",
    "es_message_t.opaque", "es_message_t.action", "es_result_t.result", "es_fd_t.pipe",
    "es_event_rename_t.destination", "es_event_create_t.destination",
    "es_event_authentication_t.data", "es_event_authentication_touchid_t.uid",
    "es_event_openssh_login_t.uid", "es_event_login_login_t.uid", "es_event_su_t.to_uid",
    "es_event_sudo_t.from_uid", "es_event_sudo_t.to_uid",
    "es_event_gatekeeper_user_override_t.file", "es_event_setacl_t.acl",
    "es_od_member_id_t.member_value", "es_od_member_id_array_t.member_array"]

/-- `String#delete_prefix` -/
def deletePrefix (part text : String) : String :=
  if part.toList.isPrefixOf text.toList then .ofList (text.toList.drop part.length) else text

/-- `String#delete_suffix` -/
def deleteSuffix (part text : String) : String :=
  if part.toList.isSuffixOf text.toList then
    .ofList (text.toList.take (text.length - part.length))
  else text

/-- `SPECIAL_FIELDS.include?` -/
def specialField (record : Record) (field : Field) : Bool :=
  specialFields.contains (record.name ++ "." ++ field.name)

/-- `IR.supported_field_type?` -/
def supportedFieldType (record : Record) (field : Field) (recordNames enumNames : List String) :
    Bool :=
  let type := field.type
  specialField record field ||
    scalarTypes.contains type || enumNames.contains type || recordNames.contains type ||
    type == "uint8_t[20]" || pointerTypes.contains type ||
    (" *".toList.isSuffixOf type.toList &&
      recordNames.contains (deleteSuffix " *" (deletePrefix "const " type)))

/-- `IR.validate_field_types!`, with the text of the `CodegenError`. -/
def validateFieldTypes (records : List Record) (enumerations : List Enumeration) :
    Except String Unit :=
  let recordNames := records.map (·.name)
  let enumNames := enumerations.map (·.name)
  records.forM fun record =>
    record.fields.forM fun field =>
      if supportedFieldType record field recordNames enumNames then .ok ()
      else .error s!"unsupported field type {field.type} at {record.name}.{field.name}"

/-- The names of the SDK's types: `es_..._t`, short enough for the reader's buffer of 128
    bytes. -/
structure IsTypeName (name : String) : Prop where
  starts : "es_".toList <+: name.toList
  ends : "_t".toList <:+ name.toList
  identifier : ∀ c ∈ name.toList, c.isAlphanum ∨ c = '_'
  short : name.length < 128

/-- `IsTypeName`, by evaluation. -/
def isTypeName (name : String) : Bool :=
  "es_".toList.isPrefixOf name.toList && "_t".toList.isSuffixOf name.toList &&
    name.toList.all (fun c => c.isAlphanum || c == '_') && name.length < 128

instance (name : String) : Decidable (IsTypeName name) :=
  decidable_of_iff (isTypeName name = true) <| by
    simp only [isTypeName, Bool.and_eq_true, List.isPrefixOf_iff_prefix, List.isSuffixOf_iff_suffix,
      List.all_eq_true, Bool.or_eq_true, beq_iff_eq, decide_eq_true_eq]
    exact ⟨fun ⟨⟨⟨hs, he⟩, hi⟩, hl⟩ => ⟨hs, he, hi, hl⟩,
      fun ⟨hs, he, hi, hl⟩ => ⟨⟨⟨hs, he⟩, hi⟩, hl⟩⟩

/-- Records and enumerations that `validate_field_types!` has accepted. They come from hashes by
    name, and the fields of a record are made unique by name. -/
structure AcceptedIR where
  records : List Record
  enumerations : List Enumeration
  recordNames_nodup : (records.map (·.name)).Nodup
  fieldNames_nodup : ∀ record ∈ records, (record.fields.map (·.name)).Nodup
  recordNames : ∀ record ∈ records, IsTypeName record.name
  enumNames : ∀ enumeration ∈ enumerations, IsTypeName enumeration.name
  accepted : validateFieldTypes records enumerations = .ok ()

/-! ## The emitted tables -/

/-- `esrb_field_t` -/
structure SchemaField where
  name : String
  type : String
  offset : Nat
  minimumVersion : Nat
  deriving DecidableEq, Repr

/-- `esrb_schema_t` -/
structure Schema where
  name : String
  fields : List SchemaField
  deriving DecidableEq, Repr

/-- The entry of `EmitC#schema` for one record, where `offsetof` is the C compiler's. -/
def emitRecord (offsetof : String → String → Nat) (record : Record) : Schema where
  name := record.name
  fields := record.fields.map fun field =>
    { name := field.name, type := field.type, offset := offsetof record.name field.name,
      minimumVersion := field.minimumVersion }

/-- `esrb_schemas`, as `EmitC#schema` writes it. -/
def emitSchemas (offsetof : String → String → Nat) (records : List Record) : List Schema :=
  records.map (emitRecord offsetof)

/-- `Enum.symbol`, over the tables that `EmitRuby#enums` writes; `none` is a value that has no
    symbol and stays a number. Of two entries with one value the hash keeps the later. -/
def enumSymbol (enumerations : List Enumeration) (type : String) (value : Int) : Option String := do
  let enumeration ← enumerations.find? (·.name = type)
  let entry ← enumeration.values.reverse.find? (·.value = value)
  some entry.symbol

end EndpointSecurity.Codegen
