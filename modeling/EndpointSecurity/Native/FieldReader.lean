import EndpointSecurity.Codegen.FieldTypes

/-!
# Reading a field of a native structure (`field.c`)

`read_field` chooses by the text of the field's type how to decode it: a chain of comparisons
with whole type names, a few searches inside the name, and between them the search for the
schema of a record. A comparison chain is a list of the type names in the order of the source,
with what its branch decodes.

Memory is given by the loads that the choice depends on; what a native structure is converted to
once it is found is not looked into.
-/

namespace EndpointSecurity.FieldReader

open Codegen

/-- The loads of `read_field`. -/
structure Memory where
  /-- A pointer at an address; 0 is `NULL`. -/
  pointer : Nat → Nat
  int32 : Nat → Int
  /-- `descriptor->fdtype == PROX_FDTYPE_PIPE` -/
  isPipe : Nat → Bool

/-- What the branches of the comparison chains convert to a Ruby value. -/
inductive NativeType where
  | stringToken | token | auditToken | stat | statfs | attrlist | timespec | timeval | bool
  | bytes20 | sha256 | acl
  | uint64 | int64 | unsignedLong | long | uint32 | int32 | uint16 | int16 | uint8 | int8
  deriving DecidableEq, Repr

/-- Whether a branch decodes the field itself or what it points to. -/
inductive Place where
  | inline | pointer
  deriving DecidableEq, Repr

/-- `esrb_view_t`, without its owner. A view of `NULL` is never made. -/
structure View where
  address : Nat
  schema : Schema
  messageVersion : Nat
  strictVersion : Bool
  address_ne : address ≠ 0

/-- What `read_field` gives. -/
inductive Decoded where
  | nil
  | view (w : View)
  /-- The symbol of `Enum.symbol`, or the number when there is none. -/
  | enum (type : String) (value : Int) (symbol : Option String)
  /-- A native structure or a number, converted from an address. -/
  | native (type : NativeType) (address : Nat)
  /-- A member of a union, which `read_union` tags. -/
  | union (schema field : String)
  /-- An array of `read_array`, with its length in another field. -/
  | array (schema field : String)
  /-- `{ pipe_id: ... }` -/
  | pipe (address : Nat)

inductive Error where
  /-- `FieldUnavailableError` -/
  | fieldUnavailable (name : String) (minimumVersion messageVersion : Nat)
  /-- `Qundef`: no such field -/
  | undefined
  deriving DecidableEq, Repr

/-! ## Strings -/

/-- `strncmp(type, part, strlen(part)) == 0` -/
def startsWith (part type : String) : Bool := part.toList.isPrefixOf type.toList

/-- `strchr(type, '*') != NULL` -/
def isPointer (type : String) : Bool := type.toList.contains '*'

/-- `strstr(type, part) != NULL` -/
def includes (part type : String) : Bool := (Substring.strstr type.toList part.toList).isSome

/-- `referenced_schema_name`, with the empty name for none. -/
def referencedSchemaName (type : String) (capacity : Nat) : String :=
  if startsWith "union " type || startsWith "struct " type then ""
  else
    match Substring.strstr type.toList "es_".toList with
    | none => ""
    | some start =>
      match Substring.strstr start "_t".toList with
      | none => ""
      | some rest =>
        let length := start.length - rest.length + 2
        if length ≥ capacity then "" else .ofList (start.take length)

/-! ## Schemas -/

/-- `find_schema` -/
def findSchema (schemas : List Schema) (name : String) : Option Schema :=
  schemas.find? (·.name = name)

/-- `find_field` -/
def findField (w : View) (name : String) : Option SchemaField :=
  w.schema.fields.find? (·.name = name)

/-- `esrb_view_wrap`, with the version and strictness of an outer view. -/
def wrap (schemas : List Schema) (w : View) (address : Nat) (name : String) : Decoded :=
  if h : address = 0 then .nil
  else
    match findSchema schemas name with
    | none => .nil
    | some schema => .view { w with address := address, schema := schema, address_ne := h }

/-! ## The branches -/

/-- The fields that `read_union` knows, with their schemas. -/
def unionFields : List (String × String) :=
  [("destination", "es_event_rename_t"), ("destination", "es_event_create_t"),
    ("uid", "es_event_authentication_touchid_t"), ("uid", "es_event_openssh_login_t"),
    ("uid", "es_event_login_login_t"), ("to_uid", "es_event_su_t"),
    ("from_uid", "es_event_sudo_t"), ("to_uid", "es_event_sudo_t"),
    ("data", "es_event_authentication_t"), ("member_value", "es_od_member_id_t"),
    ("member_array", "es_od_member_id_array_t"), ("file", "es_event_gatekeeper_user_override_t"),
    ("acl", "es_event_setacl_t")]

/-- The fields that `read_array` knows, with their schemas. -/
def arrayFields : List (String × String) :=
  [("argv", "es_event_su_t"), ("env", "es_event_su_t"),
    ("rights", "es_event_authorization_petition_t"),
    ("attribute_values", "es_event_od_attribute_set_t"),
    ("results", "es_event_authorization_judgement_t")]

/-- The comparisons before the search for `[20]`. -/
def structureBranches : List (String × NativeType × Place) :=
  [("es_string_token_t", .stringToken, .inline), ("es_string_token_t *", .stringToken, .pointer),
    ("es_token_t", .token, .inline), ("audit_token_t", .auditToken, .inline),
    ("audit_token_t *", .auditToken, .pointer), ("struct stat", .stat, .inline),
    ("struct statfs *", .statfs, .pointer), ("struct attrlist", .attrlist, .inline),
    ("struct timespec", .timespec, .inline), ("struct timeval", .timeval, .inline),
    ("bool", .bool, .inline), ("_Bool", .bool, .inline)]

/-- The comparisons after the search for `[20]`. -/
def pointerBranches : List (String × NativeType × Place) :=
  [("es_sha256_t *", .sha256, .pointer), ("struct _acl *", .acl, .pointer)]

/-- The comparisons at the end, for numbers. -/
def scalarBranches : List (String × NativeType × Place) :=
  [("unsigned long long", .uint64, .inline), ("uint64_t", .uint64, .inline),
    ("long long", .int64, .inline), ("int64_t", .int64, .inline),
    ("unsigned long", .unsignedLong, .inline), ("long", .long, .inline),
    ("unsigned int", .uint32, .inline), ("uint32_t", .uint32, .inline),
    ("int", .int32, .inline), ("int32_t", .int32, .inline),
    ("unsigned short", .uint16, .inline), ("uint16_t", .uint16, .inline),
    ("short", .int16, .inline), ("int16_t", .int16, .inline),
    ("unsigned char", .uint8, .inline), ("uint8_t", .uint8, .inline),
    ("signed char", .int8, .inline), ("int8_t", .int8, .inline), ("char", .int8, .inline)]

/-- What a branch of a comparison chain gives. -/
def decode (mem : Memory) (address : Nat) : NativeType × Place → Decoded
  | (type, .inline) => .native type address
  | (type, .pointer) =>
    if mem.pointer address = 0 then .nil else .native type (mem.pointer address)

/-- The branches of `read_field` from the search for a schema on. -/
def readReferenced (schemas : List Schema) (enumerations : List Enumeration) (mem : Memory)
    (w : View) (type : String) (address : Nat) : Decoded :=
  let name := referencedSchemaName type 128
  if name ≠ "" ∧ (findSchema schemas name).isSome then
    wrap schemas w (if isPointer type then mem.pointer address else address) name
  else if isPointer type then .nil
  else if startsWith "es_" type then
    .enum type (mem.int32 address) (enumSymbol enumerations type (mem.int32 address))
  else
    match scalarBranches.lookup type with
    | some branch => decode mem address branch
    | none => .nil

/-- The branches of `read_field` after those for unions and arrays. -/
def readTyped (schemas : List Schema) (enumerations : List Enumeration) (mem : Memory)
    (w : View) (field : SchemaField) (address : Nat) : Decoded :=
  match structureBranches.lookup field.type with
  | some branch => decode mem address branch
  | none =>
    if includes "[20]" field.type then .native .bytes20 address
    else
      match pointerBranches.lookup field.type with
      | some branch => decode mem address branch
      | none =>
        if w.schema.name = "es_fd_t" ∧ field.name = "pipe" then
          if mem.isPipe w.address then .pipe w.address else .nil
        else readReferenced schemas enumerations mem w field.type address

/-- `read_field` -/
def readField (schemas : List Schema) (enumerations : List Enumeration) (mem : Memory)
    (w : View) (name : String) : Except Error Decoded :=
  match findField w name with
  | none => .error .undefined
  | some field =>
    if field.minimumVersion > w.messageVersion then
      if w.strictVersion then
        .error (.fieldUnavailable field.name field.minimumVersion w.messageVersion)
      else .ok .nil
    else
      let place := (field.name, w.schema.name)
      if startsWith "union " field.type then
        .ok (if place ∈ unionFields then .union w.schema.name field.name else .nil)
      else if isPointer field.type ∧ place ∈ arrayFields then
        .ok (.array w.schema.name field.name)
      else
        .ok (readTyped schemas enumerations mem w field (w.address + field.offset))

end EndpointSecurity.FieldReader
