import EndpointSecurity.Codegen.Ast
import EndpointSecurity.Native.FieldReader

/-!
# Event types, from the header to the tables (`codegen/ir.rb`, `emit_ruby.rb`, `emit_c.rb`)

The constants of `es_event_type_t` come from the AST, and the macOS version from which on each
event exists from the comments of the header. Two tables are written from them: one for Ruby,
between the symbols and the values of the events, and one for C, with the member of `es_events_t`
that a message of the event has. At runtime `EventType` and `esrb_event_wrap` look them up.
-/

namespace EndpointSecurity.Codegen

open Regex (one many1 look alt group optional literal)

/-! ## Availability -/

/-- `[0-9]` -/
def isDecimal (c : Char) : Bool := '0'.toNat ≤ c.toNat && c.toNat ≤ '9'.toNat

/-- `[A-Z0-9_]` -/
def isConstant (c : Char) : Bool :=
  'A'.toNat ≤ c.toNat && c.toNat ≤ 'Z'.toNat || isDecimal c || c == '_'

/-- `(?:\.[0-9]+)` -/
def minorVersion : Regex Char := .all [one (· == '.'), many1 isDecimal]

/-- `AVAILABILITY`: `/available beginning in macOS ([0-9]+(?:\.[0-9]+){1,2})/i` -/
def availabilityComment : Regex Char :=
  .all [literalIgnoreCase "available beginning in macos ".toList,
    group (.all [many1 isDecimal, minorVersion, optional minorVersion])]

/-- `EVENT`: `/\b(ES_EVENT_TYPE_[A-Z0-9_]+)\b/` -/
def eventConstant (w : WordClass) : Regex Char :=
  .all [look (wordBoundary w), group (.all [literal "ES_EVENT_TYPE_".toList, many1 isConstant]),
    look (wordBoundary w)]

/-- `line.match(AVAILABILITY)[1]` -/
def availableIn (line : List Char) : Option String :=
  (availabilityComment.search none line).bind fun found => found.groups.head?.map .ofList

/-- `line[EVENT, 1]` -/
def eventNamed (w : WordClass) (line : List Char) : Option String :=
  ((eventConstant w).search none line).bind fun found => found.groups.head?.map .ofList

/-- `line.include?("} es_event_type_t;")` -/
def endsEvents (line : List Char) : Bool :=
  (Substring.strstr line "\x7d es_event_type_t;".toList).isSome

/-- The constant behind the last event -/
def lastConstant : String := "ES_EVENT_TYPE_LAST"

/-- The macOS versions by the names of the constants; `none` is `nil`. -/
abbrev Availability := List (String × Option String)

/-- What a line does to `versions`, where `current` is the version it is read with. -/
def recordEvent (w : WordClass) (current : Option String) (line : List Char)
    (versions : Availability) : Availability :=
  match eventNamed w line with
  | some name =>
    if name = lastConstant then versions else Hash.store name current versions
  | none => versions

/-- The loop of `IR.scan_availability`, with the `current` and `versions` that a line finds. -/
def scanAvailabilityLines (w : WordClass) : Option String → Availability → List (List Char) →
    Availability
  | _, versions, [] => versions
  | current, versions, line :: lines =>
    let current := (availableIn line).or current
    let versions := recordEvent w current line versions
    -- The line with the end of the enumeration is still read
    if endsEvents line then versions else scanAvailabilityLines w current versions lines

/-- `source.index(part)` -/
def index (source part : List Char) : Option Nat :=
  (Substring.strstr source part).map fun rest => source.length - rest.length

/-- The text from the definition of the events on. -/
def enumText (source : List Char) : Option (List Char) :=
  (index source "ES_EVENT_TYPE_AUTH_EXEC".toList).map fun firstEvent =>
    -- Where nothing opens the enumeration, `source[nil..]` is the whole source
    source.drop ((Substring.rindex source "typedef enum \x7b".toList firstEvent).getD 0)

/-- `IR.scan_availability`, or the text of the `CodegenError`. -/
def scanAvailability (w : WordClass) (source : List Char) : Except String Availability :=
  match enumText source with
  | none => .error "es_event_type_t was not found"
  | some text => .ok (scanAvailabilityLines w none [] (eachLine text))

/-! ## Constants of an enumeration -/

/-- `Integer` of a numeral as clang writes it: decimal, with a minus before a negative one. -/
def integerValue (text : String) : Except String Int :=
  match text.toList with
  | '-' :: digits =>
    if digits.all Char.isDigit && !digits.isEmpty then (integer digits).map fun n => -n
    else .error ("invalid value for Integer(): \"" ++ text ++ "\"")
  | digits =>
    if digits.all Char.isDigit && !digits.isEmpty then (integer digits).map fun n => n
    else .error ("invalid value for Integer(): \"" ++ text ++ "\"")

/-- `IR.explicit_value`: the first `value` below the node, level by level. -/
def explicitValue (node : Node) : Except String (Option Int) :=
  match RoseTree.queueFind (·.label.value) node.inner with
  | some text => (integerValue text).map some
  | none => .ok none

/-- `explicit_value(node) || (value + 1)` -/
def constantValue (value : Int) (node : Node) : Except String Int :=
  (explicitValue node).map (·.getD (value + 1))

/-- `node["kind"] == "EnumConstantDecl"` -/
def isConstantDecl (node : Node) : Bool := node.label.kind = some "EnumConstantDecl"

/-- `node["name"]` of a constant, which `delete_prefix` is called on. -/
def constantName (node : Node) : Except String String :=
  match node.label.name with
  | some name => .ok name
  | none => .error "undefined method 'delete_prefix' for nil"

/-- `EventTypes` -/
structure EventTypes where
  events : List Event
  last : Int
  deriving DecidableEq, Repr

/-- `value`, `last` and the entries of the loop of `IR.event_types`. -/
structure EventScan where
  value : Int := -1
  last : Option Int := none
  entries : List Event := []
  deriving DecidableEq, Repr

/-- `availability.fetch(name)`, or the text of the `KeyError`. -/
def fetchAvailability (availability : Availability) (name : String) :
    Except String (Option String) :=
  match availability.lookup name with
  | some version => .ok version
  | none => .error ("key not found: \"" ++ name ++ "\"")

/-- `name.delete_prefix("ES_EVENT_TYPE_").downcase.to_sym` -/
def eventSymbolOf (name : String) : String := (deletePrefix "ES_EVENT_TYPE_" name).toLower

/-- The body of the loop of `IR.event_types`. -/
def scanConstant (availability : Availability) (scan : EventScan) (node : Node) :
    Except String EventScan := do
  if !isConstantDecl node then return scan
  let value ← constantValue scan.value node
  if node.label.name = some lastConstant then return { scan with value, last := some value }
  let name ← constantName node
  let symbol := eventSymbolOf name
  let version ← fetchAvailability availability name
  let reserved := "reserved_".toList.isPrefixOf symbol.toList
  -- `nil` is emitted as the empty text
  let event : Event := { name, symbol, value, minimumOs := version.getD "", reserved }
  return { scan with value, entries := scan.entries ++ [event] }

/-- `IR.event_types`, or the text of the error. -/
def eventTypes (w : WordClass) (root : Node) (source : List Char) : Except String EventTypes := do
  let availability ← scanAvailability w source
  let enum ← Ast.enumContaining root "ES_EVENT_TYPE_AUTH_EXEC"
  let scan ← enum.inner.foldlM (scanConstant availability) {}
  match scan.last with
  | some last =>
    if last = scan.entries.length then return { events := scan.entries, last }
    else throw s!"ES_EVENT_TYPE_LAST={last}, but {scan.entries.length} events were parsed"
  | none => throw s!"ES_EVENT_TYPE_LAST=, but {scan.entries.length} events were parsed"

/-! ## `EventType`, as `EmitRuby#event_types` writes it -/

namespace EventTypes

/-- `SYMBOL_TO_VALUE`: of two entries of one symbol the literal has the later. -/
def symbolToValue (ir : EventTypes) : List (String × Int) :=
  ir.events.foldl (fun entries event => Hash.store event.symbol event.value entries) []

/-- `VALUE_TO_SYMBOL`: of two symbols of one value the inverted hash has the later. -/
def valueToSymbol (ir : EventTypes) : List (Int × String) :=
  ir.symbolToValue.foldl (fun entries entry => Hash.store entry.2 entry.1 entries) []

/-- `EventType.value`; `none` is the `KeyError`. -/
def value (ir : EventTypes) (symbol : String) : Option Int := ir.symbolToValue.lookup symbol

/-- `EventType.symbol`; `none` is a value that has no symbol and stays a number. -/
def symbol (ir : EventTypes) (value : Int) : Option String := ir.valueToSymbol.lookup value

end EventTypes

/-! ## `esrb_event_schemas`, as `EmitC#schema` writes it -/

/-- `esrb_event_schema_t` -/
structure EventSchema where
  eventType : Int
  offset : Nat
  schema : String
  size : Nat
  indirect : Bool
  deriving DecidableEq, Repr

/-- `symbol.sub(/\A(?:auth|notify)_/, "")` -/
def eventMember (symbol : String) : String :=
  if "auth_".toList.isPrefixOf symbol.toList then .ofList (symbol.toList.drop 5)
  else if "notify_".toList.isPrefixOf symbol.toList then .ofList (symbol.toList.drop 7)
  else symbol

/-- The schema of the events of a member. -/
def memberSchema (member : String) : String := "es_event_" ++ member ++ "_t"

/-- The C compiler's `offsetof` and `sizeof` -/
structure Layout where
  offsetof : String → String → Nat
  sizeof : String → Nat

/-- The entry of `EmitC#schema` for one event, if it has one. Of two records of one name
    `by_name` has the later. -/
def emitEvent (layout : Layout) (records : List Record) (event : Event) : Option EventSchema := do
  let member := eventMember event.symbol
  let schema := memberSchema member
  if !records.any (·.name = schema) then none
  let record ← records.reverse.find? (·.name = "es_events_t")
  let field ← record.fields.find? (·.name = member)
  some {
    eventType := event.value
    offset := layout.offsetof "es_events_t" member
    schema := schema
    size := layout.sizeof schema
    indirect := field.type.toList.contains '*' }

/-- `esrb_event_schemas` -/
def emitEvents (layout : Layout) (records : List Record) (ir : EventTypes) : List EventSchema :=
  ir.events.filterMap (emitEvent layout records)

/-! ## `esrb_event_wrap` -/

/-- What `esrb_event_wrap` reads of an `es_message_t`. -/
structure EventMessage where
  eventType : Int
  version : Nat
  /-- The address of the union `event`. -/
  event : Nat
  event_ne : event ≠ 0

open FieldReader (Memory View)

/-- `esrb_view_wrap`, where `none` is `nil`. -/
def viewWrap (schemas : List Schema) (address : Nat) (name : String) (messageVersion : Nat)
    (strictVersion : Bool) : Option View :=
  if h : address = 0 then none
  else (FieldReader.findSchema schemas name).map fun schema =>
    { address, schema, messageVersion, strictVersion, address_ne := h }

/-- `esrb_event_wrap` -/
def eventWrap (schemas : List Schema) (events : List EventSchema) (mem : Memory)
    (message : EventMessage) (strictVersion : Bool) : Option View := do
  let event ← events.find? (·.eventType = message.eventType)
  let address := message.event + event.offset
  viewWrap schemas (if event.indirect then mem.pointer address else address) event.schema
    message.version strictVersion

end EndpointSecurity.Codegen
