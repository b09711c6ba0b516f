import EndpointSecurity.Codegen.EventTypes
import EndpointSecurity.ForStd.List

/-!
# Records and enumerations, from the AST (`codegen/ir.rb`)

The fields of a record are its own and those of its anonymous members, which clang lists as
indirect ones and whose declarations are looked for below it. The constants of an enumeration
have the values that C gives them and symbols without the name of the type.
-/

namespace EndpointSecurity.Codegen

open Regex (one many1)

/-! ## Types -/

/-- `:\d+:\d+\)` -/
def sourcePosition : Regex Char :=
  .all [one (· == ':'), many1 Char.isDigit, one (· == ':'), many1 Char.isDigit, one (· == ')')]

/-- What is behind `.*?:\d+:\d+\)`: the source position that is reached first. -/
def behindPosition : List Char → Option (List Char)
  | [] => none
  | c :: rest =>
    match (sourcePosition.run none (c :: rest)).head? with
    | some found => some found.rest
    -- `.` is any character but the end of the line
    | none => if c = '\n' then none else behindPosition rest

/-- What is behind `/\((?:unnamed|anonymous) at .*?:\d+:\d+\)/` at the start of a text. -/
def behindAnonymous (text : List Char) : Option (List Char) :=
  if "(unnamed at ".toList.isPrefixOf text then behindPosition (text.drop 12)
  else if "(anonymous at ".toList.isPrefixOf text then behindPosition (text.drop 14)
  else none

/-- The loop of `gsub`, where `skip` characters of a match are left. -/
def normalizeFrom : Nat → List Char → List Char
  | _, [] => []
  | skip + 1, _ :: rest => normalizeFrom skip rest
  | 0, c :: rest =>
    match behindAnonymous (c :: rest) with
    | some behind => "(anonymous)".toList ++ normalizeFrom (rest.length - behind.length) rest
    | none => c :: normalizeFrom 0 rest

/-- `IR.normalize_type` -/
def normalizeType (type : String) : String := .ofList (normalizeFrom 0 type.toList)

/-! ## Records -/

/-- `node["kind"] == "FieldDecl"` -/
def isFieldDecl (node : Node) : Bool := node.label.kind = some "FieldDecl"

/-- `IR.recursive_field` -/
def recursiveField (node : Node) (name : Option String) : Option Node :=
  RoseTree.queueFind
    (fun child => if isFieldDecl child ∧ child.label.name = name then some child else none)
    node.inner

/-- `(direct + indirect).uniq { |field| field["name"] }` -/
def fieldDecls (node : Node) : List Node :=
  let direct := node.inner.filter fun child => isFieldDecl child && child.label.name.isSome
  let indirectFields := node.inner.filter (·.label.kind = some "IndirectFieldDecl")
  let indirect := indirectFields.filterMap fun child => recursiveField node child.label.name
  List.uniqBy (·.label.name) (direct ++ indirect)

/-- The field of a declaration, if it is not a reserved one, or the text of the error. -/
def fieldOf (versions : Versions) (record : String) (node : Node) :
    Except String (Option Field) := do
  let some name := node.label.name | throw "undefined method 'start_with?' for nil"
  if "reserved".toList.isPrefixOf name.toList then return none
  let some type := node.label.desugaredQualType.or node.label.qualType
    | throw "undefined method 'gsub' for nil"
  let minimumVersion := minimumVersion versions record name
  return some { name, type := normalizeType type, minimumVersion }

/-- The record of a typedef. -/
def recordOf (versions : Versions) (entry : String × Node) : Except String Record := do
  let fields ← (fieldDecls entry.2).mapM (fieldOf versions entry.1)
  return { name := entry.1, fields := fields.filterMap id }

/-- `IR.records`, or the text of the error. -/
def records (w : WordClass) (root : Node) (sources : List (List Char)) :
    Except String (List Record) := do
  let versions ← scanFieldVersions w sources
  (Ast.typedefRecords root).mapM (recordOf versions)

/-! ## Enumerations -/

/-- `name.delete_suffix("_t").upcase` with an underscore behind. -/
def constantPrefix (name : String) : String := (deleteSuffix "_t" name).toUpper ++ "_"

/-- `entry.fetch("name").delete_prefix(prefix).delete_prefix("ES_").downcase.to_sym` -/
def enumSymbolOf (type name : String) : String :=
  (deletePrefix "ES_" (deletePrefix (constantPrefix type) name)).toLower

/-- The body of the loop over the constants in `IR.enumerations`, with `value` and the entries. -/
def scanEnumerator (type : String) (scan : Int × List EnumValue) (entry : Node) :
    Except String (Int × List EnumValue) := do
  if !isConstantDecl entry then return scan
  let value ← constantValue scan.1 entry
  let some name := entry.label.name | throw "key not found: \"name\""
  return (value, scan.2 ++ [{ name, symbol := enumSymbolOf type name, value }])

/-- The enumeration of a typedef, if it has constants. -/
def enumerationOf (entry : String × Node) : Except String (Option Enumeration) := do
  let scan ← entry.2.inner.foldlM (scanEnumerator entry.1) (-1, [])
  if scan.2.isEmpty then return none
  return some { name := entry.1, values := scan.2 }

/-- `IR.enumerations`, or the text of the error. -/
def enumerations (root : Node) : Except String (List Enumeration) := do
  let found ← (Ast.typedefEnums root).mapM enumerationOf
  return found.filterMap id

end EndpointSecurity.Codegen
