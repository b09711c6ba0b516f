import EndpointSecurity.Codegen.FieldTypes
import EndpointSecurity.ForStd.Hash
import EndpointSecurity.ForStd.Regex

/-!
# What the code generator reads from header texts (`codegen/ir.rb`)

Clang's AST has no comments, so two things are read from the text of the SDK headers: from which
message version on a field is there, and which events have verdicts that may be cached. The first
comes from a scan line by line, the second from a search through the whole text.

A text is a list of characters. The regular expressions are those of the source.
-/

namespace EndpointSecurity.Codegen

/-! ## Classes of characters -/

/-- `\w`, `[a-zA-Z0-9_]` -/
def isWord (c : Char) : Bool := c.isAlphanum || c == '_'

/-- `\s` -/
def isSpace (c : Char) : Bool :=
  c == ' ' || c == '\t' || c == '\n' || c == '\x0b' || c == '\x0c' || c == '\r'

/-- `[a-zA-Z_]` -/
def isLetter (c : Char) : Bool := c.isAlpha || c == '_'

/-- The characters that `\b` sees no boundary between. Of the ASCII characters these are those of
    `\w`; what else there is in the encoding of a text does not matter here. -/
structure WordClass where
  mem : Char → Bool
  ascii : ∀ c, c.toNat < 128 → mem c = isWord c

/-- `\b` -/
def wordBoundary (w : WordClass) (before behind : Option Char) : Bool :=
  before.any w.mem != behind.any w.mem

/-- `^` -/
def lineStart : Option Char → Option Char → Bool
  | none, _ => true
  | some c, behind => c == '\n' && behind.isSome

/-- The option `i` for a lower-case letter: the long s and the Kelvin sign are letters, too. -/
def ignoreCase (letter c : Char) : Bool :=
  c == letter || c == letter.toUpper || letter == 's' && c == '\u017f' ||
    letter == 'k' && c == '\u212a'

/-- `[a-zA-Z_]` with the option `i`. -/
def isLetterIgnoreCase (c : Char) : Bool := isLetter c || c == '\u017f' || c == '\u212a'

/-! ## Regular expressions -/

open Regex (one many many1 look alt group optional literal)

/-- A text in lower case, with the option `i`. -/
def literalIgnoreCase (text : List Char) : Regex Char :=
  .all (text.map fun letter => one (ignoreCase letter))

/-- `/\btypedef\s+struct(?:\s+[a-zA-Z_]\w*)?\s*\{/` -/
def typedefStruct (w : WordClass) : Regex Char :=
  .all [look (wordBoundary w), literal "typedef".toList, many1 isSpace, literal "struct".toList,
    optional (.all [many1 isSpace, one isLetter, many isWord]), many isSpace, one (· == '\x7b')]

/-- `message` with the option `i`, for which the sharp s is a double one. -/
def messageIgnoreCase : Regex Char :=
  .all [literalIgnoreCase "me".toList,
    alt (literalIgnoreCase "ss".toList) (one fun c => c == '\u00df' || c == '\u1e9e'),
    literalIgnoreCase "age".toList]

/-- `/\b([a-zA-Z_]\w*)\s*(?:\[[^\]]*\])?\s*;[^\n]*(?:message|msg)\s+versions?\s*>=\s*(\d+)/i` -/
def versionComment (w : WordClass) : Regex Char :=
  .all [look (wordBoundary w), group (.all [one isLetterIgnoreCase, many isWord]), many isSpace,
    optional (.all [one (· == '['), many (· != ']'), one (· == ']')]), many isSpace,
    one (· == ';'), many (· != '\n'), alt messageIgnoreCase (literalIgnoreCase "msg".toList),
    many1 isSpace, literalIgnoreCase "version".toList, optional (literalIgnoreCase "s".toList),
    many isSpace, literal ">=".toList, many isSpace, group (many1 Char.isDigit)]

/-- `/^\s*}\s*(es_[a-zA-Z0-9_]+_t)\s*;/` -/
def recordEnd : Regex Char :=
  .all [look lineStart, many isSpace, one (· == '\x7d'), many isSpace,
    group (.all [literal "es_".toList, many1 isWord, literal "_t".toList]), many isSpace,
    one (· == ';')]

/-- `/}\s*(es_event_[a-zA-Z0-9_]+_t);/` -/
def eventEnd : Regex Char :=
  .all [one (· == '\x7d'), many isSpace,
    group (.all [literal "es_event_".toList, many1 isWord, literal "_t".toList]), one (· == ';')]

/-! ## Version gates -/

/-- `String#each_line` -/
def eachLine : List Char → List (List Char)
  | [] => []
  | c :: rest =>
    if c = '\n' then [c] :: eachLine rest
    else
      match eachLine rest with
      | [] => [[c]]
      | line :: lines => (c :: line) :: lines

/-- The line has the beginning of a structure definition. -/
def opens (w : WordClass) (line : List Char) : Bool := ((typedefStruct w).search none line).isSome

/-- The field that the line declares with a version comment, and the digits of the version. -/
def versionGate (w : WordClass) (line : List Char) : Option (String × List Char) :=
  ((versionComment w).search none line).bind fun found =>
    match found.groups with
    | [name, digits] => some (.ofList name, digits)
    | _ => none

/-- The record whose definition ends with the line. -/
def recordEnded (line : List Char) : Option String :=
  (recordEnd.search none line).bind fun found => found.groups.head?.map .ofList

/-- The number that a list of digits denotes. -/
def ofDigits (base : Nat) (digits : List Char) : Nat :=
  digits.foldl (fun n digit => base * n + (digit.toNat - '0'.toNat)) 0

/-- `Integer` of a string of digits, which reads a number with a leading zero as an octal one, or
    the text of its `ArgumentError`. -/
def integer (digits : List Char) : Except String Nat :=
  match digits with
  -- A leading zero makes the digits octal, and Ruby rejects an 8 or a 9 among them
  | '0' :: digit :: rest =>
    if (digit :: rest).all fun c => c.toNat < '8'.toNat then .ok (ofDigits 8 (digit :: rest))
    else .error ("invalid value for Integer(): \"" ++ .ofList digits ++ "\"")
  | _ => .ok (ofDigits 10 digits)

/-- The version gates of records and fields. -/
abbrev Versions := List ((String × String) × Nat)

/-- What the scan of a source keeps from line to line. -/
structure ScanState where
  versions : Versions
  /-- The gates of the record that is being read; `none` outside of a definition. -/
  fields : Option (List (String × Nat)) := none
  deriving DecidableEq, Repr

/-- `fields.each { |name, version| versions[[record, name]] = version }` -/
def storeFields (record : String) (fields : List (String × Nat)) (versions : Versions) : Versions :=
  fields.foldl (fun versions gate => Hash.store (record, gate.1) gate.2 versions) versions

/-- The body of the inner loop of `IR.scan_field_versions`. -/
def scanLine (w : WordClass) (state : ScanState) (line : List Char) : Except String ScanState := do
  -- An opening line within a definition does not empty what has been collected
  let fields := if state.fields.isNone && opens w line then some [] else state.fields
  let fields ←
    -- A comment counts only while fields are collected
    match fields, versionGate w line with
    | some gates, some (name, digits) => do
      let version ← integer digits
      pure (some (Hash.store name version gates))
    | fields, _ => pure fields
  match fields, recordEnded line with
  -- The end of a record gives it the fields, and the scan stops collecting
  | some gates, some record =>
    pure { versions := storeFields record gates state.versions, fields := none }
  | fields, _ => pure { versions := state.versions, fields }

/-- The body of the outer loop of `IR.scan_field_versions`. -/
def scanSource (w : WordClass) (versions : Versions) (source : List Char) :
    Except String Versions := do
  let state ← (eachLine source).foldlM (scanLine w) { versions }
  pure state.versions

/-- `IR.scan_field_versions` -/
def scanFieldVersions (w : WordClass) (sources : List (List Char)) : Except String Versions :=
  sources.foldlM (scanSource w) []

/-- `versions.fetch([record, field], 1)`, the minimum version of a field in `IR.records`. -/
def minimumVersion (versions : Versions) (record field : String) : Nat :=
  (versions.lookup (record, field)).getD 1

/-- `\b` in a text of ASCII characters. -/
def asciiWords : WordClass := ⟨isWord, fun _ _ => rfl⟩

/-! ## Cacheable events -/

/-- `Event` -/
structure Event where
  name : String
  symbol : String
  value : Int
  minimumOs : String
  reserved : Bool
  deriving DecidableEq, Repr

/-- `"/**"` -/
def commentStart : List Char := "/**".toList

def cacheKeyPhrase : List Char := "Cache key for this event type".toList

/-- `comment_start && source[comment_start...match.begin(0)].include?(cacheKeyPhrase)`, where
    `comment_start` is `source.rindex("/**", match.begin(0))`. -/
def cacheKeyAt (source : List Char) (position : Nat) : Bool :=
  match Substring.rindex source commentStart position with
  | some start => (Substring.strstr ((source.take position).drop start) cacheKeyPhrase).isSome
  | none => false

/-- `cacheable_structs` -/
def cacheableStructs (source : List Char) : List String :=
  (eventEnd.scan 0 none source).filterMap fun found =>
    if cacheKeyAt source found.before.length then found.groups.head?.map .ofList else none

/-- `IR.cacheable_events` -/
def cacheableEvents (source : List Char) (events : List Event) : List String :=
  let suffixes := (cacheableStructs source).map fun name =>
    deleteSuffix "_t" (deletePrefix "es_event_" name)
  (events.filter fun event =>
    "auth_".toList.isPrefixOf event.symbol.toList &&
      suffixes.contains (deletePrefix "auth_" event.symbol)).map (·.symbol)

end EndpointSecurity.Codegen
