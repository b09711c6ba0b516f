import EndpointSecurity.ForStd.Base64

/-!
# Messages and views as Ruby objects (`object_model.rb`, `message.rb`, `field.c`)

A view is a Ruby object around a structure of a native message. Its class depends on the schema
of the structure; the fields of the schema are read by `__read_field`, which `method_missing`
calls for every name that is no method of the class. `to_h` copies a view to plain hashes and
arrays, with strings that are no text as base64.

The native structures are given by what each of their fields is decoded to. A method name that
ends in a question mark is given without it, and every field name is a C identifier.

The copying methods recurse on each other, each call with one level less of the stack; a stack
that is used up raises `SystemStackError`, as in Ruby.
-/

namespace EndpointSecurity.ObjectModel

/-! ## Ruby values -/

/-- The encodings of the strings that occur. -/
inductive Encoding where
  | utf8 | binary | usAscii
  deriving DecidableEq, Repr

/-- `String#valid_encoding?` -/
def Encoding.valid : Encoding → List UInt8 → Bool
  | .utf8, bytes => ByteArray.validateUTF8 ⟨bytes.toArray⟩
  | .binary, _ => true
  | .usAscii, bytes => bytes.all (· < 128)

/-- A string of native bytes, with the encoding that `EndpointSecurity.string_encoding` asks
    for. -/
structure Text where
  bytes : List UInt8
  encoding : Encoding
  deriving DecidableEq, Repr

/-- `esrb_field_t`, with the value that the field of one structure is decoded to. -/
structure Field (ν : Type) where
  name : String
  minimumVersion : Nat
  value : ν

/-- A `NativeView`: the name of its schema, and the structure it is a view of. -/
structure View (ν : Type) where
  schema : String
  messageVersion : Nat
  strictVersion : Bool
  fields : List (Field ν)
  /-- What `esrb_string_token_value` gives for `es_exec_arg` and `es_exec_env`, when it is an
      exec event: `nil` for a length above `LONG_MAX`. -/
  args : List (Option Text)
  env : List (Option Text)
  /-- The views of what `es_exec_fd` gives. -/
  fds : List ν

inductive Value where
  | nil
  | bool (b : Bool)
  | int (i : Int)
  | symbol (name : String)
  | time (seconds nanoseconds : Int)
  | string (bytes : List UInt8) (encoding : Encoding)
  | array (items : List Value)
  /-- A `FieldArray` or `ExecArgs`, with the items its loader gives. -/
  | fieldArray (items : List Value)
  /-- A hash whose keys are symbols. -/
  | hash (entries : List (String × Value))
  /-- An instance of a class made by `Data.define`. -/
  | data (className : String) (members : List (String × Value))
  | view (w : View Value)

/-- A string or `nil`. -/
def Value.ofText : Option Text → Value
  | none => .nil
  | some text => .string text.bytes text.encoding

/-- What the methods raise. -/
inductive Error where
  /-- `FieldUnavailableError` -/
  | fieldUnavailable (name : String) (minimumVersion messageVersion : Nat)
  | noMethod (name : String)
  | argument
  | systemStack
  /-- `__read_field` of a name that is not in the schema gives `Qundef`. -/
  | undefined
  deriving DecidableEq, Repr

/-- The text of a `FieldUnavailableError`. -/
def Error.text : Error → Option String
  | .fieldUnavailable name minimumVersion messageVersion =>
    some s!"{name} requires message version {minimumVersion} (got {messageVersion})"
  | _ => none

/-! ## The native methods of a view -/

inductive ViewClass where
  | process | file | thread | event | nativeView
  deriving DecidableEq, Repr

/-- `class_for_schema` -/
def classForSchema (schema : String) : ViewClass :=
  if schema = "es_process_t" then .process
  else if schema = "es_file_t" then .file
  else if schema = "es_thread_t" then .thread
  else if "es_event_".toList.isPrefixOf schema.toList then .event
  else .nativeView

inductive ExecKind where
  | args | env | fds
  deriving DecidableEq, Repr

namespace View

variable {ν : Type}

/-- The class of a view. -/
def viewClass (w : View ν) : ViewClass := classForSchema w.schema

/-- `__field_names` -/
def fieldNames (w : View ν) : List String := w.fields.map (·.name)

/-- `find_field` -/
def findField (w : View ν) (name : String) : Option (Field ν) :=
  w.fields.find? fun field => field.name = name

def exec (w : View Value) : ExecKind → List Value
  | .args => w.args.map .ofText
  | .env => w.env.map .ofText
  | .fds => w.fds

/-- It is a view of an exec event. -/
def isExec (w : View ν) : Prop := w.schema = "es_event_exec_t"

instance (w : View ν) : Decidable w.isExec := inferInstanceAs (Decidable (_ = _))

/-- `read_field` -/
def readField (w : View Value) (name : String) : Except Error Value :=
  match w.findField name with
  | none => .error .undefined
  | some field =>
    if field.minimumVersion > w.messageVersion then
      if w.strictVersion then
        .error (.fieldUnavailable field.name field.minimumVersion w.messageVersion)
      else .ok .nil
    else .ok field.value

/-- `exec_values` -/
def execValues (w : View Value) (kind : ExecKind) : Value :=
  if w.isExec then .array (w.exec kind) else .nil

/-! ## Methods -/

/-- `value.is_a?(Array) ? FieldArray.new { value } : value` -/
def wrapArray : Value → Value
  | .array items => .fieldArray items
  | value => value

/-- `NativeView#method_missing`, for a name without its question mark. -/
def methodMissing (w : View Value) (name : String) (predicate : Bool) : Except Error Value :=
  let field := if predicate && w.fieldNames.contains ("is_" ++ name) then "is_" ++ name else name
  if w.fieldNames.contains field then (w.readField field).map wrapArray
  else .error (.noMethod name)

/-- `name.to_s.end_with?("?")` -/
def endsWithMark (name : String) : Bool := "?".toList.isSuffixOf name.toList

/-- `name.to_s.delete_suffix("?")` -/
def deleteMark (name : String) : String :=
  if endsWithMark name then .ofList name.toList.dropLast else name

/-- `NativeView#method_missing`, for a name as the caller spells it. -/
def missing (w : View Value) (name : String) : Except Error Value :=
  let field := deleteMark name
  let predicate := endsWithMark name
  let field :=
    if predicate && w.fieldNames.contains ("is_" ++ field) then "is_" ++ field else field
  if w.fieldNames.contains field then (w.readField field).map wrapArray
  else .error (.noMethod name)

/-- `NativeView#respond_to_missing?`; its `super` is false. -/
def respondToMissing (w : View ν) (name : String) : Bool :=
  let field := deleteMark name
  w.fieldNames.contains field || w.fieldNames.contains ("is_" ++ field)

/-- `FieldArray#values` for a loader that calls `__exec_values`. -/
def execArray (w : View Value) (kind : ExecKind) : List Value :=
  match w.execValues kind with
  | .array items => items
  | _ => []

/-- `Process#pid`, where the audit token is read as an `AuditToken`. -/
def pid (w : View Value) : Except Error Value :=
  (w.methodMissing "audit_token" false).bind fun
    | .data _ members =>
      match members.lookup "pid" with
      | some pid => .ok pid
      | none => .error (.noMethod "pid")
    | _ => .error (.noMethod "pid")

/-- The hexadecimal digits of a byte, as `unpack1("H*")` gives them. -/
def hexDigits (byte : UInt8) : List UInt8 :=
  let digit (n : Nat) : UInt8 := .ofNat (if n < 10 then n + 48 else n + 87)
  [digit (byte.toNat / 16), digit (byte.toNat % 16)]

/-- `Process#cdhash_hex` -/
def cdhashHex (w : View Value) : Except Error Value :=
  (w.methodMissing "cdhash" false).bind fun
    | .string bytes _ => .ok (.string (bytes.flatMap hexDigits) .usAscii)
    | _ => .error (.noMethod "unpack1")

/-- `CSFlags.new` -/
def csFlags (value : Value) : Value := .data "CSFlags" [("value", value)]

/-- `File#path`, without the warning that it may print. -/
def path (w : View Value) : Except Error Value :=
  (w.methodMissing "path_truncated" true).bind fun _ => w.readField "path"

/-- What a public method of a view does. -/
inductive Method where
  | pid
  | cdhashHex
  | codesigningFlags
  | path
  | exec (kind : ExecKind)
  | toH
  | fieldNames
  | schemaName
  /-- A method that cannot be called without arguments. -/
  | withArguments
  /-- No such method: `method_missing` -/
  | missing
  deriving DecidableEq, Repr

/-- The methods that `Process`, `File` and `Event` define. -/
def ownMethods : ViewClass → List (String × Method)
  | .process =>
    [("pid", .pid), ("cdhash_hex", .cdhashHex), ("codesigning_flags", .codesigningFlags)]
  | .file => [("path", .path)]
  | .event => [("args", .exec .args), ("env", .exec .env), ("fds", .exec .fds), ("to_h", .toH)]
  | .thread | .nativeView => []

/-- The public methods that `NativeView` defines. -/
def nativeViewMethods : List (String × Method) :=
  [("to_h", .toH), ("method_missing", .withArguments), ("__read_field", .withArguments),
    ("__field_names", .fieldNames), ("__schema_name", .schemaName),
    ("__exec_values", .withArguments)]

/-- Method lookup in the class of a view and then in `NativeView`. -/
def methodFor (c : ViewClass) (name : String) : Method :=
  ((ownMethods c ++ nativeViewMethods).lookup name).getD .missing

/-- A public method other than `to_h`, called with no arguments. -/
def call (w : View Value) (name : String) : Method → Except Error Value
  | .pid => w.pid
  | .cdhashHex => w.cdhashHex
  | .codesigningFlags => (w.readField "codesigning_flags").map csFlags
  | .path => w.path
  | .exec kind => .ok (.fieldArray (w.execArray kind))
  | .fieldNames => .ok (.array (w.fieldNames.map .symbol))
  | .schemaName => .ok (.string w.schema.toUTF8.toList .binary)
  | .withArguments | .toH => .error .argument
  | .missing => w.methodMissing name false

end View

/-! ## Copies -/

/-- `{ encoding: :base64, data: data }` -/
def base64Hash (data : List UInt8) : Value :=
  .hash [("encoding", .symbol "base64"), ("data", .string data .usAscii)]

/-- The branch of `deep_copy` for strings. -/
def copyString (bytes : List UInt8) (encoding : Encoding) : Value :=
  if encoding ≠ .binary ∧ encoding.valid bytes then .string bytes encoding
  else base64Hash (Base64.encode bytes)

/-- `Hash#[]=` -/
def setEntry (key : String) (value : Value) : List (String × Value) → List (String × Value)
  | [] => [(key, value)]
  | entry :: entries =>
    if entry.1 = key then (key, value) :: entries else entry :: setEntry key value entries

mutual

/-- `NativeView#deep_copy` -/
def deepCopy : Nat → Value → Except Error Value
  | 0, _ => .error .systemStack
  | stack + 1, .view w => toH stack w
  | stack + 1, .fieldArray items | stack + 1, .array items =>
    (items.mapM (deepCopy stack)).map .array
  | stack + 1, .data _ members =>
    (members.mapM fun member => (deepCopy stack member.2).map (member.1, ·)).map .hash
  | stack + 1, .hash entries =>
    (entries.mapM fun entry => (deepCopy stack entry.2).map (entry.1, ·)).map .hash
  | _ + 1, .string bytes encoding => .ok (copyString bytes encoding)
  | _ + 1, value => .ok value

/-- `NativeView#to_h` and, for an event, `Event#to_h`. -/
def toH : Nat → View Value → Except Error Value
  | 0, _ => .error .systemStack
  | stack + 1, w => do
    let entries ← w.fieldNames.mapM fun name =>
      ((publicSend stack w name).bind (deepCopy stack)).map (name, ·)
    if w.viewClass = .event ∧ w.isExec then
      let fds ← (w.execArray .fds).mapM (valueToH stack)
      .ok (.hash (setEntry "fds" (.array fds)
        (setEntry "env" (.array (w.execArray .env))
          (setEntry "args" (.array (w.execArray .args)) entries))))
    else .ok (.hash entries)

/-- `public_send` of a method without arguments. -/
def publicSend : Nat → View Value → String → Except Error Value
  | 0, _, _ => .error .systemStack
  | stack + 1, w, name =>
    match View.methodFor w.viewClass name with
    | .toH => toH stack w
    | method => w.call name method

/-- `to_h` of a view, of `nil`, of a hash or of a `Data` object. -/
def valueToH : Nat → Value → Except Error Value
  | 0, _ => .error .systemStack
  | stack + 1, .view w => toH stack w
  | _ + 1, .nil => .ok (.hash [])
  | _ + 1, .hash entries | _ + 1, .data _ entries => .ok (.hash entries)
  | _ + 1, _ => .error (.noMethod "to_h")

end

/-! ## Messages -/

/-- A symbol of an enumeration, or the number of an unknown constant. -/
inductive Constant where
  | symbol (name : String)
  | number (value : Int)
  deriving DecidableEq, Repr

def Constant.toValue : Constant → Value
  | .symbol name => .symbol name
  | .number value => .int value

/-- What the methods of a `Message` give. -/
structure Message where
  version : Nat
  eventType : Constant
  actionType : Constant
  result : Option Constant
  seconds : Int
  nanoseconds : Int
  machTime : Nat
  deadline : Nat
  seqNum : Option Nat
  globalSeqNum : Option Nat
  process : Option (View Value)
  thread : Option (View Value)
  event : Option (View Value)

/-- `x&.to_h` -/
def optionalToH (stack : Nat) : Option (View Value) → Except Error Value
  | none => .ok .nil
  | some w => toH stack w

def natValue : Option Nat → Value
  | none => .nil
  | some n => .int n

/-- The entries of `Message#to_h` before the views. -/
def Message.scalars (m : Message) : List (String × Value) :=
  [("version", .int m.version), ("event_type", m.eventType.toValue),
    ("action_type", m.actionType.toValue),
    ("result", (m.result.map Constant.toValue).getD .nil),
    ("time", .time m.seconds m.nanoseconds), ("mach_time", .int m.machTime),
    ("deadline", .int m.deadline), ("seq_num", natValue m.seqNum),
    ("global_seq_num", natValue m.globalSeqNum)]

/-- `Message#to_h` -/
def Message.toH (stack : Nat) (m : Message) : Except Error Value := do
  let process ← optionalToH stack m.process
  let thread ← optionalToH stack m.thread
  let event ← optionalToH stack m.event
  .ok (.hash (m.scalars ++ [("process", process), ("thread", thread), ("event", event)]))

end EndpointSecurity.ObjectModel
