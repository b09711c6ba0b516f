import EndpointSecurity.Codegen.EventTypes
import EndpointSecurity.ForStd.Raising
import EndpointSecurity.Native.Message

/-!
# Muting (`mute.c`, `lib/endpoint_security/client.rb`)

A path or a process is muted for some events or for all of them. Ruby names the events and the
kinds of paths by symbols, Endpoint Security by numbers; what it reports of the muted paths is
copied, with symbols where there are any, before the set that it owns is released.

Every native method first checks that the client is used by the process that has initialised it
and is not closed. Between two calls another thread may close the client, and what Endpoint
Security answers may depend on all calls before.
-/

namespace EndpointSecurity.Muting

open Codegen (EventTypes)

/-- A name as Ruby has it: a symbol, or the number of something that has none. -/
inductive Name where
  | symbol (name : String)
  | number (value : Int)
  deriving DecidableEq, Repr

inductive Error where
  /-- `ForkedClientError` -/
  | forkedClient
  /-- `ClientError` -/
  | clientClosed
  /-- `NoMethodError`: an `Integer` has no `to_sym`. -/
  | noMethod
  /-- `KeyError` -/
  | unknown (name : String)
  /-- `RangeError` of a conversion to a C integer. -/
  | outOfRange
  /-- `ArgumentError`: the string contains a null byte. -/
  | nullByte
  /-- `ArgumentError`: too many events. -/
  | tooMany
  /-- `RangeError`: the count of a set is too large. -/
  | countTooLarge
  /-- `ArgumentError` of `rb_ary_new_capa`. -/
  | arrayTooBig
  /-- `MuteError` -/
  | muteFailed
  deriving DecidableEq, Repr

inductive Change where
  | mute | unmute
  deriving DecidableEq, Repr

/-- `audit_token_t` -/
abbrev Token : Type := Vector UInt32 8

/-- What is muted. -/
inductive Target where
  | path (path : List UInt8) (type : Int)
  | process (token : Token)
  deriving DecidableEq, Repr

/-- `es_mute_path`, `es_mute_process` and their opposites, or with events their variants for
    these. -/
structure EsCall where
  change : Change
  target : Target
  events : Option (List Nat)
  deriving DecidableEq, Repr

/-- What happens between the extension and Endpoint Security. -/
inductive EsEvent where
  | call (made : EsCall)
  /-- `es_muted_paths_events` or `es_muted_processes_events` gives a set, which Endpoint Security
      keeps until its release. -/
  | obtained
  /-- `es_release_muted_paths` or `es_release_muted_processes` -/
  | released
  deriving DecidableEq, Repr

/-- Code that calls Endpoint Security. -/
abbrev Es (α : Type) : Type := Raising (List EsEvent) Error α

/-- What the methods depend on besides their arguments. -/
structure Surroundings where
  /-- `client->owner_pid` -/
  ownerPid : Nat
  /-- `getpid()` -/
  pid : Nat
  /-- `client->closed`, after what has happened so far. -/
  closed : List EsEvent → Bool
  /-- Whether Endpoint Security accepts a call, after what has happened so far. -/
  accepts : List EsEvent → EsCall → Bool

/-- `mute_client` -/
def muteClient (env : Surroundings) : Es Unit := do
  let log ← Raising.get
  if env.ownerPid ≠ env.pid then Raising.raise .forkedClient
  else if env.closed log then Raising.raise .clientClosed
  else pure ()

/-! ## Changing mutes -/

/-- `PATH_TYPES` -/
def pathTypes : List (String × Int) :=
  [("prefix", 0), ("literal", 1), ("target_prefix", 2), ("target_literal", 3)]

/-- `PATH_TYPES.fetch(type.to_sym)` -/
def pathType : Name → Except Error Int
  | .symbol name =>
    match pathTypes.lookup name with
    | some value => .ok value
    | none => .error (.unknown name)
  | .number _ => .error .noMethod

/-- `EventType.value(event)` -/
def eventValue (ir : EventTypes) : Name → Except Error Int
  | .symbol name =>
    match ir.value name with
    | some value => .ok value
    | none => .error (.unknown name)
  | .number _ => .error .noMethod

/-- `NUM2INT` -/
def num2int (n : Int) : Except Error Int :=
  if -2147483648 ≤ n ∧ n < 2147483648 then .ok n else .error .outOfRange

/-- A conversion of an `int` to `es_event_type_t`. -/
def eventWord (n : Int) : Nat := (n % 4294967296).toNat

/-- `LONG_MAX / sizeof(es_event_type_t)` -/
def maxEvents : Nat := longMax / 4

/-- `event_values` -/
def eventValues (values : List Int) : Except Error (List Nat) :=
  if values.length > maxEvents then .error .tooMany
  else values.mapM fun value => (num2int value).map eventWord

/-- The call for a target: without events it is the one for all of them. -/
def callFor (change : Change) (target : Target) (events : List Nat) : EsCall where
  change := change
  target := target
  events := if events = [] then none else some events

/-- The call that `mute_path` makes, from its arguments. -/
def mutePathCall (change : Change) (path : List UInt8) (type : Int) (values : List Int) :
    Except Error EsCall := do
  let type ← num2int type
  -- `StringValueCStr`
  if 0 ∈ path then throw .nullByte
  let events ← eventValues values
  return callFor change (.path path type) events

/-- `check_mute_result` of a call, which Endpoint Security may refuse. -/
def callEs (env : Surroundings) (made : EsCall) : Es Unit := do
  let log ← Raising.get
  Raising.modify (· ++ [.call made])
  if env.accepts log made then pure () else Raising.raise .muteFailed

/-- `mute_path` and `mute_process`: the client is checked before the arguments are converted. -/
def muteTarget (env : Surroundings) (made : Except Error EsCall) : Es Unit := do
  muteClient env
  let made ← Raising.ofExcept made
  callEs env made

/-- `mute_path` -/
def mutePath (env : Surroundings) (change : Change) (path : List UInt8) (type : Int)
    (values : List Int) : Es Unit :=
  muteTarget env (mutePathCall change path type values)

/-- `Client#change_path_mute` -/
def changePathMute (ir : EventTypes) (env : Surroundings) (change : Change)
    (path : List UInt8) (type : Name) (events : List Name) : Es Unit := do
  let type ← Raising.ofExcept (pathType type)
  let values ← Raising.ofExcept (events.mapM (eventValue ir))
  mutePath env change path type values

/-- `Client#mute_path_events` -/
def mutePathEvents (ir : EventTypes) (env : Surroundings) (path : List UInt8)
    (type : Name) (events : List Name) : Es Unit :=
  changePathMute ir env .mute path type events

/-! ## Audit tokens -/

/-- The accessors of libbsm. -/
structure Bsm where
  pid : Token → UInt32
  pidversion : Token → UInt32
  ruid : Token → UInt32
  euid : Token → UInt32
  rgid : Token → UInt32
  egid : Token → UInt32
  asid : Token → UInt32
  auid : Token → UInt32

/-- `AuditToken` -/
structure AuditToken where
  pid : Int
  pidversion : Int
  ruid : Int
  euid : Int
  rgid : Int
  egid : Int
  asid : Int
  auid : Int
  deriving DecidableEq, Repr

/-- `UINT2NUM` -/
def uint2num (word : UInt32) : Int := word.toNat

/-- `audit_token_value` -/
def auditTokenValue (bsm : Bsm) (token : Token) : AuditToken where
  pid := uint2num (bsm.pid token)
  pidversion := uint2num (bsm.pidversion token)
  ruid := uint2num (bsm.ruid token)
  euid := uint2num (bsm.euid token)
  rgid := uint2num (bsm.rgid token)
  egid := uint2num (bsm.egid token)
  asid := uint2num (bsm.asid token)
  auid := uint2num (bsm.auid token)

/-- `NUM2UINT`, which takes negative numbers that fit into an `int`, too. -/
def num2uint (n : Int) : Except Error UInt32 :=
  if -2147483648 ≤ n ∧ n < 4294967296 then .ok (UInt32.ofNat (n % 4294967296).toNat)
  else .error .outOfRange

/-- `audit_token_from_value` -/
def auditTokenFromValue (value : AuditToken) : Except Error Token := do
  let auid ← num2uint value.auid
  let euid ← num2uint value.euid
  let egid ← num2uint value.egid
  let ruid ← num2uint value.ruid
  let rgid ← num2uint value.rgid
  let pid ← num2uint value.pid
  let asid ← num2uint value.asid
  let pidversion ← num2uint value.pidversion
  return #v[auid, euid, egid, ruid, rgid, pid, asid, pidversion]

/-- The call that `mute_process` makes, from its arguments. -/
def muteProcessCall (change : Change) (token : AuditToken) (values : List Int) :
    Except Error EsCall := do
  let token ← auditTokenFromValue token
  let events ← eventValues values
  return callFor change (.process token) events

/-- `mute_process` -/
def muteProcess (env : Surroundings) (change : Change) (token : AuditToken)
    (values : List Int) : Es Unit :=
  muteTarget env (muteProcessCall change token values)

/-- `Client#change_process_mute` of a token. -/
def changeProcessMute (ir : EventTypes) (env : Surroundings) (change : Change)
    (token : AuditToken) (events : List Name) : Es Unit := do
  let values ← Raising.ofExcept (events.mapM (eventValue ir))
  muteProcess env change token values

/-- `Client#mute_process_events` -/
def muteProcessEvents (ir : EventTypes) (env : Surroundings) (token : AuditToken)
    (events : List Name) : Es Unit :=
  changeProcessMute ir env .mute token events

/-! ## Reported mutes -/

/-- The events of a reported mute -/
structure MutedEvents where
  words : List Nat
  words_lt : ∀ word ∈ words, word < 4294967296
  /-- They fit into the memory. -/
  length_le : words.length ≤ maxEvents

/-- `es_muted_path_t` -/
structure MutedPath where
  type : Int
  /-- The bytes of the token -/
  path : List UInt8
  /-- They fit into the memory, too: of a longer token `esrb_string_token_value` makes `nil`. -/
  path_length_le : path.length ≤ longMax
  events : MutedEvents

/-- `es_muted_process_t` -/
structure MutedProcess where
  token : Token
  events : MutedEvents

/-- What `es_muted_paths_events` and `es_muted_processes_events` give. -/
inductive Report (α : Type) where
  | failed
  /-- A `NULL` set -/
  | nothing
  | mutes (set : List α)

/-- An item of `muted_paths` -/
structure PathItem where
  type : Name
  path : List UInt8
  events : List Name
  deriving DecidableEq, Repr

/-- An item of `muted_processes` -/
structure ProcessItem where
  token : AuditToken
  events : List Name
  deriving DecidableEq, Repr

/-- `INT2NUM` of an `es_event_type_t` -/
def eventNumber (word : Nat) : Int :=
  if word < 2147483648 then word else (word : Int) - 4294967296

/-- `EventType.symbol` of an event. -/
def eventName (ir : EventTypes) (word : Nat) : Name :=
  match ir.symbol (eventNumber word) with
  | some name => .symbol name
  | none => .number (eventNumber word)

/-- `rb_ary_new_capa` -/
def newArray (length : Nat) : Except Error Unit :=
  if length > arrayMax then .error .arrayTooBig else .ok ()

/-- `event_symbols` -/
def eventSymbols (ir : EventTypes) (events : MutedEvents) : Except Error (List Name) := do
  newArray events.words.length
  return events.words.map (eventName ir)

/-- `copy_muted_paths` and `copy_muted_processes`, with what becomes of each mute. -/
def copyMuted {α β : Type} (item : α → Except Error β) (set : List α) : Except Error (List β) := do
  if set.length > longMax then throw .countTooLarge
  newArray set.length
  set.mapM item

/-- `muted_paths` and `muted_processes`: `rb_ensure` releases the set when it has been copied, and
    also when copying it raises. -/
def reported {α β : Type} (env : Surroundings) (item : α → Except Error β) (report : Report α) :
    Es (List β) := do
  muteClient env
  match report with
  | .failed => Raising.raise .muteFailed
  | .nothing => pure []
  | .mutes set =>
    Raising.modify (· ++ [.obtained])
    (Raising.ofExcept (copyMuted item set)).ensure (· ++ [.released])

/-- The item that `copy_muted_paths` makes. -/
def copyMutedPath (ir : EventTypes) (muted : MutedPath) : Except Error PathItem := do
  let events ← eventSymbols ir muted.events
  return { type := .number muted.type, path := muted.path, events }

/-- The item that `copy_muted_processes` makes. -/
def copyMutedProcess (ir : EventTypes) (bsm : Bsm) (muted : MutedProcess) :
    Except Error ProcessItem := do
  let token := auditTokenValue bsm muted.token
  let events ← eventSymbols ir muted.events
  return { token, events }

/-- `PATH_TYPES.key(type) || type` -/
def pathTypeName : Name → Name
  | .number type =>
    match pathTypes.find? (·.2 = type) with
    | some entry => .symbol entry.1
    | none => .number type
  | .symbol name => .symbol name

/-- `Client#muted_paths` -/
def mutedPaths (ir : EventTypes) (env : Surroundings) (report : Report MutedPath) :
    Es (List PathItem) := do
  let items ← reported env (copyMutedPath ir) report
  return items.map fun item => { item with type := pathTypeName item.type }

/-- `Client#muted_processes` -/
def mutedProcesses (ir : EventTypes) (bsm : Bsm) (env : Surroundings)
    (report : Report MutedProcess) : Es (List ProcessItem) :=
  reported env (copyMutedProcess ir bsm) report

/-- `Array#each` -/
def each {α : Type} (act : α → Es Unit) : List α → Es Unit
  | [] => pure ()
  | x :: xs => do
    act x
    each act xs

/-- The reported paths are muted again. -/
def mutePathsAgain (ir : EventTypes) (env : Surroundings) : List PathItem → Es Unit :=
  each fun item => mutePathEvents ir env item.path item.type item.events

/-- The reported processes are muted again. -/
def muteProcessesAgain (ir : EventTypes) (env : Surroundings) : List ProcessItem → Es Unit :=
  each fun item => muteProcessEvents ir env item.token item.events

end EndpointSecurity.Muting
