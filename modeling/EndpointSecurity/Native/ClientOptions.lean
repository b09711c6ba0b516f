import Mathlib.Algebra.Ring.Int.Defs
import Mathlib.Data.Rat.Defs
import EndpointSecurity.Native.Message

/-!
# The options of a client (`client.c`, `diagnostics.rb`)

What `client_initialize` reads from the hash of options, and what it raises for the options that
it refuses.
-/

namespace EndpointSecurity

/-- A value in the hash of options. -/
inductive OptionValue where
  | nil | false | true
  | integer (n : Int)
  | float (q : ℚ)
  /-- NaN or an infinity -/
  | notFinite
  | symbol (name : String)
  /-- Any other object, which converts to no number. -/
  | other
  deriving DecidableEq, Repr

/-- The hash of options; an option that is not given is `nil`. -/
structure ClientOptions where
  queueDepth : OptionValue := .nil
  authDefault : OptionValue := .nil
  deadlineMargin : OptionValue := .nil
  minMarginNs : OptionValue := .nil
  strictCache : OptionValue := .nil
  strictVersion : OptionValue := .nil
  defaultCache : OptionValue := .nil
  onFull : OptionValue := .nil
  warnOnTruncatedPath : OptionValue := .nil
  deriving DecidableEq, Repr

/-- `es_new_client_result_t` -/
inductive NewClientResult where
  | success
  | errInvalidArgument
  | errInternal
  | errNotEntitled
  | errNotPermitted
  | errNotPrivileged
  | errTooManyClients
  /-- A value that the code has no name for. -/
  | unknown (value : Nat)
  deriving DecidableEq, Repr

/-- What `client_initialize` raises. -/
inductive InitializeError where
  /-- An option is no number, or no symbol, where it has to be one. -/
  | wrongType
  /-- A number does not fit into 64 bits. -/
  | outOfRange
  | onFull
  | authDefault
  | deadlineMargin
  | queueDepth
  | watchdogMemory
  | pipe
  | fcntl
  | thread
  | newClient (result : NewClientResult)
  deriving DecidableEq, Repr

namespace NewClientResult

/-- The class of the error in `raise_new_client_error`. -/
def className : NewClientResult → String
  | .errInvalidArgument => "EndpointSecurity::InvalidArgumentError"
  | .errNotEntitled => "EndpointSecurity::NotEntitledError"
  | .errNotPermitted => "EndpointSecurity::NotPermittedError"
  | .errNotPrivileged => "EndpointSecurity::NotPrivilegedError"
  | .errTooManyClients => "EndpointSecurity::TooManyClientsError"
  | .success | .errInternal | .unknown _ => "EndpointSecurity::InternalError"

/-- The text that `Diagnostics.explain` has for the name that `raise_new_client_error` gives it. -/
def explanation : NewClientResult → String
  | .errInvalidArgument =>
    "Endpoint Security rejected an invalid argument; this is likely a binding bug."
  | .errNotEntitled =>
    "The host Ruby executable lacks the Endpoint Security client entitlement."
  | .errNotPermitted => "Grant Full Disk Access to the host Ruby executable."
  | .errNotPrivileged => "Run the signed host Ruby executable as root."
  | .errTooManyClients => "Close another Endpoint Security client and retry."
  | .success | .errInternal | .unknown _ =>
    "Endpoint Security reported an internal error; retry after checking system logs."

end NewClientResult

namespace InitializeError

def className : InitializeError → String
  | .wrongType => "TypeError"
  | .outOfRange => "RangeError"
  | .onFull | .authDefault | .deadlineMargin | .queueDepth => "ArgumentError"
  | .watchdogMemory => "NoMemoryError"
  | .pipe | .fcntl => "SystemCallError"
  | .thread => "RuntimeError"
  | .newClient result => result.className

/-- The text of an error; those of Ruby's own conversions are left to Ruby. -/
def text : InitializeError → Option String
  | .wrongType | .outOfRange => none
  | .onFull => some "on_full must be :drop or :respond_default"
  | .authDefault => some "auth_default must be :allow or :deny"
  | .deadlineMargin => some "deadline_margin must be between 0.0 and 1.0"
  | .queueDepth => some "queue_depth must be a power of two and at least 2"
  | .watchdogMemory => some "failed to allocate Endpoint Security watchdog"
  | .pipe => some "pipe"
  | .fcntl => some "fcntl"
  | .thread => some "failed to create Endpoint Security watchdog"
  | .newClient result => some result.explanation

end InitializeError

/-! ## Conversions of Ruby values -/

namespace OptionValue

/-- `RTEST` -/
def truthy : OptionValue → Bool
  | .nil | .false => Bool.false
  | _ => Bool.true

/-- A number as an unsigned word. -/
def toWord (n : Int) : Nat := (n % 2 ^ 64).toNat

theorem toWord_lt (n : Int) : toWord n < 2 ^ 64 := by
  simp only [toWord]
  omega

/-- `NUM2SIZET` and `NUM2ULL`: a negative number is taken modulo `2 ^ 64`, as long as it fits into
    a signed word, and the fraction of a float is cut off. -/
def toUnsigned : OptionValue → Except InitializeError Nat
  | .integer n =>
    if -2 ^ 63 ≤ n ∧ n < 2 ^ 64 then .ok (toWord n) else .error .outOfRange
  | .float q =>
    let n := if 0 ≤ q then q.floor else -(-q).floor
    if -2 ^ 63 - 1 < q ∧ q < 2 ^ 64 then .ok (toWord n) else .error .outOfRange
  | .notFinite => .error .outOfRange
  | .nil | .false | .true | .symbol _ | .other => .error .wrongType

/-- `NUM2DBL`; `none` is a double that is not finite. -/
def toDouble : OptionValue → Except InitializeError (Option ℚ)
  | .integer n => .ok (some n)
  | .float q => .ok (some q)
  | .notFinite => .ok none
  | .nil | .false | .true | .symbol _ | .other => .error .wrongType

/-- `Check_Type(value, T_SYMBOL)` and `SYM2ID` -/
def toSymbol : OptionValue → Except InitializeError String
  | .symbol name => .ok name
  | _ => .error .wrongType

/-- An option that is `nil` has its default. -/
def orDefault {α : Type} (value : OptionValue) (default : α)
    (convert : OptionValue → Except InitializeError α) : Except InitializeError α :=
  if value = .nil then .ok default else convert value

end OptionValue

/-! ## The settings -/

/-- The fields of a client that its options decide, and `queue_depth`, which `esrb_queue_init` has
    yet to check. -/
structure ClientSettings where
  queueDepth : Nat
  queueDepth_lt : queueDepth < 2 ^ 64
  defaultAuth : AuthResult
  defaultCache : Bool
  strictCache : Bool
  strictVersion : Bool
  warnOnTruncatedPath : Bool
  margin : Margin
  minMarginNs : Nat

/-- The double that is closest to 0.2. -/
def defaultMargin : ℚ where
  num := 3602879701896397
  den := 2 ^ 54
  reduced := by decide +kernel

/-- A finite double from 0 to 1. -/
def Margin.ofDouble (q : ℚ) (h : 0 ≤ q ∧ q ≤ 1) : Margin where
  num := q.num.toNat
  den := q.den
  den_pos := q.den_pos
  le_one := by
    have hnum : q.num ≤ q.den := by
      have hle := (Rat.le_iff _ _).mp h.2
      simpa using hle
    omega

theorem OptionValue.toUnsigned_lt {value : OptionValue} {n : Nat} (h : value.toUnsigned = .ok n) :
    n < 2 ^ 64 := by
  cases value with
  | integer m | float q =>
    simp only [toUnsigned] at h
    split_ifs at h <;> cases h <;> exact toWord_lt _
  | nil | «false» | «true» | symbol | other | notFinite => cases h

/-- What `client_initialize` makes of the options, up to `esrb_queue_init`. -/
def ClientOptions.settings (o : ClientOptions) : Except InitializeError ClientSettings :=
  match hdepth : o.queueDepth.orDefault 8192 OptionValue.toUnsigned with
  | .error error => .error error
  | .ok queueDepth => do
    let margin ← o.deadlineMargin.orDefault (some defaultMargin) OptionValue.toDouble
    let minMarginNs ← o.minMarginNs.orDefault 5000000 OptionValue.toUnsigned
    let onFull ← o.onFull.orDefault "drop" OptionValue.toSymbol
    if onFull ≠ "drop" ∧ onFull ≠ "respond_default" then throw .onFull
    let auth ← o.authDefault.orDefault "allow" OptionValue.toSymbol
    if auth ≠ "deny" ∧ auth ≠ "allow" then throw .authDefault
    -- The margin is converted before `on_full` and `auth_default` are checked, and checked after.
    match margin with
    | none => throw .deadlineMargin
    | some q =>
      if h : 0 ≤ q ∧ q ≤ 1 then
        return {
          queueDepth
          queueDepth_lt := by
            simp only [OptionValue.orDefault] at hdepth
            split_ifs at hdepth
            · cases hdepth; decide
            · exact OptionValue.toUnsigned_lt hdepth
          defaultAuth := if auth = "deny" then .deny else .allow
          defaultCache := o.defaultCache.truthy
          strictCache := o.strictCache.truthy
          strictVersion := o.strictVersion.truthy
          warnOnTruncatedPath := o.warnOnTruncatedPath.truthy
          margin := .ofDouble q h
          minMarginNs }
      else throw .deadlineMargin

/-- No options are fine. -/
example : (({} : ClientOptions).settings.toOption.map (·.queueDepth)) = some 8192 := by
  decide +kernel

end EndpointSecurity
