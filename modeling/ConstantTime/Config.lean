/-
Configuration of the analysis.

A configuration is read from a JSON object in which every key has to be known and every value is
checked. Settings can then be overridden one by one. Overrides are taken as they are, rules and
severity apart, so a limit may be any number, the routines any value that can be listed, and the
last switch any value at all; a null changes nothing, and one name is reserved. In both cases the
limits have to be at least one and a time limit positive.

Most errors show the value that is wrong. A value that cannot be written cannot be shown either,
and then that is the error.
-/
import ConstantTime.Document
import ConstantTime.Files
import ConstantTime.Quantity
import ConstantTime.Rule
import ConstantTime.Text.Lowercase

set_option autoImplicit false

namespace ConstantTime

/-! ## Errors

Errors in the settings are told apart from those of a reader, a file system or a comparison, which
the settings only bring about. -/

/-- What can be wrong with a configuration. -/
inductive ConfigError
  | notMapping
  | unknownKeys (keys : List String)
  | rulesNotList
  | unknownRule (text : String)
  /-- A rule is given by a value that cannot be written. -/
  | unwritableRule
  | notInteger (key shown : String)
  | notNumber (key shown : String)
  | routinesNotList
  | switchNotBool
  | unknownSeverity (text : String)
  | belowOne (key text : String)
  | notPositive (text : String)
  | fileNotFound (path : String)
  | unparsable (file detail : String)
  /-- A whole number of seconds that is out of range. -/
  | timeOutOfRange
  /-- An override that cannot be compared with a number, as the limits are with `<` and the time
  with `<=`. -/
  | notComparable (comparison : String) (given : Json)
  /-- An override of the routines that cannot be listed. -/
  | notListable
  /-- A name that no setting can have. -/
  | reservedName (name : String)
  | notUtf8 (detail : String)
  /-- A value that has to be shown cannot be written. -/
  | unwritable
  /-- The reader of documents fails. -/
  | unread (message : String)
  | unreadable (path : String) (error : OpenError)

def ConfigError.message : ConfigError → String
  | .notMapping => "configuration must be a mapping"
  | .unknownKeys keys => "unknown configuration keys: " ++ ", ".intercalate keys
  | .rulesNotList => "enabled_rules must be a list of rule ids"
  | .unknownRule text => Rule.unknownCode text
  | .unwritableRule => Text.limitExceeded ""
  | .notInteger key shown => key ++ " must be an integer, got " ++ shown
  | .notNumber key shown => key ++ " must be a number, got " ++ shown
  | .routinesNotList => "non_constant_time_functions must be a list"
  | .switchNotBool => "unresolved_indirect_call_is_non_constant_time must be a boolean"
  | .unknownSeverity text => "unknown severity '" ++ text ++ "'"
  | .belowOne key text => key ++ " must be at least 1, got " ++ text
  | .notPositive text => "timeout_seconds must be positive, got " ++ text
  | .fileNotFound path => "configuration file not found: " ++ path
  | .unparsable file detail => "cannot parse " ++ file ++ ": " ++ detail
  | .timeOutOfRange => "int too large to convert to float"
  | .notComparable comparison given =>
    "'" ++ comparison ++ "' not supported between instances of '" ++ given.kind ++ "' and 'int'"
  | .notListable => "non_constant_time_functions cannot be listed"
  | .reservedName name => name ++ " is not the name of a setting"
  | .notUtf8 detail => detail
  | .unwritable => Text.limitExceeded ""
  | .unread message => message
  | .unreadable path error => error.message path

/-- Whether the settings themselves are at fault, and not the way to read or to use them. -/
def ConfigError.isInSettings : ConfigError → Bool
  | .timeOutOfRange | .notComparable _ _ | .notListable | .reservedName _ | .notUtf8 _ | .unwritable
  | .unread _ | .unreadable _ _ => false
  | _ => true

/-- The error that shows a text, if there is one to show. -/
def ConfigError.showing (error : String → ConfigError) : Option String → ConfigError
  | some text => error text
  | none => .unwritable

/-! ## Configurations

Settings come from data or replace others. A replaced one is looked at less closely: numbers only
have to be within their limits, and whatever is given as routines or as a switch is kept as it is.
-/

/-- The settings of an analysis. -/
structure Config where
  /-- The rules to check. -/
  rules : List Rule
  maxCallDepth : Quantity
  maxWorkers : Quantity
  /-- The time limit in seconds. -/
  timeout : Option Quantity
  /-- The names of external routines known to be variable-time, unless what was given cannot be
  listed. -/
  routines : Option (List Json)
  /-- Whether a call that may go anywhere counts as variable-time. -/
  unresolvedIsVariableTime : Json
  /-- The least severity that is reported. -/
  minSeverity : Severity

namespace Config

def defaultRoutines : List String := ["memcmp", "strcmp", "strncmp", "strlen", "bcmp"]

def default : Config :=
  ⟨Rule.all, .int 32, .int 4, none, some (defaultRoutines.map .str), .bool true, .info⟩

instance : Inhabited Config := ⟨default⟩

def keys : List String :=
  ["enabled_rules", "max_call_depth", "max_workers", "timeout_seconds",
    "non_constant_time_functions", "unresolved_indirect_call_is_non_constant_time", "min_severity"]

/-! ### Parts

Each field has a reader of its own, with its own errors. An error may show the value that is wrong,
and then fails differently if that value cannot be written. -/

/-- The unknown keys of an object, in order. -/
def unknownKeys (fields : List (String × Json)) : List String :=
  sortNames (distinct ((fields.map Prod.fst).filter fun k => decide (k ∉ keys)))

def rule (raw : Json) : Except ConfigError Rule :=
  match raw.text? with
  | none => .error .unwritableRule
  | some code =>
    match Rule.ofCode? code with
    | some r => .ok r
    | none => .error (.unknownRule code)

/-- Rules, given by a list of codes or by one code. -/
def rulesOf (raw : Json) : Except ConfigError (List Rule) :=
  let chosen (items : List Json) : Except ConfigError (List Rule) :=
    match collect rule items with
    | .error e => .error e
    | .ok rules => .ok (Rule.ordered rules)
  match raw with
  | .str _ => chosen [raw]
  | .arr items => chosen items
  | _ => .error .rulesNotList

/-- The text of a value. -/
def textOf (raw : Json) : Except ConfigError String :=
  match raw.text? with
  | some s => .ok s
  | none => .error .unwritable

def severityOf (raw : Json) : Except ConfigError Severity := do
  let name ← textOf raw
  match Severity.ofName? (Text.lower name) with
  | some s => return s
  | none => .error (.unknownSeverity name)

def integerOf (key : String) : Json → Except ConfigError Quantity
  | .int n => .ok (.int n)
  | raw => .error (.showing (.notInteger key) raw.shown?)

/-- A time limit, as a number with fraction. -/
def secondsOf (raw : Json) : Except ConfigError Quantity :=
  match raw with
  | .int n =>
    match Decimal.ofInt? n with
    | some x => .ok (.float x)
    | none => .error .timeOutOfRange
  | .float x => .ok (.float x)
  | _ => .error (.showing (.notNumber "timeout_seconds") raw.shown?)

/-- The names of routines. -/
def routinesOf (raw : Json) : Except ConfigError (List Json) :=
  match raw with
  | .arr items => (collect textOf items).map fun names => names.map .str
  | _ => if raw.isGiven then .error .routinesNotList else .ok []

def switchOf : Json → Except ConfigError Json
  | .bool b => .ok (.bool b)
  | _ => .error .switchNotBool

/-- What a value lists: the items of a list, the keys of an object, the characters of a text. -/
def listed? : Json → Option (List Json)
  | .arr items => some items
  | .obj fields => some (fields.map fun f => .str f.1)
  | .str s => some (s.toList.map fun c => .str c.toString)
  | _ => none

def atLeastOne (key : String) (q : Quantity) : Except ConfigError Quantity :=
  if q.below 1 then .error (.showing (.belowOne key) q.text?) else .ok q

def positive (q : Quantity) : Except ConfigError Quantity :=
  if q.atMost 0 then .error (.showing .notPositive q.text?) else .ok q

/-- A time limit, if there is one. -/
def limitOf : Json → Except ConfigError (Option Quantity)
  | .null => .ok none
  | raw => (secondsOf raw).map some

def positiveLimit : Option Quantity → Except ConfigError (Option Quantity)
  | some q => (positive q).map some
  | none => .ok none

/-- Reads a field if it is there. -/
def optional {α : Type} (raw : Json) (key : String) (unset : α)
    (read : Json → Except ConfigError α) :
    Except ConfigError α :=
  match raw.get? key with
  | some v => read v
  | none => .ok unset

/-! ### Reading and overriding

From data, all fields are read in a fixed order before the limits are checked. So it is settled
which one of several errors is reported. -/

/-- The configuration that JSON data describes; no data at all is the default. -/
def ofJson (raw : Json) : Except ConfigError Config :=
  match raw with
  | .null => .ok default
  | .obj fields =>
    if unknownKeys fields ≠ [] then .error (.unknownKeys (unknownKeys fields))
    else do
      let rules ← optional raw "enabled_rules" default.rules rulesOf
      let depth ← optional raw "max_call_depth" default.maxCallDepth (integerOf "max_call_depth")
      let workers ← optional raw "max_workers" default.maxWorkers (integerOf "max_workers")
      let timeout ← optional raw "timeout_seconds" default.timeout limitOf
      let routines ← optional raw "non_constant_time_functions" default.routines fun v =>
        (routinesOf v).map some
      let switch ← optional raw "unresolved_indirect_call_is_non_constant_time"
        default.unresolvedIsVariableTime switchOf
      let severity ← optional raw "min_severity" default.minSeverity severityOf
      let depth ← atLeastOne "max_call_depth" depth
      let workers ← atLeastOne "max_workers" workers
      let timeout ← positiveLimit timeout
      return ⟨rules, depth, workers, timeout, routines, switch, severity⟩
  | _ => .error .notMapping

/-- An override that is not null. -/
def override? (changes : Json) (key : String) : Option Json :=
  match changes.get? key with
  | some .null => none
  | v => v

/-- An overridden number, which is going to be compared. -/
def overrideNumber (changes : Json) (key comparison : String) :
    Except ConfigError (Option Quantity) :=
  match override? changes key with
  | none => .ok none
  | some v =>
    match Quantity.ofJson? v with
    | some q => .ok (some q)
    | none => .error (.notComparable comparison v)

/-- Refuses an override with a name that no setting can have. -/
def unreserved (name : String) (changes : List (String × Json)) : Except ConfigError Unit :=
  if changes.any fun c => c.1 == name then .error (.reservedName name) else .ok ()

/-- A configuration with some settings replaced. -/
def withOverrides (c : Config) (changes : List (String × Json)) : Except ConfigError Config := do
  unreserved "self" changes
  if unknownKeys changes ≠ [] then .error (.unknownKeys (unknownKeys changes))
  else do
    let raw := Json.obj changes
    let rules ←
      match override? raw "enabled_rules" with
      | some v => rulesOf v
      | none => .ok c.rules
    let severity ←
      match override? raw "min_severity" with
      | some v => severityOf v
      | none => .ok c.minSeverity
    let depth ← overrideNumber raw "max_call_depth" "<"
    let depth ← atLeastOne "max_call_depth" (depth.getD c.maxCallDepth)
    let workers ← overrideNumber raw "max_workers" "<"
    let workers ← atLeastOne "max_workers" (workers.getD c.maxWorkers)
    let timeout ← overrideNumber raw "timeout_seconds" "<="
    let timeout ← positiveLimit (timeout <|> c.timeout)
    let routines :=
      match override? raw "non_constant_time_functions" with
      | some v => listed? v
      | none => c.routines
    let switch :=
      (override? raw "unresolved_indirect_call_is_non_constant_time").getD
        c.unresolvedIsVariableTime
    return ⟨rules, depth, workers, timeout, routines, switch, severity⟩

/-- The JSON data of a configuration, if its routines can be listed. -/
def toJson? (c : Config) : Option Json :=
  c.routines.map fun routines =>
    .obj [("enabled_rules", Json.strs (c.rules.map Rule.code)),
      ("max_call_depth", c.maxCallDepth.toJson),
      ("max_workers", c.maxWorkers.toJson),
      ("timeout_seconds", (c.timeout.map Quantity.toJson).getD .null),
      ("non_constant_time_functions", .arr routines),
      ("unresolved_indirect_call_is_non_constant_time", c.unresolvedIsVariableTime),
      ("min_severity", .str c.minSeverity.name)]

/-- The configuration that a file holds. -/
def loadFile (reader : DocumentReader) (fs : Files) (path : String) : Except ConfigError Config :=
  match fs.hasPath path with
  | .error e => .error (.unreadable (Path.normal path) e)
  | .ok false => .error (.fileNotFound (Path.normal path))
  | .ok true =>
    match fs.open? path with
    | .error e => .error (.unreadable (Path.normal path) e)
    | .ok bytes =>
      match reader.ofBytes bytes with
      | .error (.unparsable detail) => .error (.unparsable (Path.fileName path) detail)
      | .error (.notUtf8 detail) => .error (.notUtf8 detail)
      | .error (.failed message) => .error (.unread message)
      | .ok raw => Config.ofJson raw

/-! ### What the analysis reads

Replaced routines are looked at here for the first time, when functions are judged. -/

/-- The rules that are checked, in the order of their codes and each once. -/
def checkedRules (c : Config) : List Rule := Rule.ordered c.rules

/-- A name among the routines; lists and objects cannot be members of a collection of names. -/
def routineName : Json → Except ConfigError (Option String)
  | .str s => .ok (some s)
  | .arr _ | .obj _ => .error .notListable
  | _ => .ok none

/-- The names of the routines, if what was given can be taken as a collection of names. -/
def routineNames (c : Config) : Except ConfigError (List String) :=
  match c.routines with
  | none => .error .notListable
  | some items => collectSome routineName items

end Config

end ConstantTime
