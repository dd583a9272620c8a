/-
Reports: a result in one of three formats.

The format is chosen by name, in whatever case. Only the format for terminals has options. The
structured formats are JSON texts in plain ASCII.
-/
import ConstantTime.Json.Writer
import ConstantTime.Report.Console
import ConstantTime.Report.Data
import ConstantTime.Report.Sarif
import ConstantTime.Text.Lowercase

set_option autoImplicit false

namespace ConstantTime

/-- A format with its options. -/
inductive Report
  | console (style : Report.Style)
  | json
  | sarif

namespace Report

/-- The formats. -/
inductive Format
  | console
  | json
  | sarif
  deriving DecidableEq

def Format.name : Format → String
  | .console => "console"
  | .json => "json"
  | .sarif => "sarif"

def Format.all : List Format := [.console, .json, .sarif]

def Format.ofName? (s : String) : Option Format := all.find? fun f => f.name == s

/-- Why there is no report. -/
inductive FormatError
  | unknownFormat (name : String)
  /-- An option that the format does not have. -/
  | unknownOption (name : String)
  /-- An option with the name of the format itself. -/
  | reservedOption (name : String)

def FormatError.message : FormatError → String
  | .unknownFormat name => "Unknown report format: " ++ name ++
    ". Supported: ['console', 'json', 'sarif']"
  | .unknownOption name => "unexpected option " ++ name
  | .reservedOption name => name ++ " is not the name of an option"

/-- The names of the options of the format for terminals. -/
def consoleOptions : List String := ["use_colors", "verbose"]

/-- The style that options ask for. Colours are the default, but only a terminal shows them. -/
def styleOf (terminal : Bool) (options : List (String × Json)) : Style :=
  ⟨((Assoc.find? "use_colors" options).map Json.isGiven).getD true && terminal,
    ((Assoc.find? "verbose" options).map Json.isGiven).getD false⟩

/-- A format chosen by name, with options. -/
def choose (terminal : Bool) (name : String) (options : List (String × Json)) :
    Except FormatError Report :=
  let known (allowed : List String) (r : Report) : Except FormatError Report :=
    match options.find? fun o => decide (o.1 ∉ allowed) with
    | some o => .error (.unknownOption o.1)
    | none => .ok r
  if options.any fun o => o.1 == "format" then .error (.reservedOption "format")
  else match Format.ofName? (Text.lower name) with
  | none => .error (.unknownFormat name)
  | some .console => known consoleOptions (.console (styleOf terminal options))
  | some .json => known [] .json
  | some .sarif => known [] .sarif

/-- The result with the time of its report, as JSON data. -/
def data (timestamp : String) (r : Result) : Json :=
  .obj [("analysis_info", .obj [
      ("module", .str r.module),
      ("timestamp", .str timestamp),
      ("state", .str r.state.name),
      ("timed_out", .bool r.timedOut),
      ("functions_analyzed", .int r.functionsAnalyzed),
      ("rules_applied", .strs (r.rules.map Rule.code)),
      ("duration_seconds", .float r.duration)]),
    ("summary", r.summaryJson),
    ("total_findings", .nat r.findings.length),
    ("findings", .arr (r.findings.map Finding.toJson)),
    ("anomalies", .arr (r.anomalies.map Anomaly.toJson)),
    ("declassifications", .arr (r.declassifications.map Declassification.toJson)),
    ("errors", .strs r.errors)]

/-- The text of a report that is made at the given time. -/
def write (timestamp : String) (r : Result) : Report → String
  | .console style => style.report r
  | .json => (data timestamp r).indented 0
  | .sarif => (Sarif.report r).indented 0

end Report

end ConstantTime
