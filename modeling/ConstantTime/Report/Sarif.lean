/-
The report in the Static Analysis Results Interchange Format.

It lists the rules with a score, the findings with a level and a logical location, and as
notifications first the errors and then the anomalies of the run.
-/
import ConstantTime.Analysis.Result
import ConstantTime.Program.Basic

set_option autoImplicit false

namespace ConstantTime.Report

/-- The name of the program, and its version. -/
def toolName : String := "ctsentinel"

def toolVersion : String := "0.3.0"

namespace Sarif

def version : String := "2.1.0"

def schema : String :=
  "https://raw.githubusercontent.com/oasis-tcs/sarif-spec/master/Schemata/sarif-schema-2.1.0.json"

/-- The level of a finding. -/
def level : Severity → String
  | .critical | .high => "error"
  | .medium => "warning"
  | .low | .info => "note"

/-- The score of a rule. -/
def score : Severity → String
  | .critical => "9.0"
  | .high => "7.0"
  | .medium => "5.0"
  | .low => "3.0"
  | .info => "1.0"

def text (s : String) : Json := .obj [("text", .str s)]

/-- A title without its blanks. -/
def ruleName (r : Rule) : String := String.ofList (r.title.toList.filter fun c => c != ' ')

def rule (r : Rule) : Json :=
  .obj [("id", .str r.code),
    ("name", .str (ruleName r)),
    ("shortDescription", text r.title),
    ("properties", .obj [("security-severity", .str (score r.severity))])]

def finding (module : String) (f : Finding) : Json :=
  .obj [("ruleId", .str f.rule.code),
    ("level", .str (level f.severity)),
    ("message", text f.description),
    ("locations", .arr [
      .obj [("physicalLocation", .obj [("artifactLocation", .obj [("uri", .str module)])]),
        ("logicalLocations", .arr [
          .obj [("name", .str f.block), ("fullyQualifiedName", .str f.place),
            ("kind", .str "function")]])]]),
    ("properties", .obj [
      ("function", .str f.function),
      ("block", .str f.block),
      ("instructionIndex", .int f.index),
      ("taintProvenance", .strs f.chain)])]

def notification (message level : String) : Json :=
  .obj [("message", text message), ("level", .str level)]

def notifications (r : Result) : List Json :=
  r.errors.map (notification · "error") ++
    r.anomalies.map fun a => notification (a.kind.name ++ ": " ++ a.detail) "warning"

/-- The report as JSON data. -/
def report (r : Result) : Json :=
  .obj [("$schema", .str schema),
    ("version", .str version),
    ("runs", .arr [
      .obj [("tool", .obj [("driver", .obj [
          ("name", .str toolName),
          ("version", .str toolVersion),
          ("rules", .arr (Rule.all.map rule))])]),
        ("results", .arr (r.findings.map (finding r.module))),
        ("invocations", .arr [
          .obj [("executionSuccessful", .bool (!r.failed)),
            ("toolExecutionNotifications", .arr (notifications r))]])]])]

end Sarif

end ConstantTime.Report
