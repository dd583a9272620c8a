/-
Results as JSON data.

Each finding, anomaly and declassification becomes an object whose keys stand in a fixed order.
What a rule has to say about a breach is the object under `metadata`, with keys of its own for each
rule.
-/
import ConstantTime.Analysis.Result

set_option autoImplicit false

namespace ConstantTime

/-- An arm with the evidence found on it, in words. -/
def Arm.field (a : Arm) : String × Json := (a.target, Json.strs (a.evidence.map Evidence.text))

def Bypass.toJson (b : Bypass) : Json :=
  .obj [("block_id", .str b.block),
    ("instruction_index", .nat b.index),
    ("condition", .optStr b.decider),
    ("condition_label", .str b.label.title)]

def Detail.toJson : Detail → Json
  | .paths condition label joinBlock arms =>
    .obj [("condition", .optStr condition),
      ("condition_label", .str label.title),
      ("join_block", .optStr joinBlock),
      ("non_constant_time_arms", .strs ((arms.filter fun a => !a.evidence.isEmpty).map Arm.target)),
      ("arm_evidence", .obj (arms.map Arm.field))]
  | .indirect resolution targets label region =>
    .obj [("resolution", .str resolution.name),
      ("targets", .strs targets),
      ("target_label", .str label.title),
      ("region_entry", .str region)]
  | .scrub value location definition bypasses escaping =>
    .obj [("scrubbed_value", .str value),
      ("location", .optStr location),
      ("definition_block", .str definition),
      ("bypass_branches", .arr (bypasses.map Bypass.toJson)),
      ("escaping_values", .strs escaping)]
  | .global location => .obj [("location", .str location)]
  | .given data => data

def Finding.toJson (f : Finding) : Json :=
  .obj [("rule_id", .str f.rule.code),
    ("title", .str f.rule.title),
    ("function_id", .str f.function),
    ("block_id", .str f.block),
    ("instruction_index", .int f.index),
    ("severity", .str f.severity.name),
    ("taint_provenance", .strs f.chain),
    ("description", .str f.description),
    ("metadata", f.detail.toJson)]

def Anomaly.toJson (a : Anomaly) : Json :=
  .obj [("kind", .str a.kind.name),
    ("function_id", .str a.function),
    ("block_id", .optStr a.block),
    ("instruction_index", (a.index.map Json.int).getD .null),
    ("detail", .str a.detail)]

def Declassification.toJson (d : Declassification) : Json :=
  .obj [("function_id", .str d.function),
    ("block_id", .str d.block),
    ("instruction_index", .int d.index),
    ("input_value", .str d.input),
    ("output_value", .str d.output),
    ("input_label", .str d.label.name)]

namespace Result

/-- The number of findings of each severity, under its name. -/
def summaryJson (r : Result) : Json := .obj (r.summary.map fun p => (p.1.name, .nat p.2))

/-- A whole result. -/
def toJson (r : Result) : Json :=
  .obj [("module", .str r.module),
    ("state", .str r.state.name),
    ("state_history", .strs (r.history.map RunState.name)),
    ("timed_out", .bool r.timedOut),
    ("findings", .arr (r.findings.map Finding.toJson)),
    ("anomalies", .arr (r.anomalies.map Anomaly.toJson)),
    ("declassifications", .arr (r.declassifications.map Declassification.toJson)),
    ("functions_analyzed", .int r.functionsAnalyzed),
    ("rules_applied", .strs (r.rules.map Rule.code)),
    ("duration_seconds", .float r.duration),
    ("errors", .strs r.errors),
    ("summary", r.summaryJson)]

end Result

end ConstantTime
