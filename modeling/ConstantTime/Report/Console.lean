/-
The report for readers at a terminal.

The lines say what was analyzed, how many findings of each severity there are, then the findings
one by one and the anomalies; declassifications and descriptions are given on request. A rejected
module has its errors instead. On a terminal headings and severities are coloured.
-/
import ConstantTime.Analysis.Result
import ConstantTime.Decimal.Layout

set_option autoImplicit false

namespace ConstantTime.Report

/-- How the report looks. -/
structure Style where
  colors : Bool
  /-- Descriptions and declassifications are given too. -/
  verbose : Bool

/-- What a piece of text is coloured for. -/
inductive Ink
  | severity (s : Severity)
  | bold
  | green

/-- The number in the control sequence that switches a colour on. -/
def Ink.number : Ink → String
  | .severity .critical => "91"
  | .severity .high => "93"
  | .severity .medium => "94"
  | .severity .low => "96"
  | .severity .info => "90"
  | .bold => "1"
  | .green => "92"

namespace Style

/-- A control sequence of the terminal. -/
def control (number : String) : String := "\x1b[" ++ number ++ "m"

/-- A text in a colour. -/
def paint (s : Style) (ink : Ink) (text : String) : String :=
  if s.colors then control ink.number ++ text ++ control "0" else text

/-- Sixty times the same character. -/
def bar (c : Char) : String := String.ofList (List.replicate 60 c)

def rule (s : Style) : String := s.paint .bold (bar '=')

def header (s : Style) (r : Result) : List String :=
  ["", s.rule, s.paint .bold "  SPECULATION ANALYSIS RESULTS", s.rule, "",
    "Module: " ++ r.module,
    "Functions analyzed: " ++ toString r.functionsAnalyzed,
    "Rules applied: " ++ ", ".intercalate (r.rules.map Rule.code),
    "Duration: " ++ Decimal.hundredths r.duration ++ " seconds"] ++
  (if r.timedOut then
    [s.paint (.severity .high) "Run timed out: results cover completed functions only"]
  else []) ++ [""]

def errors (s : Style) (r : Result) : List String :=
  [s.paint (.severity .critical) "ANALYSIS FAILED:"] ++ r.errors.map (fun e => "  - " ++ e) ++ [""]

def summary (s : Style) (r : Result) : List String :=
  [s.paint .bold "SUMMARY BY SEVERITY:"] ++
  ((r.summary.filter fun p => decide (0 < p.2)).map fun p =>
    "  " ++ s.paint (.severity p.1) p.1.heading ++ ": " ++ toString p.2) ++ [""]

def finding (s : Style) (f : Finding) : List String :=
  ["", "  " ++ s.paint (.severity f.severity) ("[" ++ f.severity.heading ++ "]") ++ " " ++
      s.paint .bold f.rule.code ++ ": " ++ f.rule.title,
    "  Location: " ++ f.place,
    "  Provenance: " ++ " -> ".intercalate f.chain] ++
  (if s.verbose then ["  Description: " ++ f.description] else [])

def findings (s : Style) (r : Result) : List String :=
  if r.findings.isEmpty then [s.paint .green "No guideline violations found!"]
  else
    [s.paint .bold ("FINDINGS (" ++ toString r.findings.length ++ " total):"), bar '-'] ++
      r.findings.flatMap s.finding

/-- The place of an anomaly: the function, and the block if there is one with a name. -/
def anomalyPlace (a : Anomaly) : String :=
  match a.block with
  | some b => if b = "" then a.function else a.function ++ ":" ++ b
  | none => a.function

def anomalies (s : Style) (r : Result) : List String :=
  if r.anomalies.isEmpty then []
  else
    ["", s.paint (.severity .high) ("ANOMALIES (" ++ toString r.anomalies.length ++ "):")] ++
      r.anomalies.map fun a => "  - " ++ a.kind.name ++ " in " ++ anomalyPlace a ++ ": " ++ a.detail

def declassifications (s : Style) (r : Result) : List String :=
  if s.verbose && !r.declassifications.isEmpty then
    ["", s.paint .bold "DECLASSIFICATIONS:"] ++
      r.declassifications.map fun d =>
        "  - " ++ d.function ++ ":" ++ d.block ++ "[" ++ toString d.index ++ "] " ++ d.input ++
          " (" ++ d.label.title ++ ") -> " ++ d.output
  else []

/-- The report. -/
def report (s : Style) (r : Result) : String :=
  "\n".intercalate <|
    s.header r ++
    (if r.failed then s.errors r
    else s.summary r ++ s.findings r ++ s.anomalies r ++ s.declassifications r ++ [""]) ++
    [s.rule]

end Style

end ConstantTime.Report
