/-
The result of an analysis run.

A run goes through fixed states, which its result records. A run that was rejected has an error and
nothing else; one that ran out of time has what was finished before.
-/
import ConstantTime.Analysis.State
import ConstantTime.Finding

set_option autoImplicit false

namespace ConstantTime

/-- The result of a run. -/
structure Result where
  module : String
  findings : List Finding
  anomalies : List Anomaly
  declassifications : List Declassification
  errors : List String
  state : RunState
  /-- All states that the run went through. -/
  history : List RunState
  timedOut : Bool
  functionsAnalyzed : Int
  rules : List Rule
  /-- In seconds. -/
  duration : Float

namespace Result

/-- The result of a run that has just begun. -/
def start (module : String) (rules : List Rule) : Result :=
  ⟨module, [], [], [], [], .idle, [.idle], false, 0, rules, 0⟩

/-- Moves a run to its next state. -/
def enter (r : Result) (s : RunState) : Result := { r with state := s, history := r.history ++ [s] }

/-- Rejects the input of a run: what was found so far is dropped. -/
def fail (r : Result) (e : Malformed) : Result :=
  { r with
    findings := [], anomalies := [], declassifications := [], functionsAnalyzed := 0,
    errors := r.errors ++ [e.message] }.enter .failed

def failed (r : Result) : Bool := decide (r.state = .failed)

def sorted (r : Result) : Result := { r with findings := sortFindings r.findings }

/-- The number of findings of each severity, the most serious first. -/
def summary (r : Result) : List (Severity × Nat) :=
  Severity.all.map fun s => (s, (r.findings.filter fun f => decide (f.severity = s)).length)

/-- The findings that are at least as serious as `s`. -/
def bySeverity (r : Result) (s : Severity) : List Finding := r.findings.filter (Finding.isAtLeast s)

def byRule (r : Result) (rule : Rule) : List Finding :=
  r.findings.filter fun f => decide (f.rule = rule)

def byFunction (r : Result) (f : String) : List Finding :=
  r.findings.filter fun x => x.function == f

/-- The most serious severity found. -/
def highest? (r : Result) : Option Severity :=
  Severity.all.find? fun s => r.findings.any fun f => decide (f.severity = s)

def hasCritical (r : Result) : Bool := r.findings.any fun f => decide (f.severity = .critical)

/-- The exit code of the program: 4 for rejected input, otherwise by the most serious finding. -/
def exitCode (r : Result) : Nat :=
  if r.failed then 4
  else
    match r.highest? with
    | none => 0
    | some .critical => 3
    | some .high => 2
    | some _ => 1

end Result

end ConstantTime
