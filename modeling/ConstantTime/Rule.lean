/-
The four guidelines that are checked, and how serious a breach of each is.
-/
set_option autoImplicit false

namespace ConstantTime

/-- How serious a finding is. -/
inductive Severity
  | critical
  | high
  | medium
  | low
  | info
  deriving DecidableEq

namespace Severity

def name : Severity → String
  | .critical => "critical"
  | .high => "high"
  | .medium => "medium"
  | .low => "low"
  | .info => "info"

/-- The name in capitals, for headings. -/
def heading : Severity → String
  | .critical => "CRITICAL"
  | .high => "HIGH"
  | .medium => "MEDIUM"
  | .low => "LOW"
  | .info => "INFO"

def priority : Severity → Nat
  | .critical => 5
  | .high => 4
  | .medium => 3
  | .low => 2
  | .info => 1

/-- All severities, the most serious first. -/
def all : List Severity := [.critical, .high, .medium, .low, .info]

def ofName? (s : String) : Option Severity := all.find? fun v => v.name == s

end Severity

/-- The guidelines. -/
inductive Rule
  /-- A secret must not choose between constant-time and variable-time code. -/
  | secretPath
  /-- No indirect branch or call inside a constant-time region. -/
  | indirectBranch
  /-- A secret must be scrubbed on every way out. -/
  | conditionalScrub
  /-- No secret in global storage. -/
  | globalStorage
  deriving DecidableEq

namespace Rule

def code : Rule → String
  | .secretPath => "R1"
  | .indirectBranch => "R2"
  | .conditionalScrub => "R3"
  | .globalStorage => "R4"

def title : Rule → String
  | .secretPath => "Secret-dependent path selection"
  | .indirectBranch => "Indirect branch in constant-time region"
  | .conditionalScrub => "Conditional scrub"
  | .globalStorage => "Secret in global storage"

def severity : Rule → Severity
  | .secretPath | .conditionalScrub => .critical
  | .indirectBranch | .globalStorage => .high

/-- All rules, in the order of their codes. -/
def all : List Rule := [.secretPath, .indirectBranch, .conditionalScrub, .globalStorage]

/-- The rules of a list, in the order of their codes and each once. -/
def ordered (rules : List Rule) : List Rule := all.filter fun r => decide (r ∈ rules)

/-- The rule with a code, which may be written with a small letter. No other character has the
letter of the codes as its capital. -/
def ofCode? (s : String) : Option Rule :=
  all.find? fun r => s == r.code || s == "r" ++ String.ofList (r.code.toList.drop 1)

/-- The report of a text that is no code. -/
def unknownCode (s : String) : String :=
  "unknown rule id '" ++ s ++ "' (expected one of R1, R2, R3, R4)"

end Rule

end ConstantTime
