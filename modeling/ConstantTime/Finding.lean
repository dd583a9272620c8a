/-
Findings: breaches of a guideline at an instruction.

A finding names the rule, the place, and the chain of values from a secret source to the place.
What else each rule has to say about a breach is its detail. Findings are ordered by function, then
by the position of the block in the function, then by the position of the instruction in the block,
and last by rule.
-/
import ConstantTime.Json
import ConstantTime.Region
import ConstantTime.Rule
import ConstantTime.Shape

set_option autoImplicit false

namespace ConstantTime

/-- One way that a branch can go, with what was found on it. -/
structure Arm where
  target : String
  evidence : List Evidence

/-- A block from which control can go to a scrub or around it. -/
structure Bypass where
  block : String
  /-- The position of the branch in the block. -/
  index : Nat
  /-- The value that decides. -/
  decider : Option String
  label : Label

/-- What a rule has to say about a breach. -/
inductive Detail
  /-- A branch on a tainted value whose arms meet again at `joinBlock`. -/
  | paths (condition : Option String) (label : Label) (joinBlock : Option String) (arms : List Arm)
  /-- An indirect branch or call in the region opened at `region`. -/
  | indirect (resolution : Resolution) (targets : List String) (label : Label) (region : String)
  /-- A scrub of a value that is defined in `definition`, with the values that stay behind. -/
  | scrub (value : String) (location : Option String) (definition : String) (bypasses : List Bypass)
      (escaping : List String)
  /-- A store to a global location. -/
  | global (location : String)
  /-- Data handed over as it is. -/
  | given (data : Json)

/-- A breach of a rule. -/
structure Finding where
  rule : Rule
  function : String
  block : String
  /-- The position of the block in the function. -/
  blockIndex : Int
  /-- The position of the instruction in the block. -/
  index : Int
  severity : Severity
  chain : List String
  description : String
  detail : Detail

namespace Finding

/-- The place of a finding in messages. -/
def place (f : Finding) : String := f.function ++ ":" ++ f.block ++ "[" ++ toString f.index ++ "]"

/-- Whether a finding may stand before another. -/
def le (a b : Finding) : Bool :=
  if a.function ≠ b.function then decide (a.function < b.function)
  else if a.blockIndex ≠ b.blockIndex then decide (a.blockIndex < b.blockIndex)
  else if a.index ≠ b.index then decide (a.index < b.index)
  else decide (a.rule.code ≤ b.rule.code)

/-- Whether two findings are the same, details aside. -/
def same (a b : Finding) : Bool :=
  decide (a.rule = b.rule) && a.function == b.function && a.block == b.block &&
    a.blockIndex == b.blockIndex &&
    a.index == b.index && decide (a.severity = b.severity) && a.chain == b.chain &&
    a.description == b.description

/-- Whether a finding is at least as serious as `s`. -/
def isAtLeast (s : Severity) (f : Finding) : Bool := decide (s.priority ≤ f.severity.priority)

end Finding

/-- Findings in order. -/
def sortFindings : List Finding → List Finding := sortBy Finding.le

end ConstantTime
