/-
Why a step of the analysis ends without its result.

Input that breaks a rule is malformed and reported as such. A fault is a defect of the analysis
itself: it looks something up that is not there, it does not come to an end in the time that it
allows itself, or it needs the text of a number that has too many digits to be written. Every place
that could go wrong so says so, and nothing falls back on a value that hides it.
-/
import ConstantTime.Program.Malformed
import ConstantTime.Text.Numeral

set_option autoImplicit false

namespace ConstantTime

/-- The ways in which the analysis itself can go wrong. -/
inductive Fault
  -- operands
  | unknownLocation
  | missingOperand
  -- names
  | unknownValue (value : String)
  | unknownBlock (block : String)
  | unknownFunction (function : String)
  -- parts of functions
  | noTerminator (block : String)
  | noRegion (block : String)
  | noRegionStart (block : String)
  | emptyComponent
  -- computations without end
  | noDominance (root : String)
  | noFixpoint (function : String) (rounds : Nat)
  -- texts
  | unwritable
  deriving DecidableEq

/-- The report of a fault. -/
def Fault.message : Fault → String
  | .unknownLocation => "unknown memory location"
  | .missingOperand => "missing operand"
  | .unknownValue v => "unknown value '" ++ v ++ "'"
  | .unknownBlock b => "unknown block '" ++ b ++ "'"
  | .unknownFunction f => "unknown function '" ++ f ++ "'"
  | .noTerminator b => "block '" ++ b ++ "' has no terminator"
  | .noRegion b => "block '" ++ b ++ "' is in no region"
  | .noRegionStart b => "no region opens in block '" ++ b ++ "'"
  | .emptyComponent => "empty component"
  | .noDominance root => "no dominance from '" ++ root ++ "'"
  | .noFixpoint function rounds =>
    "taint fixpoint for " ++ function ++ " did not converge in " ++ toString rounds ++ " rounds"
  | .unwritable => Text.limitExceeded ""

/-- Why a step ends without its result. -/
inductive Abort
  | malformed (e : Malformed)
  | fault (e : Fault)
  deriving DecidableEq

/-- The report of an abort. -/
def Abort.message : Abort → String
  | .malformed e => e.message
  | .fault e => e.message

end ConstantTime
