/-
Quantities: the numbers of a configuration.

Limits are whole numbers when a configuration is read, but settings that are handed over directly
are taken as they are. So a limit may have a fraction, and a truth value counts as one or zero. A
quantity remembers how it was given, since it is shown again in messages.
-/
import ConstantTime.Json.Display

set_option autoImplicit false

namespace ConstantTime

/-- A number in a configuration, as it was given. -/
inductive Quantity
  | int (n : Int)
  | float (x : Float)
  | flag (b : Bool)

namespace Quantity

def ofJson? : Json → Option Quantity
  | .int n => some (.int n)
  | .float x => some (.float x)
  | .bool b => some (.flag b)
  | _ => none

def toJson : Quantity → Json
  | .int n => .int n
  | .float x => .float x
  | .flag b => .bool b

/-- A quantity in messages, however long it is. -/
def text (q : Quantity) : String := q.toJson.text

/-- A quantity in messages, if it can be written. -/
def text? (q : Quantity) : Option String := q.toJson.text?

/-- Whether a quantity is less than a natural number. -/
def below (q : Quantity) (n : Nat) : Bool :=
  match q with
  | .int k => decide (k < n)
  | .float x => decide (x < Float.ofNat n)
  | .flag b => decide (b.toNat < n)

/-- Whether a quantity is at most a natural number. -/
def atMost (q : Quantity) (n : Nat) : Bool :=
  match q with
  | .int k => decide (k ≤ n)
  | .float x => decide (x ≤ Float.ofNat n)
  | .flag b => decide (b.toNat ≤ n)

/-- A quantity as a number with fraction, unless it is out of range. -/
def toFloat? : Quantity → Option Float
  | .int n => Decimal.ofInt? n
  | .float x => some x
  | .flag b => some (if b then 1 else 0)

end Quantity

end ConstantTime
