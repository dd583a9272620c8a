/-
JSON values: the form in which modules, configurations and structured reports are exchanged.

Whole numbers and numbers with a fraction or an exponent are kept apart, because the two are shown
differently and only the former count things. The fields of an object keep their order, because an
object that ends up in a message is shown field by field.
-/
import ConstantTime.Table

set_option autoImplicit false

namespace ConstantTime

/-- A JSON value. -/
inductive Json
  | null
  | bool (b : Bool)
  | int (n : Int)
  | float (x : Float)
  | str (s : String)
  | arr (items : List Json)
  | obj (fields : List (String × Json))
  deriving Inhabited

namespace Json

/-- The field `name` of an object. -/
def get? (name : String) : Json → Option Json
  | .obj fields => Assoc.find? name fields
  | _ => none

/-- Whether a value counts as given: null, false, zero and everything empty do not. -/
def isGiven : Json → Bool
  | .null => false
  | .bool b => b
  | .int n => n != 0
  | .float x => x != 0
  | .str s => s != ""
  | .arr items => !items.isEmpty
  | .obj fields => !fields.isEmpty

/-- An array of texts. -/
def strs (items : List String) : Json := .arr (items.map .str)

/-- A text or null. -/
def optStr : Option String → Json
  | some s => .str s
  | none => .null

/-- A natural number. -/
def nat (n : Nat) : Json := .int n

end Json

end ConstantTime
