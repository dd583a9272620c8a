/-
The text of a JSON value in messages and names.

A text stands for itself; inside a list or an object it is quoted. The three constants are
capitalised words, lists and objects are shown with a comma and a blank between their parts. A value
with a whole number in it that has too many digits is not shown at all.
-/
import ConstantTime.Json
import ConstantTime.Decimal.Layout
import ConstantTime.Text.Numeral
import ConstantTime.Text.Quoted

set_option autoImplicit false

namespace ConstantTime.Json

/-! ## Texts of any length

What a value looks like if numbers may be as long as they are. -/

mutual

/-- A value as it is shown inside another one, and wherever a text has to be told from a number. -/
def shown : Json → String
  | .null => "None"
  | .bool true => "True"
  | .bool false => "False"
  | .int n => toString n
  | .float x => Decimal.plain.write x
  | .str s => Text.quote s
  | .arr items => "[" ++ ", ".intercalate (shownItems items) ++ "]"
  | .obj fields => "\x7b" ++ ", ".intercalate (shownFields fields) ++ "\x7d"

def shownItems : List Json → List String
  | [] => []
  | v :: rest => shown v :: shownItems rest

def shownFields : List (String × Json) → List String
  | [] => []
  | (name, v) :: rest => (Text.quote name ++ ": " ++ shown v) :: shownFields rest

end

/-- What a message calls the kind of a value. -/
def kind : Json → String
  | .null => "NoneType"
  | .bool _ => "bool"
  | .int _ => "int"
  | .float _ => "float"
  | .str _ => "str"
  | .arr _ => "list"
  | .obj _ => "dict"

/-- A value as a name or in a message. -/
def text : Json → String
  | .str s => s
  | v => v.shown

/-! ## Texts within the limit

A program writes a value only if all whole numbers in it are short enough, at whatever depth they
stand. So names and messages are made with the following two functions. -/

mutual

/-- Whether all whole numbers in a value are short enough to be written. -/
def isWritable : Json → Bool
  | .int n => Text.isWritable n
  | .arr items => areWritable items
  | .obj fields => haveWritable fields
  | .null | .bool _ | .float _ | .str _ => true

def areWritable : List Json → Bool
  | [] => true
  | v :: rest => isWritable v && areWritable rest

def haveWritable : List (String × Json) → Bool
  | [] => true
  | (_, v) :: rest => isWritable v && haveWritable rest

end

/-- A value as a name or in a message, if it can be written. -/
def text? (v : Json) : Option String := if v.isWritable then some v.text else none

/-- A value as it is shown where a text has to be told from a number, if it can be written. -/
def shown? (v : Json) : Option String := if v.isWritable then some v.shown else none

end ConstantTime.Json
