/-
JSON texts as they are written.

A source keeps what a value forgets: how a character of a literal is spelled, the digits and the
exponent of a number, the blanks between a name and its colon, and a field whose name comes again
later. A dialect says what literals and numbers stand for, and with that a source has a value; of
two fields with one name the later value stays, at the place of the earlier.
-/
import ConstantTime.Decimal.Binary64
import ConstantTime.Json

set_option autoImplicit false

namespace ConstantTime.Json

/-! ## Literals

A character outside the basic plane may be spelled by two code units. Half of such a pair that
stays alone is replaced. -/

/-- A character of a literal. -/
inductive Glyph
  /-- It stands for itself. -/
  | plain (c : Char)
  /-- It is named by a letter behind a backslash. -/
  | named (c : Char)
  /-- It is a code unit, given by four digits. -/
  | unit (u : Nat)

namespace Glyph

/-- The number of characters in which a glyph is written. -/
def width : Glyph → Nat
  | .plain _ => 1
  | .named _ => 2
  | .unit _ => 6

/-- Writes down half of a surrogate pair that stayed alone. -/
def settle (high : Option Nat) (done : List Char) : List Char :=
  match high with
  | some _ => Char.ofNat 0xFFFD :: done
  | none => done

/-- Adds a code unit: the first half of a surrogate pair waits for the second. -/
def addUnit (u : Nat) (high : Option Nat) (done : List Char) : Option Nat × List Char :=
  if 0xD800 ≤ u ∧ u < 0xDC00 then (some u, settle high done)
  else if 0xDC00 ≤ u ∧ u < 0xE000 then
    match high with
    | some h => (none, Char.ofNat (0x10000 + (h - 0xD800) * 0x400 + (u - 0xDC00)) :: done)
    | none => (none, Char.ofNat 0xFFFD :: done)
  else (none, Char.ofNat u :: settle high done)

/-- Reads glyphs; `done` holds the characters before them, the last one first. -/
def characters (high : Option Nat) (done : List Char) : List Glyph → List Char
  | [] => (settle high done).reverse
  | .plain c :: rest | .named c :: rest => characters none (c :: settle high done) rest
  | .unit u :: rest =>
    let (high, done) := addUnit u high done
    characters high done rest

/-- The text that glyphs spell. -/
def text (glyphs : List Glyph) : String := String.ofList (characters none [] glyphs)

end Glyph

/-! ## Numbers

A number keeps its digits, since a dialect may count them or take the whole for a text. -/

/-- The exponent of a number. -/
structure Exponent where
  mark : Char
  sign : Option Char
  digits : List Char

/-- A number. -/
structure Number where
  negative : Bool
  whole : List Char
  fraction : List Char
  exponent : Option Exponent

def natOfDigits (cs : List Char) : Nat := cs.foldl (fun n c => n * 10 + (c.toNat - 48)) 0

/-- The value of a hexadecimal digit. -/
def hexValue (c : Char) : Option Nat :=
  if '0' ≤ c ∧ c ≤ '9' then some (c.toNat - 48)
  else if 'a' ≤ c ∧ c ≤ 'f' then some (c.toNat - 87)
  else if 'A' ≤ c ∧ c ≤ 'F' then some (c.toNat - 55)
  else none

def natOfHex (cs : List Char) : Nat := cs.foldl (fun n c => n * 16 + (hexValue c).getD 0) 0

/-- A natural number with its sign. -/
def signed (negative : Bool) (n : Nat) : Int := if negative then -(n : Int) else n

/-- The power of ten of an exponent. -/
def Exponent.value (e : Exponent) : Int :=
  if e.sign = some '-' then -(natOfDigits e.digits : Int) else natOfDigits e.digits

namespace Number

/-- Whether a number has neither fraction nor exponent. -/
def isWhole (n : Number) : Bool := n.fraction.isEmpty && n.exponent.isNone

/-- The number that is meant. -/
def value (n : Number) : Json :=
  if n.isWhole then .int (signed n.negative (natOfDigits n.whole))
  else
    let power := (n.exponent.map Exponent.value).getD 0
    .float (Decimal.ofDecimal n.negative (natOfDigits (n.whole ++ n.fraction))
      (power - n.fraction.length))

/-- A number as it is written. -/
def text (n : Number) : String :=
  let exponent := match n.exponent with
    | some e => e.mark :: e.sign.toList ++ e.digits
    | none => []
  String.ofList ((if n.negative then ['-'] else []) ++ n.whole ++
    (if n.fraction.isEmpty then [] else '.' :: n.fraction) ++ exponent)

end Number

/-! ## Sources -/

/-- The name of a field, with the blanks between it and its colon. -/
structure Name where
  glyphs : List Glyph
  gap : List Char

/-- A JSON text. -/
inductive Source
  | null
  | bool (b : Bool)
  | number (n : Number)
  /-- A whole number in hexadecimal digits, which JSON itself does not have. -/
  | hex (negative : Bool) (digits : List Char)
  | literal (glyphs : List Glyph)
  | arr (items : List Source)
  | obj (fields : List (Name × Source))

/-- What literals and numbers stand for. -/
structure Dialect where
  text : List Glyph → String
  number : Number → Json

/-- The dialect in which all of them stand for what they spell. -/
def Dialect.plain : Dialect := ⟨Glyph.text, Number.value⟩

namespace Source

mutual

/-- The value of a source. -/
def value (d : Dialect) : Source → Json
  | .null => .null
  | .bool b => .bool b
  | .number n => d.number n
  | .hex negative digits => .int (signed negative (natOfHex digits))
  | .literal glyphs => .str (d.text glyphs)
  | .arr items => .arr (values d items)
  | .obj fields => .obj (entries d [] fields)

def values (d : Dialect) : List Source → List Json
  | [] => []
  | v :: rest => value d v :: values d rest

/-- The fields of an object; `done` holds those before them. -/
def entries (d : Dialect) (done : List (String × Json)) :
    List (Name × Source) → List (String × Json)
  | [] => done
  | (name, v) :: rest => entries d (Assoc.put (d.text name.glyphs) (value d v) done) rest

end

/-- The sources that a source is directly made of. -/
def parts : Source → List Source
  | .arr items => items
  | .obj fields => fields.map Prod.snd
  | _ => []

end Source

end ConstantTime.Json
