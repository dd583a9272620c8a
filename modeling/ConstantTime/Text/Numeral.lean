/-
Numerals: texts that stand for a number.

Blanks around a numeral do not count. Its digits may be the decimal digits of any script, and
single underscores may stand between digits. A numeral with fraction may have a point, an exponent,
or be one of the words for infinity and for no number at all.

The number of decimal digits of a whole number is limited. The limit holds in both directions: a
numeral with more digits is not read, and a number that needs more digits is not written.
-/
import ConstantTime.Decimal.Binary64
import ConstantTime.Text.CharClass

set_option autoImplicit false

namespace ConstantTime.Text

/-- The turning points of the class of blank characters. -/
def blankTurns : List Nat :=
  [0x9, 0xE, 0x20, 0x21, 0x85, 0x86, 0xA0, 0xA1, 0x1680, 0x1681, 0x2000, 0x200B, 0x2028, 0x202A,
    0x202F, 0x2030, 0x205F, 0x2060, 0x3000, 0x3001]

def isBlank (c : Char) : Bool := inClass blankTurns c

/-- The zeros of all scripts; the other digits of a script follow its zero. -/
def zeros : List Nat :=
  [0x30, 0x660, 0x6F0, 0x7C0, 0x966, 0x9E6, 0xA66, 0xAE6, 0xB66, 0xBE6, 0xC66, 0xCE6, 0xD66, 0xDE6,
    0xE50, 0xED0, 0xF20, 0x1040, 0x1090, 0x17E0, 0x1810, 0x1946, 0x19D0, 0x1A80, 0x1A90, 0x1B50,
    0x1BB0, 0x1C40, 0x1C50, 0xA620,
    0xA8D0, 0xA900, 0xA9D0, 0xA9F0, 0xAA50, 0xABF0, 0xFF10, 0x104A0, 0x10D30, 0x11066, 0x110F0,
    0x11136, 0x111D0,
    0x112F0, 0x11450, 0x114D0, 0x11650, 0x116C0, 0x11730, 0x118E0, 0x11950, 0x11C50, 0x11D50,
    0x11DA0, 0x16A60,
    0x16AC0, 0x16B50, 0x1D7CE, 0x1D7D8, 0x1D7E2, 0x1D7EC, 0x1D7F6, 0x1E140, 0x1E2F0,
    0x1E950, 0x1FBF0]

/-- The value of a digit. -/
def digit? (c : Char) : Option Nat :=
  (zeros.find? fun z => decide (z ≤ c.toNat ∧ c.toNat < z + 10)).map fun z => c.toNat - z

namespace Numeral

/-- Removes blanks at both ends. -/
def trim (cs : List Char) : List Char :=
  ((cs.dropWhile isBlank).reverse.dropWhile isBlank).reverse

/-- Reads a sign. -/
def sign : List Char → Bool × List Char
  | '-' :: rest => (true, rest)
  | '+' :: rest => (false, rest)
  | cs => (false, cs)

/-- Reads digits, and underscores as long as they stand between digits. Gives the digits and the
rest. -/
def digits : List Char → List Nat × List Char
  | [] => ([], [])
  | [c] =>
    match digit? c with
    | some d => ([d], [])
    | none => ([], [c])
  | c :: next :: rest =>
    match digit? c with
    | none => ([], c :: next :: rest)
    | some d =>
      if next = '_' then
        -- an underscore belongs to the numeral if a digit follows
        match digits rest with
        | ([], _) => ([d], next :: rest)
        | (more, rest) => (d :: more, rest)
      else
        let (more, rest) := digits (next :: rest)
        (d :: more, rest)

/-- The number that digits stand for. -/
def value (ds : List Nat) : Nat := ds.foldl (fun n d => 10 * n + d) 0

/-- Reads an exponent, if there is one. -/
def exponent : List Char → Option Int
  | [] => some 0
  | c :: rest =>
    if c = 'e' ∨ c = 'E' then
      let (negative, rest) := sign rest
      match digits rest with
      | ([], _) => none
      | (ds, []) => some (if negative then -(value ds : Int) else value ds)
      | _ => none
    else none

/-- Reads a decimal without sign. -/
def decimal (negative : Bool) (cs : List Char) : Option Float :=
  let (whole, rest) := digits cs
  let (fraction, rest) :=
    match rest with
    | '.' :: rest => digits rest
    | rest => ([], rest)
  if whole = [] ∧ fraction = [] then none
  else
    (exponent rest).map fun e =>
      Decimal.ofDecimal negative (value (whole ++ fraction)) (e - fraction.length)

/-- A word in small letters. -/
def lowered (cs : List Char) : String := String.ofList (cs.map Char.toLower)

end Numeral

/-! ## Whole numbers

Between whole numbers and decimal digits there is a limit in both directions, so that converting
cannot take too long. -/

/-- The number of decimal digits that a whole number may be read from and written with. -/
def maxDigits : Nat := 4300

/-- Whether a whole number has few enough digits to be written. -/
def isWritable (n : Int) : Bool := decide (n.natAbs < Nat.pow 10 maxDigits)

/-- The report of a whole number with too many digits. -/
def limitExceeded (detail : String) : String :=
  "Exceeds the limit (" ++ toString maxDigits ++ " digits) for integer string conversion" ++
    detail ++
    "; use sys.set_int_max_str_digits() to increase the limit"

/-- The whole number that a text stands for. -/
def int? (s : String) : Option Int :=
  let (negative, rest) := Numeral.sign (Numeral.trim s.toList)
  match Numeral.digits rest with
  | ([], _) => none
  | (ds, []) =>
    if maxDigits < ds.length then none
    else some (if negative then -(Numeral.value ds : Int) else Numeral.value ds)
  | _ => none

/-! ## Numbers with fraction -/

/-- The number that a text stands for. -/
def float? (s : String) : Option Float :=
  let (negative, rest) := Numeral.sign (Numeral.trim s.toList)
  let word := Numeral.lowered rest
  if word = "inf" ∨ word = "infinity" then some (if negative then -(1 / 0) else 1 / 0)
  else if word = "nan" then some (0 / 0)
  else Numeral.decimal negative rest

end ConstantTime.Text
