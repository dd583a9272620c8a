/-
Reading JSON text.

The reader takes characters from the front of a list and returns what is left. A literal in quotes
is read by a machine with three modes, one character at a time. Values nest, so the reader of
values carries a bound on the depth still allowed; the length of the text is always enough, since
each level takes a character. On request it takes hexadecimal numbers, too.
-/
import ConstantTime.Json.Source

set_option autoImplicit false

namespace ConstantTime.Json

namespace Reader

def isBlank (c : Char) : Bool := c == ' ' || c == '\t' || c == '\n' || c == '\r'

def skipBlank (cs : List Char) : List Char := cs.dropWhile isBlank

/-! ## Literals in quotes -/

/-- What the next character of a literal is. -/
inductive Mode
  | plain
  /-- It follows a backslash. -/
  | escape
  /-- It is one of the four digits of a code unit, of which `missing` are to come. -/
  | unit (missing value : Nat)

/-- The character that a letter after a backslash stands for. -/
def escaped (c : Char) : Option Char :=
  if c == 'n' then some '\n'
  else if c == 't' then some '\t'
  else if c == 'r' then some '\r'
  else if c == 'b' then some (Char.ofNat 8)
  else if c == 'f' then some (Char.ofNat 12)
  else if c == '"' || c == '\\' || c == '/' then some c
  else none

/-- Reads a literal up to its closing quote; `done` holds what was read, the last glyph first. -/
def literal (mode : Mode) (done : List Glyph) : List Char → Option (List Glyph × List Char)
  | [] => none
  | c :: rest =>
    match mode with
    | .plain =>
      if c == '"' then some (done.reverse, rest)
      else if c == '\\' then literal .escape done rest
      else if c.toNat < 0x20 then none
      else literal .plain (.plain c :: done) rest
    | .escape =>
      if c == 'u' then literal (.unit 4 0) done rest
      else
        match escaped c with
        | some e => literal .plain (.named e :: done) rest
        | none => none
    | .unit missing value =>
      match hexValue c with
      | none => none
      | some d =>
        if missing = 1 then literal .plain (.unit (value * 16 + d) :: done) rest
        else literal (.unit (missing - 1) (value * 16 + d)) done rest

/-! ## Numbers -/

/-- The digits at the front. -/
def digits (cs : List Char) : List Char × List Char :=
  (cs.takeWhile Char.isDigit, cs.dropWhile Char.isDigit)

/-- A fraction, if one starts here: `none` for a point without digits. -/
def fraction? : List Char → Option (List Char × List Char)
  | '.' :: rest =>
    let (ds, rest) := digits rest
    if ds.isEmpty then none else some (ds, rest)
  | cs => some ([], cs)

/-- A sign, if there is one. -/
def sign : List Char → Option Char × List Char
  | '-' :: rest => (some '-', rest)
  | '+' :: rest => (some '+', rest)
  | cs => (none, cs)

/-- An exponent, if one starts here: `none` for a mark without digits. -/
def exponent? (cs : List Char) : Option (Option Exponent × List Char) :=
  match cs with
  | [] => some (none, [])
  | e :: rest =>
    if e == 'e' || e == 'E' then
      let (sign, rest) := sign rest
      let (ds, rest) := digits rest
      if ds.isEmpty then none else some (some ⟨e, sign, ds⟩, rest)
    else some (none, cs)

/-- Whether a number is negative. -/
def minus : List Char → Bool × List Char
  | '-' :: rest => (true, rest)
  | cs => (false, cs)

/-- A hexadecimal number: its digits stand behind `0x`. -/
def hexadecimal? (cs : List Char) : Option (Source × List Char) :=
  let (negative, cs) := minus cs
  match cs with
  | '0' :: 'x' :: rest =>
    let isHex (c : Char) : Bool := (hexValue c).isSome
    let ds := rest.takeWhile isHex
    if ds.isEmpty then none else some (.hex negative ds, rest.dropWhile isHex)
  | _ => none

/-- A number. -/
def number (cs : List Char) : Option (Number × List Char) :=
  let (negative, cs) := minus cs
  let (whole, rest) := digits cs
  if whole.isEmpty || (whole.length != 1 && whole.head? == some '0') then none
  else
    match fraction? rest with
    | none => none
    | some (fraction, rest) =>
      match exponent? rest with
      | none => none
      | some (exponent, rest) => some (⟨negative, whole, fraction, exponent⟩, rest)

/-! ## Values

Readers of items and fields get what was read so far, the last one first. -/

/-- Reads a fixed word. -/
def word (expected : String) (v : Source) (cs : List Char) : Option (Source × List Char) :=
  if cs.take expected.length = expected.toList then some (v, cs.drop expected.length) else none

/-- A number in decimal digits or, if `hex` says so, in hexadecimal ones. -/
def anyNumber (hex : Bool) (cs : List Char) : Option (Source × List Char) :=
  let decimal := (number cs).map fun (n, rest) => (Source.number n, rest)
  if hex then (hexadecimal? cs).or decimal else decimal

mutual

/-- A value, nested at most `depth` levels. -/
def value (hex : Bool) : Nat → List Char → Option (Source × List Char)
  | 0, _ => none
  | depth + 1, cs =>
    match skipBlank cs with
    | [] => none
    | c :: rest =>
      if c == '{' then
        match skipBlank rest with
        | '}' :: rest => some (.obj [], rest)
        | rest => fields hex depth [] rest
      else if c == '[' then
        match skipBlank rest with
        | ']' :: rest => some (.arr [], rest)
        | rest => items hex depth [] rest
      else if c == '"' then (literal .plain [] rest).map fun (s, rest) => (.literal s, rest)
      else if c == 't' then word "true" (.bool true) (c :: rest)
      else if c == 'f' then word "false" (.bool false) (c :: rest)
      else if c == 'n' then word "null" .null (c :: rest)
      else anyNumber hex (c :: rest)

/-- The items of an array up to its end; `done` holds those read, the last one first. -/
def items (hex : Bool) : Nat → List Source → List Char → Option (Source × List Char)
  | 0, _, _ => none
  | depth + 1, done, cs =>
    match value hex depth cs with
    | none => none
    | some (v, rest) =>
      match skipBlank rest with
      | ',' :: rest => items hex depth (v :: done) rest
      | ']' :: rest => some (.arr (v :: done).reverse, rest)
      | _ => none

/-- The fields of an object up to its end; `done` holds those read, the last one first. -/
def fields (hex : Bool) : Nat → List (Name × Source) → List Char → Option (Source × List Char)
  | 0, _, _ => none
  | depth + 1, done, cs =>
    match skipBlank cs with
    | '"' :: rest =>
      match literal .plain [] rest with
      | none => none
      | some (glyphs, rest) =>
        let name : Name := ⟨glyphs, rest.takeWhile isBlank⟩
        match skipBlank rest with
        | ':' :: rest =>
          match value hex depth rest with
          | none => none
          | some (v, rest) =>
            match skipBlank rest with
            | ',' :: rest => fields hex depth ((name, v) :: done) rest
            | '}' :: rest => some (.obj ((name, v) :: done).reverse, rest)
            | _ => none
        | _ => none
    | _ => none

end

end Reader

/-- The source that characters make up, if they are JSON text, with hexadecimal numbers if `hex`
says so. -/
def source? (hex : Bool) (cs : List Char) : Option Source :=
  match Reader.value hex (cs.length + 1) cs with
  | some (v, rest) => if (Reader.skipBlank rest).isEmpty then some v else none
  | none => none

/-- The JSON value that a text spells, if it spells one. -/
def read? (s : String) : Option Json := (source? false s.toList).map (Source.value .plain)

end ConstantTime.Json
