/-
The reader of documents that hold JSON.

A document is written by rules of its own, on top of those of JSON. It holds no control characters,
tabs included. The name of a field and its colon stand on one line and not too far from each other.
A line break inside a literal is folded: blanks around it do not count, and a next line that looks
like the mark between two documents is refused. A number with an exponent needs a point and a sign
to be one, and is a text otherwise. A whole number may have hexadecimal digits behind `0x`. One
with decimal digits has a limited number of them, even where a later field with the same name
replaces it.

A text without anything in it stands for null, and a byte order mark at the front does not count.
-/
import ConstantTime.Document
import ConstantTime.Json.Reader
import ConstantTime.Text.Numeral
import ConstantTime.Text.Utf8

set_option autoImplicit false

namespace ConstantTime.Document

open Json (Glyph Number Name Source Dialect)

/-! ## Characters -/

/-- A character that ends a line. -/
def isBreak (c : Char) : Bool :=
  c == '\n' || c == '\r' || c == '\u0085' || c == '\u2028' || c == '\u2029'

/-- A character that a document may hold. -/
def isAllowed (c : Char) : Bool :=
  isBreak c || decide (0x20 ≤ c.toNat ∧ c.toNat ≤ 0x7E) ||
    decide (0xA0 ≤ c.toNat ∧ c.toNat ≠ 0xFFFE ∧ c.toNat ≠ 0xFFFF)

/-- The characters of a text behind its byte order mark. -/
def withoutMark (text : String) : List Char :=
  match text.toList with
  | '\uFEFF' :: rest => rest
  | cs => cs

/-! ## Literals

The lines of a literal are folded before it is read as a text. -/

def isPlain (test : Char → Bool) : Glyph → Bool
  | .plain c => test c
  | _ => false

/-- Whether a line starts like the mark between two documents. -/
def startsMarked : List Glyph → Bool
  | .plain a :: .plain b :: .plain c :: .plain d :: _ =>
    (a == '-' || a == '.') && a == b && b == c && (d == ' ' || isBreak d)
  | _ => false

/-- Whether some line behind the first one starts like the mark between two documents. -/
def hasMark : List Glyph → Bool
  | [] => false
  | g :: rest => (isPlain isBreak g && startsMarked rest) || hasMark rest

/-- What line breaks in a row fold to. A lone ordinary one is a blank, the first of several
ordinary ones nothing; the separators of lines and paragraphs stay. -/
def foldBreaks : List Char → List Glyph
  | [] => []
  | first :: rest =>
    let isSeparator (c : Char) : Bool := c == '\u2028' || c == '\u2029'
    let shown := rest.map fun c => Glyph.plain (if isSeparator c then c else '\n')
    if isSeparator first then .plain first :: shown
    else if rest.isEmpty then [.plain ' '] else shown

/-- Folds the lines of a literal: `blanks` and `breaks` hold the blanks and line breaks since the
last other glyph, and the blanks do not count once there is a break. -/
def fold (blanks breaks : List Char) : List Glyph → List Glyph
  | [] => blanks.map .plain ++ foldBreaks breaks
  | g :: rest =>
    if isPlain (fun c => c == ' ') g then
      if breaks.isEmpty then fold (' ' :: blanks) [] rest else fold [] breaks rest
    else
      match g with
      | .plain c =>
        if isBreak c then fold [] (breaks ++ [c]) rest
        else blanks.map .plain ++ foldBreaks breaks ++ g :: fold [] [] rest
      | g => blanks.map .plain ++ foldBreaks breaks ++ g :: fold [] [] rest

/-! ## Names -/

/-- The greatest distance of a name from its colon. -/
def maxReach : Nat := 1024

/-- Whether a name and its colon stand on one line and near enough. -/
def isInReach (n : Name) : Bool :=
  !(n.glyphs.any (isPlain isBreak)) && !(n.gap.any isBreak) &&
    decide (2 + n.glyphs.foldl (fun width g => width + g.width) 0 + n.gap.length ≤ maxReach)

mutual

/-- Whether the names and literals of a source are laid out as a document has them. -/
def isLaidOut : Source → Bool
  | .literal glyphs => !hasMark glyphs
  | .arr items => areLaidOut items
  | .obj fields => fieldsLaidOut fields
  | _ => true

def areLaidOut : List Source → Bool
  | [] => true
  | v :: rest => isLaidOut v && areLaidOut rest

def fieldsLaidOut : List (Name × Source) → Bool
  | [] => true
  | (name, v) :: rest => isInReach name && isLaidOut v && fieldsLaidOut rest

end

/-! ## Numbers

Digits are counted level by level: a number of the outer list comes before one of an inner list,
wherever they stand in the text. -/

/-- What a number stands for. -/
def number (n : Number) : Json :=
  match n.exponent with
  | none => n.value
  | some e => if n.fraction.isEmpty || e.sign.isNone then .str n.text else n.value

/-- The number of digits of a whole number that has too many. -/
def excess? : Source → Option Nat
  | .number n => if n.isWhole && decide (Text.maxDigits < n.whole.length)
    then some n.whole.length else none
  | _ => none

/-- The first excess in some sources, whose own parts count only after all of them; `depth` bounds
the nesting. -/
def firstExcess? : Nat → List Source → Option Nat
  | 0, _ => none
  | depth + 1, level =>
    match level.findSome? excess?, level.flatMap Source.parts with
    | some count, _ => some count
    | none, [] => none
    | none, next => firstExcess? depth next

/-! ## Values

A text is first checked for its characters, then read as JSON, then checked for its layout, and
only then given a value. -/

/-- What literals and numbers of a document stand for. -/
def dialect : Dialect := ⟨fun glyphs => Glyph.text (fold [] [] glyphs), number⟩

/-- The error of a text that holds something else. -/
def notJson : DocumentError := .unparsable "the text is not a JSON value"

/-- The error of a whole number with too many digits. -/
def tooManyDigits (count : Nat) : DocumentError :=
  .failed (Text.limitExceeded (": value has " ++ toString count ++ " digits"))

/-- The value that a text holds. Blanks and line breaks alone are null, and other empty characters
are a text. -/
def read (text : String) : Except DocumentError Json :=
  let cs := withoutMark text
  if !cs.all isAllowed then .error notJson
  else if cs.all fun c => c == ' ' || isBreak c then .ok .null
  else if cs.all Text.isBlank then .ok (.str (String.ofList cs))
  else
    match Json.source? true cs with
    | none => .error notJson
    | some s =>
      if !isLaidOut s then .error notJson
      else
        match firstExcess? (cs.length + 1) [s] with
        | some count => .error (tooManyDigits count)
        | none => .ok (s.value dialect)

/-- Reads documents that hold JSON. -/
def json : DocumentReader where
  ofText := read
  ofBytes bytes :=
    match Text.decodeUtf8 bytes with
    | .error e => .error (.notUtf8 e.message)
    | .ok text => read text

end ConstantTime.Document
