/-
Quoted text: how a text is shown inside a listed value.

The quote is an apostrophe, or a double quote when the text holds apostrophes and no double quote.
The quote and the backslash are escaped by a backslash, the usual layout characters have their
letters, and a character without a printed form is shown by its code point in two, four or eight
hexadecimal digits.
-/
import ConstantTime.Text.PrintableData
import ConstantTime.Text.CharClass

set_option autoImplicit false

namespace ConstantTime.Text

def apostrophe : Char := Char.ofNat 0x27

def doubleQuote : Char := Char.ofNat 0x22

def backslash : Char := Char.ofNat 0x5C

/-- Characters that are shown as they are. -/
def isPrintable (c : Char) : Bool := !inClass unprintableTurns c

/-- One character of a text quoted with `mark`. -/
def quoteChar (mark c : Char) : List Char :=
  if c = mark ∨ c = backslash then [backslash, c]
  else if c = '\n' then [backslash, 'n']
  else if c = '\r' then [backslash, 'r']
  else if c = '\t' then [backslash, 't']
  else if isPrintable c then [c]
  else if c.toNat < 0x100 then backslash :: 'x' :: (hex 2 c.toNat).toList
  else if c.toNat < 0x10000 then backslash :: 'u' :: (hex 4 c.toNat).toList
  else backslash :: 'U' :: (hex 8 c.toNat).toList

/-- The quote that suits a text. -/
def quoteMark (s : List Char) : Char :=
  if apostrophe ∈ s ∧ doubleQuote ∉ s then doubleQuote else apostrophe

/-- A text in quotes. -/
def quote (s : String) : String :=
  let mark := quoteMark s.toList
  String.ofList (mark :: (s.toList.flatMap (quoteChar mark) ++ [mark]))

end ConstantTime.Text
