/-
Lower case for any text.

Each letter is replaced by its lower-case form. Two letters are special: the dotted capital I
becomes two characters, and a capital sigma becomes the final form of the small sigma when it ends
a word, that is when a letter with case comes before it and none comes after it, marks between them
not counted.
-/
import ConstantTime.Text.CaseData
import ConstantTime.Text.CharClass

set_option autoImplicit false

namespace ConstantTime.Text

/-- The lower-case form of a character taken by itself. -/
def lowerChar (c : Char) : List Char :=
  if c.toNat = 0x130 then ['i', Char.ofNat 0x307]
  else
    match lowerRuns.find? fun r =>
      decide (r.first ≤ c.toNat) && decide (c.toNat ≤ r.last) &&
        (c.toNat - r.first) % r.step == 0 with
    | some r => [Char.ofNat (Int.toNat (c.toNat + r.shift))]
    | none => [c]

/-- Whether the nearest character that is not skipped is a letter with case. -/
def nextToLetter (cs : List Char) : Bool :=
  match cs.dropWhile (inClass skippedTurns) with
  | c :: _ => inClass casedTurns c
  | [] => false

/-- Lowers `rest`, which follows the characters of `before` (the nearest first). -/
def lowerAfter (before : List Char) : List Char → List Char
  | [] => []
  | c :: rest =>
    let lowered :=
      if c.toNat = 0x3A3 && nextToLetter before && !nextToLetter rest then [Char.ofNat 0x3C2]
      else lowerChar c
    lowered ++ lowerAfter (c :: before) rest

/-- A text in lower case. -/
def lower (s : String) : String := String.ofList (lowerAfter [] s.toList)

end ConstantTime.Text
