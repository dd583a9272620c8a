/-
Character classes given by their turning points.

A class of characters is stored as the ascending list of code points at which membership changes. A
character lies in the class when the number of turning points at or below it is odd.
-/
set_option autoImplicit false

namespace ConstantTime.Text

/-- Membership in the class with the given turning points. -/
def inClass (turns : List Nat) (c : Char) : Bool :=
  (turns.takeWhile fun t => decide (t ≤ c.toNat)).length % 2 == 1

/-- The digits of `n` in base 16, at least `width` of them. -/
def hex (width n : Nat) : String :=
  let digits := Nat.toDigits 16 n
  String.ofList (List.replicate (width - digits.length) '0' ++ digits)

end ConstantTime.Text
