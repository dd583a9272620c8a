/-
How numbers are written out.

A number is written with the fewest digits that read back. The point stands among the digits for
numbers from 0.0001 up to sixteen digits before the point, and such a number always has a digit
after the point; all others are written with a signed exponent of at least two digits. Durations in
the console report have two decimal places instead, where a half goes to the even neighbour.
-/
import ConstantTime.Decimal.Shortest

set_option autoImplicit false

namespace ConstantTime.Decimal

/-- The choices in writing a number. -/
structure Layout where
  /-- Below this number of places before the point, an exponent is written. -/
  leastPlaces : Int
  /-- Above this number of places before the point, an exponent is written. -/
  mostPlaces : Int
  /-- Least number of digits of an exponent. -/
  exponentWidth : Nat
  nan : String
  infinity : String

/-- Numbers as they stand in values and messages. -/
def plain : Layout := ⟨-3, 16, 2, "nan", "inf"⟩

/-- Numbers as they stand in structured reports. -/
def structured : Layout := ⟨-3, 16, 2, "NaN", "Infinity"⟩

def zeros (n : Nat) : String := String.ofList (List.replicate n '0')

/-- Digits with the point after `places` of them. -/
def pointed (digits : List Char) (places : Int) : String :=
  if places ≤ 0 then "0." ++ zeros places.natAbs ++ String.ofList digits
  else
    let whole := digits.take places.toNat
    let fraction := digits.drop places.toNat
    String.ofList whole ++ zeros (places.toNat - digits.length) ++ "." ++
      (if fraction.isEmpty then "0" else String.ofList fraction)

/-- A signed exponent with at least `width` digits. -/
def exponentText (width : Nat) (e : Int) : String :=
  let digits := Nat.toDigits 10 e.natAbs
  (if e < 0 then "e-" else "e+") ++ zeros (width - digits.length) ++ String.ofList digits

/-- One digit, a point if there are more, and an exponent. -/
def exponential (layout : Layout) (digits : List Char) (places : Int) : String :=
  String.ofList (digits.take 1) ++
    (if digits.length ≤ 1 then "" else "." ++ String.ofList (digits.drop 1)) ++
    exponentText layout.exponentWidth (places - 1)

/-- A decimal in the given layout. -/
def Scientific.write (layout : Layout) (s : Scientific) : String :=
  let digits := Nat.toDigits 10 s.digits
  let places : Int := digits.length + s.exponent
  if layout.leastPlaces ≤ places ∧ places ≤ layout.mostPlaces then pointed digits places
  else exponential layout digits places

/-- A number in the given layout. -/
def Layout.write (layout : Layout) (x : Float) : String :=
  match Value.ofFloat x with
  | .nan => layout.nan
  | .infinite negative => (if negative then "-" else "") ++ layout.infinity
  | .finite negative mantissa exponent =>
    (if negative then "-" else "") ++
      (if mantissa = 0 then "0.0" else (shortest mantissa exponent).write layout)

/-- A number with two decimal places. -/
def hundredths (x : Float) : String :=
  match Value.ofFloat x with
  | .nan => "nan"
  | .infinite negative => if negative then "-inf" else "inf"
  | .finite negative mantissa exponent =>
    let (num, den) := ratio mantissa exponent
    let cents := roundDiv (num * 100) den
    let digits := Nat.toDigits 10 (cents % 100)
    (if negative then "-" else "") ++ toString (cents / 100) ++ "." ++
      zeros (2 - digits.length) ++ String.ofList digits

end ConstantTime.Decimal
