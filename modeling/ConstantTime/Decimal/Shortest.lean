/-
The fewest digits that read back.

A positive number is written with the least number of decimal digits from which it can be read
again, and of the decimals with that many digits with the one nearest to it. For one digit, two
digits and so on, the two neighbours of the number on the grid of that many digits are tried;
seventeen digits always suffice.
-/
import ConstantTime.Decimal.Binary64

set_option autoImplicit false

namespace ConstantTime.Decimal

/-- The decimal `digits * 10 ^ exponent`. -/
structure Scientific where
  digits : Nat
  exponent : Int

/-- `mantissa * 2 ^ exponent` as a ratio of naturals. -/
def ratio (mantissa : Nat) (exponent : Int) : Nat × Nat :=
  if exponent < 0 then (mantissa, Nat.pow 2 exponent.natAbs)
    else (mantissa * Nat.pow 2 exponent.natAbs, 1)

/-- How often `num` has to be multiplied by ten to reach `den`. -/
def shortfall (den : Nat) : Nat → Nat → Nat
  | 0, _ => 0
  | fuel + 1, num => if den ≤ num then 0 else shortfall den fuel (num * 10) + 1

/-- The number of digits before the decimal point of `num / den`; zero or negative for a small
ratio. -/
def magnitude (num den : Nat) : Int :=
  if den ≤ num then (Nat.toDigits 10 (num / den)).length
  else 1 - (shortfall den 400 num : Int)

/-- The point of the grid of multiples of `10 ^ exponent` at or below `num / den`, and the exact
distance to it as a numerator over a common denominator. -/
def gridFloor (num den : Nat) (exponent : Int) : Nat × Nat × Nat :=
  let (n, d) := if exponent < 0 then (num * Nat.pow 10 exponent.natAbs, den)
    else (num, den * Nat.pow 10 exponent.natAbs)
  (n / d, n % d, d)

/-- Whether a decimal reads back as the number with bit pattern `bits`. -/
def readsBack (bits : Nat) (s : Scientific) : Bool :=
  (ofDecimal false s.digits s.exponent).toBits.toNat == bits

/-- The decimals on the grid of multiples of `10 ^ exponent` that stand next to `num / den` and
read back as `bits`; the nearer one, and of two equally near ones the even one. -/
def onGrid? (bits num den : Nat) (exponent : Int) : Option Scientific :=
  let (below, rest, unit) := gridFloor num den exponent
  let low : Scientific := ⟨below, exponent⟩
  let high : Scientific := ⟨below + 1, exponent⟩
  match readsBack bits low, readsBack bits high with
  | true, true =>
    if 2 * rest < unit then some low
    else if unit < 2 * rest then some high
    else if below % 2 = 0 then some low else some high
  | true, false => some low
  | false, true => some high
  | false, false => none

/-- Drops zeros at the end of the digits. -/
def trimZeros : Nat → Scientific → Scientific
  | 0, s => s
  | fuel + 1, s =>
    if s.digits % 10 = 0 ∧ s.digits ≠ 0 then trimZeros fuel ⟨s.digits / 10, s.exponent + 1⟩ else s

/-- Tries grids of `tried + 1` digits and more. -/
def searchGrids (bits num den : Nat) (size : Int) : Nat → Nat → Scientific
  | 0, tried => ⟨(gridFloor num den (size - tried)).1, size - tried⟩
  | fuel + 1, tried =>
    match onGrid? bits num den (size - (tried + 1)) with
    | some s => trimZeros 20 s
    | none => searchGrids bits num den size fuel (tried + 1)

/-- The fewest digits that read back as `mantissa * 2 ^ exponent`, which is positive. -/
def shortest (mantissa : Nat) (exponent : Int) : Scientific :=
  let (num, den) := ratio mantissa exponent
  searchGrids (nearestBits num den) num den (magnitude num den) 17 0

end ConstantTime.Decimal
