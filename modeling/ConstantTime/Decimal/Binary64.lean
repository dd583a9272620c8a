/-
Binary64 numbers and ratios of naturals.

A finite binary64 number is a sign, a natural mantissa and a power of two. Reading a decimal means
to find the number nearest to a ratio of two naturals; of two equally near ones the one with the
even mantissa is taken. Both directions are done here in exact natural arithmetic on the bit
pattern, so that every digit that is read or written is decided by the same rounding rule.
-/
set_option autoImplicit false

namespace ConstantTime.Decimal

/-- The quotient of two naturals, rounded to the nearest natural; a half goes to the even
neighbour. -/
def roundDiv (num den : Nat) : Nat :=
  let q := num / den
  let twice := 2 * (num % den)
  if twice < den then q
  else if den < twice then q + 1
  else if q % 2 = 0 then q else q + 1

/-- What a binary64 bit pattern stands for. -/
inductive Value
  | nan
  | infinite (negative : Bool)
  /-- The number `mantissa * 2 ^ exponent`, or its negative. -/
  | finite (negative : Bool) (mantissa : Nat) (exponent : Int)

def Value.ofBits (bits : Nat) : Value :=
  let negative := decide (Nat.pow 2 63 ≤ bits)
  let field : Nat := bits / Nat.pow 2 52 % 2048
  let fraction : Nat := bits % Nat.pow 2 52
  if field = 2047 then if fraction = 0 then .infinite negative else .nan
  else if field = 0 then .finite negative fraction (-1074)
  else .finite negative (fraction + Nat.pow 2 52) ((field : Int) - 1075)

def Value.ofFloat (x : Float) : Value := Value.ofBits x.toBits.toNat

/-- The bit pattern of positive infinity. -/
def infinityBits : Nat := 2047 * Nat.pow 2 52

/-- `num / den` divided by `2 ^ exponent`, rounded. -/
def scaledRatio (num den : Nat) (exponent : Int) : Nat :=
  if exponent < 0 then roundDiv (num * Nat.pow 2 exponent.natAbs) den
  else roundDiv num (den * Nat.pow 2 exponent.natAbs)

/-- The bit pattern of the positive number nearest to `num / den`. -/
def nearestBits (num den : Nat) : Nat :=
  if num = 0 then 0
  else
    -- `low` is the least exponent that can give 53 bits, so the right one is `low` or its successor
    let low : Int := max ((num.log2 : Int) - den.log2 - 53) (-1074)
    let exponent :=
      if scaledRatio num den low < Nat.pow 2 53 then low
      else low + 1
    min (Int.toNat (exponent + 1074) * Nat.pow 2 52 + scaledRatio num den exponent) infinityBits

/-- The number nearest to `num / den`, or its negative. -/
def nearest (negative : Bool) (num den : Nat) : Float :=
  Float.ofBits (UInt64.ofNat ((if negative then Nat.pow 2 63 else 0) + nearestBits num den))

/-- The number nearest to `digits * 10 ^ exponent`, or its negative. An exponent that is out of
reach for the number of digits is decided without building the power of ten. -/
def ofDecimal (negative : Bool) (digits : Nat) (exponent : Int) : Float :=
  let size : Int := (Nat.toDigits 10 digits).length
  if digits = 0 ∨ size + exponent < -400 then nearest negative 0 1
  else if 400 < size + exponent then
    Float.ofBits (UInt64.ofNat ((if negative then Nat.pow 2 63 else 0) + infinityBits))
  else if exponent < 0 then nearest negative digits (Nat.pow 10 exponent.natAbs)
  else nearest negative (digits * Nat.pow 10 exponent.natAbs) 1

/-- The number nearest to an integer, unless the integer is out of range. -/
def ofInt? (n : Int) : Option Float :=
  let x := nearest (decide (n < 0)) n.natAbs 1
  if x.isInf then none else some x

end ConstantTime.Decimal
