/-
Which integers are numbers with fraction.

An integer is rounded to the nearest number of the binary format with 53 bits of precision. One
that is nearer to `2 ^ 1024` than to the greatest number below it is out of range, and so is one
half way between the two, because a half is rounded to the even neighbour. Main statement: an
integer is out of range exactly from `2 ^ 1024 - 2 ^ 970` on, with either sign. An integer in range
is a number, and a number that is not at most zero is positive.
-/
import Mathlib
import ConstantTime.Decimal.Binary64

set_option autoImplicit false

namespace ConstantTime.Decimal

/-! ## Rounding

Division with rounding to the nearest, and to the even one of two equally near. Only the side on
which a bound is met matters here. -/

/-- A multiple below stays below. -/
theorem le_roundDiv {num den k : Nat} (hd : 0 < den) (h : k * den ≤ num) :
    k ≤ roundDiv num den := by
  have hq : k ≤ num / den := (Nat.le_div_iff_mul_le hd).2 h
  unfold roundDiv
  dsimp only
  split_ifs <;> omega

/-- And one above stays above. -/
theorem roundDiv_le {num den k : Nat} (hd : 0 < den) (h : num ≤ k * den) :
    roundDiv num den ≤ k := by
  unfold roundDiv
  dsimp only
  have hq : num / den ≤ k := Nat.div_le_of_le_mul (by rwa [Nat.mul_comm])
  by_cases hr : num % den = 0
  · rw [hr]
    split_ifs <;> omega
  · have hlt : num / den < k := by
      refine lt_of_le_of_ne hq fun heq => hr ?_
      have hdiv := Nat.div_add_mod num den
      rw [heq, Nat.mul_comm] at hdiv
      omega
    split_ifs <;> omega

/-- A half is rounded up from an odd number, to the even one. -/
theorem lt_roundDiv_iff_of_odd {num den k : Nat} (hd : 0 < den) (hk : k % 2 = 1) :
    k < roundDiv num den ↔ (2 * k + 1) * den ≤ 2 * num := by
  have hdiv := Nat.div_add_mod num den
  have hmod := Nat.mod_lt num hd
  unfold roundDiv
  dsimp only
  generalize hq : num / den = q at *
  generalize num % den = r at *
  -- only a quotient of exactly `k` is decided by the remainder, and a half rounds away from odd `k`
  rcases lt_trichotomy q k with hlt | rfl | hgt
  · have hmul : den * (q + 1) ≤ den * k := Nat.mul_le_mul_left den hlt
    constructor
    · intro h
      split_ifs at h <;> omega
    · intro h
      rw [Nat.add_mul, Nat.mul_assoc, Nat.mul_comm k den, one_mul] at h
      rw [Nat.mul_add] at hmul
      omega
  · rw [Nat.add_mul, Nat.mul_assoc, Nat.mul_comm q den, one_mul]
    constructor
    · intro h
      split_ifs at h <;> omega
    · intro h
      split_ifs <;> omega
  · have hmul : den * (k + 1) ≤ den * q := Nat.mul_le_mul_left den hgt
    rw [Nat.mul_add] at hmul
    rw [Nat.add_mul, Nat.mul_assoc, Nat.mul_comm k den, one_mul]
    constructor
    · intro h
      omega
    · intro h
      split_ifs <;> omega

/-! ## The nearest number to a natural

The exponent is read off the binary length. Rounding may carry into the next power of two, and at
the top this is where the range ends. -/

/-- An integer is divided by a power of two. -/
theorem scaledRatio_natCast (num d : Nat) : scaledRatio num 1 d = roundDiv num (2 ^ d) := by
  unfold scaledRatio
  rw [if_neg (by omega), one_mul]
  rfl

/-- A natural number has its leading bit at the place of its logarithm, so scaled down by the `j`
bits behind it has `j` bits to round. -/
theorem scaledRatio_log2_bounds {num : Nat} (hnum : num ≠ 0) (j : Nat) {e : Int}
    (he : e = num.log2 - j) :
    2 ^ j ≤ scaledRatio num 1 e ∧ scaledRatio num 1 e ≤ 2 ^ (j + 1) := by
  have hlow := Nat.log2_self_le hnum
  have hhigh := Nat.lt_log2_self (n := num)
  generalize num.log2 = L at *
  by_cases hneg : e < 0
  · -- scaling up is exact
    obtain ⟨d, hd⟩ : ∃ d, e.natAbs = d ∧ j = L + d := ⟨_, rfl, by omega⟩
    unfold scaledRatio
    rw [if_pos hneg, hd.1, hd.2, Nat.pow_eq]
    constructor
    · refine le_roundDiv one_pos ?_
      rw [mul_one, pow_add]
      exact Nat.mul_le_mul_right _ hlow
    · refine roundDiv_le one_pos ?_
      rw [mul_one, Nat.add_right_comm, pow_add]
      exact Nat.mul_le_mul_right _ hhigh.le
  · obtain ⟨d, hd⟩ : ∃ d : Nat, e = d ∧ L = j + d := ⟨e.natAbs, by omega, by omega⟩
    rw [hd.1, scaledRatio_natCast]
    rw [hd.2] at hlow hhigh
    have hpos : 0 < 2 ^ d := Nat.two_pow_pos d
    constructor
    · refine le_roundDiv hpos ?_
      rwa [← pow_add]
    · refine roundDiv_le hpos ?_
      rw [← pow_add, Nat.add_right_comm]
      exact hhigh.le

/-- The exponent of the number nearest to a natural is told by the logarithm. -/
theorem nearestBits_one {num : Nat} (hnum : num ≠ 0) :
    nearestBits num 1 = min ((num.log2 + 1022) * 2 ^ 52 + scaledRatio num 1 (num.log2 - 52))
      infinityBits := by
  have hlow : max ((num.log2 : Int) - (Nat.log2 1 : Nat) - 53) (-1074) = num.log2 - 53 := by
    have hone : Nat.log2 1 = 0 := by decide
    rw [hone]
    omega
  have hfull := (scaledRatio_log2_bounds hnum 53 (e := (num.log2 : Int) - 53) rfl).1
  unfold nearestBits
  rw [if_neg hnum]
  dsimp only
  rw [hlow, if_neg (show ¬ _ < Nat.pow 2 53 from Nat.not_lt.2 hfull)]
  have hnext : (num.log2 : Int) - 53 + 1 = num.log2 - 52 := by omega
  have hfield : Int.toNat ((num.log2 : Int) - 52 + 1074) = num.log2 + 1022 := by omega
  rw [hnext, hfield, Nat.pow_eq]

/-- **The naturals that are out of range**: those nearer to `2 ^ 1024` than to the greatest number
below it, and those half way. -/
theorem nearestBits_eq_infinityBits_iff (num : Nat) :
    nearestBits num 1 = infinityBits ↔ 2 ^ 1024 - 2 ^ 970 ≤ num := by
  by_cases hnum : num = 0
  · rw [hnum]
    decide +kernel
  obtain ⟨hmin, hmax⟩ := scaledRatio_log2_bounds hnum 52 (e := (num.log2 : Int) - 52) rfl
  have hinfinity : infinityBits = 2047 * 2 ^ 52 := rfl
  rw [nearestBits_one hnum, min_eq_right_iff, hinfinity]
  rcases lt_trichotomy num.log2 1023 with hlt | heq | hgt
  · -- below the last binade
    have hsmall := (Nat.log2_lt hnum).1 hlt
    refine iff_of_false ?_ (by omega)
    have hfield : (num.log2 + 1022) * 2 ^ 52 ≤ 2044 * 2 ^ 52 := Nat.mul_le_mul_right _ (by omega)
    omega
  · -- in the last binade only a full mantissa is rounded up beyond it
    have hodd : (2 ^ 53 - 1) % 2 = 1 := by norm_num
    have hpos : ∀ k, 0 < 2 ^ k := Nat.two_pow_pos
    have hround := @lt_roundDiv_iff_of_odd num (2 ^ 971) (2 ^ 53 - 1) (hpos 971) hodd
    have hshift : ((1023 : Nat) : Int) - 52 = (971 : Nat) := rfl
    have hratio := scaledRatio_natCast num 971
    rw [heq, hshift, hratio]
    have hhalf : (2 * (2 ^ 53 - 1) + 1) * 2 ^ 971 = 2 * (2 ^ 1024 - 2 ^ 970) := by omega
    rw [hhalf] at hround
    omega
  · -- beyond
    have hlarge := (Nat.le_log2 hnum).1 (show 1024 ≤ num.log2 from hgt)
    refine iff_of_true ?_ (by omega)
    have hfield : 2046 * 2 ^ 52 ≤ (num.log2 + 1022) * 2 ^ 52 := Nat.mul_le_mul_right _ (by omega)
    omega

/-! ## What the bits stand for

The bits are taken apart in the way the logical model of the format does, so that facts about them
become facts about numbers. -/

open Float.Model Float.Model.UnpackedFloat in
/-- A pattern whose exponent is not full, or whose mantissa is empty, is kept as it is. -/
theorem unpack_ofBits {u : UInt64} (h : @isNaNBits Format.binary64 u.toBitVec = false) :
    (Float.ofBits u).toModel.unpack = UnpackedFloat.unpack Format.binary64 u.toBitVec := by
  change UnpackedFloat.unpack Format.binary64
    (UnpackedFloat.pack Format.binary64 (UnpackedFloat.unpack Format.binary64 u.toBitVec)) = _
  rw [pack_unpack, h]
  rfl

open Float.Model Float.Model.UnpackedFloat in
/-- The exponent consists of ones for infinities and for what is no number. -/
theorem unpackExponent_eq_iff (v : BitVec 64) :
    @unpackExponent Format.binary64 v = -1#11 ↔ v.toNat / 2 ^ 52 % 2 ^ 11 = 2047 := by
  rw [← BitVec.toNat_inj, unpackExponent_def, BitVec.extractLsb'_toNat, Nat.shiftRight_eq_div_pow]
  rfl

open Float.Model Float.Model.UnpackedFloat in
theorem unpackMantissa_eq_iff (v : BitVec 64) :
    @unpackMantissa Format.binary64 v = 0#52 ↔ v.toNat % 2 ^ 52 = 0 := by
  rw [← BitVec.toNat_inj, unpackMantissa_def, BitVec.extractLsb'_toNat, Nat.shiftRight_zero]
  rfl

/-- Rounding never gives what is no number. -/
theorem nearestBits_le (num den : Nat) : nearestBits num den ≤ infinityBits := by
  unfold nearestBits
  split_ifs
  · exact Nat.zero_le _
  · exact min_le_right _ _

open Float.Model Float.Model.UnpackedFloat in
/-- The nearest number is infinite exactly if its pattern is that of infinity, and it is a number
in any case. -/
theorem nearest_status (negative : Bool) (num den : Nat) :
    (nearest negative num den).isInf = decide (nearestBits num den = infinityBits) ∧
      (nearest negative num den).isNaN = false := by
  have hle := nearestBits_le num den
  have hinfinity : infinityBits = 2047 * 2 ^ 52 := rfl
  unfold nearest
  -- only the bits matter from here on, with the sign as the highest of them
  generalize hu : UInt64.ofNat ((if negative then Nat.pow 2 63 else 0) + nearestBits num den) = u
  generalize nearestBits num den = bits at *
  have hbits : u.toBitVec.toNat = (if negative then 2 ^ 63 else 0) + bits := by
    rw [← hu]
    change _ % 2 ^ 64 = _
    cases negative <;> simp only [Nat.pow_eq, if_true, if_false, Bool.false_eq_true] <;> omega
  have hexponent : @unpackExponent Format.binary64 u.toBitVec = -1#11 ↔ bits = infinityBits := by
    rw [unpackExponent_eq_iff, hbits]
    cases negative <;> simp only [if_true, if_false, Bool.false_eq_true] <;> omega
  have hmantissa : bits = infinityBits → @unpackMantissa Format.binary64 u.toBitVec = 0#52 := by
    intro hfull
    rw [unpackMantissa_eq_iff, hbits, hfull]
    cases negative <;> decide
  have hnumber : @isNaNBits Format.binary64 u.toBitVec = false := by
    unfold isNaNBits
    rw [decide_eq_false_iff_not]
    exact fun hnan => hnan.2 (hmantissa (hexponent.1 hnan.1))
  change (Float.ofBits u).toModel.unpack.isInf = _ ∧ (Float.ofBits u).toModel.unpack.isNaN = _
  rw [unpack_ofBits hnumber]
  unfold UnpackedFloat.unpack
  dsimp only
  by_cases hfull : bits = infinityBits
  · rw [if_pos (hexponent.2 hfull), if_pos (hmantissa hfull), decide_eq_true hfull]
    exact ⟨rfl, rfl⟩
  · rw [if_neg (mt hexponent.1 hfull), decide_eq_false hfull]
    split_ifs <;> exact ⟨rfl, rfl⟩

/-- **An integer is out of range exactly from `2 ^ 1024 - 2 ^ 970` on**, with either sign. -/
theorem ofInt?_eq_none_iff (n : Int) : ofInt? n = none ↔ 2 ^ 1024 - 2 ^ 970 ≤ n.natAbs := by
  unfold ofInt?
  dsimp only
  rw [(nearest_status _ _ _).1, ← nearestBits_eq_infinityBits_iff]
  simp

/-- An integer in range is a number. -/
theorem isNaN_of_ofInt? {n : Int} {x : Float} (h : ofInt? n = some x) : x.isNaN = false := by
  unfold ofInt? at h
  dsimp only at h
  split at h
  · cases h
  · cases h
    exact (nearest_status _ _ _).2

open Float.Model Float.Model.UnpackedFloat in
/-- What is not at most zero is positive, unless it is no number. -/
theorem pos_or_isNaN {x : Float} (h : ¬ x ≤ 0) : 0 < x ∨ x.isNaN = true := by
  have hle : ¬ x.toModel.unpack.le (.zero .positive) = true := fun hle => h (decide_eq_true hle)
  have hlt : (UnpackedFloat.zero .positive).lt x.toModel.unpack = true → 0 < x :=
    fun hlt => decide_eq_true hlt
  change _ ∨ x.toModel.unpack.isNaN = true
  refine Or.imp_left hlt ?_
  generalize x.toModel.unpack = u at hle
  cases u with
  | notANumber => exact .inr rfl
  | zero s => exact absurd rfl hle
  | infinity s =>
    cases s with
    | positive => exact .inl rfl
    | negative => exact absurd rfl hle
  | finite s m e hm =>
    cases s with
    | positive => exact .inl rfl
    | negative => exact absurd rfl hle

end ConstantTime.Decimal
