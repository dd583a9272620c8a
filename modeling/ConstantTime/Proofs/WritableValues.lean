/-
Values that can be written.

A value has a text if no whole number in it has more than `maxDigits` decimal digits. What cannot be
written stays so inside a list or an object, so the fault of a part is a fault of the whole.
-/
import Mathlib.Algebra.Order.Ring.Int
import ConstantTime.Json.Display
import ConstantTime.Proofs.Tables

set_option autoImplicit false

namespace ConstantTime

/-! ## Whole numbers

The bound on a number and the bound on its digits are the same thing. -/

namespace Text

/-- The least whole number that cannot be written has one digit too many. -/
theorem isWritable_eq_false_iff {n : Int} : isWritable n = false ↔ 10 ^ maxDigits ≤ n.natAbs := by
  rw [isWritable, decide_eq_false_iff_not, Nat.not_lt, Nat.pow_eq]

/-- A number can be written if it has at most `maxDigits` digits. -/
theorem isWritable_iff_length_le {n : Int} :
    isWritable n = true ↔ n.natAbs.repr.length ≤ maxDigits := by
  rw [isWritable, decide_eq_true_iff, Nat.length_repr_le_iff (by decide), Nat.pow_eq]

/-- The numbers below one that cannot be written are those far enough below. -/
theorem le_neg_pow_iff {n : Int} : n ≤ -10 ^ maxDigits ↔ n < 1 ∧ isWritable n = false := by
  have hpos : 0 < 10 ^ maxDigits := Nat.pow_pos (by decide)
  have hcast : ((10 ^ maxDigits : Nat) : Int) = 10 ^ maxDigits := Int.natCast_pow 10 maxDigits
  rw [isWritable_eq_false_iff, ← hcast]
  generalize 10 ^ maxDigits = bound at hpos
  omega

/-- The text of a number has all of its digits. -/
theorem length_natAbs_le_length_toString (n : Int) :
    n.natAbs.repr.length ≤ (toString n).length := by
  cases n with
  | ofNat n => exact Nat.le_refl _
  | negSucc n =>
    change n.succ.repr.length ≤ ("-" ++ n.succ.repr).length
    rw [String.length_append]
    exact Nat.le_add_left _ _

end Text

/-! ## Parts of values

What keeps a part from being written keeps the whole from being written. -/

namespace Json

theorem isWritable_int (n : Int) : (Json.int n).isWritable = Text.isWritable n := by
  rw [isWritable]

/-- A value has no text exactly if it cannot be written. -/
@[simp] theorem text?_eq_none_iff {v : Json} : v.text? = none ↔ v.isWritable = false := by
  unfold text?
  split <;> simp_all

@[simp] theorem shown?_eq_none_iff {v : Json} : v.shown? = none ↔ v.isWritable = false := by
  unfold shown?
  split <;> simp_all

/-- If it has one, it is the text that the value would have without a limit. -/
theorem text?_eq_some_iff {v : Json} {s : String} :
    v.text? = some s ↔ v.isWritable = true ∧ v.text = s := by
  unfold text?
  split <;> simp_all

/-- A list can be written if its items can. -/
theorem areWritable_eq_true_iff {items : List Json} :
    areWritable items = true ↔ ∀ v ∈ items, v.isWritable = true := by
  induction items with
  | nil => simp [areWritable]
  | cons v rest ih => simp [areWritable, ih]

/-- An object can be written if the values of its fields can. -/
theorem haveWritable_eq_true_iff {fields : List (String × Json)} :
    haveWritable fields = true ↔ ∀ p ∈ fields, p.2.isWritable = true := by
  induction fields with
  | nil => simp [haveWritable]
  | cons p rest ih => simp [haveWritable, ih]

/-- An item that cannot be written keeps its list from being written. -/
theorem isWritable_arr_eq_false_iff {items : List Json} :
    (Json.arr items).isWritable = false ↔ ∃ v ∈ items, v.isWritable = false := by
  rw [isWritable, ← Bool.not_eq_true, areWritable_eq_true_iff]
  simp

/-- A field that cannot be written keeps its object from being written. -/
theorem isWritable_eq_false_of_get? {raw v : Json} {name : String} (hv : raw.get? name = some v)
    (hlong : v.isWritable = false) : raw.isWritable = false := by
  unfold get? at hv
  split at hv
  · next fields =>
    rw [isWritable, ← Bool.not_eq_true, haveWritable_eq_true_iff]
    intro hall
    rw [hall _ (Assoc.mem_of_find?_eq_some hv)] at hlong
    cases hlong
  · cases hv

end Json

end ConstantTime
