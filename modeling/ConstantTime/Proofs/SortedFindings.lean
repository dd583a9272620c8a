/-
Sorting findings.

Findings are compared by place and then by rule, lexicographically, so any two can be compared and
the comparison is transitive. For such a comparison sorting gives an ascending list, and leaving
elements out before or after sorting is the same.
-/
import Mathlib.Data.List.Forall2
import Mathlib.Data.Prod.Lex
import Mathlib.Data.String.Basic
import ConstantTime.Finding

set_option autoImplicit false

namespace ConstantTime

/-! ## Sorting

Insertion into a sorted list, for any comparison that is total and transitive. -/

section Sorting

variable {α : Type} {le : α → α → Bool}

/-- Inserting keeps a list sorted. -/
theorem pairwise_insertBy (htotal : ∀ x y, le x y = true ∨ le y x = true)
    (htrans : ∀ x y z, le x y = true → le y z = true → le x z = true) (x : α) {l : List α}
    (h : l.Pairwise fun y z => le y z = true) :
    (insertBy le x l).Pairwise fun y z => le y z = true := by
  induction l with
  | nil => exact List.pairwise_singleton _ x
  | cons y l ih =>
    rw [List.pairwise_cons] at h
    rw [insertBy]
    split
    · next hxy =>
      refine List.pairwise_cons.2 ⟨fun z hz => ?_, List.pairwise_cons.2 h⟩
      rcases List.mem_cons.1 hz with rfl | hz
      · exact hxy
      · exact htrans x y z hxy (h.1 z hz)
    · next hxy =>
      refine List.pairwise_cons.2 ⟨fun z hz => ?_, ih h.2⟩
      rcases List.mem_cons.1 ((insertBy_perm le x l).mem_iff.1 hz) with rfl | hz
      · exact (htotal _ _).resolve_left hxy
      · exact h.1 z hz

/-- Sorting gives an ascending list. -/
theorem pairwise_sortBy (htotal : ∀ x y, le x y = true ∨ le y x = true)
    (htrans : ∀ x y z, le x y = true → le y z = true → le x z = true) (l : List α) :
    (sortBy le l).Pairwise fun y z => le y z = true := by
  induction l with
  | nil => exact .nil
  | cons x l ih => exact pairwise_insertBy htotal htrans x ih

theorem insertBy_of_forall_le {x : α} {l : List α} (h : ∀ y ∈ l, le x y = true) :
    insertBy le x l = x :: l := by
  cases l with
  | nil => rfl
  | cons y l => rw [insertBy, if_pos (h y List.mem_cons_self)]

/-- An item may be left out before or after it is inserted. -/
theorem filter_insertBy (htrans : ∀ x y z, le x y = true → le y z = true → le x z = true)
    (p : α → Bool) (x : α) {l : List α} (h : l.Pairwise fun y z => le y z = true) :
    (insertBy le x l).filter p = if p x then insertBy le x (l.filter p) else l.filter p := by
  induction l with
  | nil =>
    rw [insertBy, List.filter_cons, List.filter_nil]
    rfl
  | cons y l ih =>
    rw [List.pairwise_cons] at h
    by_cases hxy : le x y = true
    · -- what is left of the list stands behind `x`, since `y` did
      have hbehind : ∀ z ∈ (y :: l).filter p, le x z = true := by
        intro z hz
        rcases List.mem_cons.1 (List.mem_filter.1 hz).1 with rfl | hz
        · exact hxy
        · exact htrans x y z hxy (h.1 z hz)
      rw [insertBy, if_pos hxy, List.filter_cons, insertBy_of_forall_le hbehind]
    · rw [insertBy, if_neg hxy, List.filter_cons, List.filter_cons, ih h.2]
      by_cases hx : p x = true
      · by_cases hy : p y = true
        · simp only [hx, hy, if_true, insertBy, if_neg hxy]
        · simp only [hx, hy, if_true, if_false, Bool.false_eq_true]
      · simp only [hx, if_false, Bool.false_eq_true]

/-- Leaving elements out before or after sorting is the same. -/
theorem filter_sortBy (htotal : ∀ x y, le x y = true ∨ le y x = true)
    (htrans : ∀ x y z, le x y = true → le y z = true → le x z = true) (p : α → Bool) (l : List α) :
    (sortBy le l).filter p = sortBy le (l.filter p) := by
  induction l with
  | nil => rfl
  | cons x l ih =>
    rw [sortBy, filter_insertBy htrans p x (pairwise_sortBy htotal htrans l), ih, List.filter_cons]
    split <;> rfl

/-- Elements that are compared alike are sorted alike. -/
theorem forall₂_sortBy {β : Type} {R : α → β → Prop} {le' : β → β → Bool}
    (hle : ∀ x x' y y', R x x' → R y y' → le' x' y' = le x y) {l : List α} {l' : List β}
    (h : List.Forall₂ R l l') :
    List.Forall₂ R (sortBy le l) (sortBy le' l') := by
  have hinsert : ∀ {x x'}, R x x' → ∀ {l l'}, List.Forall₂ R l l' →
      List.Forall₂ R (insertBy le x l) (insertBy le' x' l') := by
    intro x x' hx l l' h
    induction h with
    | nil => exact .cons hx .nil
    | cons hy hrest ih =>
      rw [insertBy, insertBy, hle _ _ _ _ hx hy]
      split
      · exact .cons hx (.cons hy hrest)
      · exact .cons hy ih
  induction h with
  | nil => exact .nil
  | cons hx _ ih => exact hinsert hx ih

end Sorting

/-! ## The order of findings

Findings are compared lexicographically by a key, so their comparison is total and transitive
because that of keys is. -/

namespace Finding

/-- What findings are compared by: function, block, instruction and rule, in this order. -/
def key (x : Finding) : String ×ₗ ℤ ×ₗ ℤ ×ₗ String :=
  toLex (x.function, toLex (x.blockIndex, toLex (x.index, x.rule.code)))

/-- The comparison of findings is that of their keys. -/
theorem le_iff_key_le (x y : Finding) : x.le y = true ↔ x.key ≤ y.key := by
  simp only [le, key, Prod.Lex.toLex_le_toLex]
  grind

theorem le_total (x y : Finding) : x.le y = true ∨ y.le x = true := by
  rw [le_iff_key_le, le_iff_key_le]
  exact LinearOrder.le_total _ _

theorem le_trans (x y z : Finding) (hxy : x.le y = true) (hyz : y.le z = true) : x.le z = true := by
  rw [le_iff_key_le] at hxy hyz ⊢
  exact hxy.trans hyz

end Finding

/-- Leaving findings out before or after sorting is the same. -/
theorem filter_sortFindings (p : Finding → Bool) (xs : List Finding) :
    (sortFindings xs).filter p = sortFindings (xs.filter p) :=
  filter_sortBy Finding.le_total Finding.le_trans p xs

end ConstantTime
