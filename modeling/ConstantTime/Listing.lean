/-
Orders and repetitions in lists.

Every listing that the checker shows has a fixed order: names ascend by code point, findings by
their place, and a set is listed by first occurrence. This file holds the operations behind that,
each by plain recursion on the list: `distinct` keeps first occurrences, `firstRepeat` finds the
first element that was there before, `sortBy` sorts without exchanging elements that compare equal,
and `collect` and `collectSome` work through a list until something fails.
-/
set_option autoImplicit false

namespace ConstantTime

section Repetition

variable {α : Type} [DecidableEq α]

/-- The elements of a list, each once, in the order of their first occurrence. -/
def distinct : List α → List α
  | [] => []
  | x :: xs => x :: (distinct xs).filter fun y => decide (y ≠ x)

/-- No element is lost, only its repetitions. -/
@[simp] theorem mem_distinct {x : α} {xs : List α} : x ∈ distinct xs ↔ x ∈ xs := by
  induction xs with
  | nil => simp [distinct]
  | cons y ys ih =>
    by_cases h : x = y <;> simp [distinct, ih, h]

theorem nodup_distinct (xs : List α) : (distinct xs).Nodup := by
  induction xs with
  | nil => simp [distinct]
  | cons y ys ih => exact List.nodup_cons.2 ⟨by simp, ih.filter _⟩

/-- The first element of a list whose key is already in `seen` or was met earlier in the list. -/
def firstRepeat {β : Type} (key : β → α) : List α → List β → Option β
  | _, [] => none
  | seen, x :: xs => if key x ∈ seen then some x else firstRepeat key (key x :: seen) xs

end Repetition

/-- Applies `f` to the elements in turn; the first error ends it. -/
def collect {ε α β : Type} (f : α → Except ε β) : List α → Except ε (List β)
  | [] => .ok []
  | x :: xs =>
    match f x with
    | .error e => .error e
    | .ok y =>
      match collect f xs with
      | .error e => .error e
      | .ok ys => .ok (y :: ys)

/-- The same for an `f` that may have nothing to give for an element. -/
def collectSome {ε α β : Type} (f : α → Except ε (Option β)) (xs : List α) : Except ε (List β) :=
  match collect f xs with
  | .error e => .error e
  | .ok found => .ok (found.filterMap id)

section Sorting

variable {α : Type}

/-- Puts `x` in front of the first element of a list that may not stand before it. -/
def insertBy (le : α → α → Bool) (x : α) : List α → List α
  | [] => [x]
  | y :: ys => if le x y then x :: y :: ys else y :: insertBy le x ys

/-- Sorts a list by `le`; elements that compare equal keep their order. -/
def sortBy (le : α → α → Bool) : List α → List α
  | [] => []
  | x :: xs => insertBy le x (sortBy le xs)

/-- Sorts by a name, ascending by code point. -/
def sortByName (name : α → String) : List α → List α :=
  sortBy fun x y => decide (name x ≤ name y)

/-- Names in ascending order. -/
def sortNames : List String → List String :=
  sortByName id

/-- Inserting adds one element. -/
theorem insertBy_perm (le : α → α → Bool) (x : α) (xs : List α) :
    (insertBy le x xs).Perm (x :: xs) := by
  induction xs with
  | nil => exact .refl _
  | cons y ys ih =>
    by_cases h : le x y
    · simp [insertBy, h]
    · simp only [insertBy, h, Bool.false_eq_true, if_false]
      exact (ih.cons y).trans (.swap x y ys)

/-- Sorting changes the order only. -/
theorem sortBy_perm (le : α → α → Bool) (xs : List α) : (sortBy le xs).Perm xs := by
  induction xs with
  | nil => exact .refl _
  | cons x xs ih => exact (insertBy_perm le x _).trans (ih.cons x)

@[simp] theorem mem_sortBy {le : α → α → Bool} {x : α} {xs : List α} :
    x ∈ sortBy le xs ↔ x ∈ xs :=
  (sortBy_perm le xs).mem_iff

end Sorting

end ConstantTime
