/-
Tables: finite maps from names that remember the order in which the names were first entered.

The order is visible. A memory state lists its cells in it, and the chain that a load inherits from
a cell that may alias it is the first one in that order. So a table is a list of entries, a new
name goes to the end, and overwriting a name leaves it where it is. That each name has one entry is
part of the type: every operation below keeps it, and looking up a name is then the same as finding
its entry.
-/
import ConstantTime.Listing

set_option autoImplicit false

namespace ConstantTime

/-! ## Association lists

Lists of pairs, read from the front: the first pair with a key gives its value. -/

namespace Assoc

variable {κ α : Type} [DecidableEq κ]

/-- The value of the first pair with key `k`. -/
def find? (k : κ) : List (κ × α) → Option α
  | [] => none
  | (k', v) :: rest => if k' = k then some v else find? k rest

/-- Gives `k` the value `v`: in place if there is a pair with that key, otherwise at the end. -/
def put (k : κ) (v : α) : List (κ × α) → List (κ × α)
  | [] => [(k, v)]
  | (k', v') :: rest => if k' = k then (k, v) :: rest else (k', v') :: put k v rest

/-- A key that is there stays where it is, and a new one goes to the end. -/
theorem keys_put (k : κ) (v : α) (l : List (κ × α)) :
    (put k v l).map Prod.fst =
      if k ∈ l.map Prod.fst then l.map Prod.fst else l.map Prod.fst ++ [k] := by
  induction l with
  | nil => simp [put]
  | cons p rest ih =>
    obtain ⟨k', v'⟩ := p
    by_cases h : k' = k
    · simp [put, h]
    · have h' : ¬ k = k' := fun e => h e.symm
      by_cases hk : k ∈ rest.map Prod.fst
      · simp only [put, h, if_false, List.map_cons, ih, List.mem_cons, hk, or_true, if_true]
      · simp only [put, h, if_false, List.map_cons, ih, List.mem_cons, hk, h', or_false,
          List.cons_append]

/-- So keys stay distinct. -/
theorem nodup_keys_put {k : κ} {v : α} {l : List (κ × α)} (h : (l.map Prod.fst).Nodup) :
    ((put k v l).map Prod.fst).Nodup := by
  rw [keys_put]
  split
  · exact h
  · next hk =>
    refine List.nodup_append.2 ⟨h, by simp, fun a ha b hb e => hk ?_⟩
    rw [List.mem_singleton.1 hb] at e
    exact e ▸ ha

/-- Putting an entry changes what is found under its key only. -/
theorem find?_put (k j : κ) (v : α) (l : List (κ × α)) :
    find? j (put k v l) = if k = j then some v else find? j l := by
  induction l with
  | nil => simp [put, find?]
  | cons p rest ih =>
    obtain ⟨k', v'⟩ := p
    by_cases h : k' = k
    · subst h
      by_cases hj : k' = j <;> simp [put, find?, hj]
    · by_cases hj : k' = j
      · subst hj
        simp [put, find?, h, Ne.symm h]
      · simp [put, find?, h, hj, ih]

end Assoc

/-! ## Tables

That names are distinct is carried along by every operation, so no later proof has to keep track of
it. -/

/-- A finite map from names, with its entries in the order in which the names were first entered. -/
structure Table (α : Type) where
  entries : List (String × α)
  nodup : (entries.map Prod.fst).Nodup

namespace Table

variable {α : Type}

def empty : Table α := ⟨[], by simp⟩

instance : Inhabited (Table α) := ⟨empty⟩

/-- The names of a table, in the order of their first entry. -/
def names (t : Table α) : List String := t.entries.map Prod.fst

def size (t : Table α) : Nat := t.entries.length

def get? (t : Table α) (name : String) : Option α := Assoc.find? name t.entries

def contains (t : Table α) (name : String) : Bool := (t.get? name).isSome

/-- Gives `name` the value `v`, where it stands or at the end. -/
def set (t : Table α) (name : String) (v : α) : Table α :=
  ⟨Assoc.put name v t.entries, Assoc.nodup_keys_put t.nodup⟩

/-- Enters `name` only if it is new. -/
def setNew (t : Table α) (name : String) (v : α) : Table α :=
  if t.contains name then t else t.set name v

/-- Drops the entry of `name`. -/
def erase (t : Table α) (name : String) : Table α :=
  ⟨t.entries.filter fun e => decide (e.1 ≠ name),
    t.nodup.sublist (List.filter_sublist.map Prod.fst)⟩

/-- Enters pairs one after the other; of two pairs with one name the later value stays. -/
def ofList (entries : List (String × α)) : Table α :=
  entries.foldl (fun t e => t.set e.1 e.2) empty

@[simp] theorem get?_empty (name : String) : (empty : Table α).get? name = none := rfl

/-- The same of tables. -/
theorem get?_set (t : Table α) (name other : String) (v : α) :
    (t.set name v).get? other = if name = other then some v else t.get? other :=
  Assoc.find?_put name other v t.entries

end Table

end ConstantTime
