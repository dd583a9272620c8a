/-
Looking up names in tables.

A table is a list of entries with distinct names, so an entry can be found by its name and a name
that is found has an entry. The lemmas below let proofs about tables speak of `Table.get?` only,
whatever built the table.
-/
import Mathlib.Data.List.Induction
import ConstantTime.Table

set_option autoImplicit false

namespace ConstantTime

/-! ## Association lists

A key is found at its first entry. If keys are distinct, finding a value and having the entry are
the same. -/

namespace Assoc

variable {κ α : Type} [DecidableEq κ]

/-- What is found is an entry. -/
theorem mem_of_find?_eq_some {k : κ} {v : α} {l : List (κ × α)} (h : find? k l = some v) :
    (k, v) ∈ l := by
  induction l with
  | nil => cases h
  | cons e rest ih =>
    obtain ⟨k', v'⟩ := e
    by_cases hk : k' = k
    · subst hk
      simp only [find?, if_true, Option.some.injEq] at h
      rw [h]
      exact List.mem_cons_self
    · simp only [find?, if_neg hk] at h
      exact List.mem_cons_of_mem _ (ih h)

/-- Nothing is found exactly if the key does not occur. -/
theorem find?_eq_none_iff {k : κ} {l : List (κ × α)} : find? k l = none ↔ k ∉ l.map Prod.fst := by
  induction l with
  | nil => simp [find?]
  | cons e rest ih =>
    obtain ⟨k', v'⟩ := e
    by_cases hk : k' = k
    · simp [find?, hk]
    · simp only [find?, if_neg hk, ih, List.map_cons, List.mem_cons, not_or]
      exact ⟨fun h => ⟨Ne.symm hk, h⟩, And.right⟩

/-- Where keys are distinct, every pair is the one found by its key. -/
theorem find?_eq_some_iff {k : κ} {v : α} {l : List (κ × α)} (hl : (l.map Prod.fst).Nodup) :
    find? k l = some v ↔ (k, v) ∈ l := by
  refine ⟨mem_of_find?_eq_some, fun h => ?_⟩
  induction l with
  | nil => cases h
  | cons e rest ih =>
    obtain ⟨k', v'⟩ := e
    rw [List.map_cons, List.nodup_cons] at hl
    rcases List.mem_cons.1 h with heq | hmem
    · cases heq
      simp [find?]
    · have hk : k' ≠ k := by
        rintro rfl
        exact hl.1 (List.mem_map.2 ⟨_, hmem, rfl⟩)
      simp only [find?, if_neg hk]
      exact ih hl.2 hmem

/-- A new key is added at the end. -/
theorem put_of_not_mem {k : κ} {v : α} {l : List (κ × α)} (h : k ∉ l.map Prod.fst) :
    put k v l = l ++ [(k, v)] := by
  induction l with
  | nil => rfl
  | cons e rest ih =>
    obtain ⟨k', v'⟩ := e
    rw [List.map_cons, List.mem_cons, not_or] at h
    rw [put, if_neg (Ne.symm h.1), ih h.2, List.cons_append]

/-- A list of names with what a function gives for them. -/
theorem find?_map (k : κ) (value : κ → α) (names : List κ) :
    find? k (names.map fun n => (n, value n)) = if k ∈ names then some (value k) else none := by
  induction names with
  | nil => rfl
  | cons n rest ih =>
    rw [List.map_cons, find?, ih]
    by_cases hn : n = k
    · subst hn
      rw [if_pos rfl, if_pos List.mem_cons_self]
    · rw [if_neg hn]
      simp only [List.mem_cons, Ne.symm hn, false_or]

/-- Values may be changed before or after one is looked up. -/
theorem find?_map_value {β : Type} (k : κ) (value : κ → α → β) (l : List (κ × α)) :
    find? k (l.map fun e => (e.1, value e.1 e.2)) = (find? k l).map (value k) := by
  induction l with
  | nil => rfl
  | cons e rest ih =>
    obtain ⟨k', v⟩ := e
    rw [List.map_cons, find?, find?, ih]
    by_cases hk : k' = k
    · rw [if_pos hk, if_pos hk, hk, Option.map_some]
    · rw [if_neg hk, if_neg hk]

/-- Entries may be left out by their keys. -/
theorem find?_filter_key (k : κ) (p : κ → Bool) (l : List (κ × α)) :
    find? k (l.filter fun e => p e.1) = if p k = true then find? k l else none := by
  induction l with
  | nil => simp [find?]
  | cons e rest ih =>
    obtain ⟨k', v⟩ := e
    by_cases hp : p k' = true
    · rw [List.filter_cons, if_pos hp, find?, find?, ih]
      by_cases hk : k' = k
      · rw [if_pos hk, if_pos hk, if_pos (hk ▸ hp)]
      · rw [if_neg hk, if_neg hk]
    · rw [List.filter_cons, if_neg hp, find?, ih]
      by_cases hk : k' = k
      · rw [if_neg (hk ▸ hp), if_neg (hk ▸ hp)]
      · rw [if_neg hk]

/-- Leaving out a key affects no other one. -/
theorem find?_filter (k name : κ) (l : List (κ × α)) :
    find? k (l.filter fun e => decide (e.1 ≠ name)) = if name = k then none else find? k l := by
  rw [find?_filter_key k (fun n => decide (n ≠ name))]
  by_cases hname : name = k
  · rw [if_neg (by simp [hname]), if_pos hname]
  · rw [if_pos (by simp [Ne.symm hname]), if_neg hname]

end Assoc

/-! ## Tables

Tables carry the proof that their names are distinct, so the lemmas hold without a condition. -/

namespace Table

variable {α : Type}

/-- Finding a value is having its entry. -/
theorem get?_eq_some_iff {t : Table α} {name : String} {v : α} :
    t.get? name = some v ↔ (name, v) ∈ t.entries :=
  Assoc.find?_eq_some_iff t.nodup

/-- A name that is not found does not occur. -/
theorem get?_eq_none_iff {t : Table α} {name : String} : t.get? name = none ↔ name ∉ t.names :=
  Assoc.find?_eq_none_iff

theorem exists_get?_of_mem_names {t : Table α} {name : String} (h : name ∈ t.names) :
    ∃ v, t.get? name = some v := by
  cases hv : t.get? name with
  | none => exact absurd h (get?_eq_none_iff.1 hv)
  | some v => exact ⟨v, rfl⟩

theorem get?_erase (t : Table α) (name other : String) :
    (t.erase name).get? other = if name = other then none else t.get? other :=
  Assoc.find?_filter other name t.entries

@[simp] theorem get?_set_self (t : Table α) (name : String) (v : α) :
    (t.set name v).get? name = some v := by
  rw [get?_set, if_pos rfl]

theorem get?_set_of_ne (t : Table α) {name other : String} (v : α) (h : name ≠ other) :
    (t.set name v).get? other = t.get? other := by
  rw [get?_set, if_neg h]

/-- A new name is entered at the end. -/
theorem entries_set_of_not_mem {t : Table α} {name : String} (h : name ∉ t.names) (v : α) :
    (t.set name v).entries = t.entries ++ [(name, v)] := by
  change Assoc.put name v t.entries = _
  exact Assoc.put_of_not_mem h

/-- Entering new names, each once, puts their entries behind the others in the same order. -/
theorem entries_foldl_set {β : Type} (name : β → String) (value : β → α) {xs : List β}
    (hxs : (xs.map name).Nodup) {t : Table α} (ht : ∀ x ∈ xs, name x ∉ t.names) :
    (xs.foldl (fun t x => t.set (name x) (value x)) t).entries = t.entries ++ xs.map fun x =>
      (name x, value x) := by
  induction xs using List.reverseRecOn with
  | nil => rw [List.foldl_nil, List.map_nil, List.append_nil]
  | append_singleton xs x ih =>
    rw [List.map_append, List.nodup_append] at hxs
    have hih := ih hxs.1 fun y hy => ht y (List.mem_append_left [x] hy)
    -- the last name is neither among the old ones nor among those just entered
    have hnew : name x ∉ (xs.foldl (fun t x => t.set (name x) (value x)) t).names := by
      rw [names, hih, List.map_append, List.mem_append, List.map_map]
      rintro (hold | hearlier)
      · exact ht x (List.mem_append_right xs (List.mem_singleton.2 rfl)) hold
      · exact hxs.2.2 (name x) hearlier (name x) (List.mem_singleton.2 rfl) rfl
    rw [List.foldl_append, List.foldl_cons, List.foldl_nil, entries_set_of_not_mem hnew, hih,
      List.map_append, List.append_assoc]
    rfl

theorem entries_setNew_of_not_mem {t : Table α} {name : String} (h : name ∉ t.names) (v : α) :
    (t.setNew name v).entries = t.entries ++ [(name, v)] := by
  rw [setNew, contains, get?_eq_none_iff.2 h, Option.isSome_none, if_neg Bool.false_ne_true,
    entries_set_of_not_mem h]

/-- Entering those of a list that have a name, where all names are new, puts their entries behind
the others. -/
theorem entries_foldl_setNew {β : Type} (name : β → Option String) (value : β → α) {xs : List β}
    {t : Table α} (h : (t.names ++ xs.filterMap name).Nodup) :
    (xs.foldl (fun t x => match name x with
      | some n => t.setNew n (value x)
      | none => t) t).entries = t.entries ++ xs.filterMap fun x => (name x).map fun n =>
        (n, value x) := by
  induction xs using List.reverseRecOn with
  | nil => rw [List.filterMap_nil, List.append_nil, List.foldl_nil]
  | append_singleton xs x ih =>
    rw [List.filterMap_append, ← List.append_assoc] at h
    obtain ⟨hbefore, -, hnew⟩ := List.nodup_append.1 h
    have hih := ih hbefore
    rw [List.foldl_append, List.foldl_cons, List.foldl_nil, List.filterMap_append,
      ← List.append_assoc, ← hih]
    cases hx : name x with
    | none =>
      -- without a name nothing is entered
      rw [List.filterMap_cons_none (by rw [hx, Option.map_none]), List.filterMap_nil,
        List.append_nil]
    | some n =>
      have hn : n ∉ (xs.foldl (fun t x => match name x with
          | some n => t.setNew n (value x)
          | none => t) t).names := by
        rw [List.filterMap_cons_some hx] at hnew
        intro hmem
        apply hnew n ?_ n List.mem_cons_self rfl
        rw [names, hih] at hmem
        simpa [names] using hmem
      rw [List.filterMap_cons_some (by rw [hx, Option.map_some]), List.filterMap_nil]
      exact entries_setNew_of_not_mem hn (value x)

end Table

end ConstantTime
