/-
The ranks of tables of values and of memory states.

A value without an entry is public, and so is a location that was never written. Seen through
ranks, the operations on memory states are those on functions from names: storing and clearing
change the rank at one name, joining takes the higher rank at every name, and a state improves on
another when it is higher at some name. The last two need coherent taints. Then joining is even
exact: every location holds the join of what it holds in both states, chain and all.
-/
import Mathlib.Order.MinMax
import Mathlib.Logic.Function.Basic
import ConstantTime.Taint.Transfer
import ConstantTime.Proofs.Joins
import ConstantTime.Proofs.Tables

set_option autoImplicit false

namespace ConstantTime

/-- Ranks of values or of memory cells, by name. -/
abbrev Ranks := String → Rank

/-! ## The ranks of tables and memory states

Tables and memory states are seen as functions from names to ranks. For each operation there are
two lemmas: it keeps coherence, and what it does to the ranks. -/

namespace Table

/-- Every entry is coherent. -/
def Coherent (t : Table Taint) : Prop := ∀ v x, t.get? v = some x → x.Coherent

/-- The ranks of values; one without an entry is public. -/
def ranks (t : Table Taint) : Ranks := fun v => (Taint.ofValue t v).rank

theorem ranks_of_get?_eq_some {t : Table Taint} {v : String} {x : Taint} (h : t.get? v = some x) :
    t.ranks v = x.rank := by
  rw [ranks, Taint.ofValue, h, Option.getD_some]

/-- A name without an entry is public. -/
theorem ranks_of_get?_eq_none {t : Table Taint} {v : String} (h : t.get? v = none) :
    t.ranks v = .pub := by
  rw [ranks, Taint.ofValue, h, Option.getD_none, Taint.rank_pub]

/-- What is looked up is coherent, also where nothing is found. -/
theorem Coherent.ofValue {t : Table Taint} (ht : t.Coherent) (v : String) :
    (Taint.ofValue t v).Coherent := by
  cases hv : t.get? v with
  | none =>
    rw [Taint.ofValue, hv]
    exact Taint.coherent_pub
  | some x =>
    rw [Taint.ofValue, hv]
    exact ht v x hv

theorem coherent_empty : (Table.empty : Table Taint).Coherent := by
  intro v x h
  cases h

theorem Coherent.set {t : Table Taint} (ht : t.Coherent) {v : String} {x : Taint}
    (hx : x.Coherent) :
    (t.set v x).Coherent := by
  intro w y h
  rw [get?_set] at h
  split at h
  · cases h
    exact hx
  · exact ht w y h

/-- An entry changes one rank. -/
theorem ranks_set (t : Table Taint) (v : String) (x : Taint) :
    (t.set v x).ranks = Function.update t.ranks v x.rank := by
  funext w
  by_cases hw : w = v
  · subst hw
    rw [Function.update_self, ranks_of_get?_eq_some (get?_set_self t w x)]
  · rw [Function.update_of_ne hw, ranks, ranks, Taint.ofValue, Taint.ofValue,
      get?_set_of_ne t x (Ne.symm hw)]

end Table

namespace Memory

/-- Every cell is coherent. -/
def Coherent (m : Memory) : Prop := m.cells.Coherent

/-- The ranks of all locations; one that was never written is public. -/
def ranks (m : Memory) : Ranks := m.cells.ranks

theorem coherent_empty : Memory.empty.Coherent := Table.coherent_empty

theorem ranks_eq (m : Memory) (l : String) : m.ranks l = (m.read l).rank := rfl

theorem Coherent.read {m : Memory} (hm : m.Coherent) (l : String) :
    (m.read l).Coherent := Table.Coherent.ofValue hm l

theorem Coherent.store {m : Memory} (hm : m.Coherent) {l : String} {t : Taint} (ht : t.Coherent) :
    (m.store l t).Coherent := Table.Coherent.set hm ht

/-- So does a store. -/
theorem ranks_store (m : Memory) (l : String) (t : Taint) :
    (m.store l t).ranks = Function.update m.ranks l t.rank :=
  Table.ranks_set m.cells l t

theorem Coherent.clear {m : Memory} (hm : m.Coherent) (l : String) : (m.clear l).Coherent := by
  intro w y h
  change (m.cells.erase l).get? w = some y at h
  rw [Table.get?_erase] at h
  split at h
  · cases h
  · exact hm w y h

/-- Clearing makes a cell public, whether it was written or not. -/
theorem ranks_clear (m : Memory) (l : String) :
    (m.clear l).ranks = Function.update m.ranks l .pub := by
  funext w
  have hget : (m.clear l).cells.get? w = if l = w then none else m.cells.get? w :=
    Table.get?_erase m.cells l w
  by_cases hw : w = l
  · subst hw
    rw [if_pos rfl] at hget
    rw [Function.update_self, ranks, Table.ranks_of_get?_eq_none hget]
  · rw [if_neg (Ne.symm hw)] at hget
    rw [Function.update_of_ne hw, ranks, ranks, Table.ranks, Table.ranks, Taint.ofValue,
      Taint.ofValue, hget]

/-! ### Joining memory states

One state is joined into the other cell by cell. The names of a table are distinct, so each cell of
the result is joined once. -/

/-- Joining into a cell keeps coherence. -/
theorem Coherent.joinCell {m : Memory} (hm : m.Coherent) {c : String × Taint} (hc : c.2.Coherent) :
    (m.joinCell c).Coherent := by
  unfold Memory.joinCell
  split
  · next t ht => exact hm.store (Taint.coherent_join (hm c.1 t ht) hc)
  · exact hm.store hc

/-- Also of many cells, one after the other. -/
theorem Coherent.foldl_joinCell {m : Memory} (hm : m.Coherent) {cells : List (String × Taint)}
    (hcells : ∀ c ∈ cells, c.2.Coherent) : (cells.foldl Memory.joinCell m).Coherent := by
  induction cells generalizing m with
  | nil => exact hm
  | cons c rest ih =>
    exact ih (hm.joinCell (hcells c List.mem_cons_self)) fun x hx =>
      hcells x (List.mem_cons_of_mem _ hx)

theorem Coherent.of_mem_entries {m : Memory} (hm : m.Coherent) {c : String × Taint}
    (hc : c ∈ m.cells.entries) :
    c.2.Coherent :=
  hm c.1 c.2 (Table.get?_eq_some_iff.2 hc)

/-- And so of whole states. -/
theorem Coherent.join {m n : Memory} (hm : m.Coherent) (hn : n.Coherent) : (m.join n).Coherent :=
  hm.foldl_joinCell fun _ hc => hn.of_mem_entries hc

/-- Joining a cell changes what is read there to the join. -/
theorem read_joinCell (m : Memory) {cell : String × Taint} (hcell : cell.2.Coherent) (l : String) :
    (m.joinCell cell).read l = if cell.1 = l then (m.read l).join cell.2 else m.read l := by
  -- a cell that is not there reads as public, which joins in without a trace
  have hstore : m.joinCell cell = m.store cell.1 ((m.read cell.1).join cell.2) := by
    unfold joinCell
    split
    · next t ht => rw [read, ht, Option.getD_some]
    · next hnone => rw [read, hnone, Option.getD_none, Taint.pub_join hcell]
  rw [hstore, read, store, Table.get?_set]
  by_cases hname : cell.1 = l
  · rw [if_pos hname, if_pos hname, hname, Option.getD_some]
  · rw [if_neg hname, if_neg hname, read]

/-- Of cells with different names, the one with the name of a location is joined to what the
location holds. -/
theorem read_foldl_joinCell {m : Memory} (hm : m.Coherent) {cells : List (String × Taint)}
    (hcells : ∀ c ∈ cells, c.2.Coherent) (hnodup : (cells.map Prod.fst).Nodup) (l : String) :
    (cells.foldl joinCell m).read l = (m.read l).join ((Assoc.find? l cells).getD .pub) := by
  induction cells generalizing m with
  | nil => exact (Taint.join_pub (hm.read l)).symm
  | cons cell rest ih =>
    obtain ⟨name, t⟩ := cell
    obtain ⟨ht, hrest⟩ := List.forall_mem_cons.1 hcells
    rw [List.map_cons, List.nodup_cons] at hnodup
    rw [List.foldl_cons, ih (hm.joinCell ht) hrest hnodup.2, read_joinCell m ht, Assoc.find?]
    by_cases hname : name = l
    · -- no further cell has the name
      subst hname
      rw [if_pos rfl, if_pos rfl, Assoc.find?_eq_none_iff.2 hnodup.1]
      exact Taint.join_pub (Taint.coherent_join (hm.read name) ht)
    · rw [if_neg hname, if_neg hname]

/-- Where ways meet, every location holds the join of what it holds on both. -/
theorem read_join {m n : Memory} (hm : m.Coherent) (hn : n.Coherent) (l : String) :
    (m.join n).read l = (m.read l).join (n.read l) :=
  read_foldl_joinCell hm (fun _ hc => hn.of_mem_entries hc) n.cells.nodup l

/-- Where ways meet, every location has the higher of its two ranks. -/
theorem ranks_join {m n : Memory} (hm : m.Coherent) (hn : n.Coherent) (l : String) :
    (m.join n).ranks l = max (m.ranks l) (n.ranks l) := by
  rw [ranks_eq, read_join hm hn, Taint.rank_join (hm.read l) (hn.read l), ranks_eq, ranks_eq]

/-- A coherent state improves on another exactly when some location ranks higher in it. -/
theorem improvesOn_iff {m old : Memory} (hm : m.Coherent) (hold : old.Coherent) :
    m.improvesOn old = true ↔ ∃ l, old.ranks l < m.ranks l := by
  rw [improvesOn, List.any_eq_true]
  constructor
  · rintro ⟨⟨l, t⟩, hc, himp⟩
    rw [Taint.improves_iff (hold.read l) (hm.of_mem_entries hc)] at himp
    refine ⟨l, ?_⟩
    rw [ranks_eq old, ranks, Table.ranks_of_get?_eq_some (Table.get?_eq_some_iff.2 hc)]
    exact himp
  · rintro ⟨l, hl⟩
    cases ht : m.cells.get? l with
    | none =>
      rw [ranks, ranks, Table.ranks_of_get?_eq_none ht] at hl
      exact absurd hl (not_lt.2 (Rank.pub_le _))
    | some t =>
      have hc := Table.get?_eq_some_iff.1 ht
      refine ⟨(l, t), hc, ?_⟩
      rw [Taint.improves_iff (hold.read l) (hm.of_mem_entries hc)]
      rw [ranks_eq old, ranks, Table.ranks_of_get?_eq_some ht] at hl
      exact hl

end Memory

end ConstantTime
