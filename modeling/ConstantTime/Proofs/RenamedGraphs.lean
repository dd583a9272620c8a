/-
Searching a graph with other names for its nodes.

No search looks at a name except to compare it with another one. So an injective renaming of the
nodes goes through every search: what is found in the renamed graph is what is found in the graph,
renamed, and in the same order. The lemmas follow the definitions of the searches, from looking up
a key to the dominance tree.
-/
import Mathlib.Data.List.Basic
import Mathlib.Logic.Function.Basic
import ConstantTime.Graph.Dominance
import ConstantTime.Graph.PostOrder

set_option autoImplicit false

namespace ConstantTime

variable {α β γ δ : Type} [DecidableEq α] [DecidableEq β] {σ : α → β}

/-! ## Keys

Comparing two names gives the same before and after an injective renaming. Everything else in this
module comes down to that. -/

theorem decide_mem_map (hσ : Function.Injective σ) (x : α) (l : List α) :
    decide (σ x ∈ l.map σ) = decide (x ∈ l) := by
  rw [decide_eq_decide, List.mem_map_of_injective hσ]

/-- The first occurrences in a list stay the first. -/
theorem distinct_map (hσ : Function.Injective σ) (l : List α) :
    distinct (l.map σ) = (distinct l).map σ := by
  induction l with
  | nil => rfl
  | cons x l ih =>
    rw [List.map_cons, distinct, distinct, ih, List.filter_map, List.map_cons]
    simp only [Function.comp_def, hσ.ne_iff]

namespace Assoc

/-- A list of pairs with other keys and values. -/
theorem find?_map_keys (hσ : Function.Injective σ) (g : γ → δ) (k : α) (l : List (α × γ)) :
    find? (σ k) (l.map (Prod.map σ g)) = (find? k l).map g := by
  induction l with
  | nil => rfl
  | cons e l ih =>
    obtain ⟨k', v⟩ := e
    simp only [List.map_cons, Prod.map_apply, find?, ih, hσ.eq_iff]
    split <;> rfl

/-- An entry is put where it was put before. -/
theorem put_map_keys (hσ : Function.Injective σ) (g : γ → δ) (k : α) (v : γ) (l : List (α × γ)) :
    put (σ k) (g v) (l.map (Prod.map σ g)) = (put k v l).map (Prod.map σ g) := by
  induction l with
  | nil => rfl
  | cons e l ih =>
    obtain ⟨k', v'⟩ := e
    simp only [List.map_cons, Prod.map_apply, put, ih, hσ.eq_iff]
    split <;> rfl

end Assoc

/-! ## Searches

A renamed graph lists its nodes and edges in the old order, so a search takes the same steps. -/

namespace Digraph

/-- The graph with other names for its nodes. -/
def rename (σ : α → β) (d : Digraph α) : Digraph β := ⟨d.adj.map (Prod.map σ (List.map σ))⟩

variable (hσ : Function.Injective σ)

omit [DecidableEq α] [DecidableEq β] in
theorem nodes_rename (σ : α → β) (d : Digraph α) : (d.rename σ).nodes = d.nodes.map σ := by
  simp only [nodes, rename, List.map_map]
  rfl

omit [DecidableEq α] [DecidableEq β] in
theorem flatMap_snd_rename (σ : α → β) (d : Digraph α) :
    (d.rename σ).adj.flatMap Prod.snd = (d.adj.flatMap Prod.snd).map σ := by
  rw [rename, List.flatMap_map, List.map_flatMap]
  rfl

omit [DecidableEq α] [DecidableEq β] in
/-- The bound on the steps of a search is the same. -/
theorem size_rename (σ : α → β) (d : Digraph α) : (d.rename σ).size = d.size := by
  rw [size, size, flatMap_snd_rename, List.length_map]

include hσ

theorem succs_rename (d : Digraph α) (n : α) : (d.rename σ).succs (σ n) = (d.succs n).map σ := by
  rw [succs, rename, Assoc.find?_map_keys hσ, succs]
  cases Assoc.find? n d.adj <;> rfl

/-- Predecessors are listed in the order in which the nodes are. -/
theorem preds_rename (d : Digraph α) (n : α) : (d.rename σ).preds (σ n) = (d.preds n).map σ := by
  rw [preds, rename, List.filter_map, preds, List.map_map, List.map_map]
  simp only [Function.comp_def, Prod.map_snd, Prod.map_fst, decide_mem_map hσ]

/-- Nodes that only occur as targets are renamed as well. -/
theorem everyNode_rename (d : Digraph α) : (d.rename σ).everyNode = d.everyNode.map σ := by
  rw [everyNode, nodes_rename, flatMap_snd_rename, ← List.map_append, distinct_map hσ, everyNode]

/-- Edges may be turned before or after the renaming. -/
theorem flip_rename (d : Digraph α) : (d.rename σ).flip = d.flip.rename σ := by
  rw [flip, everyNode_rename hσ, List.map_map]
  simp only [Function.comp_def, preds_rename hσ]
  rw [flip, rename, List.map_map]
  rfl

/-- And nodes may be left out before or after it. -/
theorem without_rename (d : Digraph α) (avoid : List α) :
    (d.rename σ).without (avoid.map σ) = (d.without avoid).rename σ := by
  simp only [without, rename, List.filter_map, List.map_map, Function.comp_def, Prod.map_fst,
    Prod.map_snd, Prod.map_apply, List.mem_map_of_injective hσ]

/-- The search meets the renamed nodes in the old order. -/
theorem spread_rename (d : Digraph α) (steps : Nat) (queue seen : List α) :
    (d.rename σ).spread steps (queue.map σ) (seen.map σ) = (d.spread steps queue seen).map σ := by
  induction steps generalizing queue seen with
  | zero => rfl
  | succ steps ih =>
    cases queue with
    | nil => rfl
    | cons n queue =>
      simp only [List.map_cons, spread, List.mem_map_of_injective hσ]
      split
      · exact ih queue seen
      · rw [← ih, List.map_append, List.map_append, succs_rename hσ, List.map_singleton]

/-- What can be reached, in the order in which it is met. -/
theorem reach_rename (d : Digraph α) (starts : List α) :
    (d.rename σ).reach (starts.map σ) = (d.reach starts).map σ := by
  rw [reach, reach, size_rename, List.length_map]
  exact spread_rename hσ d _ starts []

/-- The same of a search that keeps off some nodes. -/
theorem reachAvoiding_rename (d : Digraph α) (starts avoid : List α) :
    (d.rename σ).reachAvoiding (starts.map σ) (avoid.map σ) =
      (d.reachAvoiding starts avoid).map σ := by
  rw [reachAvoiding, reachAvoiding, without_rename hσ, List.filter_map, reach_rename hσ]
  simp only [Function.comp_def, List.mem_map_of_injective hσ]

/-! ## Depth-first search

The state of the search is renamed as a whole. Since a step commutes with the renaming, the whole
search does. -/

omit hσ in
/-- A search with other names for the nodes. -/
def Descent.rename (σ : α → β) (s : Descent α) : Descent β :=
  ⟨s.visits.map (Prod.map σ (List.map σ)), s.met.map σ, s.finished.map σ⟩

theorem Descent.meet_rename (d : Digraph α) (n : α) (s : Descent α) :
    (s.rename σ).meet (d.rename σ) (σ n) = (s.meet d n).rename σ := by
  simp only [meet, rename, succs_rename hσ, List.map_cons, List.map_append, List.map_nil,
    Prod.map_apply]

/-- A step meets a node that is new, and a renamed node is new exactly if the node was. -/
theorem Descent.step_rename (d : Digraph α) (n : α) (left : List α) (rest : List (α × List α))
    (s : Descent α) :
    (s.rename σ).step (d.rename σ) (σ n) (left.map σ) (rest.map (Prod.map σ (List.map σ))) =
      (s.step d n left rest).rename σ := by
  cases left with
  | nil => rfl
  | cons m left =>
    have hmeet := Descent.meet_rename hσ d m { s with visits := (n, left) :: rest }
    have hmem : σ m ∈ (s.rename σ).met ↔ m ∈ s.met := List.mem_map_of_injective hσ
    simp only [List.map_cons, step, hmem]
    split
    · rfl
    · exact hmeet

/-- So the searches stay in step until both are over. -/
theorem Descent.settle_rename (d : Digraph α) (steps : Nat) (s : Descent α) :
    (s.rename σ).settle (d.rename σ) steps = (s.settle d steps).rename σ := by
  induction steps generalizing s with
  | zero => rfl
  | succ steps ih =>
    obtain ⟨visits, met, finished⟩ := s
    cases visits with
    | nil => rfl
    | cons v rest =>
      obtain ⟨n, left⟩ := v
      have hstep := Descent.step_rename hσ d n left rest ⟨(n, left) :: rest, met, finished⟩
      have hnext := ih (Descent.step d n left rest ⟨(n, left) :: rest, met, finished⟩)
      rw [← hstep] at hnext
      exact hnext

/-- The nodes finish in the same order. -/
theorem reversePostOrder_rename (d : Digraph α) (root : α) :
    (d.rename σ).reversePostOrder (σ root) = (d.reversePostOrder root).map σ := by
  have hstart := Descent.meet_rename hσ d root Descent.start
  have hsettle := Descent.settle_rename hσ d (2 * d.size + 1) (Descent.start.meet d root)
  rw [← hstart] at hsettle
  rw [reversePostOrder, size_rename]
  exact congrArg Descent.finished hsettle

end Digraph

/-! ## Dominance

The iteration for dominators compares names and places in the order. The places do not change at
all. -/

/-- A line of the renamed tree is the renamed line. -/
theorem climb_rename (hσ : Function.Injective σ) (parents : List (α × α)) (steps : Nat) (n : α) :
    climb (parents.map (Prod.map σ σ)) steps (σ n) = (climb parents steps n).map (List.map σ) := by
  induction steps generalizing n with
  | zero => rfl
  | succ steps ih =>
    rw [climb, Assoc.find?_map_keys hσ, climb]
    cases Assoc.find? n parents with
    | none => rfl
    | some p =>
      simp only [Option.map_some, hσ.eq_iff, ih, Option.map_map]
      split
      · rfl
      · rw [Option.map_map]
        rfl

namespace Dominance

/-- The tree with other names for its nodes. -/
def rename (hσ : Function.Injective σ) (t : Dominance α) : Dominance β where
  parents := t.parents.map (Prod.map σ σ)
  rooted := by
    intro e he
    obtain ⟨e', he', rfl⟩ := List.mem_map.1 he
    rw [List.length_map, Prod.map_fst, climb_rename hσ, Option.isSome_map]
    exact t.rooted e' he'

variable (hσ : Function.Injective σ)

theorem dominators_rename (t : Dominance α) (b : α) :
    (t.rename hσ).dominators (σ b) = (t.dominators b).map σ := by
  have hlength : (t.rename hσ).parents.length = t.parents.length := List.length_map _
  rw [dominators, hlength, rename, climb_rename hσ, dominators]
  cases climb t.parents t.parents.length b <;> rfl

/-- Dominance itself does not depend on names. -/
theorem dominates_rename (t : Dominance α) (a b : α) :
    (t.rename hσ).dominates (σ a) (σ b) = t.dominates a b := by
  rw [dominates, dominators_rename, decide_mem_map hσ, dominates]

/-- The immediate dominator is the renamed one. -/
theorem immediate?_rename (t : Dominance α) (b : α) :
    (t.rename hσ).immediate? (σ b) = (t.immediate? b).map σ := by
  rw [immediate?, rename, Assoc.find?_map_keys hσ, immediate?]
  cases Assoc.find? b t.parents with
  | none => rfl
  | some p =>
    simp only [Option.map_some, hσ.eq_iff]
    split <;> rfl

include hσ

/-- A node keeps its number. -/
theorem idxOf_map (order : List α) (n : α) : (order.map σ).idxOf (σ n) = order.idxOf n := by
  induction order with
  | nil => rfl
  | cons m order ih =>
    rw [List.map_cons, List.idxOf_cons, List.idxOf_cons, ih]
    by_cases h : m = n
    · rw [h, beq_self_eq_true, beq_self_eq_true]
    · have hσmn : (σ m == σ n) = false := beq_eq_false_iff_ne.2 (hσ.ne h)
      rw [hσmn, beq_eq_false_iff_ne.2 h]

/-- Lines meet at the renamed node. -/
theorem meet?_rename (order : List α) (parents : List (α × α)) (steps : Nat) (a b : α) :
    meet? (order.map σ) (parents.map (Prod.map σ σ)) steps (σ a) (σ b) =
      (meet? order parents steps a b).map σ := by
  induction steps generalizing a b with
  | zero => rfl
  | succ steps ih =>
    simp only [meet?, hσ.eq_iff, idxOf_map hσ, Assoc.find?_map_keys hσ]
    split
    · rfl
    · split
      · cases Assoc.find? a parents with
        | none => rfl
        | some p => exact ih p b
      · split
        · cases Assoc.find? b parents with
          | none => rfl
          | some p => exact ih a p
        · rfl

/-- So do more than two. -/
theorem meetAll?_rename (order : List α) (parents : List (α × α)) (first : α) (others : List α) :
    meetAll? (order.map σ) (parents.map (Prod.map σ σ)) (σ first) (others.map σ) =
      (meetAll? order parents first others).map σ := by
  induction others generalizing first with
  | nil => rfl
  | cons other rest ih =>
    rw [List.map_cons, meetAll?, List.length_map, meet?_rename hσ, meetAll?]
    cases meet? order parents (2 * order.length) other first with
    | none => rfl
    | some c => exact ih c

variable {preds : α → List α} {preds' : β → List β} (hpreds : ∀ n, preds' (σ n) = (preds n).map σ)

include hpreds

/-- A visit gives the renamed node the renamed parent. -/
theorem visit?_rename (order : List α) (parents : List (α × α)) (n : α) :
    visit? (order.map σ) preds' (parents.map (Prod.map σ σ)) (σ n) =
      (visit? order preds parents n).map (Option.map σ) := by
  rw [visit?, hpreds, List.filter_map, visit?]
  simp only [Function.comp_def, Assoc.find?_map_keys hσ, Option.isSome_map]
  cases (preds n).filter fun p => (Assoc.find? p parents).isSome with
  | nil => rfl
  | cons first rest =>
    simp only [List.map_cons, meetAll?_rename hσ, Option.map_map]
    rfl

/-- A pass changes something in both trees or in neither. -/
theorem pass?_rename (order ns : List α) (parents : List (α × α)) :
    pass? (order.map σ) preds' (ns.map σ) (parents.map (Prod.map σ σ)) =
      (pass? order preds ns parents).map (Prod.map (List.map (Prod.map σ σ)) id) := by
  induction ns generalizing parents with
  | nil => rfl
  | cons n rest ih =>
    rw [List.map_cons, pass?, visit?_rename hσ hpreds, pass?]
    cases visit? order preds parents n with
    | none => rfl
    | some found =>
      cases found with
      | none => exact ih parents
      | some p =>
        have hfound : Assoc.find? (σ n) (parents.map (Prod.map σ σ)) = some (σ p) ↔
            Assoc.find? n parents = some p := by
          rw [Assoc.find?_map_keys hσ, ← Option.map_some, (Option.map_injective hσ).eq_iff]
        simp only [Option.map_some, hfound, ih, Assoc.put_map_keys hσ, Option.map_map]
        split
        · rfl
        · rw [Option.map_map]
          rfl

/-- So both iterations take the same number of passes. -/
theorem settle?_rename (order : List α) (passes : Nat) (parents : List (α × α)) :
    settle? (order.map σ) preds' passes (parents.map (Prod.map σ σ)) =
      (settle? order preds passes parents).map (List.map (Prod.map σ σ)) := by
  induction passes generalizing parents with
  | zero => rfl
  | succ passes ih =>
    rw [settle?, ← List.map_tail, pass?_rename hσ hpreds, settle?]
    cases pass? order preds order.tail parents with
    | none => rfl
    | some result =>
      obtain ⟨next, changed⟩ := result
      cases changed
      · rfl
      · exact ih next

/-- The tree of the renamed graph is the tree of the graph, renamed. -/
theorem grow?_rename (order : List α) (root : α) :
    grow? (order.map σ) preds' (σ root) = (grow? order preds root).map (rename hσ) := by
  have hsettle : settle? (order.map σ) preds' (order.length + 1) [(σ root, σ root)] =
      (settle? order preds (order.length + 1) [(root, root)]).map (List.map (Prod.map σ σ)) :=
    settle?_rename hσ hpreds order (order.length + 1) [(root, root)]
  rw [grow?, List.length_map, hsettle, grow?]
  cases settle? order preds (order.length + 1) [(root, root)] with
  | none => rfl
  | some parents =>
    have hrooted :
        (∀ e ∈ parents.map (Prod.map σ σ), (climb (parents.map (Prod.map σ σ))
          (parents.map (Prod.map σ σ)).length e.1).isSome = true) ↔
        ∀ e ∈ parents, (climb parents parents.length e.1).isSome = true := by
      rw [List.forall_mem_map, List.length_map]
      simp only [Prod.map_fst, climb_rename hσ, Option.isSome_map]
    dsimp only [Option.map_some]
    by_cases h : ∀ e ∈ parents, (climb parents parents.length e.1).isSome = true
    · rw [dif_pos h, dif_pos (hrooted.2 h)]
      rfl
    · rw [dif_neg h, dif_neg fun h' => h (hrooted.1 h')]
      rfl

end Dominance

end ConstantTime
