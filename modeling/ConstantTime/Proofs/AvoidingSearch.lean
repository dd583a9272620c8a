/-
Searches around certain nodes.

A search that avoids some nodes is a search of the graph without them, and a search backwards is
one of the graph with its edges turned around. Both graphs are described here by their edges. What
a search finds is therefore settled by the edges of the graph, whatever the order in which its
lines and the successors in them are listed.
-/
import ConstantTime.Proofs.Flow

set_option autoImplicit false

namespace ConstantTime.Digraph

variable {α : Type} [DecidableEq α] {d d' : Digraph α}

/-! ## The graph without some nodes

Edges from and to the nodes that are left out are gone, and all others stay. -/

/-- An edge must have neither end among the nodes that are left out. -/
theorem edge_without_iff {avoid : List α} {a b : α} :
    (d.without avoid).Edge a b ↔ d.Edge a b ∧ a ∉ avoid ∧ b ∉ avoid := by
  have hfind :=
    Assoc.find?_map_value a (fun _ (ss : List α) => ss.filter fun n => decide (n ∉ avoid))
    (d.adj.filter fun e => decide (e.1 ∉ avoid))
  rw [Assoc.find?_filter_key a (fun n => decide (n ∉ avoid))] at hfind
  rw [Edge, Edge, succs, without, hfind, succs]
  by_cases ha : a ∈ avoid
  · simp [ha]
  · cases Assoc.find? a d.adj with
    | none => simp
    | some ss => simp [ha, List.mem_filter]

/-- **Searching around some nodes** is reachability in the graph without them. -/
theorem mem_reachAvoiding_iff {starts avoid : List α} {x : α} :
    x ∈ d.reachAvoiding starts avoid ↔ ∃ s ∈ starts, s ∉ avoid ∧ (d.without avoid).Reaches s x := by
  rw [reachAvoiding, mem_reach_iff]
  simp only [List.mem_filter, decide_eq_true_iff, and_assoc]

/-- Edges may be left out by the nodes that they lead to. -/
theorem edge_filter_iff {keep : List α} {a b : α} :
    Edge ⟨d.adj.map fun e => (e.1, e.2.filter fun n => decide (n ∈ keep))⟩ a b ↔
      d.Edge a b ∧ b ∈ keep := by
  have hfind :=
    Assoc.find?_map_value a (fun _ (ss : List α) => ss.filter fun n => decide (n ∈ keep)) d.adj
  rw [Edge, Edge, succs, hfind, succs]
  cases Assoc.find? a d.adj with
  | none => simp
  | some ss => simp [List.mem_filter]

/-! ## The graph turned around -/

/-- If no node is listed twice, turning the graph around turns each edge around. -/
theorem edge_flip_iff (hd : d.nodes.Nodup) {a b : α} : d.flip.Edge a b ↔ d.Edge b a := by
  rw [← mem_preds_iff hd, Edge, succs, flip, Assoc.find?_map a d.preds]
  by_cases ha : a ∈ d.everyNode
  · rw [if_pos ha, Option.getD_some]
  · rw [if_neg ha, Option.getD_none]
    refine iff_of_false List.not_mem_nil fun hb => ha ?_
    -- a node with a predecessor is in the line of that predecessor
    obtain ⟨e, he, -⟩ := List.mem_map.1 hb
    obtain ⟨he, hae⟩ := List.mem_filter.1 he
    exact mem_distinct.2
      (List.mem_append_right _ (List.mem_flatMap.2 ⟨e, he, of_decide_eq_true hae⟩))

/-! ## Graphs with the same edges

A search finds the same nodes in both graphs, in some order. -/

/-- The graphs have the same edges. -/
def SameEdges (d d' : Digraph α) : Prop := ∀ a b, d'.Edge a b ↔ d.Edge a b

namespace SameEdges

/-- The same edges lead to the same nodes. -/
theorem reaches_iff (h : d.SameEdges d') {a b : α} : d'.Reaches a b ↔ d.Reaches a b := by
  have hedge : d'.Edge = d.Edge := funext₂ fun a b => propext (h a b)
  rw [Reaches, Reaches, hedge]

theorem without (h : d.SameEdges d') (avoid : List α) :
    (d.without avoid).SameEdges (d'.without avoid) := fun a b => by
  rw [edge_without_iff, edge_without_iff, h a b]

theorem flip (h : d.SameEdges d') (hd : d.nodes.Nodup) (hd' : d'.nodes.Nodup) :
    d.flip.SameEdges d'.flip := fun a b => by
  rw [edge_flip_iff hd, edge_flip_iff hd', h b a]

/-- The same nodes are found from the same starts. -/
theorem mem_reachAvoiding_iff (h : d.SameEdges d') {starts starts' : List α}
    (hstarts : ∀ s, s ∈ starts' ↔ s ∈ starts) {avoid : List α} {x : α} :
    x ∈ d'.reachAvoiding starts' avoid ↔ x ∈ d.reachAvoiding starts avoid := by
  rw [Digraph.mem_reachAvoiding_iff, Digraph.mem_reachAvoiding_iff]
  simp only [hstarts, (h.without avoid).reaches_iff]

end SameEdges

end ConstantTime.Digraph
