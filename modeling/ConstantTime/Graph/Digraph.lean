/-
Finite directed graphs and searching them.

A graph is the list of its nodes with their successors. A successor that is not itself listed is a
leaf. The one search is breadth first: `reach` lists what can be reached from some nodes in the
order of discovery, and `reachAvoiding` does so on the graph without certain nodes. Searching
backwards is searching the flipped graph.

The search carries a bound on its steps. A step takes one node off the queue; it either drops a
node that was seen before or replaces it by its successors, which happens once per node. So the
number of start nodes plus the number of edges is always enough.
-/
import ConstantTime.Table

set_option autoImplicit false

namespace ConstantTime

/-- A finite directed graph, as the list of its nodes with their successors. -/
structure Digraph (α : Type) where
  adj : List (α × List α)

namespace Digraph

variable {α : Type} [DecidableEq α]

def nodes (d : Digraph α) : List α := d.adj.map Prod.fst

/-- The successors of a node; a node that is not listed has none. -/
def succs (d : Digraph α) (n : α) : List α := (Assoc.find? n d.adj).getD []

/-- The nodes with an edge to `n`, in the order of the list. -/
def preds (d : Digraph α) (n : α) : List α := (d.adj.filter fun e => decide (n ∈ e.2)).map Prod.fst

/-- The number of edges. -/
def size (d : Digraph α) : Nat := (d.adj.flatMap Prod.snd).length

/-- All nodes, listed or leaves. -/
def everyNode (d : Digraph α) : List α := distinct (d.nodes ++ d.adj.flatMap Prod.snd)

/-- The graph with all edges turned around. -/
def flip (d : Digraph α) : Digraph α := ⟨d.everyNode.map fun n => (n, d.preds n)⟩

/-- The graph without the nodes of `avoid`. -/
def without (d : Digraph α) (avoid : List α) : Digraph α :=
  ⟨(d.adj.filter fun e => decide (e.1 ∉ avoid)).map fun e =>
    (e.1, e.2.filter fun n => decide (n ∉ avoid))⟩

/-- Searches on from a queue of nodes, with `seen` in the order of discovery. -/
def spread (d : Digraph α) : Nat → List α → List α → List α
  | 0, _, seen => seen
  | _ + 1, [], seen => seen
  | steps + 1, n :: queue, seen =>
    if n ∈ seen then d.spread steps queue seen
    else d.spread steps (queue ++ d.succs n) (seen ++ [n])

/-- The nodes that can be reached from `starts`, in the order of discovery. -/
def reach (d : Digraph α) (starts : List α) : List α :=
  d.spread (starts.length + d.size) starts []

/-- The nodes that can be reached from `starts` without entering a node of `avoid`. -/
def reachAvoiding (d : Digraph α) (starts avoid : List α) : List α :=
  (d.without avoid).reach (starts.filter fun n => decide (n ∉ avoid))

end Digraph

end ConstantTime
