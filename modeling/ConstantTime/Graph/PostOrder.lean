/-
Depth-first search and reverse post-order.

The nodes that are being visited lie on a stack, the innermost first, and each keeps the successors
that were not looked at yet. A node is met when its visit begins, so none is visited twice. It is
finished when no successor is left to look at, and the reverse post-order lists the nodes from the
last finished to the first.

The search carries a bound on its steps. A step looks at one edge or ends one visit, and a visit
begins at the start or with an edge. So twice the number of edges and one step more are always
enough.
-/
import ConstantTime.Graph.Digraph

set_option autoImplicit false

namespace ConstantTime.Digraph

variable {α : Type} [DecidableEq α]

/-- The state of a depth-first search. -/
structure Descent (α : Type) where
  /-- The nodes being visited, the innermost first, with the successors that were not looked at
  yet. -/
  visits : List (α × List α)
  /-- The nodes met so far. -/
  met : List α
  /-- The finished nodes, the last one first. -/
  finished : List α

namespace Descent

def start : Descent α := ⟨[], [], []⟩

/-- Begins the visit of a node that was not met before. -/
def meet (d : Digraph α) (n : α) (s : Descent α) : Descent α :=
  { s with visits := (n, d.succs n) :: s.visits, met := s.met ++ [n] }

/-- One step of the innermost visit, which is that of `n` with the successors `left` to look at. -/
def step (d : Digraph α) (n : α) (left : List α) (rest : List (α × List α)) (s : Descent α) :
    Descent α :=
  match left with
  | [] => { s with visits := rest, finished := n :: s.finished }
  | m :: left =>
    let looked : Descent α := { s with visits := (n, left) :: rest }
    if m ∈ s.met then looked else looked.meet d m

/-- Takes steps until all visits are over. -/
def settle (d : Digraph α) : Nat → Descent α → Descent α
  | 0, s => s
  | steps + 1, s =>
    match s.visits with
    | [] => s
    | (n, left) :: rest => settle d steps (s.step d n left rest)

end Descent

/-- What the root leads to, from the last finished node to the first. -/
def reversePostOrder (d : Digraph α) (root : α) : List α :=
  ((Descent.start.meet d root).settle d (2 * d.size + 1)).finished

end ConstantTime.Digraph
