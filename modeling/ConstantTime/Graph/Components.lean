/-
Strongly connected components, callees before callers.

Two nodes belong together when each reaches the other. One depth-first search finds all groups. It
numbers the nodes as it meets them and puts them on a stack, where a node stays until its component
is known. A node that is being visited keeps its low link: the least number on the stack that it is
known to lead to. Once all its successors were looked at, the low link goes to the node from which
the visit came; and if it is still the node's own number, nothing from the node upwards on the
stack leads below it, so these nodes are a component and leave the stack.

The search carries a bound on its steps. A step looks at one edge or ends one visit, and a visit
begins at the start or with an edge. So twice the number of edges and one step more are always
enough.
-/
import ConstantTime.Graph.Digraph

set_option autoImplicit false

namespace ConstantTime.Digraph

variable {α : Type} [DecidableEq α]

/-- A node that is being visited. -/
structure Visit (α : Type) where
  node : α
  number : Nat
  /-- The least number on the stack that the node is known to lead to. -/
  low : Nat
  /-- The successors that were not looked at yet. -/
  left : List α

/-- The state of the search. -/
structure Sweep (α : Type) where
  /-- The numbers of the nodes met so far. -/
  numbers : List (α × Nat)
  /-- The nodes whose component is not known yet, the last one met first. -/
  stack : List α
  /-- The nodes being visited, the innermost first. -/
  visits : List (Visit α)
  /-- The components found so far, in this order. -/
  components : List (List α)

/-- Lowers the low link of a node to a number. -/
def Visit.lower (v : Visit α) (k : Nat) : Visit α := if k < v.low then { v with low := k } else v

/-- Lowers the low link of the innermost visit. -/
def lowerFirst (k : Nat) : List (Visit α) → List (Visit α)
  | [] => []
  | v :: rest => v.lower k :: rest

namespace Sweep

def start : Sweep α := ⟨[], [], [], []⟩

/-- Begins the visit of a node that was not met before. -/
def meet (d : Digraph α) (n : α) (s : Sweep α) : Sweep α :=
  let number := s.numbers.length
  { s with
    numbers := Assoc.put n number s.numbers
    stack := n :: s.stack
    visits := ⟨n, number, number, d.succs n⟩ :: s.visits }

/-- Looks at the successor `m` of the node that `v` visits. -/
def look (d : Digraph α) (v : Visit α) (rest : List (Visit α)) (m : α) (s : Sweep α) : Sweep α :=
  match Assoc.find? m s.numbers with
  | none => meet d m { s with visits := v :: rest }
  | some k =>
    if m ∈ s.stack then { s with visits := v.lower k :: rest } else { s with visits := v :: rest }

/-- Ends a visit. If the low link is the node's own number, the stack down to the node is a
component. -/
def leave (v : Visit α) (rest : List (Visit α)) (s : Sweep α) : Sweep α :=
  let visits := lowerFirst v.low rest
  if v.low = v.number then
    { s with
      stack := (s.stack.dropWhile fun n => decide (n ≠ v.node)).drop 1
      visits := visits
      components := s.components ++ [(s.stack.takeWhile fun n => decide (n ≠ v.node)) ++ [v.node]] }
  else { s with visits := visits }

/-- One step of the innermost visit. -/
def step (d : Digraph α) (v : Visit α) (rest : List (Visit α)) (s : Sweep α) : Sweep α :=
  match v.left with
  | [] => s.leave v rest
  | m :: left => s.look d { v with left := left } rest m

/-- Takes steps until all visits are over. -/
def settle (d : Digraph α) : Nat → Sweep α → Sweep α
  | 0, s => s
  | steps + 1, s =>
    match s.visits with
    | [] => s
    | v :: rest => settle d steps (s.step d v rest)

/-- Searches from a node, unless it was met before. -/
def search (d : Digraph α) (s : Sweep α) (root : α) : Sweep α :=
  match Assoc.find? root s.numbers with
  | some _ => s
  | none => (s.meet d root).settle d (2 * d.size + 1)

end Sweep

/-- The strongly connected components. -/
def components (d : Digraph α) : List (List α) :=
  (d.nodes.foldl (Sweep.search d) Sweep.start).components

end ConstantTime.Digraph
