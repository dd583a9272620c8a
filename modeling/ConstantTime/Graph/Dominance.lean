/-
Dominance in a rooted graph.

A node dominates another when every way from the root to the latter leads through it. The nearest
strict dominators make up a tree, and the tree is found by iteration. The nodes are visited in
reverse post-order, pass after pass. At each visit a node becomes the child of the node in which
the lines of its predecessors meet, as far as these are in the tree. A pass that changes nothing is
the last.

A line goes up to nodes that are earlier in the order, so two lines meet in fewer steps than they
have nodes together, and one pass more than there are nodes is enough. Both bounds are part of the
definition. There is no tree if one of them does not hold or if a line leaves the tree.
-/
import ConstantTime.Table

set_option autoImplicit false

namespace ConstantTime

/-- The nodes from `n` up to the one that is its own parent; `none` if there is none within the
given steps. -/
def climb {α : Type} [DecidableEq α] (parents : List (α × α)) : Nat → α → Option (List α)
  | 0, _ => none
  | steps + 1, n =>
    match Assoc.find? n parents with
    | none => none
    | some p => if p = n then some [n] else (climb parents steps p).map fun line => n :: line

/-- A dominance tree: each node with its parent, the root with itself. -/
structure Dominance (α : Type) [DecidableEq α] where
  parents : List (α × α)
  /-- Every node has a line up to the root. -/
  rooted : ∀ e ∈ parents, (climb parents parents.length e.1).isSome

namespace Dominance

variable {α : Type} [DecidableEq α]

/-! ## Reading a tree

The dominators of a node are its line up to the root, and the node next on the line is the
nearest. -/

/-- The nodes that the root reaches. -/
def nodes (t : Dominance α) : List α := t.parents.map Prod.fst

/-- The dominators of a node, itself first and the root last. -/
def dominators (t : Dominance α) (b : α) : List α := (climb t.parents t.parents.length b).getD []

/-- Whether every way from the root to `b` leads through `a`; false if the root does not reach
both. -/
def dominates (t : Dominance α) (a b : α) : Bool := decide (a ∈ t.dominators b)

def strictlyDominates (t : Dominance α) (a b : α) : Bool := decide (a ≠ b) && t.dominates a b

/-- The nearest strict dominator; the root has none. -/
def immediate? (t : Dominance α) (b : α) : Option α :=
  match Assoc.find? b t.parents with
  | none => none
  | some p => if p = b then none else some p

/-! ## Growing a tree -/

/-- The node in which the lines of two nodes meet. The line of the node that is later in the order
goes up first. -/
def meet? (order : List α) (parents : List (α × α)) : Nat → α → α → Option α
  | 0, _, _ => none
  | steps + 1, a, b =>
    if a = b then some a
    else if order.idxOf b < order.idxOf a then
      match Assoc.find? a parents with
      | none => none
      | some p => meet? order parents steps p b
    else if order.idxOf a < order.idxOf b then
      match Assoc.find? b parents with
      | none => none
      | some p => meet? order parents steps a p
    else none

/-- The node in which the lines of `first` and of all others meet. -/
def meetAll? (order : List α) (parents : List (α × α)) (first : α) : List α → Option α
  | [] => some first
  | other :: rest =>
    match meet? order parents (2 * order.length) other first with
    | none => none
    | some c => meetAll? order parents c rest

/-- The parent that a node gets at a visit; the inner `none` means that none of its predecessors is
in the tree. -/
def visit? (order : List α) (preds : α → List α) (parents : List (α × α)) (n : α) :
    Option (Option α) :=
  match (preds n).filter fun p => (Assoc.find? p parents).isSome with
  | [] => some none
  | first :: rest => (meetAll? order parents first rest).map some

/-- Visits nodes one after the other. Gives the tree after it and whether it changed. -/
def pass? (order : List α) (preds : α → List α) :
    List α → List (α × α) → Option (List (α × α) × Bool)
  | [], parents => some (parents, false)
  | n :: rest, parents =>
    match visit? order preds parents n with
    | none => none
    | some none => pass? order preds rest parents
    | some (some p) =>
      if Assoc.find? n parents = some p then pass? order preds rest parents
      else (pass? order preds rest (Assoc.put n p parents)).map fun r => (r.1, true)

/-- Repeats passes until one changes nothing. -/
def settle? (order : List α) (preds : α → List α) : Nat → List (α × α) → Option (List (α × α))
  | 0, _ => none
  | passes + 1, parents =>
    match pass? order preds order.tail parents with
    | none => none
    | some (next, changed) => if changed then settle? order preds passes next else some next

/-- The dominance tree with the given root, where `order` lists the nodes in reverse post-order. -/
def grow? (order : List α) (preds : α → List α) (root : α) : Option (Dominance α) :=
  match settle? order preds (order.length + 1) [(root, root)] with
  | none => none
  | some parents =>
    if rooted : ∀ e ∈ parents, (climb parents parents.length e.1).isSome
      then some ⟨parents, rooted⟩ else none

end Dominance

end ConstantTime
