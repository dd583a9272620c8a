/-
Natural loops.

A block is the header of a loop when control can come back to it from a block that it dominates, a
latch. The body of the loop is the header and every block from which a latch can be reached without
passing the header. Latches that lead back to one header belong to one loop.
-/
import ConstantTime.Flow.Graph

set_option autoImplicit false

namespace ConstantTime

/-- A natural loop. -/
structure Loop where
  header : String
  latches : List String
  body : List String

namespace FlowGraph

/-- The blocks of a loop with a header and latches: what the latches can be reached from around the
header. -/
def loopBody (g : FlowGraph) (reachable : List String) (header : String) (latches : List String) :
    List String :=
  let back : Digraph String :=
    ⟨g.graph.flip.adj.map fun e => (e.1, e.2.filter fun b => decide (b ∈ reachable))⟩
  header :: back.reachAvoiding latches [header]

/-- The loops, in block order; the latches of each in reverse post-order. -/
def loops (g : FlowGraph) : Except Fault (List Loop) :=
  match g.dominance with
  | .error e => .error e
  | .ok dom =>
    let order := g.reversePostOrder
    let reachable := g.reachable
    .ok (g.blocks.filterMap fun header =>
      let latches := order.filter fun b => decide (header ∈ g.succs b) && dom.dominates header b
      if latches.isEmpty then none else some ⟨header, latches, g.loopBody reachable header latches⟩)

end FlowGraph

/-- The blocks of a loop from which control can leave it, in block order. -/
def Loop.exiting (l : Loop) (g : FlowGraph) : List String :=
  g.blocks.filter fun b => decide (b ∈ l.body) && (g.succs b).any fun s => decide (s ∉ l.body)

end ConstantTime
