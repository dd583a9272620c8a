/-
The flow graph of a function: which block can follow which.

Where control goes after a block is decided by the last instruction of the block. A branch leads to
its targets, a fallthrough to the next block, and a return nowhere. The blocks at which control
leaves the function are its exits. For post-dominance all of them lead to one more node, the
virtual exit.
-/
import ConstantTime.Abort
import ConstantTime.Graph.PostOrder
import ConstantTime.Graph.Dominance

set_option autoImplicit false

namespace ConstantTime

namespace Function

/-- The block after the first one with the given name. -/
def nextBlock? (f : Function) (b : String) : Option Block :=
  (f.blockIndex? b).bind fun i => f.blocks[i + 1]?

/-- The blocks that can follow the block with the given name. -/
def successors (f : Function) (b : String) : Except Malformed (List String) :=
  match f.block? b with
  | none => .error ⟨.unknownBlock b, f.id, ""⟩
  | some blk =>
    match blk.terminator? with
    | none => .error ⟨.noTerminator, f.id, b⟩
    | some t =>
      if t.op.targetsBlocks then .ok t.distinctTargets
      else if t.op = .fallthrough then
        match f.nextBlock? b with
        | some next => .ok [next.id]
        | none => .error ⟨.lastFallthrough, f.id, b⟩
      else .ok []

/-- The first block. -/
def entry (f : Function) : Except Malformed Block :=
  match f.blocks with
  | [] => .error ⟨.noBlocks, f.id, ""⟩
  | b :: _ => .ok b

/-- Whether control leaves the function at the block with the given name. -/
def isExit (f : Function) (b : String) : Except Malformed Bool :=
  match f.block? b with
  | none => .error ⟨.unknownBlock b, f.id, ""⟩
  | some blk => .ok (leavesAt blk)

end Function

/-- The flow graph of a function, with a line for each block in block order. -/
structure FlowGraph where
  entry : String
  graph : Digraph String
  exits : List String

/-- The name of the virtual exit. A block may have it too; it then shares the node. -/
def virtualExit : String := "<exit>"

namespace FlowGraph

def ofFunction (f : Function) : Except Malformed FlowGraph :=
  match f.entry with
  | .error e => .error e
  | .ok first =>
    match collect (fun b => (f.successors b.id).map fun ss => (b.id, ss)) f.blocks with
    | .error e => .error e
    | .ok adj =>
      let exits :=
        (f.blocks.map Block.id).filter fun b => ((f.block? b).map Function.leavesAt).getD false
      .ok ⟨first.id, ⟨adj⟩, exits⟩

/-- The blocks, in block order. -/
def blocks (g : FlowGraph) : List String := g.graph.nodes

def succs (g : FlowGraph) (b : String) : List String := g.graph.succs b

def preds (g : FlowGraph) (b : String) : List String := g.graph.preds b

/-- The blocks that can be reached from the entry. -/
def reachable (g : FlowGraph) : List String := g.graph.reach [g.entry]

/-- The blocks that can be reached from some block of `starts` without entering a block of
`avoid`. -/
def reachableFrom (g : FlowGraph) (starts avoid : List String) : List String :=
  g.graph.reachAvoiding starts avoid

/-- The blocks from which some block of `targets` can be reached without entering a block of
`avoid`. -/
def reaching (g : FlowGraph) (targets avoid : List String) : List String :=
  g.graph.flip.reachAvoiding targets avoid

/-- The reachable blocks in reverse post-order. -/
def reversePostOrder (g : FlowGraph) : List String := g.graph.reversePostOrder g.entry

/-- The dominance tree of the reachable blocks. -/
def dominance (g : FlowGraph) : Except Fault (Dominance String) :=
  match Dominance.grow? g.reversePostOrder g.preds g.entry with
  | some t => .ok t
  | none => .error (.noDominance g.entry)

/-- Where control can go after a block, with the virtual exit after every exit. -/
def succsOrExit (g : FlowGraph) (b : String) : List String :=
  if b ∈ g.exits then g.succs b ++ [virtualExit] else g.succs b

/-- The flow graph turned around: the virtual exit leads to the exits, and every block to those
before it. -/
def exitGraph (g : FlowGraph) : Digraph String :=
  ⟨(distinct (virtualExit :: g.graph.everyNode)).map fun b =>
    (b, if b = virtualExit then g.exits else g.preds b)⟩

/-- The dominance tree from the virtual exit, of the blocks from which an exit can be reached. -/
def postDominance (g : FlowGraph) : Except Fault (Dominance String) :=
  match Dominance.grow? (g.exitGraph.reversePostOrder virtualExit) g.succsOrExit virtualExit with
  | some t => .ok t
  | none => .error (.noDominance virtualExit)

end FlowGraph

end ConstantTime
