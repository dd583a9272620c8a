/-
The check that no secret chooses between constant-time and variable-time code.

An arm of a branch is what can be reached from one of its successors before the arms meet again,
that is without entering the nearest post-dominator of the branch or coming back to the branch. A
branch on a value with a known secret origin is reported when something speaks against some of its
arms and nothing against others.
-/
import ConstantTime.Check.Context

set_option autoImplicit false

namespace ConstantTime.Context

/-- The value that a block branches on, if the block ends in a branch. -/
def branchCondition? (b : Block) : Except Fault (Option (Option String)) :=
  match b.terminator? with
  | none => .error (.noTerminator b.id)
  | some t => .ok (if t.op = .branch then some t.condition else none)

/-- A block to look at with the value it branches on: it is reachable, goes at least two ways, and
the value is tainted and has a known origin. -/
def secretBranch? (c : Context) (reachable : List String) (b : Block) :
    Except Fault (Option (Block × Option String)) :=
  if b.id ∈ reachable then
    (branchCondition? b).map fun found => found.bind fun condition =>
      let t := c.taints.of condition
      if t.isTainted && t.hasOrigin && decide (2 ≤ (c.graph.succs b.id).length)
        then some (b, condition)
      else none
  else .ok none

/-- The block where the arms of a branch meet again. -/
def joinBlock? (post : Dominance String) (b : String) : Option String :=
  match post.immediate? b with
  | some j => if j = virtualExit then none else some j
  | none => none

/-- The blocks of the arm that starts at `target`. -/
def armBlocks (g : FlowGraph) (branch : String) (joinBlock : Option String) (target : String) :
    List String :=
  g.reachableFrom [target] (branch :: joinBlock.toList)

/-- The arm of a branch that starts at `target`. -/
def arm (i : Inspector) (branch : String) (joinBlock : Option String) (target : String) :
    Except Fault Arm :=
  (i.evidence (armBlocks i.graph branch joinBlock target)).map fun evidence => ⟨target, evidence⟩

/-- The finding at a branch on the given value, if its arms differ. -/
def pathFinding? (c : Context) (i : Inspector) (post : Dominance String)
    (branch : Block × Option String) :
    Except Fault (Option Finding) :=
  let b := branch.1
  let condition := branch.2
  let t := c.taints.of condition
  let joinBlock := joinBlock? post b.id
  match collect (arm i b.id joinBlock) (i.graph.succs b.id) with
  | .error e => .error e
  | .ok arms =>
    if (arms.any fun a => !a.evidence.isEmpty) && (arms.any fun a => a.evidence.isEmpty) then
      (c.finding .secretPath b.id (b.instrs.length - 1) t.chain
        ("branch on " ++ t.label.title ++ " value '" ++ condition.getD "None" ++
          "' selects between constant-time and non-constant-time paths")
        (.paths condition t.label joinBlock arms)).map some
    else .ok none

/-- The findings at some branches. -/
def pathFindings (c : Context) (branches : List (Block × Option String)) :
    Except Fault (List Finding) :=
  match c.inspector, c.graph.postDominance with
  | .error e, _ => .error e
  | _, .error e => .error e
  | .ok i, .ok post => collectSome (c.pathFinding? i post) branches

/-- The findings of the rule in a function. Without any branch to look at there is nothing to
inspect. -/
def secretPaths (c : Context) : Except Fault (List Finding) :=
  match collectSome (c.secretBranch? c.graph.reachable) c.function.blocks with
  | .error e => .error e
  | .ok [] => .ok []
  | .ok branches => c.pathFindings branches

end ConstantTime.Context
