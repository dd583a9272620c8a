/-
What the checks of a function may look at.
-/
import ConstantTime.Finding

set_option autoImplicit false

namespace ConstantTime

/-- The facts about a function that the checks read. -/
structure Context where
  module : Module
  function : Function
  graph : FlowGraph
  taints : Taints
  regions : RegionMap
  policy : Policy
  /-- The functions found variable-time. -/
  isVariableTime : String → Bool

namespace Context

/-- The inspector of the function's blocks. -/
def inspector (c : Context) : Except Fault Inspector :=
  match c.graph.loops with
  | .error e => .error e
  | .ok loops => .ok ⟨c.function, c.graph, c.taints, loops, c.policy, c.isVariableTime⟩

/-- A finding of a rule at an instruction of a block. -/
def finding (c : Context) (rule : Rule) (block : String) (index : Nat) (chain : List String)
    (description : String) (detail : Detail) : Except Fault Finding :=
  match c.function.blockIndex? block with
  | none => .error (.unknownBlock block)
  | some position =>
    .ok ⟨rule, c.function.id, block, position, index, rule.severity, chain, description, detail⟩

end Context

end ConstantTime
