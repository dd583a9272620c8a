/-
When a module is well formed.

`Module.violation?` is the first rule that a module breaks, in a fixed order: names of functions
and of shared locations are unique; then, function by function, no location of its own hides a
shared one, there are blocks, names of blocks, locations and parameters are unique, and every value
has one definition; then, block by block, there is exactly one terminator, at the end, and each
instruction has the operands that its kind needs. The last rule is about order: a use comes after
its definition in the same block, or the block of the definition dominates the block of the use.
Uses in unreachable blocks and uses by a phi are exempt from the latter.
-/
import ConstantTime.Flow.Graph

set_option autoImplicit false

namespace ConstantTime

namespace Instr

/-- The names that the operands of an instruction may refer to. -/
structure Names where
  values : List String
  blocks : List String
  locations : List String

/-- The first thing wrong with the operands of an instruction. -/
def violation? (s : Names) (i : Instr) : Option Cause :=
  (if i.op.needsOutput ∧ i.output = none then some (Cause.missingOutput i.op) else none) <|>
  (if i.op.needsInput ∧ i.inputs = [] then some (Cause.missingInput i.op) else none) <|>
  (i.inputs.findSome? fun v =>
    if v ∉ s.values then some (Cause.undefinedValue v)
    else if i.output = some v ∧ i.op ≠ .phi then some (Cause.selfUse v)
    else none) <|>
  (match i.location with
    | none => if i.op.needsLocation then some (Cause.missingLocation i.op) else none
    | some l => if l ∉ s.locations then some (Cause.unknownLocation l) else none) <|>
  (if i.op = .call ∧ (i.callee = none ∨ i.callee = some "") then some Cause.missingCallee
    else none) <|>
  (if i.op = .branch ∧ i.targets.length < 2 then some Cause.tooFewTargets else none) <|>
  (if i.op = .jump ∧ i.targets.length ≠ 1 then some Cause.jumpTargets else none) <|>
  (if i.op.targetsBlocks then
    i.targets.findSome? fun t => if t ∉ s.blocks then some (Cause.unknownTarget t) else none
  else none)

end Instr

namespace Block

/-- The first thing wrong with a block; `isLast` says that no block follows. -/
def violation? (s : Instr.Names) (isLast : Bool) (b : Block) : Option Cause :=
  if b.instrs = [] then some .emptyBlock
  else
    match b.terminator? with
    | none => some .noTerminator
    | some t =>
      (b.instrs.zipIdx.findSome? fun p =>
        if p.1.op.isTerminator ∧ p.2 ≠ b.instrs.length - 1 then some (.earlyTerminator p.1.op)
        else p.1.violation? s) <|>
      (if t.op = .fallthrough ∧ isLast then some .lastFallthrough else none)

end Block

namespace Function

/-- The values that instructions define, with the blocks that define them. -/
def outputs (f : Function) : List (String × String) :=
  f.placed.filterMap fun p => p.instr.output.map fun v => (v, p.block.id)

/-- All defined values. -/
def definedValues (f : Function) : List String :=
  f.params.map Param.value ++ f.outputs.map Prod.fst

/-- What is wrong with the use of a value at a place: it must come after the definition of the
value. -/
def useViolation? (f : Function) (dom : Dominance String) (reachable : List String)
    (sites : Table Site) (p : Placed) (v : String) : Option Abort :=
  match sites.get? v with
  | none => some (.fault (.unknownValue v))
  | some .param => none
  | some (.instr b i) =>
    if b = p.block.id then
      if p.index ≤ i then some (.malformed ⟨.usedBeforeDefinition v, f.id, p.block.id⟩) else none
    else if p.block.id ∈ reachable ∧ ¬ dom.dominates b p.block.id then
      some (.malformed ⟨.undominatedUse v b, f.id, p.block.id⟩)
    else none

/-- The first use that does not follow its definition. -/
def orderViolation? (f : Function) (g : FlowGraph) : Option Abort :=
  match g.dominance with
  | .error e => some (.fault e)
  | .ok dom =>
    let reachable := g.reachable
    let sites := f.sites
    f.placed.findSome? fun p =>
      if p.instr.op = .phi then none
      else p.instr.inputs.findSome? (f.useViolation? dom reachable sites p)

/-- The first thing wrong with a function that can name the given shared locations, the order of
uses left aside. -/
def structureViolation? (f : Function) (shared : List Location) : Option Malformed :=
  let here (c : Cause) : Malformed := ⟨c, f.id, ""⟩
  let names : Instr.Names :=
    ⟨f.definedValues, f.blocks.map Block.id, f.locations.map Location.id ++ shared.map Location.id⟩
  (if f.blocks = [] then some (here .noBlocks) else none) <|>
  ((firstRepeat Block.id [] f.blocks).map fun b => here (.duplicateBlock b.id)) <|>
  ((firstRepeat Location.id [] f.locations).map fun l => here (.duplicateLocation l.id)) <|>
  ((firstRepeat Param.value [] f.params).map fun p => here (.duplicateParam p.value)) <|>
  ((firstRepeat Prod.fst (f.params.map Param.value) f.outputs).map fun o =>
    ⟨.redefined o.1, f.id, o.2⟩) <|>
  (f.blocks.zipIdx.findSome? fun p =>
    (p.1.violation? names (decide (p.2 = f.blocks.length - 1))).map fun c => ⟨c, f.id, p.1.id⟩)

/-- The first thing wrong with a function that can name the given shared locations. -/
def violation? (f : Function) (shared : List Location) : Option Abort :=
  match f.structureViolation? shared with
  | some e => some (.malformed e)
  | none =>
    match FlowGraph.ofFunction f with
    | .error e => some (.malformed e)
    | .ok g => f.orderViolation? g

end Function

namespace Module

/-- The first thing wrong with a module. -/
def violation? (m : Module) : Option Abort :=
  ((firstRepeat Function.id [] m.functions).map fun f =>
    .malformed ⟨.duplicateFunction f.id, "", ""⟩) <|>
  ((firstRepeat Location.id [] m.locations).map fun l =>
    .malformed ⟨.duplicateLocation l.id, "", ""⟩) <|>
  (m.functions.findSome? fun f =>
    (f.locations.findSome? fun l =>
      if l.id ∈ m.locations.map Location.id then
        (some (.malformed ⟨.shadowedLocation l.id, f.id, ""⟩) : Option Abort)
      else none) <|>
    f.violation? m.locations)

/-- Rejects a module that is not well formed. -/
def validate (m : Module) : Except Abort Unit :=
  match m.violation? with
  | some e => .error e
  | none => .ok ()

end Module

end ConstantTime
