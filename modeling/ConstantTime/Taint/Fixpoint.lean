/-
The taints of a function: the fixpoint of its instructions' effects.

The taints of values belong to the function as a whole, since a value has one definition; memory
states belong to the entries and ends of blocks. A round visits every block, the reachable ones in
reverse post-order and then the others in block order. At its entry a block joins the memory states
at the ends of its predecessors. A value or a cell changes only when its label rises or when it
gets its first chain. Rounds are repeated until one changes nothing.

Each value and each cell can change only a few times, so a bound on the rounds follows from the
number of values and cells. It is part of the definition: a run that exceeds it is reported as a
fault and not carried on.
-/
import ConstantTime.Flow.Graph
import ConstantTime.Taint.Transfer

set_option autoImplicit false

namespace ConstantTime

/-- A value that was declared public on purpose, for the record. -/
structure Declassification where
  function : String
  block : String
  index : Int
  input : String
  output : String
  /-- What the value was before. -/
  label : Label
  deriving DecidableEq

/-- The taints of a function. -/
structure Taints where
  values : Table Taint
  /-- The memory state at the entry of each block. -/
  memoryIn : Table Memory
  declassifications : List Declassification
  /-- How many rounds it took, the last and unchanged one included. -/
  rounds : Nat

namespace Taints

/-- The taint of a value; no value at all is public. -/
def of (t : Taints) (v : Option String) : Taint :=
  match v with
  | some v => Taint.ofValue t.values v
  | none => .pub

/-- The secret values, by name. -/
def secrets (t : Taints) : List String :=
  sortNames ((t.values.entries.filter fun e => e.2.isSecret).map Prod.fst)

/-! ## One round

A round visits the blocks in order and lets what it finds flow on at once, so a later block of the
same round sees it. -/

/-- The state of the rounds. -/
structure State where
  values : Table Taint
  memoryIn : Table Memory
  memoryOut : Table Memory
  /-- Something changed in this round. -/
  changed : Bool

/-- The state within a block. -/
structure Point where
  values : Table Taint
  memory : Memory
  changed : Bool

/-- Gives a value a taint, if that says more than the one it has. -/
def Point.define (p : Point) (v : String) (t : Taint) : Point :=
  match p.values.get? v with
  | none => { p with values := p.values.set v t, changed := true }
  | some old =>
    if old.improves t then { p with values := p.values.set v (t.join old), changed := true } else p

/-- Applies the effect of an instruction. -/
def Point.step (s : Scope) (p : Point) (i : Instr) : Point :=
  let e := i.transfer s p.values p.memory
  let after := { p with memory := e.memory }
  match e.defines with
  | some (v, t) => after.define v t
  | none => after

/-- The memory state at the entry of a block: the join over the predecessors that were visited
before. -/
def entryMemory (g : FlowGraph) (out : Table Memory) (b : String) : Memory :=
  (g.preds b).foldl (fun m p =>
    match out.get? p with
    | some o => m.join o
    | none => m) .empty

/-- The state at the end of a block's instructions. -/
def runBlock (s : Scope) (f : Function) (p : Point) (b : String) : Point :=
  match f.block? b with
  | some blk => blk.instrs.foldl (Point.step s) p
  | none => p

/-- Visits a block. -/
def State.visit (s : Scope) (f : Function) (g : FlowGraph) (st : State) (b : String) : State :=
  let entry := entryMemory g st.memoryOut b
  let last := runBlock s f ⟨st.values, entry, st.changed⟩ b
  let memoryIn := st.memoryIn.set b entry
  match st.memoryOut.get? b with
  | none => ⟨last.values, memoryIn, st.memoryOut.set b last.memory, true⟩
  | some old =>
    if last.memory.improvesOn old then
      ⟨last.values, memoryIn, st.memoryOut.set b (old.join last.memory), true⟩
    else ⟨last.values, memoryIn, st.memoryOut, last.changed⟩

/-- Visits all blocks of `order`. -/
def State.round (s : Scope) (f : Function) (g : FlowGraph) (order : List String) (st : State) :
    State :=
  order.foldl (State.visit s f g) { st with changed := false }

/-! ## All rounds

Rounds are repeated until one changes nothing. The bound on them is never hit for a module that
passes the checks. -/

/-- Repeats rounds until one changes nothing; `done` rounds are behind. -/
def iterate (round : State → State) : Nat → Nat → State → Option (State × Nat)
  | 0, _, _ => none
  | left + 1, done, st =>
    let next := round st
    if next.changed then iterate round left (done + 1) next else some (next, done + 1)

/-- The taints of the parameters, as declared. -/
def seeds (f : Function) : Table Taint :=
  f.params.foldl (fun t p =>
    t.set p.value (match p.sensitivity with
      | .secret => .source p.value
      | s => ⟨.ofSensitivity s, []⟩)) Table.empty

/-- The order of a round. -/
def order (g : FlowGraph) : List String :=
  let reachable := g.reachable
  g.reversePostOrder ++ g.blocks.filter fun b => decide (b ∉ reachable)

/-- The bound on the rounds. -/
def roundBound (s : Scope) (f : Function) (blocks : Nat) : Nat :=
  4 * (f.sites.size + blocks * max 1 s.locations.size) + 2

/-- The operands that the effect of an instruction needs, if one is not there. -/
def operandFault? (s : Scope) (i : Instr) : Option Fault :=
  match i.op with
  | .load => if (i.location.bind s.locations.get?).isNone then some .unknownLocation else none
  | .store | .declassify => if i.inputs.isEmpty then some .missingOperand else none
  | _ => none

/-- The record of every declassification. -/
def declassified (f : Function) (values : Table Taint) : List Declassification :=
  f.placed.filterMap fun p =>
    if p.instr.op = .declassify then
      let input := p.instr.inputs.headD ""
      some ⟨f.id, p.block.id, p.index, input, p.instr.output.getD "",
        (Taint.ofValue values input).label⟩
    else none

/-- The taints of a function of a module. -/
def ofFunction (m : Module) (f : Function) (g : FlowGraph) : Except Fault Taints :=
  let s := Scope.ofFunction m f
  match f.placed.findSome? fun p => operandFault? s p.instr with
  | some e => .error e
  | none =>
    let blocks := order g
    let bound := roundBound s f blocks.length
    let start : State := ⟨seeds f, Table.empty, Table.empty, false⟩
    match iterate (State.round s f g blocks) bound 0 start with
    | none => .error (.noFixpoint f.id bound)
    | some (st, rounds) => .ok ⟨st.values, st.memoryIn, declassified f st.values, rounds⟩

end Taints

end ConstantTime
