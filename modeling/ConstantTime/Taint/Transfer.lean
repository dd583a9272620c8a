/-
How taint moves through an instruction.

An instruction turns the taints of the values and the memory state before it into the taint of the
value that it defines and the memory state after it. Terminators and region markers define nothing
and touch no memory.
-/
import ConstantTime.Taint.Memory

set_option autoImplicit false

namespace ConstantTime

/-- What a function's instructions can refer to: its module and the memory locations that it can
name. -/
structure Scope where
  module : Module
  locations : Table Location

namespace Scope

def ofFunction (m : Module) (f : Function) : Scope := ⟨m, m.locationsFor f⟩

end Scope

/-- The effect of an instruction: the memory state after it, and the value it defines with its
taint. -/
structure Effect where
  memory : Memory
  defines : Option (String × Taint)

namespace Taint

/-- The taint of a value; one that has not been computed yet is public. -/
def ofValue (values : Table Taint) (v : String) : Taint := (values.get? v).getD .pub

/-- What a call may return: what the function called declares, or else a join of the arguments. -/
def ofCall (m : Module) (callee output : Option String) (args : List Taint) : Taint :=
  let declared : Option Sensitivity :=
    match callee with
    | some c => if c = "" then none else (m.function? c).bind Function.returns
    | none => none
  match declared, output with
  | none, _ => joinAll args
  | some .secret, some v => source v
  | some .secret, none => ⟨.secret, []⟩
  | some .unknown, _ => joinAll (unknown :: args)
  | some .pub, _ => pub

/-- What a load may read besides its own cell: every tainted cell that may be the same memory, with
an unknown label because it may as well be another. -/
def aliases (s : Scope) (memory : Memory) (l : Location) : List Taint :=
  memory.cells.entries.filterMap fun c =>
    if c.1 = l.id ∨ ¬ c.2.isTainted then none
    else
      match s.locations.get? c.1 with
      | some other => if other.mayAlias l then some ⟨.unknown, c.2.chain⟩ else none
      | none => none

end Taint

namespace Effect

/-- Defines the output of an instruction, if it has one. -/
def define (memory : Memory) (i : Instr) (t : Taint) : Effect :=
  ⟨memory, i.output.map fun v => (v, t.extended v)⟩

end Effect

/-- The effect of an instruction on values and memory. -/
def Instr.transfer (s : Scope) (values : Table Taint) (memory : Memory) (i : Instr) : Effect :=
  let taints (vs : List String) : List Taint := vs.map (Taint.ofValue values)
  match i.op with
  | .compute | .phi => .define memory i (.joinAll (taints i.inputs))
  | .load =>
    match i.location.bind s.locations.get? with
    | none => ⟨memory, none⟩
    | some l =>
      let declared : List Taint :=
        match i.output with
        | some v => if l.secret then [.source v] else []
        | none => []
      .define memory i
        (.joinAll (declared ++ memory.read l.id :: taints i.inputs ++ Taint.aliases s memory l))
  | .store =>
    match i.location, i.inputs with
    | some l, v :: _ => ⟨memory.store l (Taint.ofValue values v), none⟩
    | _, _ => ⟨memory, none⟩
  | .call => .define memory i (Taint.ofCall s.module i.callee i.output (taints i.arguments))
  | .indirectCall =>
    let args := taints i.arguments
    let results :=
      match i.distinctTargets with
      | [] => [Taint.joinAll (.unknown :: args)]
      | candidates => candidates.map fun c => Taint.ofCall s.module (some c) i.output args
    let pointer := (i.indirectTarget.map (Taint.ofValue values)).getD .pub
    .define memory i (.joinAll (results ++ [pointer]))
  | .scrub =>
    match i.location with
    | some l => ⟨memory.clear l, none⟩
    | none => ⟨memory, none⟩
  | .declassify => ⟨memory, i.output.map fun v => (v, .pub)⟩
  | .regionStart | .regionEnd | .branch | .jump | .fallthrough | .indirectBranch | .ret =>
    ⟨memory, none⟩

end ConstantTime
