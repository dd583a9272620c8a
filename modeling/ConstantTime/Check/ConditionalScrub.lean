/-
The check that a secret is scrubbed on every way out.

A scrub protects a value only if control cannot get from the definition of the value to an exit
around it. Where it can, the finding names the branches at which control can still go to the scrub
or around it, and the secret values derived from the scrubbed one that are left behind on the way.
-/
import ConstantTime.Check.Context

set_option autoImplicit false

namespace ConstantTime.Context

/-- The block in which a value is defined; the entry for parameters. -/
def definitionBlock (c : Context) (sites : Table Site) (v : String) : String :=
  match sites.get? v with
  | some (.instr b _) => b
  | _ => c.graph.entry

/-- The blocks on the way around a scrub from which control can go to the scrub or to an exit
without it. -/
def bypassBlocks (c : Context) (escaping exits : List String) (scrub : String) : List Block :=
  let toScrub := c.graph.reaching [scrub] []
  let around := c.graph.reaching exits [scrub]
  c.function.blocks.filter fun b =>
    let succs := c.graph.succs b.id
    decide (b.id ∈ escaping) && decide (2 ≤ succs.length) &&
      succs.any fun s => decide (s ∈ toScrub) && succs.any fun s' => decide (s' ∈ around) &&
        decide (s ≠ s')

/-- The value that decides which way control leaves a block. -/
def decider (b : Block) : Except Fault (Option String) :=
  match b.terminator? with
  | none => .error (.noTerminator b.id)
  | some t =>
    .ok (match t.condition with
      | some v => if v = "" then t.indirectTarget else some v
      | none => t.indirectTarget)

def bypass (c : Context) (b : Block) : Except Fault Bypass :=
  (decider b).map fun v => ⟨b.id, b.instrs.length - 1, v, (c.taints.of v).label⟩

/-- The scrubbed value, and the secret values derived from it in blocks around the scrub. -/
def leftBehind (c : Context) (v : String) (escaping : List String) : List String :=
  v :: c.function.placed.filterMap fun p =>
    match p.instr.output with
    | none => none
    | some out =>
      let t := c.taints.of (some out)
      if p.block.id ∈ escaping ∧ t.isSecret ∧ v ∈ t.chain ∧ out ≠ v then some out else none

/-- The finding at a scrub of the value `v`, if control can get around it. -/
def scrubFinding? (c : Context) (reachable exits : List String) (sites : Table Site) (p : Placed)
    (v : String) : Except Fault (Option Finding) :=
  let t := c.taints.of (some v)
  let definition := c.definitionBlock sites v
  if ¬ (t.isTainted ∧ t.hasOrigin) ∨ definition = p.block.id ∨ definition ∉ reachable then .ok none
  else
    let escaping := c.graph.reachableFrom [definition] [p.block.id]
    if exits.all fun e => decide (e ∉ escaping) then .ok none
    else
      match collect c.bypass (c.bypassBlocks escaping exits p.block.id) with
      | .error e => .error e
      | .ok bypasses =>
        let place :=
          match bypasses with
          | first :: _ => " at '" ++ first.block ++ "'"
          | [] => ""
        (c.finding .conditionalScrub p.block.id p.index
          (t.chain ++ (bypasses.head?.bind Bypass.decider).toList)
          ("scrub of " ++ t.label.title ++ " value '" ++ v ++ "' can be skipped" ++ place)
          (.scrub v p.instr.location definition bypasses (c.leftBehind v escaping))).map some

/-- The finding at a scrub, if there is one. -/
def scrubbedFinding? (c : Context) (reachable exits : List String) (sites : Table Site)
    (p : Placed) :
    Except Fault (Option Finding) :=
  match p.instr.inputs with
  | [] => .error .missingOperand
  | v :: _ => c.scrubFinding? reachable exits sites p v

/-- The findings of the rule in a function. -/
def conditionalScrubs (c : Context) : Except Fault (List Finding) :=
  let reachable := c.graph.reachable
  let exits := c.graph.exits.filter fun e => decide (e ∈ reachable)
  let scrubs := c.function.placed.filter fun p =>
    decide (p.instr.op = .scrub) && decide (p.block.id ∈ reachable)
  collectSome (c.scrubbedFinding? reachable exits c.function.sites) scrubs

end ConstantTime.Context
