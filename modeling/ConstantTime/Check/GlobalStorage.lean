/-
The check that no secret is stored globally.

It does not depend on control flow: stores in unreachable blocks are reported too.
-/
import ConstantTime.Check.Context

set_option autoImplicit false

namespace ConstantTime.Context

/-- The finding at a store of the value `v` to the global location `l`, if the value is secret. -/
def secretStoreFinding? (c : Context) (p : Placed) (l : Location) (v : String) :
    Except Fault (Option Finding) :=
  let t := c.taints.of (some v)
  if t.isSecret ∧ t.hasOrigin then
    (c.finding .globalStorage p.block.id p.index t.chain
      ("Secret value '" ++ v ++ "' stored to global location '" ++ l.id ++ "'") (.global l.id)).map
        some
  else .ok none

/-- The finding at a store, if it puts a secret into a global location. -/
def storeFinding? (c : Context) (locations : Table Location) (p : Placed) :
    Except Fault (Option Finding) :=
  match p.instr.location.bind locations.get? with
  | none => .error .unknownLocation
  | some l =>
    if l.storage = .global then
      match p.instr.inputs with
      | [] => .error .missingOperand
      | v :: _ => c.secretStoreFinding? p l v
    else .ok none

/-- The findings of the rule in a function. -/
def globalStores (c : Context) : Except Fault (List Finding) :=
  let locations := c.module.locationsFor c.function
  let stores := c.function.placed.filter fun p => decide (p.instr.op = .store)
  collectSome (c.storeFinding? locations) stores

end ConstantTime.Context
