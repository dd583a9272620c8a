/-
The check that constant-time regions have no indirect branches or calls.

What the site goes through need not be tainted: it is reported wherever it may go more than one way.
-/
import ConstantTime.Check.Context

set_option autoImplicit false

namespace ConstantTime.Context

/-- The finding at an indirect site in a region. -/
def siteFinding (c : Context) (s : IndirectSite) : Except Fault Finding :=
  let t := c.taints.of s.value
  match c.regions.regionOf? s.block with
  | none => .error (.noRegion s.block)
  | some region =>
    c.finding .indirectBranch s.block s.index (if t.chain = [] then [s.valueText] else t.chain)
      ("indirect " ++ s.kind ++ " through '" ++ s.valueText ++
        "' inside the constant-time region opened at '" ++ region.entry ++ "'")
      (.indirect s.resolution s.targets t.label region.entry)

/-- The findings of the rule in a function. -/
def indirectBranches (c : Context) : Except Fault (List Finding) :=
  collect c.siteFinding (c.regions.sites.filter fun s => s.inRegion && s.isDynamic)

end ConstantTime.Context
