/-
All checks of a function, rule by rule.
-/
import ConstantTime.Check.ConditionalScrub
import ConstantTime.Check.GlobalStorage
import ConstantTime.Check.IndirectBranch
import ConstantTime.Check.SecretPath

set_option autoImplicit false

namespace ConstantTime.Context

/-- The findings of a rule in a function. -/
def check (c : Context) : Rule → Except Fault (List Finding)
  | .secretPath => c.secretPaths
  | .indirectBranch => c.indirectBranches
  | .conditionalScrub => c.conditionalScrubs
  | .globalStorage => c.globalStores

/-- The findings of some rules in a function, rule by rule. -/
def checkAll (c : Context) (rules : List Rule) : Except Fault (List Finding) :=
  match collect c.check rules with
  | .error e => .error e
  | .ok found => .ok found.flatten

end ConstantTime.Context
