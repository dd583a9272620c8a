/-
Anomalies: what the analysis could not decide and took for the worse.
-/
set_option autoImplicit false

namespace ConstantTime

/-- The kinds of anomalies. -/
inductive AnomalyKind
  /-- An indirect branch or call may go anywhere. -/
  | unresolvedTarget
  /-- A chain of calls is longer than configured. -/
  | depthExceeded
  deriving DecidableEq

namespace AnomalyKind

def name : AnomalyKind → String
  | .unresolvedTarget => "UnresolvedIndirectTarget"
  | .depthExceeded => "RecursionLimitExceeded"

def all : List AnomalyKind := [.unresolvedTarget, .depthExceeded]

def ofName? (s : String) : Option AnomalyKind := all.find? fun k => k.name == s

end AnomalyKind

/-- Something undecided, with its place. -/
structure Anomaly where
  kind : AnomalyKind
  function : String
  detail : String
  block : Option String
  index : Option Int
  deriving DecidableEq

end ConstantTime
