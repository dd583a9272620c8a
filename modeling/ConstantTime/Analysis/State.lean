/-
The states of an analysis run.
-/
set_option autoImplicit false

namespace ConstantTime

/-- The states of a run. -/
inductive RunState
  | idle
  | loaded
  | taintComputed
  | regionsClassified
  | detectorsRun
  | reported
  | failed
  deriving DecidableEq

namespace RunState

def name : RunState → String
  | .idle => "idle"
  | .loaded => "loaded"
  | .taintComputed => "taint_computed"
  | .regionsClassified => "regions_classified"
  | .detectorsRun => "detectors_run"
  | .reported => "reported"
  | .failed => "failed"

def all : List RunState :=
  [.idle, .loaded, .taintComputed, .regionsClassified, .detectorsRun, .reported, .failed]

def ofName? (s : String) : Option RunState := all.find? fun v => v.name == s

end RunState

end ConstantTime
