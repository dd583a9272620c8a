/-
The analyzer: a configuration and a state that is kept between runs.

A run may only start when the analyzer is idle or its last run failed. A run that is rejected
leaves it failed, any other one idle. The clock is read once for the deadline if there is a time
limit, once for the start, then by the phases, and once at the end of a run that was not rejected.
Only then the run is reported.
-/
import ConstantTime.Analysis.Run
import ConstantTime.Program.Load

set_option autoImplicit false

namespace ConstantTime

/-- Why a step of the analyzer gives no result. -/
inductive AnalyzerError
  | inProgress (state : RunState)
  /-- The time limit or a reading of the clock is a whole number that is out of range. -/
  | timeOutOfRange
  /-- A file gives no module, and its module is not malformed either. -/
  | load (e : Module.LoadError)
  | run (e : RunError)

/-- The report of a step without result. -/
def AnalyzerError.message : AnalyzerError → String
  | .inProgress state => "analysis already in progress (state " ++ state.name ++ ")"
  | .timeOutOfRange => ConfigError.timeOutOfRange.message
  | .load e => e.message
  | .run (.fault e) => e.message
  | .run (.config e) => e.message

/-- How the readings of a clock are used. -/
structure Timing (τ : Type) where
  /-- Which readings are past the deadline, from the reading at which it is set and the time limit,
  unless the latter is out of range. -/
  expiry? : τ → Quantity → Option (τ → Bool)
  /-- The seconds from one reading to another. -/
  elapsed : τ → τ → Float

/-- The readings of a clock that counts seconds. -/
def Timing.seconds : Timing Float where
  expiry? now limit := limit.toFloat?.map fun seconds =>
    let deadline := now + seconds
    fun t => decide (deadline < t)
  elapsed start stop := stop - start

/-- An analyzer between steps. -/
structure Analyzer where
  config : Config
  state : RunState

namespace Analyzer

def ofConfig (c : Config) : Analyzer := ⟨c, .idle⟩

/-- An analyzer with a configuration from a file, if one is named, and some settings replaced. -/
def create (reader : DocumentReader) (fs : Files) (configPath : Option String)
    (overrides : List (String × Json)) : Except ConfigError Analyzer := do
  Config.unreserved "config_path" overrides
  let base ←
    match configPath with
    | some path => if path = "" then .ok Config.default else Config.loadFile reader fs path
    | none => .ok Config.default
  let config ← if overrides.isEmpty then .ok base else base.withOverrides overrides
  return ofConfig config

/-- Whether a run may start. -/
def isReady (a : Analyzer) : Bool := decide (a.state = .idle ∨ a.state = .failed)

/-- What a step gives: a result, unless it fails, and the analyzer after it. -/
abbrev Step := Except AnalyzerError Result × Analyzer

/-- A run with a deadline, if there is one, where the results of parallel tasks arrive in the given
order. -/
def run {τ : Type} (timing : Timing τ) (a : Analyzer) (arrival : Stage → Arrival) (m : Module)
    (deadline : Deadline τ) : Timed τ Step :=
  .ask .idle fun start =>
    (Analysis.run a.config arrival deadline m).bind fun outcome =>
      match outcome with
      | .error e => .done (.error (.run e), { a with state := .failed })
      | .ok r =>
        if r.failed then .done (.ok r, { a with state := .failed })
        else
          .ask r.state fun stop =>
            .done (.ok { r.enter .reported with duration := timing.elapsed start stop },
              { a with state := .idle })

/-- Analyzes a module by the given clock, where the results of parallel tasks arrive in the given
order. -/
def analyzeBy {τ : Type} (timing : Timing τ) (a : Analyzer) (arrival : Stage → Arrival)
    (m : Module) :
    Timed τ Step :=
  if a.isReady then
    match a.config.timeout with
    | none => a.run timing arrival m none
    | some limit =>
      .ask .idle fun now =>
        match timing.expiry? now limit with
        | none => .done (.error .timeOutOfRange, { a with state := .idle })
        | some late => a.run timing arrival m (some late)
  else .done (.error (.inProgress a.state), a)

/-- Analyzes a module, where the results of parallel tasks arrive in the given order. -/
def analyzeIn (a : Analyzer) (arrival : Stage → Arrival) (m : Module) : Timed Float Step :=
  a.analyzeBy .seconds arrival m

/-- Analyzes a module. -/
def analyze (a : Analyzer) (m : Module) : Timed Float Step := a.analyzeIn (fun _ => .inOrder) m

/-- The step of an analyzer that is left in a state because the clock has no answer. -/
def stranded (a : Analyzer) (left : RunState) : Step :=
  (.error .timeOutOfRange, { a with state := left })

/-- Analyzes what loading the file `path` gave. -/
def analyzeLoaded {τ : Type} (timing : Timing τ) (a : Analyzer) (arrival : Stage → Arrival)
    (path : String) :
    Except Module.LoadError Module → Timed τ Step
  | .ok m => a.analyzeBy timing arrival m
  | .error (.malformed e) =>
    if a.isReady then
      .done (.ok ((Result.start (Path.stem path) a.config.checkedRules).fail e),
        { a with state := .failed })
    else .done (.error (.inProgress a.state), a)
  | .error e => .done (.error (.load e), a)

/-- Analyzes the module in a file by the given clock, where the results of parallel tasks arrive in
the given order. -/
def analyzeFileBy {τ : Type} (timing : Timing τ) (reader : DocumentReader) (fs : Files)
    (a : Analyzer) (arrival : Stage → Arrival) (path : String) : Timed τ Step :=
  a.analyzeLoaded timing arrival path (Module.loadFile reader fs path)

/-- Analyzes the module in a file. -/
def analyzeFile (reader : DocumentReader) (fs : Files) (a : Analyzer) (path : String) :
    Timed Float Step :=
  a.analyzeFileBy .seconds reader fs (fun _ => .inOrder) path

end Analyzer

end ConstantTime
