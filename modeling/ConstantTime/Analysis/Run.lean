/-
A run of the analysis over a module.

The module is validated, the taints of every function are computed, then its regions; the functions
are judged callees first, and last every function is checked against the enabled rules. Functions
are taken in ascending order of their names. A defect of the module ends the run with nothing but
the error. When the deadline strikes in one of the first two phases the run ends without findings;
when it strikes in the last one, the functions whose checks ran are reported.
-/
import ConstantTime.Analysis.Phase
import ConstantTime.Analysis.Result
import ConstantTime.Check.Rules
import ConstantTime.Config
import ConstantTime.Program.Validity

set_option autoImplicit false

namespace ConstantTime

/-- Why a run ends without a result. -/
inductive RunError
  | fault (e : Fault)
  | config (e : ConfigError)

namespace Analysis

variable {τ : Type}

/-- How a configuration schedules the tasks, given the order in which parallel results arrive. -/
def schedule (c : Config) (arrival : Stage → Arrival) : Schedule :=
  if c.maxWorkers.atMost 1 then .sequential else .parallel arrival

/-- The flow graphs of functions, by name. -/
def graphs (functions : List Function) : Except Malformed (Table FlowGraph) :=
  match collect (fun f => (FlowGraph.ofFunction f).map fun g => (f.id, g)) functions with
  | .error e => .error e
  | .ok pairs => .ok (Table.ofList pairs)

/-- What is known of a function by its name. -/
def lookup {β : Type} (t : Table β) (f : Function) : Except Fault β :=
  match t.get? f.id with
  | some v => .ok v
  | none => .error (.unknownFunction f.id)

def taintTask (m : Module) (gs : Table FlowGraph) (f : Function) : Except Abort Taints :=
  match lookup gs f with
  | .error e => .error (.fault e)
  | .ok g => (Taints.ofFunction m f g).mapError .fault

def regionTask (gs : Table FlowGraph) (f : Function) : Except Abort RegionMap :=
  match lookup gs f with
  | .error e => .error (.fault e)
  | .ok g => RegionMap.ofFunction f g

/-- What the checks read of all functions. -/
structure Known where
  module : Module
  graphs : Table FlowGraph
  taints : Table Taints
  regions : Table RegionMap
  policy : Policy
  shapes : Shapes

/-- What the checks read of a function. -/
def Known.context (k : Known) (f : Function) : Except Fault Context :=
  match lookup k.graphs f, lookup k.taints f, lookup k.regions f with
  | .error e, _, _ => .error e
  | _, .error e, _ => .error e
  | _, _, .error e => .error e
  | .ok g, .ok taints, .ok regions =>
    .ok ⟨k.module, f, g, taints, regions, k.policy, k.shapes.isVariableTime⟩

def checkTask (k : Known) (rules : List Rule) (f : Function) : Except Abort (List Finding) :=
  match k.context f with
  | .error e => .error (.fault e)
  | .ok c => (c.checkAll rules).mapError .fault

/-- What counts as variable-time by a configuration. -/
def policy (c : Config) : Except ConfigError Policy :=
  match c.routineNames with
  | .error e => .error e
  | .ok names => .ok ⟨c.maxCallDepth, names, c.unresolvedIsVariableTime.isGiven⟩

/-- Puts together what a run found: the anomalies of all functions, and for the functions whose
checks ran their declassifications and findings. -/
def assemble (c : Config) (k : Known) (functions : List Function) (found : Table (List Finding))
    (r : Result) :
    Except Fault Result :=
  let finished := functions.filter fun f => found.contains f.id
  match collect (lookup k.taints) finished with
  | .error e => .error e
  | .ok taints =>
    .ok { r with
      anomalies :=
        (functions.flatMap fun f => ((k.regions.get? f.id).map RegionMap.anomalies).getD []) ++
        k.shapes.anomalies
      functionsAnalyzed := finished.length
      declassifications := taints.flatMap Taints.declassifications
      findings := sortFindings (finished.flatMap fun f =>
        ((found.get? f.id).getD []).filter (Finding.isAtLeast c.minSeverity)) }

/-- Ends a run because of a failed task. The result still says whether a task was late before. -/
def stop (r : Result) (s : Stop Abort) : Except RunError Result :=
  match s.error with
  | .malformed e => .ok ({ r with timedOut := s.timedOut }.fail e)
  | .fault e => .error (.fault e)

/-- The last phase of a run: judging and checking. -/
def runChecks (c : Config) (s : Schedule) (deadline : Deadline τ) (m : Module)
    (gs : Table FlowGraph) (taints : Table Taints) (regions : Table RegionMap) (r : Result) :
    Timed τ (Except RunError Result) :=
  match policy c with
  | .error e => .done (.error (.config e))
  | .ok p =>
    let functions := m.sortedFunctions
    match Shapes.ofModule ⟨m, gs, taints, p⟩ (CallGraph.ofModule m) with
    | .error e => .done (.error (.fault e))
    | .ok shapes =>
      let k : Known := ⟨m, gs, taints, regions, p, shapes⟩
      (Phase.run s .checks deadline (checkTask k c.checkedRules) functions).map fun outcome =>
        match outcome with
        | .error e => stop r e
        | .ok found =>
          let r := { r with timedOut := found.timedOut }.enter .detectorsRun
          (assemble c k functions found.table r).mapError .fault

/-- The second phase of a run: the regions; then the rest unless time is over. -/
def runRegions (c : Config) (s : Schedule) (deadline : Deadline τ) (m : Module)
    (gs : Table FlowGraph) (taints : Table Taints) (r : Result) :
    Timed τ (Except RunError Result) :=
  (Phase.run s .regions deadline (regionTask gs) m.sortedFunctions).bind fun outcome =>
    match outcome with
    | .error e => .done (stop r e)
    | .ok regions =>
      let r := { r with timedOut := regions.timedOut }.enter .regionsClassified
      if regions.timedOut then .done (.ok r)
      else runChecks c s deadline m gs taints regions.table r

/-- The first phase of a run: the taints; then the rest unless time is over. -/
def runTaints (c : Config) (s : Schedule) (deadline : Deadline τ) (m : Module)
    (gs : Table FlowGraph) (r : Result) : Timed τ (Except RunError Result) :=
  (Phase.run s .taint deadline (taintTask m gs) m.sortedFunctions).bind fun outcome =>
    match outcome with
    | .error e => .done (stop r e)
    | .ok taints =>
      let r := { r with timedOut := taints.timedOut }.enter .taintComputed
      if taints.timedOut then .done (.ok r)
      else runRegions c s deadline m gs taints.table r

/-- A run over a module, up to the point where it is reported. -/
def run (c : Config) (arrival : Stage → Arrival) (deadline : Deadline τ) (m : Module) :
    Timed τ (Except RunError Result) :=
  let r := Result.start m.name c.checkedRules
  match m.violation? with
  | some e => .done (stop r ⟨e, false⟩)
  | none =>
    match graphs m.sortedFunctions with
    | .error e => .done (.ok (r.fail e))
    | .ok gs => runTaints c (schedule c arrival) deadline m gs (r.enter .loaded)

end Analysis

end ConstantTime
