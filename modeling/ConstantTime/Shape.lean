/-
The shape of functions: whether their running time may depend on secrets.

A function is variable-time when a reachable block branches on a tainted value, when a loop is left
on one, or when it may call a variable-time function, a routine known to be so, or anything at all.
Functions are judged callees first. Functions that call each other in a circle count as
variable-time, and so does a function at which the chain of calls below it becomes longer than
allowed.
-/
import ConstantTime.Anomaly
import ConstantTime.CallGraph
import ConstantTime.Flow.Loops
import ConstantTime.Quantity
import ConstantTime.Taint.Fixpoint

set_option autoImplicit false

namespace ConstantTime

/-! ## Evidence

Whatever speaks against a function is kept with the place where it was found, so that a report can
say why. -/

/-- Why a function or a part of it is variable-time. -/
inductive Reason
  | secretBranch
  | secretLoop
  | variableTimeCallee
  | variableTimeRoutine
  | unresolvedCall
  | recursion
  | depthLimit
  deriving DecidableEq

def Reason.text : Reason → String
  | .secretBranch => "secret-dependent branch"
  | .secretLoop => "secret-dependent loop bound"
  | .variableTimeCallee => "call to a non-constant-time function"
  | .variableTimeRoutine => "call to a known non-constant-time routine"
  | .unresolvedCall => "unresolved indirect call"
  | .recursion => "recursive call cycle"
  | .depthLimit => "call depth limit exceeded"

/-- A reason, with the block where it was found. -/
structure Evidence where
  reason : Reason
  block : Option String
  detail : String
  deriving DecidableEq

def Evidence.text (e : Evidence) : String :=
  let place :=
    match e.block with
    | some b => if b = "" then "" else " in " ++ b
    | none => ""
  e.reason.text ++ place ++ (if e.detail = "" then "" else " (" ++ e.detail ++ ")")

/-- The shape of a function: what speaks against it. -/
structure Shape where
  function : String
  evidence : List Evidence

/-- Something speaks against it. -/
def Shape.isVariableTime (s : Shape) : Bool := !s.evidence.isEmpty

/-- The reasons, each once. -/
def Shape.reasons (s : Shape) : List Reason := distinct (s.evidence.map Evidence.reason)

/-- What counts as variable-time, by configuration. -/
structure Policy where
  /-- The longest chain of calls that is followed. -/
  maxDepth : Quantity
  /-- Routines known to be variable-time. -/
  variableTimeRoutines : List String
  /-- Whether a call that may go anywhere counts. -/
  unresolvedIsVariableTime : Bool

/-- What is known of a function when its blocks are inspected. -/
structure Inspector where
  function : Function
  graph : FlowGraph
  taints : Taints
  loops : List Loop
  policy : Policy
  /-- The functions already found variable-time. -/
  isVariableTime : String → Bool

namespace Inspector

def isTainted (i : Inspector) (v : Option String) : Bool := (i.taints.of v).isTainted

/-- The evidence in calling the given functions. -/
def callEvidence (i : Inspector) (b : String) (callees : List String) : List Evidence :=
  callees.filterMap fun c =>
    if c ∈ i.policy.variableTimeRoutines then some ⟨.variableTimeRoutine, some b, c⟩
    else if i.isVariableTime c then some ⟨.variableTimeCallee, some b, c⟩
    else none

/-- The evidence in an instruction of a block. -/
def instrEvidence (i : Inspector) (b : String) (instr : Instr) : List Evidence :=
  match instr.op with
  | .branch =>
    if i.isTainted instr.condition then
      [⟨.secretBranch, some b, "condition " ++ instr.condition.getD "None"⟩]
    else []
  | .indirectBranch =>
    if 1 < instr.distinctTargets.length ∧ i.isTainted instr.indirectTarget then
      [⟨.secretBranch, some b, "target " ++ instr.indirectTarget.getD "None"⟩]
    else []
  | .call => i.callEvidence b instr.callee.toList
  | .indirectCall =>
    if instr.targets = [] then
      if i.policy.unresolvedIsVariableTime then
        [⟨.unresolvedCall, some b, "through " ++ instr.indirectTarget.getD "None"⟩]
      else []
    else i.callEvidence b instr.distinctTargets
  | _ => []

/-- The value on which control leaves a loop at a block, if it depends on one. -/
def exitValue? (i : Inspector) (b : String) : Except Fault (Option String) :=
  match (i.function.block? b).bind Block.terminator? with
  | none => .error (.noTerminator b)
  | some t => .ok (if t.op = .branch then t.condition else t.indirectTarget)

/-- The evidence in leaving the loop with the given header at one of some blocks: the first at
which it is left on a tainted value. -/
def exitEvidence? (i : Inspector) (header : String) : List String → Except Fault (Option Evidence)
  | [] => .ok none
  | b :: rest =>
    match i.exitValue? b with
    | .error e => .error e
    | .ok none => i.exitEvidence? header rest
    | .ok (some v) =>
      if i.isTainted (some v)
        then .ok (some ⟨.secretLoop, some header, "exit on " ++ v ++ " in " ++ b⟩)
      else i.exitEvidence? header rest

/-- The evidence in a loop. -/
def loopEvidence? (i : Inspector) (l : Loop) : Except Fault (Option Evidence) :=
  i.exitEvidence? l.header (l.exiting i.graph)

/-- The evidence in some blocks: that in their instructions, then that in the loops which they
head. -/
def evidence (i : Inspector) (blocks : List String) : Except Fault (List Evidence) :=
  match collectSome i.loopEvidence? (i.loops.filter fun l => decide (l.header ∈ blocks)) with
  | .error e => .error e
  | .ok found =>
    .ok (((i.function.blocks.filter fun b => decide (b.id ∈ blocks)).flatMap fun b =>
      b.instrs.flatMap (i.instrEvidence b.id)) ++ found)

end Inspector

/-! ## Judging the functions of a module

Functions are judged component by component, callees first. The functions of one component can all
call each other, so they share what recursion and depth say. -/

/-- The shapes of functions, in the order in which they were judged. -/
structure Shapes where
  table : Table Shape
  /-- For each function, the length of the longest chain of calls below it. -/
  depths : Table Nat
  anomalies : List Anomaly

namespace Shapes

def isVariableTime (s : Shapes) (f : String) : Bool :=
  ((s.table.get? f).map Shape.isVariableTime).getD false

/-- The length of the longest chain of calls below a function that was judged. -/
def depth (s : Shapes) (f : String) : Except Fault Nat :=
  match s.depths.get? f with
  | some d => .ok d
  | none => .error (.unknownFunction f)

/-- What is known of the functions that are judged. -/
structure Facts where
  module : Module
  graphs : Table FlowGraph
  taints : Table Taints
  policy : Policy

/-- The inspector of a function with the given taints. -/
def inspector (facts : Facts) (s : Shapes) (f : Function) (taints : Taints) :
    Except Fault Inspector :=
  match facts.graphs.get? f.id with
  | none => .error (.unknownFunction f.id)
  | some g =>
    match g.loops with
    | .error e => .error e
    | .ok loops => .ok ⟨f, g, taints, loops, facts.policy, s.isVariableTime⟩

/-- The evidence in the reachable blocks of a function whose taints are known. -/
def bodyEvidence (facts : Facts) (s : Shapes) (f : String) : Except Fault (List Evidence) :=
  match facts.module.function? f, facts.taints.get? f with
  | some fn, some taints =>
    match inspector facts s fn taints with
    | .error e => .error e
    | .ok i => i.evidence i.graph.reachable
  | _, _ => .ok []

/-- The anomaly of a chain of calls that is too long. -/
def depthAnomaly (facts : Facts) (f : String) (depth : Nat) : Anomaly :=
  ⟨.depthExceeded, f,
    "call chain depth " ++ toString depth ++ " exceeds bound " ++ facts.policy.maxDepth.text, none,
    none⟩

/-- Judges the functions of a component one after the other. All members share the evidence
`common`, and the anomaly of a chain of calls with the length `tooDeep`. -/
def judge (facts : Facts) (common : List Evidence) (tooDeep : Option Nat) :
    Shapes → List String → Except Fault Shapes
  | s, [] => .ok s
  | s, f :: rest =>
    match bodyEvidence facts s f with
    | .error e => .error e
    | .ok body =>
      judge facts common tooDeep
        { s with
          table := s.table.set f ⟨f, common ++ body⟩
          anomalies := s.anomalies ++ (tooDeep.map (depthAnomaly facts f)).toList } rest

/-- Whether the functions of a component call each other in a circle. -/
def isCircle (calls : CallGraph) : List String → Except Fault Bool
  | [] => .error .emptyComponent
  | [f] => .ok (calls.isSelfRecursive f)
  | _ => .ok true

/-- The functions outside a component that its members may call. -/
def outside (calls : CallGraph) (component : List String) : List String :=
  (component.flatMap calls.callees).filter fun c => decide (c ∉ component)

/-- The length of the longest chain of calls below a component, from those below the functions that
it calls outside. A circle counts each of its members. -/
def chainLength (component : List String) (recursive : Bool) (depths : List Nat) : Nat :=
  let below := (depths.map fun d => d + 1).foldl max 0
  if recursive then below + component.length else below

/-- Whether chains of calls become too long at a component: that below it is, and none of those
below the functions that it calls outside. -/
def exceeds (p : Policy) (depth : Nat) (depths : List Nat) : Bool :=
  p.maxDepth.below depth && depths.all fun d => !p.maxDepth.below d

/-- What speaks against all functions of a component. -/
def sharedEvidence (p : Policy) (component : List String) (recursive exceeded : Bool)
    (depth : Nat) :
    List Evidence :=
  (if recursive then [⟨.recursion, none, " -> ".intercalate component⟩] else []) ++
    if exceeded then [⟨.depthLimit, none, "depth " ++ toString depth ++ " > " ++ p.maxDepth.text⟩]
      else []

/-- Judges the functions of a component. The chain of calls below them goes through their callees
outside it. -/
def judgeComponent (facts : Facts) (calls : CallGraph) (s : Shapes) (component : List String) :
    Except Fault Shapes :=
  match isCircle calls component, collect s.depth (outside calls component) with
  | .error e, _ => .error e
  | _, .error e => .error e
  | .ok recursive, .ok depths =>
    let depth := chainLength component recursive depths
    let exceeded := exceeds facts.policy depth depths
    let known := { s with depths := component.foldl (fun t f => t.set f depth) s.depths }
    judge facts (sharedEvidence facts.policy component recursive exceeded depth)
      (if exceeded then some depth else none) known component

/-- Judges components one after the other. -/
def judgeAll (facts : Facts) (calls : CallGraph) : Shapes → List (List String) → Except Fault Shapes
  | s, [] => .ok s
  | s, component :: rest =>
    match judgeComponent facts calls s component with
    | .error e => .error e
    | .ok s => judgeAll facts calls s rest

/-- Judges all functions, callees first. -/
def ofModule (facts : Facts) (calls : CallGraph) : Except Fault Shapes :=
  judgeAll facts calls ⟨Table.empty, Table.empty, []⟩ calls.components

end Shapes

end ConstantTime
