/-
The call graph of a module: which function can call which.

A call names the function that it calls, an indirect call those that it may reach. Functions
outside the module are external. The graph proper has the functions of the module as nodes, with
names and callees in ascending order.
-/
import ConstantTime.Graph.Components
import ConstantTime.Program.Basic

set_option autoImplicit false

namespace ConstantTime

/-- A call and one function that it may reach. -/
structure CallSite where
  caller : String
  callee : String
  block : String
  index : Nat
  indirect : Bool
  deriving DecidableEq

/-- The functions of a module and their calls. -/
structure CallGraph where
  functions : List String
  sites : List CallSite

/-- The calls of a function. -/
def Function.callSites (f : Function) : List CallSite :=
  f.placed.flatMap fun p =>
    match p.instr.op with
    | .call => p.instr.callee.toList.map fun c => ⟨f.id, c, p.block.id, p.index, false⟩
    | .indirectCall => p.instr.distinctTargets.map fun c => ⟨f.id, c, p.block.id, p.index, true⟩
    | _ => []

namespace CallGraph

def ofModule (m : Module) : CallGraph :=
  ⟨distinct (m.functions.map Function.id), m.functions.flatMap Function.callSites⟩

def sitesOf (g : CallGraph) (f : String) : List CallSite :=
  g.sites.filter fun s => decide (s.caller = f)

/-- The functions of the module that a function may call. -/
def callees (g : CallGraph) (f : String) : List String :=
  sortNames
    (distinct (((g.sitesOf f).map CallSite.callee).filter fun c => decide (c ∈ g.functions)))

/-- The functions outside the module that a function may call. -/
def externalCallees (g : CallGraph) (f : String) : List String :=
  sortNames
    (distinct (((g.sitesOf f).map CallSite.callee).filter fun c => decide (c ∉ g.functions)))

/-- The functions that may call a function of the module. -/
def callers (g : CallGraph) (f : String) : List String :=
  sortNames (distinct (((g.sites.filter fun s => decide (s.callee = f)).map CallSite.caller).filter
    fun c => decide (c ∈ g.functions ∧ f ∈ g.functions)))

def isSelfRecursive (g : CallGraph) (f : String) : Bool := decide (f ∈ g.callees f)

def graph (g : CallGraph) : Digraph String :=
  ⟨(sortNames g.functions).map fun f => (f, g.callees f)⟩

/-- Groups of functions that call each other, each after all that it calls and with its names in
ascending order. -/
def components (g : CallGraph) : List (List String) := g.graph.components.map sortNames

/-- The number of pairs of a function and one that it may call. -/
def edgeCount (g : CallGraph) : Nat := (g.functions.flatMap g.callees).length

/-- The number of external functions that are called. -/
def externalCount (g : CallGraph) : Nat :=
  (distinct ((g.sites.map CallSite.callee).filter fun c => decide (c ∉ g.functions))).length

end CallGraph

end ConstantTime
