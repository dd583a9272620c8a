/-
Constant-time regions and indirect sites.

A region is opened by a marker in a block and grows along the flow graph until blocks that close
it. It covers the instructions from the opening marker on, up to the closing marker. Regions may
not nest, may only be entered through their first block, must not be entered again behind a closing
marker, and need a way out; a function in which that fails is rejected.

An indirect branch or call is resolved if it has one possible destination. Without any known
destination it is an anomaly.
-/
import ConstantTime.Anomaly
import ConstantTime.Flow.Graph

set_option autoImplicit false

namespace ConstantTime

/-- A constant-time region: its first block, all its blocks in the order of discovery, and those at
which it ends. -/
structure Region where
  entry : String
  blocks : List String
  exits : List String

/-- How many destinations an indirect branch or call has. -/
inductive Resolution
  | resolved
  | multiple
  | unresolved
  deriving DecidableEq

namespace Resolution

def name : Resolution → String
  | .resolved => "resolved"
  | .multiple => "multiple"
  | .unresolved => "unresolved"

def ofTargets : List String → Resolution
  | [] => .unresolved
  | [_] => .resolved
  | _ => .multiple

end Resolution

/-- An indirect branch or call. -/
structure IndirectSite where
  block : String
  index : Nat
  op : Opcode
  /-- The value it goes through. -/
  value : Option String
  targets : List String
  resolution : Resolution
  inRegion : Bool

namespace IndirectSite

def isCall (s : IndirectSite) : Bool := decide (s.op = .indirectCall)

/-- More than one destination is possible, as far as is known. -/
def isDynamic (s : IndirectSite) : Bool := decide (s.resolution ≠ .resolved)

/-- What kind of site it is, in messages. -/
def kind (s : IndirectSite) : String := if s.isCall then "call" else "branch"

/-- The value it goes through, in messages. -/
def valueText (s : IndirectSite) : String := s.value.getD "None"

end IndirectSite

/-- The regions and indirect sites of a function. -/
structure RegionMap where
  regions : List Region
  sites : List IndirectSite
  anomalies : List Anomaly

/-! ## Membership

A block lies in a region as a whole, except that the markers cut off the part before the start and
the part behind the end. -/

/-- The region that a block belongs to. -/
def regionOf? (regions : List Region) (b : String) : Option Region :=
  regions.find? fun r => decide (b ∈ r.blocks)

/-- Whether the marker that closes a region comes before an instruction of the block. -/
def Block.isBehindEnd (b : Block) (index : Nat) : Bool :=
  match b.positions .regionEnd with
  | stop :: _ => decide (stop < index)
  | [] => false

/-- Whether an instruction of a block runs inside a region: it is not before the marker that opens
the region nor after one that closes it. -/
def covered (regions : List Region) (b : Block) (index : Nat) : Except Fault Bool :=
  match regionOf? regions b.id with
  | none => .ok false
  | some r =>
    if b.id = r.entry then
      match b.positions .regionStart with
      | start :: _ => .ok (decide (start ≤ index) && !b.isBehindEnd index)
      | [] => .error (.noRegionStart b.id)
    else .ok !b.isBehindEnd index

namespace RegionMap

def regionOf? (r : RegionMap) (b : String) : Option Region := ConstantTime.regionOf? r.regions b

def covers (r : RegionMap) (b : Block) (index : Nat) : Except Fault Bool :=
  covered r.regions b index

def unresolved (r : RegionMap) : List IndirectSite :=
  r.sites.filter fun s => decide (s.resolution = .unresolved)

end RegionMap

/-! ## Growing regions

The checks stop at the first thing wrong: the markers of each block, then the regions in block
order, and last the ends that belong to no region. -/

namespace Function

/-- Whether the block with the given name closes a region. -/
def closesRegion (f : Function) (b : String) : Bool :=
  ((f.block? b).map Block.endsRegion).getD false

/-- The first block whose markers are not in order: at most one of each, and the opening one
first. -/
def markerViolation? (f : Function) : Option Malformed :=
  f.blocks.findSome? fun b =>
    match b.positions .regionStart, b.positions .regionEnd with
    | _ :: _ :: _, _ => some ⟨.repeatedRegionStart, f.id, b.id⟩
    | _, _ :: _ :: _ => some ⟨.repeatedRegionEnd, f.id, b.id⟩
    | [start], [stop] => if stop < start then some ⟨.endBeforeStart, f.id, b.id⟩ else none
    | _, _ => none

/-- The flow graph cut behind the blocks that close a region. -/
def regionGraph (f : Function) (g : FlowGraph) : Digraph String :=
  ⟨g.graph.adj.map fun e => (e.1, if f.closesRegion e.1 then [] else e.2)⟩

/-- The first way into a region other than through its first block. -/
def entranceViolation? (f : Function) (g : FlowGraph) (reachable : List String) (entry : String)
    (members : List String) : Option Malformed :=
  members.findSome? fun b =>
    if b = entry then none
    else
      (g.preds b).findSome? fun p =>
        if p ∉ reachable then none
        else if p ∉ members then some ⟨.enteredFromOutside entry p, f.id, b⟩
        else if f.closesRegion p then some ⟨.reenteredAfterEnd entry p, f.id, b⟩
        else none

/-- The region opened at a block, where `starts` are the blocks that open one. -/
def growRegion (f : Function) (g : FlowGraph) (reachable starts : List String) (entry : String) :
    Except Malformed Region :=
  let members := (f.regionGraph g).reach [entry]
  match members.find? fun b => decide (b ≠ entry) && decide (b ∈ starts) with
  | some inner => .error ⟨.nestedRegion inner entry, f.id, inner⟩
  | none =>
    match f.entranceViolation? g reachable entry members with
    | some e => .error e
    | none =>
      let exits := (f.blocks.filter fun b =>
        decide (b.id ∈ members) && (b.endsRegion || decide (b.id ∈ g.exits))).map Block.id
      if exits.isEmpty then .error ⟨.regionWithoutExit entry, f.id, entry⟩
      else .ok ⟨entry, members, exits⟩

/-- Opens the regions at `entries` one after the other, behind those of `done`. -/
def growRegions (f : Function) (g : FlowGraph) (reachable starts : List String)
    (done : List Region) :
    List String → Except Malformed (List Region)
  | [] => .ok done
  | entry :: rest =>
    match f.growRegion g reachable starts entry with
    | .error e => .error e
    | .ok r =>
      let overlap : Option Malformed := r.blocks.findSome? fun b =>
        (regionOf? done b).map fun other => ⟨.overlappingRegions other.entry entry, f.id, b⟩
      match overlap with
      | some e => .error e
      | none => f.growRegions g reachable starts (done ++ [r]) rest

/-- The regions of a function. -/
def regions (f : Function) (g : FlowGraph) : Except Malformed (List Region) :=
  match f.markerViolation? with
  | some e => .error e
  | none =>
    let reachable := g.reachable
    let starts :=
      (f.blocks.filter fun b => b.startsRegion && decide (b.id ∈ reachable)).map Block.id
    match f.growRegions g reachable starts [] starts with
    | .error e => .error e
    | .ok regions =>
      let stray := f.blocks.find? fun b =>
        b.endsRegion && decide (b.id ∈ reachable) && (regionOf? regions b.id).isNone
      match stray with
      | some b => .error ⟨.endOutsideRegion, f.id, b.id⟩
      | none => .ok regions

/-- An indirect branch or call of a function with the given regions. -/
def indirectSite (regions : List Region) (p : Placed) : Except Fault IndirectSite :=
  match covered regions p.block p.index with
  | .error e => .error e
  | .ok inRegion =>
    let targets := p.instr.distinctTargets
    .ok ⟨p.block.id, p.index, p.instr.op, p.instr.indirectTarget, targets,
      .ofTargets targets, inRegion⟩

/-- The indirect branches and calls of a function with the given regions. -/
def indirectSites (f : Function) (regions : List Region) : Except Fault (List IndirectSite) :=
  collect (indirectSite regions) (f.placed.filter fun p => p.instr.op.isIndirect)

end Function

/-- The anomaly of an indirect site without known destination. -/
def IndirectSite.anomaly (function : String) (s : IndirectSite) : Anomaly :=
  ⟨.unresolvedTarget, function,
    "indirect " ++ s.kind ++ " through '" ++ s.valueText ++ "' has no static target bound",
    some s.block, some s.index⟩

/-- The regions and indirect sites of a function. -/
def RegionMap.ofFunction (f : Function) (g : FlowGraph) : Except Abort RegionMap :=
  match f.regions g with
  | .error e => .error (.malformed e)
  | .ok regions =>
    match f.indirectSites regions with
    | .error e => .error (.fault e)
    | .ok sites =>
      .ok ⟨regions, sites,
        (sites.filter fun s => decide (s.resolution = .unresolved)).map (IndirectSite.anomaly f.id)⟩

end ConstantTime
