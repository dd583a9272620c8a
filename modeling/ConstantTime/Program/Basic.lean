/-
Programs: modules of functions in a small block-structured form.

A module has functions and memory locations shared by them. A function has annotated parameters,
locations of its own and blocks of instructions, the first of which is its entry; the last
instruction of a block says where control goes next. Values are named and meant to be defined once,
by a parameter or by one instruction.

The types below hold whatever was declared, sound or not: two blocks may share a name, a branch may
lead nowhere. What a usable module has to satisfy is said in `ConstantTime.Program.Validity`.
-/
import ConstantTime.Table

set_option autoImplicit false

namespace ConstantTime

/-! ## Declarations

What a program says about its values and memory besides code. -/

/-- What is declared of a parameter or a returned value. -/
inductive Sensitivity
  | pub
  | unknown
  | secret
  deriving DecidableEq

namespace Sensitivity

def name : Sensitivity → String
  | .pub => "public"
  | .unknown => "unknown"
  | .secret => "secret"

def all : List Sensitivity := [.secret, .pub, .unknown]

def ofName? (s : String) : Option Sensitivity := all.find? fun v => v.name == s

end Sensitivity

/-- Where a memory location lives. -/
inductive Storage
  | stack
  | heap
  | global
  deriving DecidableEq

namespace Storage

def name : Storage → String
  | .stack => "local"
  | .heap => "heap"
  | .global => "global"

def all : List Storage := [.stack, .heap, .global]

def ofName? (s : String) : Option Storage := all.find? fun v => v.name == s

end Storage

/-- A named piece of memory. Two locations with different known bases are known to be apart. -/
structure Location where
  id : String
  storage : Storage
  base : Option String
  /-- Its contents are declared secret. -/
  secret : Bool
  deriving DecidableEq

/-- Whether two locations can be the same memory. -/
def Location.mayAlias (a b : Location) : Bool :=
  a.id == b.id ||
    match a.base, b.base with
    | some x, some y => x == y
    | _, _ => true

/-- A parameter of a function. -/
structure Param where
  value : String
  sensitivity : Sensitivity
  deriving DecidableEq

/-! ## Instructions

All instructions have the same fields. Which of them count depends on the opcode, and the checks of
a module see to it that these are there. -/

/-- The kinds of instructions. -/
inductive Opcode
  | compute | phi | load | store | call | indirectCall | scrub | declassify
  | regionStart | regionEnd
  | branch | jump | fallthrough | indirectBranch | ret
  deriving DecidableEq

namespace Opcode

def name : Opcode → String
  | .compute => "compute"
  | .phi => "phi"
  | .load => "load"
  | .store => "store"
  | .call => "call"
  | .indirectCall => "indirect_call"
  | .scrub => "scrub"
  | .declassify => "declassify"
  | .regionStart => "region_start"
  | .regionEnd => "region_end"
  | .branch => "branch"
  | .jump => "jump"
  | .fallthrough => "fallthrough"
  | .indirectBranch => "indirect_branch"
  | .ret => "return"

def all : List Opcode :=
  [.compute, .phi, .load, .store, .call, .indirectCall, .scrub, .declassify,
    .regionStart, .regionEnd, .branch, .jump, .fallthrough, .indirectBranch, .ret]

def ofName? (s : String) : Option Opcode := all.find? fun op => op.name == s

/-- Instructions that end a block. -/
def isTerminator : Opcode → Bool
  | .branch | .jump | .fallthrough | .indirectBranch | .ret => true
  | _ => false

/-- Instructions whose destination is a computed value. -/
def isIndirect : Opcode → Bool
  | .indirectBranch | .indirectCall => true
  | _ => false

/-- Instructions that open or close a constant-time region. -/
def isRegionMarker : Opcode → Bool
  | .regionStart | .regionEnd => true
  | _ => false

/-- Instructions that have to define a value. -/
def needsOutput : Opcode → Bool
  | .compute | .phi | .load | .declassify => true
  | _ => false

/-- Instructions that have to use a value. -/
def needsInput : Opcode → Bool
  | .phi | .store | .scrub | .declassify | .branch | .indirectBranch | .indirectCall => true
  | _ => false

/-- Instructions that have to name a memory location. -/
def needsLocation : Opcode → Bool
  | .load | .store => true
  | _ => false

/-- Instructions whose targets are blocks. -/
def targetsBlocks : Opcode → Bool
  | .branch | .jump | .indirectBranch => true
  | _ => false

end Opcode

/-- An instruction as declared. The targets are blocks for branches and functions for indirect
calls. -/
structure Instr where
  op : Opcode
  inputs : List String
  output : Option String
  targets : List String
  location : Option String
  callee : Option String
  deriving DecidableEq

namespace Instr

/-- The value a conditional branch depends on. -/
def condition (i : Instr) : Option String :=
  if i.op = .branch then i.inputs.head? else none

/-- The value an indirect branch or call goes through. -/
def indirectTarget (i : Instr) : Option String :=
  if i.op.isIndirect then i.inputs.head? else none

/-- The values a call hands over. -/
def arguments (i : Instr) : List String :=
  match i.op with
  | .call => i.inputs
  | .indirectCall => i.inputs.drop 1
  | _ => []

/-- The targets, each once, in the order of declaration. -/
def distinctTargets (i : Instr) : List String := distinct i.targets

/-- An instruction on one line; parts that are empty are left out. -/
def text (i : Instr) : String :=
  let given (o : Option String) (form : String → String) : List String :=
    match o with
    | some s => if s = "" then [] else [form s]
    | none => []
  let listed (xs : List String) (form : String → String) : List String :=
    if xs.isEmpty then [] else [form (", ".intercalate xs)]
  " ".intercalate <|
    given i.output (fun s => s ++ " =") ++ [i.op.name] ++ given i.callee id ++ listed i.inputs id ++
      given i.location (fun s => "@" ++ s) ++ listed i.targets (fun s => "-> " ++ s)

end Instr

/-! ## Blocks, functions, modules

Blocks and functions are found by their names; the first one counts if there are several. -/

/-- A named sequence of instructions. -/
structure Block where
  id : String
  instrs : List Instr
  deriving DecidableEq

namespace Block

/-- The last instruction, if it may end a block. -/
def terminator? (b : Block) : Option Instr :=
  match b.instrs.getLast? with
  | some i => if i.op.isTerminator then some i else none
  | none => none

/-- The positions of the instructions of one kind. -/
def positions (b : Block) (op : Opcode) : List Nat :=
  (b.instrs.zipIdx.filter fun p => decide (p.1.op = op)).map Prod.snd

def startsRegion (b : Block) : Bool := b.instrs.any fun i => decide (i.op = .regionStart)

def endsRegion (b : Block) : Bool := b.instrs.any fun i => decide (i.op = .regionEnd)

end Block

/-- Where a value is defined. -/
inductive Site
  | param
  | instr (block : String) (index : Nat)
  deriving DecidableEq

/-- A function as declared. -/
structure Function where
  id : String
  blocks : List Block
  params : List Param
  /-- What is declared of the returned value, if anything. -/
  returns : Option Sensitivity
  locations : List Location
  deriving DecidableEq

/-- An instruction with its place: the block it stands in and its position there. -/
structure Placed where
  block : Block
  index : Nat
  instr : Instr

namespace Function

/-- The first block with the given name. -/
def block? (f : Function) (b : String) : Option Block := f.blocks.find? fun blk => blk.id == b

/-- The position of the first block with the given name. -/
def blockIndex? (f : Function) (b : String) : Option Nat := f.blocks.findIdx? fun blk => blk.id == b

/-- All instructions with their places, in block order. -/
def placed (f : Function) : List Placed :=
  f.blocks.flatMap fun b => b.instrs.zipIdx.map fun p => ⟨b, p.2, p.1⟩

/-- Where each value is defined; the first definition counts. -/
def sites (f : Function) : Table Site :=
  let params := f.params.foldl (fun t p => t.set p.value .param) Table.empty
  f.placed.foldl (fun t p =>
    match p.instr.output with
    | some v => t.setNew v (.instr p.block.id p.index)
    | none => t) params

/-- The first parameter with the given name. -/
def param? (f : Function) (v : String) : Option Param := f.params.find? fun p => p.value == v

/-- Whether control leaves the function at the end of a block: by a return, or by an indirect branch
without known targets. -/
def leavesAt (b : Block) : Bool :=
  match b.terminator? with
  | some t => decide (t.op = .ret) || (decide (t.op = .indirectBranch) && t.targets.isEmpty)
  | none => false

end Function

/-- A module as declared. -/
structure Module where
  name : String
  functions : List Function
  locations : List Location
  deriving DecidableEq

namespace Module

/-- The last function with the given name. -/
def function? (m : Module) (f : String) : Option Function :=
  m.functions.reverse.find? fun g => g.id == f

def hasFunction (m : Module) (f : String) : Bool := (m.function? f).isSome

/-- The locations that a function can name: those of the module, overridden by its own. -/
def locationsFor (m : Module) (f : Function) : Table Location :=
  (m.locations ++ f.locations).foldl (fun t l => t.set l.id l) Table.empty

/-- The functions in ascending order of their names. -/
def sortedFunctions (m : Module) : List Function := sortByName Function.id m.functions

end Module

end ConstantTime
