/-
What can be wrong with a module, and how it is reported.

A defect is a cause together with the function and block in which it was found. The wording of each
cause is fixed in one place, and the place goes in front of it in brackets: the function, then the
block after a colon. An empty function name means that there is no place to show.
-/
import ConstantTime.Program.Basic

set_option autoImplicit false

namespace ConstantTime

/-- The causes for which a module is rejected. -/
inductive Cause
  -- documents
  | unreadable (path reason : String)
  | unparsable (file detail : String)
  | notUtf8 (file detail : String)
  -- data
  | documentNotMapping
  | notList (field : String)
  | functionEntry
  | paramEntry
  | blockEntry
  | instrEntry
  | locationEntry
  | unknownOpcode (text : String)
  | unknownStorage (text : String)
  | unknownSensitivity (text : String)
  -- structure of modules and functions
  | duplicateFunction (id : String)
  | duplicateLocation (id : String)
  | shadowedLocation (id : String)
  | noBlocks
  | duplicateBlock (id : String)
  | duplicateParam (value : String)
  | redefined (value : String)
  -- structure of blocks
  | emptyBlock
  | noTerminator
  | earlyTerminator (op : Opcode)
  | lastFallthrough
  -- operands
  | missingOutput (op : Opcode)
  | missingInput (op : Opcode)
  | undefinedValue (value : String)
  | selfUse (value : String)
  | missingLocation (op : Opcode)
  | unknownLocation (id : String)
  | missingCallee
  | tooFewTargets
  | jumpTargets
  | unknownTarget (block : String)
  | usedBeforeDefinition (value : String)
  | undominatedUse (value block : String)
  -- lookups
  | unknownBlock (id : String)
  -- regions
  | repeatedRegionStart
  | repeatedRegionEnd
  | endBeforeStart
  | nestedRegion (inner outer : String)
  | enteredFromOutside (entry pred : String)
  | reenteredAfterEnd (entry pred : String)
  | regionWithoutExit (entry : String)
  | overlappingRegions (first second : String)
  | endOutsideRegion
  deriving DecidableEq

/-- The wording of a cause. -/
def Cause.text : Cause → String
  | .unreadable path reason => "cannot read " ++ path ++ ": " ++ reason
  | .unparsable file detail => "cannot parse " ++ file ++ ": " ++ detail
  | .notUtf8 file detail => file ++ " is not valid UTF-8: " ++ detail
  | .documentNotMapping => "module document must be a mapping"
  | .notList field => "'" ++ field ++ "' must be a list"
  | .functionEntry => "function entry must be a mapping with an 'id'"
  | .paramEntry => "parameter must name a 'value'"
  | .blockEntry => "block entry must be a mapping with an 'id'"
  | .instrEntry => "instruction must be a mapping with an 'op'"
  | .locationEntry => "location entry must be a mapping with an 'id'"
  | .unknownOpcode text => "unknown opcode '" ++ text ++ "'"
  | .unknownStorage text => "unknown storage class '" ++ text ++ "'"
  | .unknownSensitivity text => "unknown sensitivity '" ++ text ++ "'"
  | .duplicateFunction id => "duplicate function id '" ++ id ++ "'"
  | .duplicateLocation id => "duplicate memory location '" ++ id ++ "'"
  | .shadowedLocation id => "local location '" ++ id ++ "' shadows a module location"
  | .noBlocks => "function has no blocks"
  | .duplicateBlock id => "duplicate block id '" ++ id ++ "'"
  | .duplicateParam value => "duplicate parameter '" ++ value ++ "'"
  | .redefined value => "value '" ++ value ++ "' defined more than once"
  | .emptyBlock => "empty block"
  | .noTerminator => "block has no terminator"
  | .earlyTerminator op => "terminator '" ++ op.name ++ "' is not the last instruction"
  | .lastFallthrough => "fallthrough from the last block"
  | .missingOutput op => "'" ++ op.name ++ "' must define an output value"
  | .missingInput op => "'" ++ op.name ++ "' requires an input value"
  | .undefinedValue value => "reference to undefined value '" ++ value ++ "'"
  | .selfUse value => "'" ++ value ++ "' is used by its own definition"
  | .missingLocation op => "'" ++ op.name ++ "' requires a memory location"
  | .unknownLocation id => "unknown memory location '" ++ id ++ "'"
  | .missingCallee => "call requires a callee"
  | .tooFewTargets => "conditional branch requires at least two targets"
  | .jumpTargets => "jump requires exactly one target"
  | .unknownTarget block => "branch to unknown block '" ++ block ++ "'"
  | .usedBeforeDefinition value => "value '" ++ value ++ "' is used before its definition"
  | .undominatedUse value block =>
    "definition of '" ++ value ++ "' in '" ++ block ++ "' does not dominate its use"
  | .unknownBlock id => "unknown block '" ++ id ++ "'"
  | .repeatedRegionStart => "nested region_start in a single block"
  | .repeatedRegionEnd => "multiple region_end markers in a single block"
  | .endBeforeStart => "region_end precedes region_start"
  | .nestedRegion inner outer =>
    "region opened at '" ++ inner ++ "' is nested inside the region opened at '" ++ outer ++ "'"
  | .enteredFromOutside entry pred =>
    "block in the region opened at '" ++ entry ++ "' is reachable from '" ++ pred ++
      "' outside the region"
  | .reenteredAfterEnd entry pred =>
    "block in the region opened at '" ++ entry ++ "' is re-entered after region_end in '" ++ pred ++
      "'"
  | .regionWithoutExit entry => "region opened at '" ++ entry ++ "' has no exit"
  | .overlappingRegions first second =>
    "block belongs to regions opened at '" ++ first ++ "' and '" ++ second ++ "'"
  | .endOutsideRegion => "region_end outside any constant-time region"

/-- A defect of a module, located where possible. -/
structure Malformed where
  cause : Cause
  function : String := ""
  block : String := ""
  deriving DecidableEq

/-- A located text: the place stands in brackets in front of it. -/
def located (function block text : String) : String :=
  if function = "" then text
  else if block = "" then "[" ++ function ++ "] " ++ text
  else "[" ++ function ++ ":" ++ block ++ "] " ++ text

/-- The report of a defect. -/
def Malformed.message (e : Malformed) : String := located e.function e.block e.cause.text

end ConstantTime
