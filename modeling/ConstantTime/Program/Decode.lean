/-
Reading a module from JSON data.

Names may be given by any value and are then its text, as long as the value can be written. Lists
of functions, blocks and instructions may be left out or be any value that counts as not given;
lists of parameters and locations may only be left out or null. The name of a module is read first,
then its functions, then its locations; within a function and an instruction the parts are read in
a fixed order, too, so that the first defect in that order is the one reported.
-/
import ConstantTime.Abort
import ConstantTime.Json.Display
import ConstantTime.Text.Lowercase

set_option autoImplicit false

namespace ConstantTime

namespace Decode

/-! ## Fields

What the parts of a module have in common: fields that may be missing, lists and names. -/

/-- Rejects the data because of what was found in a function and a block. -/
def reject {α : Type} (cause : Cause) (f b : String) : Except Abort α :=
  .error (.malformed ⟨cause, f, b⟩)

/-- A field that is present and not null. -/
def present (raw : Json) (field : String) : Option Json :=
  match raw.get? field with
  | some .null => none
  | v => v

/-- The items of a list field for which anything that counts as not given is an empty list. -/
def items? (raw : Json) (field : String) : Option (List Json) :=
  match raw.get? field with
  | none => some []
  | some (.arr items) => some items
  | some v => if v.isGiven then none else some []

/-- The items of a list field that may be left out or null. -/
def optItems? (raw : Json) (field : String) : Option (List Json) :=
  match present raw field with
  | none => some []
  | some (.arr items) => some items
  | some _ => none

/-- Reads the items of a list field; `none` is a field that holds something else. -/
def listed {α : Type} (part : Json → Except Abort α) (field f b : String) :
    Option (List Json) → Except Abort (List α)
  | none => reject (.notList field) f b
  | some items => collect part items

/-- The text of a value. -/
def text (v : Json) : Except Abort String :=
  match v.text? with
  | some s => .ok s
  | none => .error (.fault .unwritable)

/-- The text of a field that may be left out or null. -/
def optText (raw : Json) (field : String) : Except Abort (Option String) :=
  match present raw field with
  | none => .ok none
  | some v => (text v).map some

/-- A list of names; a single text is a list of one. -/
def names (raw : Json) (field : String) (f b : String) : Except Abort (List String) :=
  match present raw field with
  | none => .ok []
  | some (.str s) => .ok [s]
  | some (.arr items) => collect text items
  | some _ => reject (.notList field) f b

/-- The name of a function or location, which has to be given. -/
def givenId (raw : Json) : Option Json :=
  match raw.get? "id" with
  | some id => if id.isGiven then some id else none
  | none => none

/-! ## Words

Values that have to be one of a few words, in small or capital letters. -/

/-- What a word stands for, with the cause of an error that shows the word. -/
def word {α : Type} (ofName? : String → Option α) (unknown : String → Cause) (f b : String)
    (raw : Json) : Except Abort α := do
  let word ← text raw
  match ofName? (Text.lower word) with
  | some x => return x
  | none => reject (unknown word) f b

def sensitivity (raw : Json) (f : String) : Except Abort Sensitivity :=
  word Sensitivity.ofName? .unknownSensitivity f "" raw

def opcode (raw : Json) (f b : String) : Except Abort Opcode :=
  word Opcode.ofName? .unknownOpcode f b raw

/-- The storage of a location. Unlike the others, its error shows the word in small letters. -/
def storage (raw : Json) (f : String) : Except Abort Storage :=
  word Storage.ofName? (fun w => .unknownStorage (Text.lower w)) f "" raw

/-! ## Parts of a module

A part that is missing or of the wrong kind is malformed, and the report says in which function and
block. -/

/-- A parameter: its name alone, or an object with its name and sensitivity. -/
def param (f : String) (raw : Json) : Except Abort Param :=
  match raw with
  | .str s => .ok ⟨s, .unknown⟩
  | _ =>
    match raw.get? "value" with
    | none => reject .paramEntry f ""
    | some v => do
      let value ← text v
      let s ← sensitivity ((raw.get? "sensitivity").getD (.str "unknown")) f
      return ⟨value, s⟩

def instr (f b : String) (raw : Json) : Except Abort Instr :=
  match raw.get? "op" with
  | none => reject .instrEntry f b
  | some op => do
    let op ← opcode op f b
    let inputs ← names raw "inputs" f b
    let output ← optText raw "output"
    let targets ← names raw "targets" f b
    let location ← optText raw "location"
    let callee ← optText raw "callee"
    return ⟨op, inputs, output, targets, location, callee⟩

def block (f : String) (raw : Json) : Except Abort Block :=
  match present raw "id" with
  | none => reject .blockEntry f ""
  | some id => do
    let id ← text id
    let instrs ← listed (instr f id) "instructions" f id (items? raw "instructions")
    return ⟨id, instrs⟩

def location (f : String) (raw : Json) : Except Abort Location :=
  match givenId raw with
  | none => reject .locationEntry f ""
  | some id => do
    let s ← storage ((raw.get? "storage").getD (.str "heap")) f
    let id ← text id
    let base ← optText raw "base"
    return ⟨id, s, base, ((raw.get? "secret").getD (.bool false)).isGiven⟩

def locations (f : String) (raw : Json) : Except Abort (List Location) :=
  listed (location f) "locations" f "" (optItems? raw "locations")

def params (f : String) (raw : Json) : Except Abort (List Param) :=
  listed (param f) "params" f "" (optItems? raw "params")

def returns (f : String) (raw : Json) : Except Abort (Option Sensitivity) :=
  match present raw "returns" with
  | none => .ok none
  | some v => (sensitivity v f).map some

def blocks (f : String) (raw : Json) : Except Abort (List Block) :=
  listed (block f) "blocks" f "" (items? raw "blocks")

def function (raw : Json) : Except Abort Function :=
  match givenId raw with
  | none => reject .functionEntry "" ""
  | some id => do
    let id ← text id
    let params ← params id raw
    let returns ← returns id raw
    let blocks ← blocks id raw
    let locations ← locations id raw
    return ⟨id, blocks, params, returns, locations⟩

/-- The name of a module, with one for a module that does not give its own. -/
def moduleName (defaultName : String) (raw : Json) : Except Abort String :=
  match raw.get? "module" with
  | some v => if v.isGiven then text v else .ok defaultName
  | none => .ok defaultName

end Decode

/-- A module as declared by JSON data, with a name for a module that does not give its own. -/
def Module.decode (defaultName : String) (raw : Json) : Except Abort Module :=
  match raw with
  | .obj _ =>
    match Decode.items? raw "functions" with
    | none => Decode.reject (.notList "functions") "" ""
    | some items => do
      let name ← Decode.moduleName defaultName raw
      let functions ← collect Decode.function items
      let locations ← Decode.locations "" raw
      return ⟨name, functions, locations⟩
  | _ => Decode.reject .documentNotMapping "" ""

end ConstantTime
