/-
Loading modules: from data, from a text, or from a file.

A module that is loaded is well-formed. Bytes that are no text, and a text that is no document, make
it malformed just as ill-formed data does.
-/
import ConstantTime.Document
import ConstantTime.Files
import ConstantTime.Program.Decode
import ConstantTime.Program.Validity

set_option autoImplicit false

namespace ConstantTime.Module

/-- A well-formed module from JSON data. -/
def load (defaultName : String) (raw : Json) : Except Abort Module :=
  match Module.decode defaultName raw with
  | .error e => .error e
  | .ok m =>
    match m.violation? with
    | some e => .error e
    | none => .ok m

/-- Why a text or a file gives no module. -/
inductive LoadError
  | malformed (e : Malformed)
  | fault (e : Fault)
  /-- There can be no such path. -/
  | invalidPath
  /-- The reader of documents fails. -/
  | unread (message : String)

def LoadError.message : LoadError → String
  | .malformed e => e.message
  | .fault e => e.message
  | .invalidPath => OpenError.nullByte.message ""
  | .unread message => message

def LoadError.ofAbort : Abort → LoadError
  | .malformed e => .malformed e
  | .fault e => .fault e

/-- A well-formed module from what a reader gave for the document `source`. -/
def ofDocument (source defaultName : String) : Except DocumentError Json → Except LoadError Module
  | .error (.unparsable detail) => .error (.malformed ⟨.unparsable source detail, "", ""⟩)
  | .error (.notUtf8 detail) => .error (.malformed ⟨.notUtf8 source detail, "", ""⟩)
  | .error (.failed message) => .error (.unread message)
  | .ok raw => (Module.load defaultName raw).mapError .ofAbort

/-- A well-formed module from a text, in which bytes play no part. -/
def loadText (reader : DocumentReader) (text : String) : Except LoadError Module :=
  match reader.ofText text with
  | .error (.notUtf8 detail) => .error (.unread detail)
  | outcome => ofDocument "module text" "module" outcome

/-- A well-formed module from a file, named after the file unless it gives its own name. -/
def loadFile (reader : DocumentReader) (fs : Files) (path : String) : Except LoadError Module :=
  match fs.open? path with
  | .error .nullByte => .error .invalidPath
  | .error e =>
    .error (.malformed ⟨.unreadable (Path.normal path) (e.message (Path.normal path)), "", ""⟩)
  | .ok bytes => ofDocument (Path.fileName path) (Path.stem path) (reader.ofBytes bytes)

end ConstantTime.Module
