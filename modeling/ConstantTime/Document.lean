/-
Documents: what modules and configurations are read from.

Documents are read by a reader that the analysis does not look into. It is given a text or the bytes
of a file, and it answers with the value that stands there or says why there is none. Errors of the
reader's own kind are expected and reported as defects of the document; any other failure is passed
on as it is.
-/
import ConstantTime.Json

set_option autoImplicit false

namespace ConstantTime

/-- Why a reader gives no value. -/
inductive DocumentError
  /-- The text is no document, for the given reason. -/
  | unparsable (detail : String)
  /-- The bytes are no text, for the given reason. -/
  | notUtf8 (detail : String)
  /-- Reading fails in a way that nobody expects. -/
  | failed (message : String)

/-- A reader of documents. -/
structure DocumentReader where
  /-- The value that a text holds. -/
  ofText : String → Except DocumentError Json
  /-- The value that a file with the given bytes holds. -/
  ofBytes : List UInt8 → Except DocumentError Json

end ConstantTime
