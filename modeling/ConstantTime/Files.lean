/-
Files: a fixed collection of files and folders, so that reading and writing are functions.

What stands at a place is a file, a folder, or nothing. The working folder, the folders above it
and the root are always there, and so is every folder above a file. A path is followed part by
part, and each part has to start from a folder: one that starts from a file is told apart from one
that starts from nothing.
-/
import ConstantTime.Path
import ConstantTime.Text.Quoted

set_option autoImplicit false

namespace ConstantTime

/-- Why a file cannot be opened. -/
inductive OpenError
  | missing
  | isFolder
  | throughFile
  | nameTooLong
  /-- The path holds a null character, which no path can. -/
  | nullByte
  deriving DecidableEq

/-- The report of a file that cannot be opened. -/
def OpenError.message (path : String) (e : OpenError) : String :=
  let numbered (number reason : String) : String :=
    "[Errno " ++ number ++ "] " ++ reason ++ ": " ++ Text.quote path
  match e with
  | .missing => numbered "2" "No such file or directory"
  | .isFolder => numbered "21" "Is a directory"
  | .throughFile => numbered "20" "Not a directory"
  | .nameTooLong => numbered "36" "File name too long"
  | .nullByte => "embedded null byte"

/-- A collection of files with their bytes, and of folders besides those that the files are in. -/
structure Files where
  contents : List (String × List UInt8)
  folders : List String

namespace Files

/-- The number of bytes that a part of a path may have. -/
def maxPart : Nat := 255

/-- The number of bytes that a path may have. -/
def maxPath : Nat := 4095

/-! ## Places

A place is where a path leads, with the names of the folders on the way. Only folders can be gone
through, and each step may fail for a reason of its own. -/

/-- The bytes of the file at a place. -/
def file? (fs : Files) (p : Place) : Option (List UInt8) :=
  (fs.contents.find? fun f => Path.place f.1 == p).map Prod.snd

/-- Whether there is a folder at a place. -/
def isFolder (fs : Files) (p : Place) : Bool :=
  p.names.isEmpty || (fs.folders.any fun f => Path.place f == p || (Path.place f).isBelow p) ||
    fs.contents.any fun f => (Path.place f.1).isBelow p

/-- Refuses a place that has no folder. -/
def enterable (fs : Files) (p : Place) : Except OpenError Unit :=
  if fs.isFolder p then .ok ()
  else if (fs.file? p).isSome then .error .throughFile
  else .error .missing

/-- Follows one part of a path. -/
def step (fs : Files) (here : Place) (part : String) : Except OpenError Place := do
  fs.enterable here
  if maxPart < part.utf8ByteSize then .error .nameTooLong else return here.enter part

/-- Refuses a path that cannot be followed at all. -/
def followable (path : String) : Except OpenError Unit :=
  if path.toList.contains (Char.ofNat 0) then .error .nullByte
  else if maxPath < path.utf8ByteSize then .error .nameTooLong
  else .ok ()

/-- The place that a path leads to. -/
def locate (fs : Files) (path : String) : Except OpenError Place := do
  followable path
  (Path.steps path).foldlM fs.step (Path.start path)

/-! ## Reading -/

/-- The bytes of the file at a path, which is brought into normal form first. -/
def open? (fs : Files) (path : String) : Except OpenError (List UInt8) := do
  let p ← fs.locate (Path.normal path)
  match fs.file? p with
  | some bytes => return bytes
  | none => if fs.isFolder p then .error .isFolder else .error .missing

/-- Whether there is a file or a folder at a path. Only a name that is too long leaves that open. -/
def hasPath (fs : Files) (path : String) : Except OpenError Bool :=
  match fs.open? path with
  | .ok _ | .error .isFolder => .ok true
  | .error .missing | .error .throughFile | .error .nullByte => .ok false
  | .error .nameTooLong => .error .nameTooLong

/-! ## Writing

No file is written here. It is only decided where, or why not. -/

/-- The place at which a file is written. The path is taken as it is, so a slash or dots at its end
say that a folder is meant. -/
def writable (fs : Files) (path : String) : Except OpenError Place := do
  followable path
  match (Path.steps path).getLast? with
  | none => .error .isFolder
  | some last =>
    let folder ← (Path.steps path).dropLast.foldlM fs.step (Path.start path)
    fs.enterable folder
    if last = "." ∨ last = ".." ∨ path.endsWith "/" then .error .isFolder
    else
      let p ← fs.step folder last
      if fs.isFolder p then .error .isFolder else return p

end Files

end ConstantTime
