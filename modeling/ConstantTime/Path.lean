/-
Paths: texts that lead from folder to folder.

A path is a text whose parts stand between slashes. It starts at the root or at the working folder.
What the working folder itself is called is not known here, so a place is described by the way to
it: down from the root, or down from a folder so many levels above the working folder.
-/
set_option autoImplicit false

namespace ConstantTime

/-- The way down to a place. -/
structure Place where
  /-- How many levels above the working folder the way starts; none if it starts at the root. -/
  above : Option Nat
  names : List String
  deriving DecidableEq

namespace Place

/-- The place that one part of a path leads to: here, up, or down. There is nothing above the
root. -/
def enter (here : Place) (part : String) : Place :=
  if part = "." then here
  else if part = ".." then
    match here.names with
    | [] => { here with above := here.above.map fun n => n + 1 }
    | _ => { here with names := here.names.dropLast }
  else { here with names := here.names ++ [part] }

/-- Whether a place is somewhere below a folder. -/
def isBelow (p folder : Place) : Bool :=
  decide (p.above = folder.above) && folder.names.isPrefixOf p.names &&
    decide (folder.names.length < p.names.length)

end Place

namespace Path

/-- The parts of a path, which are never empty. -/
def steps (path : String) : List String := (path.splitOn "/").filter fun p => p != ""

/-- The parts of a path that are not single dots. -/
def parts (path : String) : List String := (steps path).filter fun p => p != "."

/-- Where a path starts. -/
def start (path : String) : Place := ⟨if path.startsWith "/" then none else some 0, []⟩

/-- The place that a path leads to if all of the way is there. -/
def place (path : String) : Place := (steps path).foldl Place.enter (start path)

/-- The slashes at the front of a path in normal form. Two of them are kept, and more than two
count as one. -/
def anchor (path : String) : String :=
  match path.toList.takeWhile fun c => c == '/' with
  | [] => ""
  | [_, _] => "//"
  | _ => "/"

/-- A path in normal form: without empty parts and single dots, unless nothing else is left of
it. -/
def normal (path : String) : String :=
  let text := anchor path ++ "/".intercalate (parts path)
  if text = "" then "." else text

/-- The last part of a path. -/
def fileName (path : String) : String := ((parts path).getLast?).getD ""

/-- The last part of a path without its suffix. A dot at the front or at the end starts no
suffix. -/
def stem (path : String) : String :=
  let cs := (fileName path).toList
  let tail := (cs.reverse.takeWhile fun c => c != '.').length
  if 0 < tail ∧ tail + 1 < cs.length then String.ofList (cs.take (cs.length - tail - 1))
  else fileName path

/-- The paths that one comes through on the way, the path itself included. -/
def stations (path : String) : List String :=
  (List.range (steps path).length).map fun n =>
    anchor path ++ "/".intercalate ((steps path).take (n + 1))

end Path

end ConstantTime
