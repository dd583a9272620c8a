/-
The program: reads the files that the arguments name, holds the session, prints and writes.
-/
import ConstantTime.CommandLine.Session
import ConstantTime.Document.Json
import Std.Time

set_option autoImplicit false

namespace ConstantTime.CommandLine

/-- Answers the questions of a computation from the clock of the machine. -/
def answered {α : Type} : Timed Float α → IO α
  | .done a => pure a
  | .ask _ next => do
    let now ← IO.monoNanosNow
    answered (next (now.toFloat / 1000000000))

/-- The file or folder at a path, if there is one. -/
def look (path : String) : IO Files := do
  try
    let bytes ← IO.FS.readBinFile path
    return ⟨[(path, bytes.toList)], []⟩
  catch e =>
    match e with
    -- the number tells a folder from a path that leads through a file
    | .inappropriateType _ number _ => return ⟨[], if number = 21 then [path] else []⟩
    | _ => return ⟨[], []⟩

/-- The files and folders at paths. -/
def gatherFiles (paths : List String) : IO Files :=
  paths.foldlM (fun (fs : Files) path => do
    let found ← look path
    return ⟨fs.contents ++ found.contents, fs.folders ++ found.folders⟩) ⟨[], []⟩

/-- The present time up to microseconds, for reports. -/
def timestamp : IO String := do
  let now ← Std.Time.PlainDateTime.now
  return String.ofList ((toString now).toList.take "2000-01-01T00:00:00.000000".length)

/-- The surroundings of a session: the files and folders that its arguments name, the terminal, the
time. -/
def surroundings (args : List String) : IO Surroundings := do
  let paths :=
    match Options.parse args with
    | .ok o => o.target.toList ++ (Setting.path? o.config).toList ++ (Setting.path? o.output).toList
    | .error _ => []
  let files ← gatherFiles (paths.flatMap Path.stations)
  return ⟨files, Document.json, ← (← IO.getStdout).isTty, ← timestamp⟩

/-- Prints and writes what a session leaves behind. -/
def Output.deliver (o : Output) : IO UInt32 := do
  if let some w := o.written then IO.FS.writeFile w.path w.text
  (← IO.getStdout).putStr o.stdout
  (← IO.getStderr).putStr o.stderr
  return o.exit.toUInt32

end ConstantTime.CommandLine

open ConstantTime CommandLine in
/-- Runs the program. -/
def main (args : List String) : IO UInt32 := do
  match ← answered (session (← surroundings args) args) with
  | .stopped stop => stop.output.deliver
  | .finished output => output.deliver
  | .raised failure => throw (.userError failure.message)
