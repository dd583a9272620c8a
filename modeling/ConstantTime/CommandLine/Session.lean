/-
A session of the command line: from arguments and files to what is printed, what is written, and
the exit code.

The rules are listed on request. Otherwise a module is analyzed and reported, to standard output or
to a file. The exit code says how serious the findings are; anything that keeps the analysis from
being made or reported has its message on standard error and exit code 1.
-/
import ConstantTime.Analyzer
import ConstantTime.CommandLine.Options

set_option autoImplicit false

namespace ConstantTime.CommandLine

/-- A file that is written: its path as it was given, the place that it leads to, and the text. -/
structure Written where
  path : String
  place : Place
  text : String

/-- What a session leaves behind. -/
structure Output where
  exit : Nat
  stdout : String
  stderr : String
  written : Option Written

namespace Output

def print (exit : Nat) (text : String) : Output := ⟨exit, text, "", none⟩

def complain (message : String) : Output := ⟨1, "", message ++ "\n", none⟩

end Output

/-- Why a module is not analyzed or its report not made. -/
inductive Failure
  | config (e : ConfigError)
  | analysis (e : AnalyzerError)
  /-- The format of the report was left blank. -/
  | noFormat
  | file (path : String) (e : OpenError)

namespace Failure

def message : Failure → String
  | .config e => e.message
  | .analysis e => e.message
  | .noFormat => "'list' object has no attribute 'lower'"
  | .file path e => e.message path

/-- The settings themselves are at fault. -/
def isInSettings : Failure → Bool
  | .config e => e.isInSettings
  | _ => false

end Failure

/-- How a session ends. -/
inductive Outcome
  /-- The arguments ask for no run. -/
  | stopped (s : Stop)
  | finished (o : Output)
  /-- A failure that is passed on. -/
  | raised (f : Failure)

/-! ## Texts -/

/-- How the program is called. -/
def usageText : String :=
  "usage: " ++ Report.toolName ++
    " [-h] [-o OUTPUT] [-f \x7bconsole,json,sarif\x7d] [--no-color] " ++
    "[-c CONFIG] [-r RULES] [-s \x7bcritical,high,medium,low,info\x7d] [--list-rules] " ++
    "[-j JOBS] [--timeout TIMEOUT] [--max-call-depth MAX_CALL_DEPTH] [-v] [--debug] [--version] " ++
    "[target]\n"

/-- What is printed when the arguments ask for no run. -/
def Stop.output : Stop → Output
  | .usage => ⟨2, "", usageText, none⟩
  | .help => .print 0 usageText
  | .version => .print 0 (Report.toolName ++ " " ++ Report.toolVersion ++ "\n")

/-- A text filled up with blanks. -/
def padded (width : Nat) (s : String) : String :=
  s ++ String.ofList (List.replicate (width - s.length) ' ')

/-- The rules with their titles and severities. -/
def ruleList : String :=
  let line := Report.Style.bar '-' ++ "\n"
  "\nRules (" ++ toString Rule.all.length ++ " total):\n\n" ++ line ++
    String.join (Rule.all.map fun r =>
      "  " ++ padded 4 r.code ++ " " ++ padded 45 r.title ++ " [" ++ r.severity.name ++ "]\n") ++
        line

/-! ## Runs

A session reads the target and the settings, runs the analysis and prints or writes its report.
Everything that it depends on is given to it. -/

/-- What surrounds a session. -/
structure Surroundings where
  files : Files
  /-- What reads the files. -/
  reader : DocumentReader
  /-- Standard output is a terminal. -/
  terminal : Bool
  /-- The time that reports carry. -/
  timestamp : String

namespace Options

/-- The settings that options replace. -/
def overrides (o : Options) : List (String × Json) :=
  let setting {α : Type} (encode : α → Json) (s : Option (Setting α)) : Json :=
    (s.map (Setting.toJson encode)).getD .null
  [("enabled_rules", (o.rules.map fun rules => .arr (rules.map (Setting.toJson .str))).getD .null),
    ("max_workers", setting .int o.jobs),
    ("timeout_seconds", setting .float o.timeout),
    ("max_call_depth", setting .int o.maxCallDepth),
    ("min_severity", setting (fun s => .str s.name) o.severity)]

/-- The report that options ask for. -/
def report (terminal : Bool) (o : Options) : Except Failure Report :=
  match o.format with
  | .value .console => .ok (.console ⟨!o.noColor && terminal, o.verbose⟩)
  | .value .json => .ok .json
  | .value .sarif => .ok .sarif
  | .blank => .error .noFormat

/-- Prints or writes a report. -/
def deliver (files : Files) (o : Options) (exit : Nat) (content : String) : Except Failure Output :=
  match Setting.path? o.output with
  | none => .ok (.print exit (content ++ "\n"))
  | some path =>
    match files.writable path with
    | .error e => .error (.file path e)
    | .ok place => .ok ⟨exit, "", "", some ⟨path, place, content⟩⟩

/-- Analyzes the module in a file and reports on it. -/
def analyze (s : Surroundings) (o : Options) (target : String) :
    Timed Float (Except Failure Output) :=
  match Analyzer.create s.reader s.files (Setting.path? o.config) o.overrides with
  | .error e => .done (.error (.config e))
  | .ok a =>
    (a.analyzeFile s.reader s.files target).map fun step =>
      match step.1 with
      | .error e => .error (.analysis e)
      | .ok r =>
        match o.report s.terminal with
        | .error f => .error f
        | .ok report => o.deliver s.files r.exitCode (report.write s.timestamp r)

/-- What becomes of a failure. The options may ask to pass it on, unless the settings are at
fault. -/
def settle (o : Options) (f : Failure) : Outcome :=
  if f.isInSettings then .finished (.complain ("Configuration error: " ++ f.message))
  else if o.debug then .raised f
  else .finished (.complain ("Error: " ++ f.message))

/-- A session with the given options. -/
def run (s : Surroundings) (o : Options) : Timed Float Outcome :=
  if o.listRules then .done (.finished (.print 0 ruleList))
  else
    let target := o.target.getD ""
    if target = "" then .done (.finished (.complain "Error: a module file is required"))
    else
      match s.files.hasPath target with
      | .error e => .done (.raised (.file (Path.normal target) e))
      | .ok false =>
        .done (.finished (.complain ("Error: Module file does not exist: " ++ Path.normal target)))
      | .ok true =>
        (o.analyze s target).map fun outcome =>
          match outcome with
          | .ok output => .finished output
          | .error f => o.settle f

end Options

/-- A session with the given arguments. -/
def session (s : Surroundings) (args : List String) : Timed Float Outcome :=
  match Options.parse args with
  | .error stop => .done (.stopped stop)
  | .ok o => o.run s

/-- How a session with the given arguments ends when the clock has no answer. -/
def stranded (args : List String) : Outcome :=
  match Options.parse args with
  | .error stop => .stopped stop
  | .ok o => o.settle (.analysis .timeOutOfRange)

end ConstantTime.CommandLine
