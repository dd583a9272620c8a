/-
Options of the command line.

An option has a long name, and some have a letter. A long name may be shortened as long as it fits
one option only; its value follows as the next argument or behind an equals sign. Letters can be
joined behind one dash, and a value may follow its letter directly; an equals sign behind the first
letter does not count. What does not start with a dash is a value, and so are a single dash, a
negative number, an argument with a blank in it that is no option, and everything behind two
dashes. Two dashes that are attached to an option leave it blank.

All arguments are told apart before the first one counts. Then they count from left to right, and
the first that asks for help or for the version, or is wrong, ends it.
-/
import ConstantTime.Report
import ConstantTime.Text.Numeral

set_option autoImplicit false

namespace ConstantTime.CommandLine

/-- What an option that takes a value is set to. -/
inductive Setting (α : Type)
  | value (a : α)
  /-- Nothing, though the option was given. -/
  | blank

namespace Setting

/-- What a text sets an option to, if it can be read. -/
def read {α : Type} (parse : String → Option α) (text : String) : Option (Setting α) :=
  if text = "--" then some .blank else (parse text).map .value

/-- The data that a setting is overridden with; a blank is an empty list. -/
def toJson {α : Type} (encode : α → Json) : Setting α → Json
  | .value a => encode a
  | .blank => .arr []

/-- The path that an option is set to, if there is one. -/
def path? : Option (Setting String) → Option String
  | some (.value path) => if path = "" then none else some path
  | _ => none

end Setting

/-- What a run of the program is asked to do. -/
structure Options where
  target : Option String
  output : Option (Setting String)
  format : Setting Report.Format
  noColor : Bool
  config : Option (Setting String)
  /-- The rules to check, as given; none for all. -/
  rules : Option (List (Setting String))
  severity : Option (Setting Severity)
  listRules : Bool
  jobs : Option (Setting Int)
  timeout : Option (Setting Float)
  maxCallDepth : Option (Setting Int)
  verbose : Bool
  debug : Bool

/-- Nothing is asked for. -/
def Options.unset : Options :=
  ⟨none, none, .value .console, false, none, none, none, false, none, none, none, false, false⟩

/-- Why no run is made of the arguments. -/
inductive Stop
  /-- They are wrong. -/
  | usage
  /-- They ask for help. -/
  | help
  /-- They ask for the version. -/
  | version
  deriving DecidableEq

/-! ## Names

An option has a long name and most have a letter. A long name may be abbreviated as long as it is
clear which option is meant. -/

/-- The options. -/
inductive Switch
  | help
  | output
  | format
  | noColor
  | config
  | rule
  | severity
  | listRules
  | jobs
  | timeout
  | maxCallDepth
  | verbose
  | debug
  | version
  deriving DecidableEq

namespace Switch

def all : List Switch :=
  [.help, .output, .format, .noColor, .config, .rule, .severity, .listRules, .jobs, .timeout,
    .maxCallDepth, .verbose, .debug, .version]

def longName : Switch → String
  | .help => "--help"
  | .output => "--output"
  | .format => "--format"
  | .noColor => "--no-color"
  | .config => "--config"
  | .rule => "--rule"
  | .severity => "--severity"
  | .listRules => "--list-rules"
  | .jobs => "--jobs"
  | .timeout => "--timeout"
  | .maxCallDepth => "--max-call-depth"
  | .verbose => "--verbose"
  | .debug => "--debug"
  | .version => "--version"

def letter? : Switch → Option Char
  | .help => some 'h'
  | .output => some 'o'
  | .format => some 'f'
  | .config => some 'c'
  | .rule => some 'r'
  | .severity => some 's'
  | .jobs => some 'j'
  | .verbose => some 'v'
  | _ => none

def takesValue : Switch → Bool
  | .output | .format | .config | .rule | .severity | .jobs | .timeout | .maxCallDepth => true
  | _ => false

def ofLongName? (s : String) : Option Switch := all.find? fun w => w.longName == s

def ofLetter? (c : Char) : Option Switch := all.find? fun w => w.letter? == some c

/-- The options whose long name starts like this. -/
def abbreviatedBy (s : List Char) : List Switch :=
  all.filter fun w => s.isPrefixOf w.longName.toList

end Switch

/-! ## Telling arguments apart

Whether an argument is an option is decided by its first characters. What names no option is a
value all the same if it is a negative number or has a blank in it. -/

/-- An argument. -/
inductive Argument
  | value (s : String)
  /-- Options without value whose letters are joined, and a last option with a value if one is
  attached to it. -/
  | options (flags : List Switch) (last : Switch) (attached : Option String)
  /-- Options that are wrongly put together. -/
  | wrong
  /-- What looks like an option and is none. -/
  | unknown

/-- A text without the line break at its end. -/
def chomp (cs : List Char) : List Char :=
  if cs.getLast? = some '\n' then cs.dropLast else cs

/-- A negative number, which is a value in spite of its dash. It may have a line break at its
end. -/
def isNegativeNumber : List Char → Bool
  | '-' :: rest =>
    let isDigit (c : Char) : Bool := (Text.digit? c).isSome
    let whole := (chomp rest).takeWhile isDigit
    match (chomp rest).dropWhile isDigit with
    | [] => !whole.isEmpty
    | '.' :: fraction => !fraction.isEmpty && fraction.all isDigit
    | _ => false
  | _ => false

/-- A text up to the first equals sign, and what follows it. -/
def splitEquals (cs : List Char) : List Char × Option String :=
  match cs.dropWhile fun c => c != '=' with
  | [] => (cs, none)
  | _ :: rest => (cs.takeWhile fun c => c != '=', some (String.ofList rest))

namespace Argument

/-- What an argument with a dash is if it names no option. -/
def nameless (s : String) : Argument :=
  if isNegativeNumber s.toList || s.toList.contains ' ' then .value s else .unknown

/-- An option with what follows an equals sign, behind options without value. -/
def assigned (flags : List Switch) (w : Switch) (v : String) : Argument :=
  if w.takesValue then .options flags w (some v) else .wrong

/-- An option by its long name, with what follows the equals sign. -/
def long (w : Switch) : Option String → Argument
  | some v => assigned [] w v
  | none => .options [] w none

/-- A letter with what is attached to it: its value, or more letters. -/
def joined (flags : List Switch) (w : Switch) : List Char → Argument
  | [] => assigned flags w ""
  | c :: rest =>
    if w.takesValue then .options flags w (some (String.ofList (c :: rest)))
    else
      match Switch.ofLetter? c, rest with
      | none, _ => .wrong
      | some next, [] => .options (flags ++ [w]) next none
      | some next, rest => joined (flags ++ [w]) next rest

/-- A letter with what follows it directly. -/
def short (w : Switch) : List Char → Argument
  | [] => .options [] w none
  | '=' :: rest => joined [] w rest
  | rest => joined [] w rest

/-- Tells what an argument is. A shortened name that fits several options is refused. -/
def classify (s : String) : Except Stop Argument :=
  match s.toList with
  | '-' :: '-' :: rest =>
    let (name, attached) := splitEquals ('-' :: '-' :: rest)
    match Switch.ofLongName? (String.ofList name), Switch.abbreviatedBy name with
    | some w, _ => .ok (long w attached)
    | none, [] => .ok (nameless s)
    | none, [w] => .ok (long w attached)
    | none, _ => .error .usage
  | '-' :: letter :: rest =>
    match Switch.ofLetter? letter with
    | some w => .ok (short w rest)
    | none => .ok (nameless s)
  | _ => .ok (.value s)

end Argument

/-! ## Counting arguments

There is one target at most, and an option takes the next argument if it needs a value. What is
left over is refused in the end. -/

namespace Options

/-- Sets an option that takes no value. -/
def flag (o : Options) : Switch → Except Stop Options
  | .help => .error .help
  | .version => .error .version
  | .noColor => .ok { o with noColor := true }
  | .listRules => .ok { o with listRules := true }
  | .verbose => .ok { o with verbose := true }
  | .debug => .ok { o with debug := true }
  | _ => .error .usage

/-- Makes use of a value that can be read, and refuses it otherwise. -/
def given {α : Type} (v : Option α) (use : α → Options) : Except Stop Options :=
  match v with
  | some v => .ok (use v)
  | none => .error .usage

/-- Sets an option to a value. -/
def set (o : Options) (w : Switch) (value : String) : Except Stop Options :=
  match w with
  | .output => given (Setting.read some value) fun v => { o with output := v }
  | .config => given (Setting.read some value) fun v => { o with config := v }
  | .rule => given (Setting.read some value) fun v => { o with rules := o.rules.getD [] ++ [v] }
  | .format => given (Setting.read Report.Format.ofName? value) fun v => { o with format := v }
  | .severity => given (Setting.read Severity.ofName? value) fun v => { o with severity := v }
  | .jobs => given (Setting.read Text.int? value) fun v => { o with jobs := v }
  | .maxCallDepth => given (Setting.read Text.int? value) fun v => { o with maxCallDepth := v }
  | .timeout => given (Setting.read Text.float? value) fun v => { o with timeout := v }
  | _ => .error .usage

/-- Sets options without value, and then a last one. -/
def apply (o : Options) (flags : List Switch) (last : Switch) (value : Option String) :
    Except Stop Options := do
  let o ← flags.foldlM flag o
  match value with
  | some v => o.set last v
  | none => o.flag last

end Options

/-- The arguments read so far. -/
structure Reading where
  options : Options
  /-- Some argument was one too many. -/
  surplus : Bool
  /-- The target was given before the last option. -/
  settled : Bool

namespace Reading

/-- Takes a value as the target. -/
def take (r : Reading) (s : String) : Reading :=
  if r.options.target.isSome then { r with surplus := true }
  else { r with options := { r.options with target := s } }

/-- Goes on with the options that are set now. -/
def advance (r : Reading) (o : Options) : Reading :=
  { r with options := o, settled := o.target.isSome }

/-- Counts arguments. -/
def read (r : Reading) : List Argument → Except Stop Reading
  | [] => .ok r
  | .value s :: rest => (r.take s).read rest
  | .unknown :: rest => read { r with surplus := true } rest
  | .wrong :: _ => .error .usage
  | .options flags last attached :: rest =>
    match attached, last.takesValue, rest with
    | none, true, .value s :: more =>
      match r.options.apply flags last (some s) with
      | .error e => .error e
      | .ok o => (r.advance o).read more
    | none, true, _ => .error .usage
    | value, _, rest =>
      match r.options.apply flags last value with
      | .error e => .error e
      | .ok o => (r.advance o).read rest

end Reading

/-- The arguments up to two dashes, and those behind them. -/
def splitDashes (args : List String) : List String × Option (List String) :=
  match args.dropWhile fun a => a != "--" with
  | [] => (args, none)
  | _ :: rest => (args.takeWhile fun a => a != "--", some rest)

/-- Reads the arguments of the program. Once the target was given, two dashes may follow it at once
but not behind another option. -/
def Options.parse (args : List String) : Except Stop Options := do
  let (before, behind) := splitDashes args
  let arguments ← collect Argument.classify before
  let r ← Reading.read ⟨.unset, false, false⟩ arguments
  let r := (behind.getD []).foldl Reading.take r
  if r.surplus || (r.settled && behind.isSome) then .error .usage else return r.options

end ConstantTime.CommandLine
