/-
Phases: one task for each function, with a deadline.

Before a task starts the clock is read; if the deadline has passed, the task is left out and the run
has timed out. The tasks run one after the other and stop at the first that is late, or they all run
side by side. In the latter case the clock is read once for each function, in the order of the
functions, and the results arrive in any order. The first failure that arrives ends the phase; what
arrived late before it is not forgotten.
-/
import ConstantTime.Analysis.Timed
import ConstantTime.Program.Basic

set_option autoImplicit false

namespace ConstantTime

/-- Which readings of the clock are past the deadline; `none` if there is no deadline. -/
abbrev Deadline (τ : Type) := Option (τ → Bool)

/-- The phases of a run. -/
inductive Stage
  | taint
  | regions
  | checks
  deriving DecidableEq

/-- In which order the results of tasks that run side by side arrive. -/
structure Arrival where
  reorder : {β : Type} → List β → List β
  perm : ∀ {β : Type} (l : List β), (reorder l).Perm l

/-- The results arrive in the order of the functions. -/
def Arrival.inOrder : Arrival := ⟨fun l => l, fun l => .refl l⟩

/-- How the tasks of a run are scheduled. -/
inductive Schedule
  | sequential
  | parallel (arrival : Stage → Arrival)

/-- What became of a task. -/
inductive Slot (ε β : Type)
  | done (v : β)
  | late
  | failed (e : ε)

/-- What a phase gives: for each function whose task ran its result, and whether some task was
late. -/
structure Phase (β : Type) where
  outputs : List (String × β)
  timedOut : Bool

/-- The failure that ends a phase, and whether a task was late before it. -/
structure Stop (ε : Type) where
  error : ε
  timedOut : Bool

namespace Phase

variable {τ ε β : Type}

/-- Runs a task that is not late. -/
def attempt (task : Function → Except ε β) (f : Function) : Slot ε β :=
  match task f with
  | .ok v => .done v
  | .error e => .failed e

/-- Runs the task of a function unless it is late. -/
def slot (deadline : Deadline τ) (task : Function → Except ε β) (f : Function) :
    Timed τ (Slot ε β) :=
  match deadline with
  | none => .done (attempt task f)
  | some late => .ask .failed fun t => .done (if late t then .late else attempt task f)

/-- Adds the result of a function in front. -/
def add (f : String) (v : β) (p : Phase β) : Phase β := { p with outputs := (f, v) :: p.outputs }

/-- Runs the tasks one after the other. -/
def sequentially (deadline : Deadline τ) (task : Function → Except ε β) :
    List Function → Timed τ (Except (Stop ε) (Phase β))
  | [] => .done (.ok ⟨[], false⟩)
  | f :: rest =>
    (slot deadline task f).bind fun s =>
      match s with
      | .late => .done (.ok ⟨[], true⟩)
      | .failed e => .done (.error ⟨e, false⟩)
      | .done v => (sequentially deadline task rest).map fun others => others.map (add f.id v)

/-- What becomes of all tasks. -/
def slots (deadline : Deadline τ) (task : Function → Except ε β) :
    List Function → Timed τ (List (String × Slot ε β))
  | [] => .done []
  | f :: rest =>
    (slot deadline task f).bind fun s => (slots deadline task rest).map fun others =>
      (f.id, s) :: others

/-- Records that a task was late. -/
def setLate : Except (Stop ε) (Phase β) → Except (Stop ε) (Phase β)
  | .ok p => .ok { p with timedOut := true }
  | .error s => .error { s with timedOut := true }

/-- Collects what tasks gave, as it arrives; the first failure ends it. -/
def gather : List (String × Slot ε β) → Except (Stop ε) (Phase β)
  | [] => .ok ⟨[], false⟩
  | (f, .done v) :: rest => (gather rest).map (add f v)
  | (_, .late) :: rest => setLate (gather rest)
  | (_, .failed e) :: _ => .error ⟨e, false⟩

/-- Runs all tasks side by side. -/
def sideBySide (arrival : Arrival) (deadline : Deadline τ) (task : Function → Except ε β)
    (functions : List Function) : Timed τ (Except (Stop ε) (Phase β)) :=
  (slots deadline task functions).map fun all => gather (arrival.reorder all)

/-- Runs a phase. A single function is run by itself under any schedule. -/
def run (schedule : Schedule) (stage : Stage) (deadline : Deadline τ) (task : Function → Except ε β)
    (functions : List Function) : Timed τ (Except (Stop ε) (Phase β)) :=
  match schedule with
  | .sequential => sequentially deadline task functions
  | .parallel arrival =>
    if 1 < functions.length then sideBySide (arrival stage) deadline task functions
    else sequentially deadline task functions

/-- The results by function. -/
def table (p : Phase β) : Table β := Table.ofList p.outputs

end Phase

end ConstantTime
