/-
The histories of an analyzer.

An analyzer is asked for one analysis after the other, of modules and of files. Whatever it is
given, however files are read and whatever the clock says, it is idle or failed afterwards, so it
can always be asked again; and without a time limit it answers as if it had just been made, the
choice between several defects aside. The states that a result records follow one course: all of
it, or the part up to where time ran out, or the part up to where the input was rejected.

Main statement: all steps of every sequence of requests are sound in this sense.
-/
import ConstantTime.Document.Json
import ConstantTime.Proofs.Untimed

set_option autoImplicit false

namespace ConstantTime

/-! ## The course of a run

A result records the states it went through. While the run is underway they are the beginning of
the course; in the end the result has been reported or has failed. -/

/-- The states of a run that is neither rejected nor out of time. -/
def RunState.course : List RunState :=
  [.idle, .loaded, .taintComputed, .regionsClassified, .detectorsRun, .reported]

namespace Result

/-- A result that records the whole course; or, when time ran out, its first three or four states
and the report; or, when the input was rejected, at least the first state and then the failure. A
failed result has one error and nothing else. -/
structure Sound (r : Result) : Prop where
  history : r.history = RunState.course ∨
    (r.timedOut = true ∧ ∃ k, 3 ≤ k ∧ k ≤ 4 ∧ r.history = RunState.course.take k ++
      [RunState.reported]) ∨
    ∃ k, 1 ≤ k ∧ k ≤ 5 ∧ r.history = RunState.course.take k ++ [RunState.failed]
  state : r.history.getLast? = some r.state
  failed : r.state = .failed → r.findings = [] ∧ r.anomalies = [] ∧ r.declassifications = [] ∧
    r.functionsAnalyzed = 0 ∧ r.errors.length = 1

/-- A run has gone through the first `k` states and met no error. -/
structure Underway (k : Nat) (r : Result) : Prop where
  history : r.history = RunState.course.take k
  errors : r.errors = []

/-- What a run leaves to be reported: it is rejected, it went through all states, or time ran out
before. -/
inductive Closing (r : Result) : Prop
  | rejected (hsound : r.Sound) (hstate : r.state = .failed)
  | complete (h : r.Underway 5) (hstate : r.state ≠ .failed)
  | late {k : Nat} (hk : 3 ≤ k ∧ k ≤ 4) (h : r.Underway k) (hstate : r.state ≠ .failed)
    (htimedOut : r.timedOut = true)

variable {k : Nat} {r : Result}

/-- Entering the next state of the course keeps a run underway. -/
theorem Underway.enter (h : r.Underway k) {s : RunState} (hs : RunState.course[k]? = some s) :
    (r.enter s).Underway (k + 1) where
  history := by
    show r.history ++ [s] = _
    rw [h.history, List.take_add_one, hs]
    rfl
  errors := h.errors

/-- A time-out is noted without changing the state. -/
theorem Underway.setTimedOut (h : r.Underway k) (timedOut : Bool) :
    Underway k { r with timedOut := timedOut } :=
  ⟨h.history, h.errors⟩

/-- A rejected run is sound. -/
theorem Underway.sound_fail (h : r.Underway k) (hk : 1 ≤ k ∧ k ≤ 5) (e : Malformed) :
    (r.fail e).Sound where
  history := by
    refine .inr (.inr ⟨k, hk.1, hk.2, ?_⟩)
    show r.history ++ [RunState.failed] = _
    rw [h.history]
  state := List.getLast?_concat
  failed := by
    intro _
    refine ⟨rfl, rfl, rfl, rfl, ?_⟩
    show (r.errors ++ [e.message]).length = 1
    simp [h.errors]

/-- What is not rejected is sound once it is reported. -/
theorem Closing.sound_report (h : r.Closing) (hstate : r.state ≠ .failed) (duration : Float) :
    Sound { r.enter .reported with duration := duration } where
  history := by
    cases h with
    | rejected _ hfailed => exact absurd hfailed hstate
    | complete h _ =>
      left
      show r.history ++ [RunState.reported] = _
      rw [h.history]
      rfl
    | @late k hk h _ htimedOut =>
      refine .inr (.inl ⟨htimedOut, k, hk.1, hk.2, ?_⟩)
      show r.history ++ [RunState.reported] = _
      rw [h.history]
  state := List.getLast?_concat
  failed := by
    intro hfailed
    cases hfailed

end Result

/-! ## Runs

Each phase takes the record one state further or closes it. The phases are taken from the last one
backwards, since each hands over to the next. -/

namespace Analysis

open Result (Underway Closing)

variable {τ : Type} (c : Config) (s : Schedule) (deadline : Deadline τ) (m : Module)
    (gs : Table FlowGraph)

/-- What a run gives, if it gives a result, can be reported. -/
def Closes (o : Except RunError Result) : Prop := ∀ r, o = .ok r → r.Closing

theorem closes_ok {r : Result} (hr : r.Closing) : Closes (.ok r) := by
  intro r' hr'
  cases hr'
  exact hr

theorem closes_error (e : RunError) : Closes (.error e) := by
  intro r' hr'
  cases hr'

/-- A failed phase closes the run: malformed input is reported, and a fault leaves no result. -/
theorem closes_stop {k : Nat} {r : Result} (hr : r.Underway k) (hk : 1 ≤ k ∧ k ≤ 5)
    (s : Stop Abort) :
    Closes (stop r s) := by
  unfold stop
  split
  · next e _ => exact closes_ok (.rejected ((hr.setTimedOut s.timedOut).sound_fail hk e) rfl)
  · exact closes_error _

/-- Putting together what was found keeps the states. -/
theorem closes_assemble (k : Known) (found : Table (List Finding)) {r : Result} (hr : r.Underway 5)
    (hstate : r.state ≠ .failed) :
    Closes ((assemble c k m.sortedFunctions found r).mapError .fault) := by
  unfold assemble
  dsimp only
  split
  · exact closes_error _
  · exact closes_ok (.complete ⟨hr.history, hr.errors⟩ hstate)

/-- The last phase ends with a report. -/
theorem closes_runChecks (taints : Table Taints) (regions : Table RegionMap) {r : Result}
    (hr : r.Underway 4) :
    (runChecks c s deadline m gs taints regions r).Always Closes := by
  unfold runChecks
  split
  · exact Timed.always_done (closes_error _)
  · dsimp only
    split
    · exact Timed.always_done (closes_error _)
    · apply Timed.always_bind
      intro outcome
      apply Timed.always_done
      cases outcome with
      | error e => exact closes_stop hr (by omega) e
      | ok found =>
        have hnext := (hr.setTimedOut found.timedOut).enter (s := .detectorsRun) rfl
        exact closes_assemble c m _ found.table hnext (by simp [Result.enter])

/-- The regions come next to last. -/
theorem closes_runRegions (taints : Table Taints) {r : Result} (hr : r.Underway 3) :
    (runRegions c s deadline m gs taints r).Always Closes := by
  apply Timed.always_bind
  intro outcome
  cases outcome with
  | error e => exact Timed.always_done (closes_stop hr (by omega) e)
  | ok regions =>
    have hnext := (hr.setTimedOut regions.timedOut).enter (s := .regionsClassified) rfl
    dsimp only
    split
    · next htimedOut =>
      exact Timed.always_done
        (closes_ok (.late (by omega) hnext (by simp [Result.enter]) htimedOut))
    · exact closes_runChecks c s deadline m gs taints regions.table hnext

/-- And the taints before them. -/
theorem closes_runTaints {r : Result} (hr : r.Underway 2) :
    (runTaints c s deadline m gs r).Always Closes := by
  apply Timed.always_bind
  intro outcome
  cases outcome with
  | error e => exact Timed.always_done (closes_stop hr (by omega) e)
  | ok taints =>
    have hnext := (hr.setTimedOut taints.timedOut).enter (s := .taintComputed) rfl
    dsimp only
    split
    · next htimedOut =>
      exact Timed.always_done
        (closes_ok (.late (by omega) hnext (by simp [Result.enter]) htimedOut))
    · exact closes_runRegions c s deadline m gs taints.table hnext

/-- **What a run gives can be reported**, whatever the module and the clock. -/
theorem closes_run (arrival : Stage → Arrival) : (run c arrival deadline m).Always Closes := by
  have hstart : (Result.start m.name c.checkedRules).Underway 1 := ⟨rfl, rfl⟩
  unfold run
  dsimp only
  split
  · exact Timed.always_done (closes_stop hstart (by omega) _)
  · split
    · next e _ =>
        exact Timed.always_done (closes_ok (.rejected (hstart.sound_fail (by omega) e) rfl))
    · exact closes_runTaints c _ deadline m _ (hstart.enter rfl)

end Analysis

/-! ## Steps

A request is the analysis of a module or of a file. A step is sound if it ends in a state from
which the analyzer can be asked again, with a result that records a proper course, and if the
answer does not depend on what was asked before. -/

namespace Analyzer

variable {τ : Type}

/-- What an analyzer can be asked for: the analysis of a module, or of the module in a file. -/
inductive Request
  | module (m : Module)
  | file (fs : Files) (path : String)

/-- The module that a request is about, where documents are read by `reader`. -/
def Request.loaded (reader : DocumentReader) : Request → Except Module.LoadError Module
  | .module m => .ok m
  | .file fs path => Module.loadFile reader fs path

/-- Handles a request by the given clock, where documents are read by `reader` and the results of
parallel tasks arrive in the given order. -/
def handle (reader : DocumentReader) (timing : Timing τ) (a : Analyzer)
    (arrival : Stage → Arrival) :
    Request → Timed τ Step
  | .module m => a.analyzeBy timing arrival m
  | .file fs path => a.analyzeFileBy timing reader fs arrival path

/-- A step after which the analyzer can be asked again. It was not refused because of an earlier
one, and its result is sound. -/
structure Completes (c : Config) (step : Step) : Prop where
  state : step.2.state = .idle ∨ step.2.state = .failed
  config : step.2.config = c
  started : ∀ s, step.1 ≠ .error (.inProgress s)
  result : ∀ r, step.1 = .ok r → r.Sound

/-- A step that completes and, without a time limit, gives what a new analyzer with the same
settings gives. If several functions have a defect, the orders of arrival decide whether the same
one is reported. -/
structure SoundStep (reader : DocumentReader) (timing : Timing τ) (c : Config)
    (request : Request × (Stage → Arrival)) (step : Step) : Prop extends Completes c step where
  fresh : c.timeout = none → ∀ arrival clock n,
    SameResult id (∀ m, request.1.loaded reader = .ok m → c.SameDefect request.2 arrival m) step.1
      (((ofConfig c).handle reader timing arrival request.1).answer clock n).1.1

/-- An error leaves the analyzer idle or failed. -/
theorem completes_error {c : Config} {e : AnalyzerError} (he : ∀ s, e ≠ .inProgress s)
    {a : Analyzer} (hstate : a.state = .idle ∨ a.state = .failed) (hconfig : a.config = c) :
    Completes c (.error e, a) where
  state := hstate
  config := hconfig
  started := by
    intro s hs
    exact he s (Except.error.inj hs)
  result := by
    intro r hr
    cases hr

/-- So does a result, which must be sound. -/
theorem completes_ok {c : Config} {r : Result} (hr : r.Sound) {a : Analyzer}
    (hstate : a.state = .idle ∨ a.state = .failed) (hconfig : a.config = c) :
    Completes c (.ok r, a) where
  state := hstate
  config := hconfig
  started := by
    intro s hs
    cases hs
  result := by
    intro r' hr'
    cases hr'
    exact hr

/-- A run that can be reported is concluded by a step that completes. -/
theorem Concludes.completes {a : Analyzer} {o : Except RunError Result} {step : Step}
    (h : Concludes a o step) (ho : Analysis.Closes o) : Completes a.config step := by
  cases h with
  | error e => exact completes_error (fun s hs => by cases hs) (.inr rfl) rfl
  | @failed r hr =>
    refine completes_ok ?_ (.inr rfl) rfl
    cases ho r rfl with
    | rejected hsound _ => exact hsound
    | complete _ hstate => exact absurd hr hstate
    | late _ _ hstate _ => exact absurd hr hstate
  | @reported r hr duration =>
    exact completes_ok ((ho r rfl).sound_report hr duration) (.inl rfl) rfl

variable {a : Analyzer} (reader : DocumentReader) (timing : Timing τ) (arrival : Stage → Arrival)

/-- The analysis of a module completes. -/
theorem completes_analyzeBy (hready : a.isReady = true) (m : Module) (clock : Nat → τ) (n : Nat) :
    Completes a.config ((a.analyzeBy timing arrival m).answer clock n).1 := by
  rcases concludes_analyzeBy timing hready arrival m clock n with hstep | ⟨deadline, n', hconcludes⟩
  · rw [hstep]
    exact completes_error (fun s hs => by cases hs) (.inl rfl) rfl
  · exact hconcludes.completes (Analysis.closes_run a.config deadline m arrival clock n')

/-- So does that of a file: it is the analysis of what was loaded, or an error without one. -/
theorem completes_handle (hready : a.isReady = true) (request : Request)
    (clock : Nat → τ) (n : Nat) :
    Completes a.config ((a.handle reader timing arrival request).answer clock n).1 := by
  have hstate : a.state = .idle ∨ a.state = .failed := of_decide_eq_true hready
  cases request with
  | module m => exact completes_analyzeBy timing arrival hready m clock n
  | file fs path =>
    rw [handle, analyzeFileBy]
    generalize Module.loadFile reader fs path = loaded
    rw [analyzeLoaded.eq_def]
    split
    · next m => exact completes_analyzeBy timing arrival hready m clock n
    · next e =>
      rw [if_pos hready]
      have hstart : (Result.start (Path.stem path) a.config.checkedRules).Underway 1 := ⟨rfl, rfl⟩
      exact completes_ok (hstart.sound_fail (by omega) e) (.inr rfl) rfl
    · exact completes_error (fun s hs => by cases hs) hstate rfl

/-- Without a time limit an analysis is settled by the settings and the module. -/
theorem givesSame_analyzeBy {a' : Analyzer} (hready : a.isReady = true)
    (hready' : a'.isReady = true) (hconfig : a'.config = a.config)
    (hlimit : a.config.timeout = none) (arrival' : Stage → Arrival) (m : Module)
    (clock clock' : Nat → τ) (n n' : Nat) :
    GivesSame id (a.config.SameDefect arrival arrival' m)
      ((a.analyzeBy timing arrival m).answer clock n).1
      ((a'.analyzeBy timing arrival' m).answer clock' n').1 := by
  have hsettled := settled_analyzeBy timing hready hlimit arrival m clock n
  have hsettled' := settled_analyzeBy timing hready' (hconfig ▸ hlimit) arrival' m clock' n'
  refine (hsettled.givesSame hsettled' id rfl Iff.rfl ?_ ?_ ?_ ?_).imp fun hdefect => ?_
  · rw [hconfig]
  · intro e
    rw [hconfig]
    rfl
  · intro e
    rw [hconfig]
    rfl
  · rintro k k' hk hk' rfl hmodule hpolicy duration duration'
    rw [hconfig, hk'.report_eq hk hmodule hpolicy (hmodule ▸ List.Subset.refl _)]
    rfl
  · rw [hconfig]
    exact hdefect.rejectsAlike

/-- Two analyzers with the same settings answer a request alike, whatever they did before and
whenever it is made. -/
theorem sameResult_handle {a' : Analyzer} (hready : a.isReady = true) (hready' : a'.isReady = true)
    (hconfig : a'.config = a.config) (hlimit : a.config.timeout = none) (arrival' : Stage → Arrival)
    (request : Request) (clock clock' : Nat → τ) (n n' : Nat) :
    SameResult id (∀ m, request.loaded reader = .ok m → a.config.SameDefect arrival arrival' m)
      ((a.handle reader timing arrival request).answer clock n).1.1
      ((a'.handle reader timing arrival' request).answer clock' n').1.1 := by
  have hmodule := fun m =>
    (givesSame_analyzeBy timing arrival hready hready' hconfig hlimit arrival' m clock
      clock' n n').result
  cases request with
  | module m => exact (hmodule m).imp fun hdefect => hdefect m rfl
  | file fs path =>
    rw [handle, handle, analyzeFileBy, analyzeFileBy, Request.loaded]
    generalize Module.loadFile reader fs path = loaded
    rw [analyzeLoaded.eq_def, analyzeLoaded.eq_def]
    split
    · next m => exact (hmodule m).imp fun hdefect => hdefect m rfl
    · rw [if_pos hready, if_pos hready', hconfig]
      exact .of_timeless rfl _
    · exact .error _ _ _

/-- Every step from an analyzer that is ready is sound. -/
theorem soundStep_handle (hready : a.isReady = true) (request : Request)
    (clock : Nat → τ) (n : Nat) :
    SoundStep reader timing a.config (request, arrival)
      ((a.handle reader timing arrival request).answer clock n).1 where
  toCompletes := completes_handle reader timing arrival hready request clock n
  fresh := by
    intro hlimit arrival' clock' n'
    have hready' : (ofConfig a.config).isReady = true := rfl
    exact sameResult_handle reader timing arrival hready hready' rfl hlimit arrival' request
      clock clock' n n'

/-! ## Sequences of requests

Requests are answered one after the other, and the clock goes on between them. By induction on the
requests, each step starts from an analyzer that is ready. -/

/-- The steps of an analyzer that handles requests one after the other, each with the order in
which the results of its parallel tasks arrive. The readings of the clock are numbered from `n` on,
through all steps. -/
def session (reader : DocumentReader) (timing : Timing τ) (clock : Nat → τ) :
    Analyzer → Nat → List (Request × (Stage → Arrival)) → List Step
  | _, _, [] => []
  | a, n, request :: rest =>
    let handled := (a.handle reader timing request.2 request.1).answer clock n
    handled.1 :: session reader timing clock handled.1.2 handled.2 rest

/-- And so are all steps of a sequence. -/
theorem forall₂_soundStep {c : Config} (hready : a.isReady = true) (hconfig : a.config = c)
    (clock : Nat → τ) (n : Nat) (requests : List (Request × (Stage → Arrival))) :
    List.Forall₂ (SoundStep reader timing c) requests
      (session reader timing clock a n requests) := by
  -- what a step keeps, and the next one needs, is that the analyzer can be asked and has its
  -- settings
  induction requests generalizing a n with
  | nil => exact .nil
  | cons request rest ih =>
    have hstep := soundStep_handle reader timing request.2 hready request.1 clock n
    rw [hconfig] at hstep
    exact .cons hstep (ih (decide_eq_true hstep.state) hstep.config _)

/-- **The analyzer is sound over every history.** Whatever a new analyzer is asked for, however
documents are read and whatever the clock says, each step ends idle or failed, none is refused
because another one is in progress, each result follows the course of a run, and without a time
limit each is what a new analyzer gives, except that another defect may be reported if several
functions have one and their results arrive in another order. -/
theorem soundStep_session (reader : DocumentReader) (timing : Timing τ)
    (clock : Nat → τ) (c : Config) (n : Nat) (requests : List (Request × (Stage → Arrival))) :
    List.Forall₂ (SoundStep reader timing c) requests
      (session reader timing clock (ofConfig c) n requests) := by
  have hready : (ofConfig c).isReady = true := rfl
  exact forall₂_soundStep reader timing hready rfl clock n requests

/-- A step and a new analyzer may report different defects of a module that has two. -/
theorem errors_session_gates :
    (session Document.json .seconds (fun _ => 0) (ofConfig .default) 0
        [(.module gates, fun _ => .inOrder)]).map (fun step => step.1.map Result.errors) =
          [.ok ["[a:e] nested region_start in a single block"]] ∧
      (((ofConfig .default).handle Document.json .seconds (fun _ => .reversed)
        (.module gates)).answer
        (fun _ => 0) 0).1.1.map Result.errors = .ok ["[b:0] region opened at '0' has no exit"] :=
  ⟨rfl, rfl⟩

end Analyzer

end ConstantTime
