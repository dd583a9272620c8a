/-
What a step without a time limit gives.

Without a deadline no phase asks for the time. So what comes of a step depends on the settings, on
the module and, where tasks run side by side, on the order in which their results arrive; and that
order decides only which defect is reported if several functions have one. Main statements: a step
without a time limit ends in one of four ways, each of them fully described, and two such steps are
compared by comparing what they start from and what they report.
-/
import ConstantTime.Proofs.TimeLimits
import ConstantTime.Proofs.Workers

set_option autoImplicit false

namespace ConstantTime

/-! ## Phases without a deadline

Where there is no deadline, no task is late and the clock is never read. A phase is then a plain
function of what its tasks give and of the order of arrival. -/

/-- The results of a phase in the order in which they arrive. A single result has nothing to wait
for. -/
def Schedule.arrange {β : Type} (s : Schedule) (stage : Stage) (results : List β) : List β :=
  match s with
  | .sequential => results
  | .parallel arrival => if 1 < results.length then (arrival stage).reorder results else results

/-- Arriving in another order, the results are still the same ones. -/
theorem Schedule.arrange_perm {β : Type} (s : Schedule) (stage : Stage) (results : List β) :
    (s.arrange stage results).Perm results := by
  unfold arrange
  split
  · exact .refl _
  · split
    · exact Arrival.perm _ _
    · exact .refl _

namespace Phase

variable {τ ε β : Type} (task : Function → Except ε β) (functions : List Function)

/-- Only a reading of the clock can make a task late. -/
theorem attempt_ne_late (f : Function) : attempt task f ≠ .late := by
  unfold attempt
  split <;> nofun

/-- A task that is tried fails if it has an error. -/
theorem attempt_eq_failed_iff {f : Function} {e : ε} :
    attempt task f = .failed e ↔ task f = .error e := by
  unfold attempt
  split <;> simp_all

/-- What becomes of tasks that are all in time. -/
def attempts : List (String × Slot ε β) := functions.map fun f => (f.id, attempt task f)

/-- One after the other, without a deadline. -/
theorem sequentially_none :
    sequentially (none : Deadline τ) task functions = .done (gather (attempts task functions)) := by
  induction functions with
  | nil => rfl
  | cons f rest ih =>
    simp only [sequentially, slot, Timed.done_bind, ih, attempts, List.map_cons]
    cases htask : attempt task f with
    | done v => rfl
    | failed e => rfl
    | late => exact absurd htask (attempt_ne_late task f)

/-- Side by side, without a deadline. -/
theorem slots_none :
    slots (none : Deadline τ) task functions = .done (attempts task functions) := by
  induction functions with
  | nil => rfl
  | cons f rest ih =>
    simp only [slots, slot, Timed.done_bind, Timed.map, ih, attempts, List.map_cons]

/-- Without a deadline a phase asks for nothing and gathers what became of all its tasks. -/
theorem run_none (s : Schedule) (stage : Stage) :
    run s stage (none : Deadline τ) task functions =
      .done (gather (s.arrange stage (attempts task functions))) := by
  cases s with
  | sequential => exact sequentially_none task functions
  | parallel arrival =>
    have hlength : (attempts task functions).length = functions.length := List.length_map _
    simp only [run, Schedule.arrange, hlength, sideBySide, slots_none, sequentially_none, Timed.map,
      Timed.done_bind]
    split <;> rfl

end Phase

/-! ## The phase of the regions

This is the only phase whose tasks can fail. Several may, and then the order of arrival decides
which failure is reported; with one defect, or in the same order, there is nothing to decide. -/

/-- The regions of a function by its own flow graph. -/
def Function.regionMap (f : Function) : Except Abort RegionMap :=
  match FlowGraph.ofFunction f with
  | .error e => .error (.malformed e)
  | .ok g => RegionMap.ofFunction f g

namespace Module

variable {m : Module}

/-- What the second phase of a run without a deadline gives. -/
def regionPhase (s : Schedule) (m : Module) : Except (Stop Abort) (Phase RegionMap) :=
  Phase.gather (s.arrange .regions (Phase.attempts Function.regionMap m.sortedFunctions))

/-- A slot of the phase is that of a function. -/
theorem mem_arrange_attempts_iff {s : Schedule} {name : String} {slot : Slot Abort RegionMap} :
    (name, slot) ∈ s.arrange .regions (Phase.attempts Function.regionMap m.sortedFunctions) ↔
      ∃ f ∈ m.functions, f.id = name ∧ Phase.attempt Function.regionMap f = slot := by
  rw [(s.arrange_perm .regions _).mem_iff, Phase.attempts, List.mem_map]
  constructor
  · rintro ⟨f, hf, heq⟩
    cases heq
    exact ⟨f, mem_sortedFunctions.1 hf, rfl, rfl⟩
  · rintro ⟨f, hf, rfl, rfl⟩
    exact ⟨f, mem_sortedFunctions.2 hf, rfl⟩

/-- The phase is rejected because of a function, and no task was late. -/
theorem exists_of_regionPhase_eq_error {s : Schedule} {stop : Stop Abort}
    (h : m.regionPhase s = .error stop) :
    stop.timedOut = false ∧ ∃ f ∈ m.functions, f.regionMap = .error stop.error := by
  constructor
  · refine Phase.timedOut_eq_false_of_gather h fun name hname => ?_
    obtain ⟨f, -, -, hslot⟩ := mem_arrange_attempts_iff.1 hname
    exact Phase.attempt_ne_late _ f hslot
  · obtain ⟨name, hname⟩ := Phase.exists_failed_of_gather h
    obtain ⟨f, hf, -, hslot⟩ := mem_arrange_attempts_iff.1 hname
    exact ⟨f, hf, (Phase.attempt_eq_failed_iff _).1 hslot⟩

/-- The phase is rejected exactly when some regions are malformed. -/
theorem exists_regionPhase_eq_error_iff (hm : m.WellFormed) (s : Schedule) :
    (∃ e, m.regionPhase s = .error ⟨.malformed e, false⟩) ↔ m.HasMalformedRegions := by
  constructor
  · rintro ⟨e, he⟩
    obtain ⟨-, f, hf, hbad⟩ := exists_of_regionPhase_eq_error he
    obtain ⟨g, hg, -⟩ := hm.flow f hf
    simp only [Function.regionMap, hg] at hbad
    exact ⟨f, hf, g, e, hg, hbad⟩
  · rintro ⟨f, hf, g, e, hg, hbad⟩
    cases hphase : m.regionPhase s with
    | ok p =>
      -- nothing failed, but the task of `f` did
      have hslot : Phase.attempt Function.regionMap f = .failed (.malformed e) := by
        simp only [Phase.attempt, Function.regionMap, hg, hbad]
      obtain ⟨-, -, hfailed⟩ := Phase.gather_eq_ok hphase
      exact absurd (mem_arrange_attempts_iff.2 ⟨f, hf, rfl, hslot⟩) (hfailed f.id _)
    | error stop =>
      obtain ⟨error, late⟩ := stop
      obtain ⟨hlate, f', hf', hbad'⟩ := exists_of_regionPhase_eq_error hphase
      obtain ⟨g', hg', -⟩ := hm.flow f' hf'
      cases hlate
      simp only [Function.regionMap, hg'] at hbad'
      cases error with
      | malformed e' => exact ⟨e', rfl⟩
      | fault e' =>
        exact absurd hbad' (RegionMap.ofFunction_ne_fault (hm.function f' hf').blocks e')

/-- At most one function has regions that cannot be found. -/
def HasOneDefect (m : Module) : Prop :=
  ∀ f ∈ m.functions, ∀ f' ∈ m.functions, ∀ e e',
    f.regionMap = .error e → f'.regionMap = .error e' → f = f'

/-- Two phases are rejected because of the same defect, if they are rejected. -/
def RejectsAlike (m m' : Module) (s s' : Schedule) : Prop :=
  ∀ stop stop', m.regionPhase s = .error stop → m'.regionPhase s' = .error stop' → stop = stop'

/-- Phases that end alike are rejected alike. -/
theorem rejectsAlike_of_eq {m' : Module} {s s' : Schedule}
    (h : m.regionPhase s = m'.regionPhase s') :
    m.RejectsAlike m' s s' := by
  intro stop stop' hstop hstop'
  exact Except.error.inj ((hstop.symm.trans h).trans hstop')

/-- Where there is only one defect, it is the one that is found in every order. -/
theorem HasOneDefect.rejectsAlike (h : m.HasOneDefect) (s s' : Schedule) :
    m.RejectsAlike m s s' := by
  rintro ⟨error, late⟩ ⟨error', late'⟩ hstop hstop'
  obtain ⟨hlate, f, hf, hbad⟩ := exists_of_regionPhase_eq_error hstop
  obtain ⟨hlate', f', hf', hbad'⟩ := exists_of_regionPhase_eq_error hstop'
  cases h f hf f' hf' _ _ hbad hbad'
  cases hlate
  cases hlate'
  cases hbad.symm.trans hbad'
  rfl

end Module

/-- The regions of functions arrive in the same order: tasks run one after the other, or the orders
are the same. -/
def Config.SameOrder (c : Config) (arrival arrival' : Stage → Arrival) : Prop :=
  c.maxWorkers.atMost 1 = true ∨ arrival .regions = arrival' .regions

/-- In the same order of arrival the phase ends alike, whatever it ends with. -/
theorem Config.SameOrder.regionPhase_eq {c : Config} {arrival arrival' : Stage → Arrival}
    (h : c.SameOrder arrival arrival') (m : Module) :
    m.regionPhase (Analysis.schedule c arrival) = m.regionPhase (Analysis.schedule c arrival') := by
  unfold Analysis.schedule
  by_cases hworkers : c.maxWorkers.atMost 1 = true
  · rw [if_pos hworkers, if_pos hworkers]
  · have harrival := h.resolve_left hworkers
    rw [if_neg hworkers, if_neg hworkers]
    simp only [Module.regionPhase, Schedule.arrange, harrival]

/-- The same defect is reported: the regions arrive in the same order, or no two functions have
one. -/
def Config.SameDefect (c : Config) (arrival arrival' : Stage → Arrival) (m : Module) : Prop :=
  c.SameOrder arrival arrival' ∨ m.HasOneDefect

/-- Either condition is enough to have the same defect reported. -/
theorem Config.SameDefect.rejectsAlike {c : Config}
    {arrival arrival' : Stage → Arrival} {m : Module} (h : c.SameDefect arrival arrival' m) :
    m.RejectsAlike m (Analysis.schedule c arrival) (Analysis.schedule c arrival') := by
  rcases h with horder | hone
  · exact Module.rejectsAlike_of_eq (horder.regionPhase_eq m)
  · exact hone.rejectsAlike _ _

/-- The results arrive in the opposite order of the functions. -/
def Arrival.reversed : Arrival := ⟨List.reverse, List.reverse_perm⟩

/-- Two functions with a defect each: the first opens a region twice, the second never leaves
one. -/
def gates : Module :=
  ⟨"gates",
    [⟨"a",
        [⟨"e", [⟨.regionStart, [], none, [], none, none⟩, ⟨.regionStart, [], none, [], none, none⟩,
          ⟨.ret, [], none, [], none, none⟩]⟩],
        [], none, []⟩,
      ⟨"b",
        [⟨"0", [⟨.regionStart, [], none, [], none, none⟩, ⟨.jump, [], none, ["1"], none, none⟩]⟩,
          ⟨"1", [⟨.jump, [], none, ["1"], none, none⟩]⟩],
        [], none, []⟩],
    []⟩

/-! ## Runs without a deadline

A run is followed up to the phase of the regions. -/

namespace Analysis

variable {τ : Type} {c : Config} {m : Module}

/-- The tasks of the second phase find the graphs of their functions. -/
theorem attempts_regionTask {gs : Table FlowGraph} (hgs : Shapes.HasGraphs m gs) :
    Phase.attempts (regionTask gs) m.sortedFunctions =
      Phase.attempts Function.regionMap m.sortedFunctions := by
  refine List.map_congr_left fun f hf => ?_
  obtain ⟨g, -, hflow, htask⟩ := regionTask_eq hgs (Module.mem_sortedFunctions.1 hf)
  simp only [Phase.attempt, htask, Function.regionMap, hflow]

/-- A run over a module with malformed regions ends with the defect that arrives first. -/
theorem answer_run_of_regionPhase_eq_error (hm : m.violation? = none) {arrival : Stage → Arrival}
    {e : Malformed} (he : m.regionPhase (schedule c arrival) = .error ⟨.malformed e, false⟩)
    (clock : Nat → τ) (n : Nat) :
    ((run c arrival none m).answer clock n).1 = .ok ((tainted c m false).fail e) := by
  have hwf := Module.wellFormed_of_violation?_eq_none hm
  obtain ⟨gs, hgs, hhas⟩ := exists_graphs hwf
  have htaints :=
    Phase.always_run (schedule c arrival) .taint (none : Deadline τ) (taintTask m gs)
      m.sortedFunctions clock n
  have hregions : Phase.run (schedule c arrival) .regions (none : Deadline τ)
      (regionTask gs) m.sortedFunctions =
      .done (.error ⟨.malformed e, false⟩) := by
    rw [Phase.run_none, attempts_regionTask hhas]
    exact congrArg Timed.done he
  simp only [run, hm, hgs, runTaints, Timed.answer_bind]
  generalize ((Phase.run (schedule c arrival) .taint (none : Deadline τ) (taintTask m gs)
    m.sortedFunctions).answer clock n) = first at htaints
  obtain ⟨outcome, next⟩ := first
  -- the taints of all functions are found in time, and then the regions are not
  cases htaints with
  | failed hf hbad =>
    obtain ⟨t, ht⟩ := exists_taintTask hwf hhas (Module.mem_sortedFunctions.1 hf)
    rw [ht] at hbad
    cases hbad
  | @ran p hp =>
    dsimp only
    rw [hp.timely rfl, if_neg Bool.false_ne_true, runRegions, hregions]
    rfl

end Analysis

/-! ## Steps without a time limit

The four ways in which a step can end, each with the result that it gives. -/

/-- A result without how long it took and, if it is failed, without the text of its error. -/
def Result.gist (r : Result) : Result :=
  { r.timeless with errors := if r.failed then r.errors.map fun _ => "" else r.errors }

@[simp] theorem Result.gist_timeless (r : Result) : r.timeless.gist = r.gist := rfl

namespace Analyzer

variable {τ : Type}

/-- How a step without a time limit ends. -/
inductive Settled (a : Analyzer) (s : Schedule) (m : Module) : Step → Prop
  /-- The module is not well formed. -/
  | malformed {e : Malformed} (hm : m.violation? = some (.malformed e)) :
    Settled a s m
      (.ok ((Result.start m.name a.config.checkedRules).fail e), { a with state := .failed })
  /-- The regions of some function are malformed. -/
  | rejected {e : Malformed} (hm : m.violation? = none) (hbad : m.HasMalformedRegions)
    (he : m.regionPhase s = .error ⟨.malformed e, false⟩) :
    Settled a s m (.ok ((Analysis.tainted a.config m false).fail e), { a with state := .failed })
  /-- The settings do not say what counts as variable-time. -/
  | unusable {e : ConfigError} (hm : m.violation? = none) (hgood : ¬ m.HasMalformedRegions)
    (hpolicy : Analysis.policy a.config = .error e) :
    Settled a s m (.error (.run (.config e)), { a with state := .failed })
  /-- All functions were checked. -/
  | reported {k : Analysis.Known} (hm : m.violation? = none) (hgood : ¬ m.HasMalformedRegions)
    (hk : k.Complete)
    (hmodule : k.module = m) (hpolicy : Analysis.policy a.config = .ok k.policy)
      (duration : Float) :
    Settled a s m
      (.ok { (k.report a.config m.sortedFunctions (Analysis.inspected a.config m false)).enter
        .reported with duration := duration }, { a with state := .idle })

/-- **How a step without a time limit ends**, by any clock. -/
theorem settled_analyzeBy (timing : Timing τ) {a : Analyzer} (hready : a.isReady = true)
    (hlimit : a.config.timeout = none) (arrival : Stage → Arrival) (m : Module)
    (clock : Nat → τ) (n : Nat) :
    Settled a (Analysis.schedule a.config arrival) m
      ((a.analyzeBy timing arrival m).answer clock n).1 := by
  rw [analyzeBy_of_timeout_eq_none hready hlimit]
  have hconcludes := concludes_run timing a arrival m none clock n
  cases hm : m.violation? with
  | some e =>
    cases e with
    | fault e => exact absurd hm (m.violation?_ne_fault e)
    | malformed e =>
      simp only [Analysis.run, hm, Analysis.stop, Timed.answer_done] at hconcludes
      generalize ((a.run timing arrival m none).answer clock n).1 = step at hconcludes
      cases hconcludes with
      | failed _ => exact .malformed hm
      | reported hok _ => exact absurd rfl hok
  | none =>
    by_cases hbad : m.HasMalformedRegions
    · obtain ⟨e, he⟩ :=
        (Module.exists_regionPhase_eq_error_iff (Module.wellFormed_of_violation?_eq_none hm)
        (Analysis.schedule a.config arrival)).2 hbad
      rw [Analysis.answer_run_of_regionPhase_eq_error hm he] at hconcludes
      generalize ((a.run timing arrival m none).answer clock n).1 = step at hconcludes
      cases hconcludes with
      | failed _ => exact .rejected hm hbad he
      | reported hok _ => exact absurd rfl hok
    · -- without a deadline no reading is late, so all phases are complete
      have hreads : Deadline.Reads none clock (fun _ => false) (n + 1) 0 := fun _ => rfl
      have hyields := Analysis.yields_run (c := a.config) hm arrival hreads
      have hchecks :=
        (hyields.classifies (Analysis.struck_never 0 _)).checks hbad (Analysis.struck_never _ _)
      cases hpolicy : Analysis.policy a.config with
      | error e =>
        rw [hchecks.unusable e hpolicy] at hconcludes
        generalize ((a.run timing arrival m none).answer clock n).1 = step at hconcludes
        cases hconcludes
        exact .unusable hm hbad hpolicy
      | ok p =>
        obtain ⟨k, hk, hmodule, rfl, hrun⟩ := hchecks.checked p hpolicy
        rw [hrun, Phase.ran_eq_of_struck_eq_false _ (Analysis.struck_never _ _),
          Analysis.struck_never] at hconcludes
        obtain ⟨duration, hstep⟩ := hconcludes.exists_of_run (by simp)
        rw [hstep]
        exact .reported hm hbad hk hmodule hpolicy duration

/-! ## Two steps compared

Two steps end in the same way if they start from the same, and then their results are compared case
by case. The `gist` of a result is what does not depend on the order of arrival. -/

/-- One result, or error, is what the change `f` makes of another one, how long it took aside. The
text of the error of a failed result is the same if the regions of functions arrive in the
`sameOrder`. -/
structure SameResult (f : Result → Result) (sameOrder : Prop) (o o' : Except AnalyzerError Result) :
    Prop where
  gist : o.map Result.gist = o'.map fun r => (f r).gist
  timeless : sameOrder → o.map Result.timeless = o'.map fun r => (f r).timeless

/-- Results that differ in nothing but the time they took. -/
theorem SameResult.of_timeless {f : Result → Result} {r r' : Result}
    (h : r.timeless = (f r').timeless) (sameOrder : Prop) :
    SameResult f sameOrder (.ok r) (.ok r') where
  gist := by
    have hgist := congrArg Result.gist h
    rw [Result.gist_timeless, Result.gist_timeless] at hgist
    exact congrArg Except.ok hgist
  timeless := fun _ => congrArg Except.ok h

/-- The same error, which no change of results touches. -/
theorem SameResult.error (f : Result → Result) (sameOrder : Prop) (e : AnalyzerError) :
    SameResult f sameOrder (.error e) (.error e) := ⟨rfl, fun _ => rfl⟩

/-- The condition for the same text may be made stronger. -/
theorem SameResult.imp {f : Result → Result} {sameOrder sameOrder' : Prop}
    {o o' : Except AnalyzerError Result} (h : SameResult f sameOrder o o')
    (himp : sameOrder' → sameOrder) : SameResult f sameOrder' o o' :=
  ⟨h.gist, fun horder => h.timeless (himp horder)⟩

/-- One step gives what the change `f` makes of the result of another one, and leaves the same
state. -/
structure GivesSame (f : Result → Result) (sameOrder : Prop) (step step' : Step) : Prop where
  result : SameResult f sameOrder step.1 step'.1
  state : step.2.state = step'.2.state

theorem GivesSame.imp {f : Result → Result} {sameOrder sameOrder' : Prop} {step step' : Step}
    (h : GivesSame f sameOrder step step') (himp : sameOrder' → sameOrder) :
    GivesSame f sameOrder' step step' :=
  ⟨h.result.imp himp, h.state⟩

/-- **Two steps without a time limit give the same**, after a change of the result, if they start
from and report what the change takes to each other. -/
theorem Settled.givesSame {a a' : Analyzer} {s s' : Schedule} {m m' : Module} {step step' : Step}
    (h : Settled a s m step) (h' : Settled a' s' m' step') (f : Result → Result)
    (hviolation : m'.violation? = m.violation?)
    (hbad : m'.HasMalformedRegions ↔ m.HasMalformedRegions)
    (hpolicy : Analysis.policy a'.config = Analysis.policy a.config)
    (hstart : ∀ e, f ((Result.start m'.name a'.config.checkedRules).fail e) =
      (Result.start m.name a.config.checkedRules).fail e)
    (htainted : ∀ e, f ((Analysis.tainted a'.config m' false).fail e) =
      (Analysis.tainted a.config m false).fail e)
    (hreport : ∀ k k' : Analysis.Known, k.Complete → k'.Complete → k.module = m → k'.module = m' →
      k'.policy = k.policy → ∀ duration duration' : Float,
        Result.timeless
          { (k.report a.config m.sortedFunctions (Analysis.inspected a.config m false)).enter
            .reported with duration := duration } =
        (f { (k'.report a'.config m'.sortedFunctions (Analysis.inspected a'.config m' false)).enter
          .reported with duration := duration' }).timeless) :
    GivesSame f (m.RejectsAlike m' s s') step step' := by
  cases h with
  | malformed hm =>
    cases h' with
    | malformed hm' =>
      cases (hm'.symm.trans hviolation).trans hm
      exact ⟨.of_timeless (by rw [hstart]) _, rfl⟩
    | rejected hm' | unusable hm' | reported hm' => cases (hm'.symm.trans hviolation).trans hm
  | rejected hm hregions he =>
    cases h' with
    | malformed hm' => cases (hm'.symm.trans hviolation).trans hm
    | rejected hm' _ he' =>
      -- both are rejected, and perhaps with the same defect
      refine ⟨⟨?_, fun hsame => ?_⟩, rfl⟩
      · simp only [Except.map, htainted]
        rfl
      · cases hsame _ _ he he'
        simp only [Except.map, htainted]
    | unusable _ hgood' | reported _ hgood' => exact absurd (hbad.2 hregions) hgood'
  | unusable hm hgood hsettings =>
    cases h' with
    | malformed hm' => cases (hm'.symm.trans hviolation).trans hm
    | rejected _ hregions' => exact absurd (hbad.1 hregions') hgood
    | unusable _ _ hsettings' =>
      cases (hsettings'.symm.trans hpolicy).trans hsettings
      exact ⟨.error _ _ _, rfl⟩
    | reported _ _ _ _ hsettings' => cases (hsettings'.symm.trans hpolicy).trans hsettings
  | reported hm hgood hk hmodule hsettings duration =>
    cases h' with
    | malformed hm' => cases (hm'.symm.trans hviolation).trans hm
    | rejected _ hregions' => exact absurd (hbad.1 hregions') hgood
    | unusable _ _ hsettings' => cases (hsettings'.symm.trans hpolicy).trans hsettings
    | reported _ _ hk' hmodule' hsettings' duration' =>
      have hsame := Except.ok.inj ((hsettings'.symm.trans hpolicy).trans hsettings)
      exact ⟨.of_timeless (hreport _ _ hk hk' hmodule hmodule' hsame _ _) _, rfl⟩

end Analyzer

end ConstantTime
