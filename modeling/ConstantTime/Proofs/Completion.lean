/-
Every run comes to an end with a result.

The settings that are read from data name their routines and give their time limit as a number, and
a module that was loaded passed its checks. From there on the phases of a run go through one after
the other: no task faults, so a phase either gives the results of all functions or was late, and
the only thing that can reject a run is a function with malformed regions. Main statement: data is
loaded or malformed, unless a whole number in it has too many digits to be written; and the
analysis of what was loaded, with any settings that were read and any clock, gives a result that is
reported or failed; without a time limit it is failed exactly when the regions of some function are
malformed.
-/
import ConstantTime.Analyzer
import ConstantTime.Proofs.Decoding
import ConstantTime.Proofs.Faultless
import ConstantTime.Proofs.Phases
import ConstantTime.Proofs.SettingsFields

set_option autoImplicit false

namespace ConstantTime

/-! ## Settings

Settings that can be used say what counts as variable-time. -/

namespace Config

/-- Routines that are names can be listed. -/
theorem Usable.exists_policy {c : Config} (h : c.Usable) : ∃ p, Analysis.policy c = .ok p := by
  obtain ⟨names, hnames⟩ := h.routines
  obtain ⟨found, hfound⟩ : ∃ found, c.routineNames = .ok found := by
    rw [routineNames, hnames]
    refine exists_collectSome_eq_ok fun raw hraw => ?_
    obtain ⟨name, -, rfl⟩ := List.mem_map.1 hraw
    exact ⟨some name, rfl⟩
  exact ⟨_, by rw [Analysis.policy, hfound]⟩

end Config

/-! ## Loading

A module that was loaded passed its checks, and it is analyzed in the order of the names of its
functions. -/

namespace Module

/-- Loading faults only if the data cannot be written. -/
theorem faultsOnlyIf_load (name : String) (raw : Json) :
    FaultsOnlyIf (raw.isWritable = false) (load name raw) := by
  intro e h
  unfold load at h
  split at h
  · next hdecode =>
    cases h
    exact faultsOnlyIf_decode name raw e hdecode
  · next m _ =>
    split at h
    · next e' he' =>
      cases h
      exact absurd he' (m.violation?_ne_fault e)
    · cases h

/-- A module is loaded only if nothing is wrong with it. -/
theorem violation?_eq_none_of_load {name : String} {raw : Json} {m : Module}
    (h : load name raw = .ok m) :
    m.violation? = none := by
  unfold load at h
  split at h
  · cases h
  · split at h
    · cases h
    · next hnone =>
      cases h
      exact hnone

theorem wellFormed_of_violation?_eq_none {m : Module} (h : m.violation? = none) : m.WellFormed :=
  wellFormed_of_validate (by rw [validate, h])

theorem mem_sortedFunctions {m : Module} {f : Function} :
    f ∈ m.sortedFunctions ↔ f ∈ m.functions := mem_sortBy

/-- No two functions share a name, in any order. -/
theorem WellFormed.nodup_sortedFunctions {m : Module} (hm : m.WellFormed) :
    (m.sortedFunctions.map Function.id).Nodup :=
  ((sortBy_perm ..).map Function.id).nodup_iff.2 hm.functions

/-- The regions of some function are malformed. -/
def HasMalformedRegions (m : Module) : Prop :=
  ∃ f ∈ m.functions, ∃ g e, FlowGraph.ofFunction f = .ok g ∧
    RegionMap.ofFunction f g = .error (.malformed e)

end Module

/-! ## Runs

The three phases are followed one after the other. No task of a phase faults, so a phase that was
in time has a result for every function, and that is what the next phase needs. -/

namespace Analysis

variable {τ : Type} {c : Config} {s : Schedule} {deadline : Deadline τ} {m : Module}
    {gs : Table FlowGraph}

/-- All flow graphs are made, and each is found under the name of its function. -/
theorem exists_graphs (hm : m.WellFormed) :
    ∃ gs, graphs m.sortedFunctions = .ok gs ∧ Shapes.HasGraphs m gs := by
  obtain ⟨pairs, hpairs⟩ : ∃ pairs,
      collect (fun f => (FlowGraph.ofFunction f).map fun g => (f.id, g)) m.sortedFunctions =
        .ok pairs := by
    refine exists_collect_eq_ok fun f hf => ?_
    obtain ⟨g, hg, -⟩ := hm.flow f (Module.mem_sortedFunctions.1 hf)
    exact ⟨_, by rw [hg]; rfl⟩
  have hall := forall₂_of_collect_eq_ok hpairs
  refine ⟨Table.ofList pairs, by rw [graphs, hpairs], fun f hf => ?_⟩
  have hsorted := Module.mem_sortedFunctions.2 hf
  obtain ⟨pair, hpair, hmade⟩ := exists_of_mem_of_forall₂ hall hsorted
  obtain ⟨_, -, hid⟩ := exists_of_map_eq_ok hmade
  obtain ⟨g, hg⟩ : ∃ g, (Table.ofList pairs).get? f.id = some g :=
    Table.exists_get?_ofList (List.mem_map.2 ⟨pair, hpair, by rw [← hid]⟩)
  -- the graph that is found was made for a function of that name, which is `f`
  obtain ⟨f', hf', hmade'⟩ := exists_of_mem_of_forall₂ hall.flip (Table.mem_of_get?_ofList hg)
  obtain ⟨g', hg', hpair'⟩ := exists_of_map_eq_ok hmade'
  obtain ⟨hid, rfl⟩ := Prod.mk.inj hpair'
  rw [List.inj_on_of_nodup_map hm.nodup_sortedFunctions hf' hsorted hid] at hg'
  exact ⟨g', hg, hg'⟩

/-- The first phase: the taints of every function exist. -/
theorem exists_taintTask (hm : m.WellFormed) (hgs : Shapes.HasGraphs m gs) {f : Function}
    (hf : f ∈ m.functions) :
    ∃ t, taintTask m gs f = .ok t := by
  obtain ⟨g, hg, hflow⟩ := hgs f hf
  obtain ⟨g', t, hflow', ht, -⟩ := Taints.exists_least hm hf
  cases hflow.symm.trans hflow'
  exact ⟨t, by simp only [taintTask, lookup, hg, ht]; rfl⟩

/-- The regions of a function are looked for in its graph. -/
theorem regionTask_eq (hgs : Shapes.HasGraphs m gs) {f : Function} (hf : f ∈ m.functions) :
    ∃ g, gs.get? f.id = some g ∧ FlowGraph.ofFunction f = .ok g ∧
      regionTask gs f = RegionMap.ofFunction f g := by
  obtain ⟨g, hg, hflow⟩ := hgs f hf
  exact ⟨g, hg, hflow, by simp only [regionTask, lookup, hg]⟩

/-- The regions of a function are not found because they are malformed. -/
theorem exists_malformed_of_regionTask (hm : m.WellFormed) (hgs : Shapes.HasGraphs m gs)
    {f : Function} (hf : f ∈ m.functions) {e : Abort} (h : regionTask gs f = .error e) :
    ∃ g e', e = .malformed e' ∧ FlowGraph.ofFunction f = .ok g ∧
      RegionMap.ofFunction f g = .error (.malformed e') := by
  obtain ⟨g, -, hflow, htask⟩ := regionTask_eq hgs hf
  rw [htask] at h
  cases e with
  | fault e => exact absurd h (RegionMap.ofFunction_ne_fault (hm.function f hf).blocks e)
  | malformed e => exact ⟨g, e, rfl, hflow, h⟩

/-- If the regions of all functions were found, none of them are malformed. -/
theorem not_hasMalformedRegions (hgs : Shapes.HasGraphs m gs) {regions : Table RegionMap}
    (hregions : ∀ f ∈ m.functions, ∃ r, regions.get? f.id = some r ∧ regionTask gs f = .ok r) :
    ¬ m.HasMalformedRegions := by
  rintro ⟨f, hf, g, e, hflow, hbad⟩
  obtain ⟨g', -, hflow', htask⟩ := regionTask_eq hgs hf
  obtain ⟨r, -, hr⟩ := hregions f hf
  cases hflow.symm.trans hflow'
  rw [htask, hbad] at hr
  cases hr

/-- What the checks need to know of the functions. -/
structure Known.Full (k : Known) : Prop where
  module : k.module.WellFormed
  graphs : Shapes.HasGraphs k.module k.graphs
  taints : ∀ f ∈ k.module.functions, ∃ t, k.taints.get? f.id = some t
  regions : ∀ f ∈ k.module.functions, ∃ r, k.regions.get? f.id = some r ∧
    regionTask k.graphs f = .ok r

/-- The rules are checked in a proper context. -/
theorem Known.Full.exists_context {k : Known} (h : k.Full) {f : Function}
    (hf : f ∈ k.module.functions) :
    ∃ c : Context, k.context f = .ok c ∧ c.Proper ∧ c.module = k.module ∧ c.function = f ∧
      k.taints.get? f.id = some c.taints := by
  obtain ⟨g, hg, hflow, htask⟩ := regionTask_eq h.graphs hf
  obtain ⟨t, ht⟩ := h.taints f hf
  obtain ⟨r, hr, hregions⟩ := h.regions f hf
  refine ⟨⟨k.module, f, g, t, r, k.policy, k.shapes.isVariableTime⟩, ?_,
    ⟨h.module, hf, hflow, htask.symm.trans hregions⟩, rfl, rfl, ht⟩
  simp only [Known.context, lookup, hg, ht, hr]

/-- The third phase: where everything is known, the checks go through. -/
theorem Known.Full.exists_checkTask {k : Known} (h : k.Full) (rules : List Rule) {f : Function}
    (hf : f ∈ k.module.functions) : ∃ found, checkTask k rules f = .ok found := by
  obtain ⟨c, hcontext, hproper, -⟩ := h.exists_context hf
  obtain ⟨found, hfound⟩ := hproper.exists_checkAll rules
  refine ⟨found, ?_⟩
  simp only [checkTask, hcontext, hfound]
  rfl

/-- What was found is put together without a change of the state. -/
theorem Known.Full.exists_assemble {k : Known} (h : k.Full) (found : Table (List Finding))
    (r : Result) :
    ∃ r', assemble c k k.module.sortedFunctions found r = .ok r' ∧ r'.state = r.state := by
  obtain ⟨taints, htaints⟩ : ∃ taints, collect (lookup k.taints)
      (k.module.sortedFunctions.filter fun f => found.contains f.id) = .ok taints := by
    refine exists_collect_eq_ok fun f hf => ?_
    obtain ⟨t, ht⟩ := h.taints f (Module.mem_sortedFunctions.1 (List.mem_filter.1 hf).1)
    exact ⟨t, by rw [lookup, ht]⟩
  simp only [assemble, htaints]
  exact ⟨_, rfl, rfl⟩

/-- A run gives a result. It is rejected for malformed regions only, and without a deadline always
for them. -/
def Ends (deadline : Deadline τ) (m : Module) (o : Except RunError Result) : Prop :=
  ∃ r, o = .ok r ∧ (r.state = .failed → m.HasMalformedRegions) ∧
    (deadline = none → m.HasMalformedRegions → r.state = .failed)

/-- A run that ends because a task was late had a deadline, and is not failed. -/
theorem ends_late {ε β : Type} {task : Function → Except ε β} {functions : List Function}
    {p : Phase β} (hp : p.Covers deadline task functions) (hlate : p.timedOut = true) {r : Result}
    (hr : r.state ≠ .failed) :
    Ends deadline m (.ok r) := by
  refine ⟨r, rfl, fun hfailed => absurd hfailed hr, fun hnone => ?_⟩
  rw [hp.timely hnone] at hlate
  cases hlate

/-- The last phase gives a result that is not failed. -/
theorem always_runChecks (hc : c.Usable) (hm : m.WellFormed) (hgs : Shapes.HasGraphs m gs)
    {taints : Table Taints} (htaints : ∀ f ∈ m.functions, ∃ t, taints.get? f.id = some t)
    {regions : Table RegionMap}
    (hregions : ∀ f ∈ m.functions, ∃ r, regions.get? f.id = some r ∧ regionTask gs f = .ok r)
    (r : Result) :
    (runChecks c s deadline m gs taints regions r).Always fun o => ∃ r', o = .ok r' ∧
      r'.state = .detectorsRun := by
  obtain ⟨p, hp⟩ := hc.exists_policy
  obtain ⟨shapes, hshapes⟩ : ∃ shapes, Shapes.ofModule ⟨m, gs, taints, p⟩ (CallGraph.ofModule m) =
      .ok shapes :=
    Shapes.exists_ofModule hm hgs _
  have hk : Known.Full ⟨m, gs, taints, regions, p, shapes⟩ := ⟨hm, hgs, htaints, hregions⟩
  simp only [runChecks, hp, hshapes]
  refine (Phase.always_run s .checks deadline _ m.sortedFunctions).map fun o ho => ?_
  cases ho with
  | failed hf he =>
    obtain ⟨found, hfound⟩ := hk.exists_checkTask c.checkedRules (Module.mem_sortedFunctions.1 hf)
    rw [hfound] at he
    cases he
  | @ran found hfound =>
    obtain ⟨r', hr', hstate⟩ := hk.exists_assemble (c := c) found.table
      ({ r with timedOut := found.timedOut }.enter .detectorsRun)
    exact ⟨r', congrArg (Except.mapError RunError.fault) hr', hstate⟩

/-- From the second phase on, a run ends as it should. -/
theorem always_runRegions (hc : c.Usable) (hm : m.WellFormed) (hgs : Shapes.HasGraphs m gs)
    {taints : Table Taints} (htaints : ∀ f ∈ m.functions, ∃ t, taints.get? f.id = some t)
    (r : Result) :
    (runRegions c s deadline m gs taints r).Always (Ends deadline m) := by
  refine (Phase.always_run s .regions deadline (regionTask gs) m.sortedFunctions).bind fun o ho =>
    ?_
  cases ho with
  | @failed f s hf he =>
    have hmem := Module.mem_sortedFunctions.1 hf
    obtain ⟨g, e, hmalformed, hflow, hbad⟩ := exists_malformed_of_regionTask hm hgs hmem he
    dsimp only [stop]
    rw [hmalformed]
    exact Timed.always_done ⟨_, rfl, fun _ => ⟨f, hmem, g, e, hflow, hbad⟩, fun _ _ => rfl⟩
  | @ran p hp =>
    dsimp only
    split
    · next hlate => exact Timed.always_done (ends_late hp hlate nofun)
    · next hlate =>
      have htime : p.timedOut = false := Bool.eq_false_iff.2 hlate
      have hregions : ∀ f ∈ m.functions, ∃ r, p.table.get? f.id = some r ∧
          regionTask gs f = .ok r := fun f hf =>
        hp.exists_get? htime hm.nodup_sortedFunctions (Module.mem_sortedFunctions.2 hf)
      -- all regions are there, so none of them is malformed, and the checks run to their end
      have hproper := not_hasMalformedRegions hgs hregions
      intro clock n
      obtain ⟨r', hr', hstate⟩ := always_runChecks hc hm hgs htaints hregions _ clock n
      refine ⟨r', hr', fun hfailed => ?_, fun _ hbad => absurd hbad hproper⟩
      rw [hstate] at hfailed
      cases hfailed

/-- And so it does from the first phase on. -/
theorem always_runTaints (hc : c.Usable) (hm : m.WellFormed) (hgs : Shapes.HasGraphs m gs)
    (r : Result) :
    (runTaints c s deadline m gs r).Always (Ends deadline m) := by
  refine (Phase.always_run s .taint deadline (taintTask m gs) m.sortedFunctions).bind fun o ho => ?_
  cases ho with
  | failed hf he =>
    obtain ⟨t, ht⟩ := exists_taintTask hm hgs (Module.mem_sortedFunctions.1 hf)
    rw [ht] at he
    cases he
  | @ran p hp =>
    dsimp only
    split
    · next hlate => exact Timed.always_done (ends_late hp hlate nofun)
    · next hlate =>
      refine always_runRegions hc hm hgs (fun f hf => ?_) _
      obtain ⟨t, ht, -⟩ := hp.exists_get? (Bool.eq_false_iff.2 hlate) hm.nodup_sortedFunctions
        (Module.mem_sortedFunctions.2 hf)
      exact ⟨t, ht⟩

/-- **A run over a well-formed module gives a result.** -/
theorem always_run (hc : c.Usable) (hm : m.violation? = none) (arrival : Stage → Arrival)
    (deadline : Deadline τ) :
    (run c arrival deadline m).Always (Ends deadline m) := by
  have hwf := Module.wellFormed_of_violation?_eq_none hm
  obtain ⟨gs, hgs, hhas⟩ := exists_graphs hwf
  simp only [run, hm, hgs]
  exact always_runTaints hc hwf hhas _

end Analysis

/-! ## The analyzer

A step of the analyzer is a run with a start and a stop of the clock around it. -/

namespace Analyzer

variable {a : Analyzer} {m : Module}

/-- A step gives a result that is reported or failed, and if time is not limited it is failed
exactly when the regions of some function are malformed. -/
def Answers (m : Module) (limited : Prop) (step : Step) : Prop :=
  ∃ r, step.1 = .ok r ∧ (r.state = .reported ∨ r.state = .failed) ∧
    (¬ limited → (r.state = .failed ↔ m.HasMalformedRegions))

/-- Every step ends with an answer, for a deadline or none. -/
theorem always_run {τ : Type} (timing : Timing τ) (hc : a.config.Usable) (hm : m.violation? = none)
    (arrival : Stage → Arrival) (deadline : Deadline τ) :
    (a.run timing arrival m deadline).Always (Answers m (deadline ≠ none)) := by
  refine Timed.always_ask fun started => (Analysis.always_run hc hm arrival deadline).bind ?_
  rintro o ⟨r, rfl, hfailed, hbad⟩
  dsimp only
  by_cases hr : r.state = .failed
  · rw [Result.failed, decide_eq_true hr, if_pos rfl]
    exact Timed.always_done ⟨r, rfl, .inr hr, fun _ => ⟨hfailed, fun _ => hr⟩⟩
  · rw [Result.failed, decide_eq_false hr, if_neg Bool.false_ne_true]
    refine Timed.always_ask fun stopped => Timed.always_done ⟨_, rfl, .inl rfl, fun hnone => ?_⟩
    exact ⟨nofun, fun h => absurd (hbad (not_not.1 hnone) h) hr⟩

/-- The deadline comes from the settings, and the clock is asked once for it. -/
theorem always_analyzeIn (hready : a.isReady = true) (hc : a.config.Usable)
    (hm : m.violation? = none) (arrival : Stage → Arrival) :
    (a.analyzeIn arrival m).Always (Answers m (a.config.timeout ≠ none)) := by
  rw [analyzeIn, analyzeBy, if_pos hready]
  cases hlimit : a.config.timeout with
  | none =>
    intro clock n
    obtain ⟨r, hr, hstate, hiff⟩ := always_run .seconds hc hm arrival none clock n
    exact ⟨r, hr, hstate, fun _ => hiff (not_not.2 rfl)⟩
  | some limit =>
    obtain ⟨seconds, rfl⟩ := hc.timeout limit hlimit
    refine Timed.always_ask fun now clock n => ?_
    obtain ⟨r, hr, hstate, -⟩ :=
      always_run .seconds hc hm arrival (some fun t => decide (now + seconds < t)) clock n
    exact ⟨r, hr, hstate, fun hnone => absurd (Option.some_ne_none _) hnone⟩

end Analyzer

/-! ## From data to results

The pieces are put together: data is loaded, and what was loaded is analyzed. -/

/-- A function with a region that can also be entered from outside, as data. -/
def vaultData : Json :=
  .obj [("functions", .arr [
    .obj [("id", .str "unlock"),
      ("params", .arr [.obj [("value", .str "pin"), ("sensitivity", .str "secret")]]),
      ("blocks", .arr [
        .obj [("id", .str "entry"), ("instructions", .arr [
          .obj [("op", .str "branch"), ("inputs", .str "pin"),
            ("targets", .arr [.str "guard", .str "out"])]])],
        .obj [("id", .str "guard"), ("instructions", .arr [
          .obj [("op", .str "region_start")],
          .obj [("op", .str "jump"), ("targets", .str "out")]])],
        .obj [("id", .str "out"), ("instructions", .arr [
          .obj [("op", .str "region_end")], .obj [("op", .str "return")]])]])]])]

def unlock : Function :=
  ⟨"unlock",
    [⟨"entry", [⟨.branch, ["pin"], none, ["guard", "out"], none, none⟩]⟩,
      ⟨"guard", [⟨.regionStart, [], none, [], none, none⟩, ⟨.jump, [], none, ["out"], none, none⟩]⟩,
      ⟨"out", [⟨.regionEnd, [], none, [], none, none⟩, ⟨.ret, [], none, [], none, none⟩]⟩],
    [⟨"pin", .secret⟩], none, []⟩

def vault : Module := ⟨"vault", [unlock], []⟩

theorem load_vaultData : Module.load "vault" vaultData = .ok vault := by rfl

/-- The region of the vault is entered at its exit. -/
theorem hasMalformedRegions_vault : vault.HasMalformedRegions :=
  ⟨unlock, List.mem_singleton.2 rfl,
    ⟨"entry", ⟨[("entry", ["guard", "out"]), ("guard", ["out"]), ("out", [])]⟩, ["out"]⟩,
    ⟨.enteredFromOutside "guard" "entry", "unlock", "out"⟩, by rfl, by rfl⟩

/-- **Malformed input is the only failure, unless a number cannot be written.** Data is loaded or
malformed, or a whole number in it has more than `maxDigits` digits and stands where a name is read.
What was loaded can be analyzed with all settings that can be read, for every clock and in whatever
order results arrive. -/
theorem Analyzer.exists_result_of_load (name : String) (raw : Json) :
    ((∃ m, Module.load name raw = .ok m) ∨ (∃ e, Module.load name raw = .error (.malformed e)) ∨
        Module.load name raw = .error (.fault .unwritable) ∧ raw.isWritable = false) ∧
      ∀ m, Module.load name raw = .ok m → ∀ settings c, Config.ofJson settings = .ok c →
        ∀ a : Analyzer, a.config = c → a.isReady = true → ∀ arrival clock n,
          ∃ r a' n', (a.analyzeIn arrival m).answer clock n = ((.ok r, a'), n') ∧
            (r.state = .reported ∨ r.state = .failed) ∧
            (c.timeout = none → (r.state = .failed ↔ m.HasMalformedRegions)) := by
  constructor
  · cases h : Module.load name raw with
    | ok m => exact .inl ⟨m, rfl⟩
    | error e =>
      cases e with
      | malformed e => exact .inr (.inl ⟨e, rfl⟩)
      | fault e =>
        obtain ⟨rfl, hlong⟩ := Module.faultsOnlyIf_load name raw e h
        exact .inr (.inr ⟨rfl, hlong⟩)
  · rintro m hm settings c hc a rfl hready arrival clock n
    obtain ⟨r, hr, hstate, hiff⟩ := always_analyzeIn hready (Config.usable_of_ofJson hc)
      (Module.violation?_eq_none_of_load hm) arrival clock n
    refine ⟨r, ((a.analyzeIn arrival m).answer clock n).1.2,
      ((a.analyzeIn arrival m).answer clock n).2, ?_, hstate, fun hnone => hiff (not_not.2 hnone)⟩
    rw [← hr]

/-- The run over the vault is failed. -/
theorem Analyzer.exists_result_of_load_vault :
    Module.load "vault" vaultData = .ok vault ∧ Config.ofJson (.obj []) = .ok Config.default ∧
      (Analyzer.ofConfig Config.default).isReady = true ∧ ∀ arrival clock n,
        ∃ r a' n', ((Analyzer.ofConfig Config.default).analyzeIn arrival vault).answer clock n =
          ((.ok r, a'), n') ∧
          r.state = .failed := by
  refine ⟨load_vaultData, rfl, rfl, fun arrival clock n => ?_⟩
  obtain ⟨r, a', n', hanswer, -, hfailed⟩ :=
    (exists_result_of_load "vault" vaultData).2 vault load_vaultData (.obj [])
    Config.default rfl (Analyzer.ofConfig Config.default) rfl rfl arrival clock n
  exact ⟨r, a', n', hanswer, (hfailed rfl).2 hasMalformedRegions_vault⟩

/-- A function with one instruction that has the given opcode, as data. -/
def lone (op : Json) : Json :=
  .obj [("functions", .arr [
    .obj [("id", .str "f"),
      ("blocks", .arr [
        .obj [("id", .str "e"), ("instructions", .arr [.obj [("op", op)]])]])]])]

/-- What keeps an opcode from being read goes through to the module. -/
theorem Module.load_lone {op : Json} {e : Abort} (h : Decode.text op = .error e) :
    Module.load "module" (lone op) = .error e := by
  have hinstr : Decode.instr "f" "e" (.obj [("op", op)]) = .error e := by
    change (Decode.opcode op "f" "e" >>= _) = _
    rw [Decode.opcode, Decode.word, h]
    rfl
  have hblock : Decode.block "f"
      (.obj [("id", .str "e"), ("instructions", .arr [.obj [("op", op)]])]) =
      .error e := by
    change (collect (Decode.instr "f" "e") [_] >>= _) = _
    rw [collect, hinstr]
    rfl
  have hblocks : Decode.blocks "f" (.obj [("id", .str "f"), ("blocks", .arr [
      .obj [("id", .str "e"), ("instructions", .arr [.obj [("op", op)]])]])]) = .error e := by
    change collect (Decode.block "f") [_] = _
    rw [collect, hblock]
  have hfunction : Decode.function (.obj [("id", .str "f"), ("blocks", .arr [
      .obj [("id", .str "e"), ("instructions", .arr [.obj [("op", op)]])]])]) = .error e := by
    change (Decode.blocks "f" _ >>= _) = _
    rw [hblocks]
    rfl
  have hdecode : Module.decode "module" (lone op) = .error e := by
    change (collect Decode.function [_] >>= _) = _
    rw [collect, hfunction]
    rfl
  rw [Module.load, hdecode]

/-- A number is no opcode, but one of 4335 digits is not reported as malformed input. -/
theorem Module.load_lone_pow :
    Module.load "module" (lone (.int (16 ^ 3600 : Nat))) = .error (.fault .unwritable) := by
  have hlong : (Json.int (16 ^ 3600 : Nat)).isWritable = false := by
    rw [Json.isWritable_int, Text.isWritable_eq_false_iff, Int.natAbs_natCast]
    decide +kernel
  refine Module.load_lone ?_
  rw [Decode.text, Json.text?_eq_none_iff.2 hlong]

end ConstantTime
