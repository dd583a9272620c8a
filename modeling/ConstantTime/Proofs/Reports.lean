/-
What a run without a deadline reports.

Without a deadline nothing is left out, so the outcome of a run over a well-formed module does not
depend on the clock or on the order in which results arrive: it is rejected if some regions are
malformed, otherwise it ends without a result if the settings cannot be used, and otherwise it puts
together what the checks of all functions found. What is known to the checks is then complete:
graphs, taints and regions of every function, and the shapes of all.
-/
import ConstantTime.Proofs.Completion
import ConstantTime.Proofs.LiveCalls

set_option autoImplicit false

namespace ConstantTime

/-! ## Complete runs

The phases are followed from the last one back to the first, for every clock and schedule at
once. -/

namespace Analysis

variable {τ : Type} {c : Config} {s : Schedule} {m : Module} {gs : Table FlowGraph}

/-- All that the checks read was computed for all functions. -/
structure Known.Complete (k : Known) : Prop where
  full : k.Full
  taints : Shapes.HasTaints k.module k.taints
  shapes : Shapes.ofModule ⟨k.module, k.graphs, k.taints, k.policy⟩ (CallGraph.ofModule k.module) =
    .ok k.shapes

/-- The checks read the taints of the function, and find what the rules find. -/
theorem Known.Complete.exists_context {k : Known} (h : k.Complete) {f : Function}
    (hf : f ∈ k.module.functions) :
    ∃ c : Context, c.Proper ∧ c.module = k.module ∧ c.function = f ∧
      Taints.ofFunction k.module f c.graph = .ok c.taints ∧
      ∀ rules found, checkTask k rules f = .ok found ↔ c.checkAll rules = .ok found := by
  obtain ⟨c, hcontext, hproper, hmodule, rfl, ht⟩ := h.full.exists_context hf
  obtain ⟨g, t, hflow, htaints, ht'⟩ := h.taints c.function hf
  cases hflow.symm.trans hproper.graph
  cases ht.symm.trans ht'
  refine ⟨c, hproper, hmodule, rfl, htaints, fun rules found => ?_⟩
  obtain ⟨found', hfound'⟩ := hproper.exists_checkAll rules
  simp only [checkTask, hcontext, hfound']
  exact ⟨fun heq => congrArg Except.ok (Except.ok.inj heq),
    fun heq => congrArg Except.ok (Except.ok.inj heq)⟩

/-- What a run without a deadline gives. -/
inductive Reports (c : Config) (m : Module) : Except RunError Result → Prop
  /-- The regions of some function are malformed. -/
  | rejected {r : Result} (hbad : m.HasMalformedRegions) (hstate : r.state = .failed)
    (hfindings : r.findings = []) :
    Reports c m (.ok r)
  /-- The settings do not say what counts as variable-time. -/
  | unusable {e : ConfigError} (hgood : ¬ m.HasMalformedRegions) (hpolicy : policy c = .error e) :
    Reports c m (.error (.config e))
  /-- All functions were checked. -/
  | checked {k : Known} {found : Table (List Finding)} {begun r : Result}
    (hgood : ¬ m.HasMalformedRegions)
    (hk : k.Complete) (hmodule : k.module = m) (hpolicy : policy c = .ok k.policy)
    (hfound : ∀ f ∈ m.functions, ∃ xs, found.get? f.id = some xs ∧
      checkTask k c.checkedRules f = .ok xs)
    (hstate : begun.state = .detectorsRun)
      (hr : assemble c k m.sortedFunctions found begun = .ok r) :
    Reports c m (.ok r)

/-- If nothing is malformed, the checks report or the settings are unusable. -/
theorem always_runChecks_reports (hm : m.WellFormed) (hgood : ¬ m.HasMalformedRegions)
    (hgs : Shapes.HasGraphs m gs) {taints : Table Taints} (hts : Shapes.HasTaints m taints)
    {regions : Table RegionMap}
    (hregions : ∀ f ∈ m.functions, ∃ r, regions.get? f.id = some r ∧ regionTask gs f = .ok r)
    (r : Result) :
    (runChecks c s (none : Deadline τ) m gs taints regions r).Always (Reports c m) := by
  cases hp : policy c with
  | error e =>
    simp only [runChecks, hp]
    exact Timed.always_done (.unusable hgood hp)
  | ok p =>
    obtain ⟨shapes, hshapes⟩ : ∃ shapes, Shapes.ofModule ⟨m, gs, taints, p⟩ (CallGraph.ofModule m) =
        .ok shapes :=
      Shapes.exists_ofModule hm hgs _
    have htaints : ∀ f ∈ m.functions, ∃ t, taints.get? f.id = some t := by
      intro f hf
      obtain ⟨_, t, -, -, ht⟩ := hts f hf
      exact ⟨t, ht⟩
    have hk : Known.Complete ⟨m, gs, taints, regions, p, shapes⟩ :=
      ⟨⟨hm, hgs, htaints, hregions⟩, hts, hshapes⟩
    simp only [runChecks, hp, hshapes]
    refine (Phase.always_run s .checks none _ m.sortedFunctions).map fun o ho => ?_
    cases ho with
    | failed hf he =>
      -- checks do not fail when everything is known
      obtain ⟨found, hfound⟩ :=
        hk.full.exists_checkTask c.checkedRules (Module.mem_sortedFunctions.1 hf)
      rw [hfound] at he
      cases he
    | @ran found hfound =>
      obtain ⟨r', hr', -⟩ := hk.full.exists_assemble (c := c) found.table
        ({ r with timedOut := found.timedOut }.enter .detectorsRun)
      dsimp only
      rw [hr']
      refine .checked hgood hk rfl hp (fun f hf => ?_) rfl hr'
      exact hfound.exists_get? (hfound.timely rfl) hm.nodup_sortedFunctions
        (Module.mem_sortedFunctions.2 hf)

/-- The regions may reject the run, and are complete otherwise. -/
theorem always_runRegions_reports (hm : m.WellFormed) (hgs : Shapes.HasGraphs m gs)
    {taints : Table Taints} (hts : Shapes.HasTaints m taints) (r : Result) :
    (runRegions c s (none : Deadline τ) m gs taints r).Always (Reports c m) := by
  refine (Phase.always_run s .regions none (regionTask gs) m.sortedFunctions).bind fun o ho => ?_
  cases ho with
  | @failed f s hf he =>
    have hmem := Module.mem_sortedFunctions.1 hf
    obtain ⟨g, e, hmalformed, hflow, hbad⟩ := exists_malformed_of_regionTask hm hgs hmem he
    dsimp only [stop]
    rw [hmalformed]
    exact Timed.always_done (.rejected ⟨f, hmem, g, e, hflow, hbad⟩ rfl rfl)
  | @ran p hp =>
    dsimp only
    rw [hp.timely rfl, if_neg Bool.false_ne_true]
    have hregions : ∀ f ∈ m.functions, ∃ r, p.table.get? f.id = some r ∧ regionTask gs f = .ok r :=
      fun f hf =>
        hp.exists_get? (hp.timely rfl) hm.nodup_sortedFunctions (Module.mem_sortedFunctions.2 hf)
    exact always_runChecks_reports hm (not_hasMalformedRegions hgs hregions) hgs hts hregions _

/-- Taints exist for every function, so this phase always hands over. -/
theorem always_runTaints_reports (hm : m.WellFormed) (hgs : Shapes.HasGraphs m gs) (r : Result) :
    (runTaints c s (none : Deadline τ) m gs r).Always (Reports c m) := by
  refine (Phase.always_run s .taint none (taintTask m gs) m.sortedFunctions).bind fun o ho => ?_
  cases ho with
  | failed hf he =>
    obtain ⟨t, ht⟩ := exists_taintTask hm hgs (Module.mem_sortedFunctions.1 hf)
    rw [ht] at he
    cases he
  | @ran p hp =>
    dsimp only
    rw [hp.timely rfl, if_neg Bool.false_ne_true]
    refine always_runRegions_reports hm hgs (fun f hf => ?_) _
    obtain ⟨t, hget, htask⟩ := hp.exists_get? (hp.timely rfl) hm.nodup_sortedFunctions
      (Module.mem_sortedFunctions.2 hf)
    obtain ⟨g, hg, hflow⟩ := hgs f hf
    simp only [taintTask, lookup, hg] at htask
    cases hof : Taints.ofFunction m f g with
    | error e =>
      rw [hof] at htask
      cases htask
    | ok _ =>
      rw [hof] at htask
      cases htask
      exact ⟨g, t, hflow, hof, hget⟩

/-- **What a run over a well-formed module reports without a deadline.** -/
theorem always_run_reports (hm : m.violation? = none) (arrival : Stage → Arrival) :
    (run c arrival (none : Deadline τ) m).Always (Reports c m) := by
  have hwf := Module.wellFormed_of_violation?_eq_none hm
  obtain ⟨gs, hgs, hhas⟩ := exists_graphs hwf
  simp only [run, hm, hgs]
  exact always_runTaints_reports hwf hhas _

/-- What is put together keeps the state, and its findings are those of the functions that are
severe enough. -/
theorem assemble_eq_ok {k : Known} {found : Table (List Finding)} {begun r : Result}
    (hfound : ∀ f ∈ m.functions, ∃ xs, found.get? f.id = some xs ∧
      checkTask k c.checkedRules f = .ok xs)
    (hr : assemble c k m.sortedFunctions found begun = .ok r) :
    r.state = begun.state ∧ ∀ x, x ∈ r.findings ↔
      ∃ f ∈ m.functions, ∃ xs, checkTask k c.checkedRules f = .ok xs ∧
      x ∈ xs ∧ x.isAtLeast c.minSeverity = true := by
  unfold assemble at hr
  dsimp only at hr
  split at hr
  · cases hr
  · cases hr
    refine ⟨rfl, fun x => ?_⟩
    dsimp only
    rw [sortFindings, mem_sortBy, List.mem_flatMap]
    constructor
    · rintro ⟨f, hf, hx⟩
      have hmem := Module.mem_sortedFunctions.1 (List.mem_filter.1 hf).1
      obtain ⟨xs, hget, hcheck⟩ := hfound f hmem
      rw [hget, Option.getD_some, List.mem_filter] at hx
      exact ⟨f, hmem, xs, hcheck, hx⟩
    · rintro ⟨f, hmem, xs, hcheck, hx⟩
      obtain ⟨xs', hget, hcheck'⟩ := hfound f hmem
      cases hcheck.symm.trans hcheck'
      refine ⟨f, List.mem_filter.2 ⟨Module.mem_sortedFunctions.2 hmem, ?_⟩, ?_⟩
      · rw [Table.contains, hget, Option.isSome_some]
      · rw [hget, Option.getD_some, List.mem_filter]
        exact hx

end Analysis

namespace Analyzer

variable {a : Analyzer} {m : Module}

/-- What a step of an analyzer without a time limit gives: the findings of a run, or the error of
one. -/
inductive Reports (c : Config) (m : Module) : Except AnalyzerError Result → Prop
  | error {e : RunError} (h : Analysis.Reports c m (.error e)) : Reports c m (.error (.run e))
  | result {run r : Result} (h : Analysis.Reports c m (.ok run))
    (hfindings : r.findings = run.findings)
    (hstate : r.state = .failed ↔ run.state = .failed) : Reports c m (.ok r)

/-- The analyzer passes on how its run ended. -/
theorem always_analyzeIn_reports (hready : a.isReady = true) (hlimit : a.config.timeout = none)
    (hm : m.violation? = none) (arrival : Stage → Arrival) :
    (a.analyzeIn arrival m).Always fun step => Reports a.config m step.1 := by
  rw [analyzeIn, analyzeBy, if_pos hready, hlimit]
  refine Timed.always_ask fun started => (Analysis.always_run_reports hm arrival).bind fun o ho =>
    ?_
  cases o with
  | error e => exact Timed.always_done (.error ho)
  | ok run =>
    dsimp only
    split
    · exact Timed.always_done (.result ho rfl Iff.rfl)
    · next hrun =>
      refine Timed.always_ask fun stopped =>
        Timed.always_done (.result ho rfl ⟨fun h => ?_, fun h => ?_⟩)
      · cases h
      · exact absurd (decide_eq_true h) hrun

end Analyzer

end ConstantTime
