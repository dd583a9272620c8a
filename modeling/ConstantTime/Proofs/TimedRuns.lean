/-
What a run gives, by which of its readings of the clock are past the deadline.

The readings of a run over a well-formed module are those of its three phases, one after the other.
A late reading in the first or the second phase ends the run with nothing found; otherwise what the
checks read is complete, and the run reports on the functions whose checks ran. What is known in
complete runs is the same, whatever the order in which results arrived. So everything about a run
is settled by its late readings, except for which defect rejects it.
-/
import ConstantTime.Proofs.Readings
import ConstantTime.Proofs.Reports

set_option autoImplicit false

namespace ConstantTime

/-! ## What is known in complete runs

Once the first two phases are over, every function has its graph, taints and regions. These are
determined by the module, so two runs over it agree, whatever happened on the way. -/

/-- Two tables say the same of the functions of a module. -/
def Table.AgreesOn {α : Type} (m : Module) (t t' : Table α) : Prop :=
  ∀ f ∈ m.functions, t.get? f.id = t'.get? f.id

namespace Shapes

variable {m : Module} {gs gs' : Table FlowGraph} {ts ts' : Table Taints} {p : Policy}
    {facts facts' : Facts}

/-- What speaks against a body is read from the graph and the taints of its function. -/
theorem bodyEvidence_congr (hgs : Table.AgreesOn m gs gs') (hts : Table.AgreesOn m ts ts')
    (s : Shapes) (name : String) :
    bodyEvidence ⟨m, gs, ts, p⟩ s name = bodyEvidence ⟨m, gs', ts', p⟩ s name := by
  unfold bodyEvidence
  cases hfound : m.function? name with
  | none => rfl
  | some f =>
    obtain ⟨hf, rfl⟩ := Module.mem_of_function?_eq_some hfound
    rw [hts f hf]
    cases ts'.get? f.id with
    | none => rfl
    | some t => simp only [inspector, hgs f hf]

/-- So components are judged alike. -/
theorem judge_congr (h : ∀ s name, bodyEvidence facts s name = bodyEvidence facts' s name)
    (hpolicy : facts.policy = facts'.policy) (common : List Evidence) (tooDeep : Option Nat)
    (component : List String) (s : Shapes) :
    judge facts common tooDeep s component = judge facts' common tooDeep s component := by
  have hanomaly : depthAnomaly facts = depthAnomaly facts' := by
    funext f depth
    rw [depthAnomaly, depthAnomaly, hpolicy]
  induction component generalizing s with
  | nil => rfl
  | cons f rest ih => simp only [judge, h, ih, hanomaly]

/-- Shapes depend on the evidence in functions, on the policy and on who calls whom. -/
theorem ofModule_eq (h : ∀ s name, bodyEvidence facts s name = bodyEvidence facts' s name)
    (hpolicy : facts.policy = facts'.policy) {calls calls' : CallGraph}
    (hcallees : calls.callees = calls'.callees)
    (hcomponents : calls.components = calls'.components) :
    ofModule facts calls = ofModule facts' calls' := by
  have hcircle : isCircle calls = isCircle calls' := by
    funext component
    simp only [isCircle, CallGraph.isSelfRecursive, hcallees]
  have hall : ∀ components s, judgeAll facts calls s components =
      judgeAll facts' calls' s components := by
    intro components
    induction components with
    | nil => intro s; rfl
    | cons component rest ih =>
      intro s
      simp only [judgeAll, judgeComponent, judge_congr h hpolicy, ih, hcircle, outside,
        hcallees, hpolicy]
  rw [ofModule, ofModule, hcomponents]
  exact hall calls'.components _

/-- Functions are judged by what is known of them. -/
theorem ofModule_congr (hgs : Table.AgreesOn m gs gs') (hts : Table.AgreesOn m ts ts')
    (calls : CallGraph) :
    ofModule ⟨m, gs, ts, p⟩ calls = ofModule ⟨m, gs', ts', p⟩ calls :=
  ofModule_eq (bodyEvidence_congr hgs hts) rfl rfl rfl

end Shapes

namespace Analysis

variable {c : Config} {m : Module}

/-- What the checks find in a function. -/
def Known.found (k : Known) (rules : List Rule) (f : Function) : List Finding :=
  match checkTask k rules f with
  | .ok xs => xs
  | .error _ => []

/-- What a run reports on the functions whose checks ran. -/
def Known.report (c : Config) (k : Known) (checked : List Function) (r : Result) : Result :=
  { r with
    anomalies :=
      (k.module.sortedFunctions.flatMap fun f =>
        ((k.regions.get? f.id).map RegionMap.anomalies).getD []) ++
        k.shapes.anomalies
    functionsAnalyzed := checked.length
    declassifications :=
      checked.flatMap fun f => ((k.taints.get? f.id).map Taints.declassifications).getD []
    findings :=
      sortFindings
        (checked.flatMap fun f => (k.found c.checkedRules f).filter
          (Finding.isAtLeast c.minSeverity)) }

namespace Known.Complete

variable {k k' : Known}

/-- Complete runs over a module agree on its flow graphs. -/
theorem agreesOn_graphs (h : k.Complete) (h' : k'.Complete) (hmodule : k.module = k'.module) :
    Table.AgreesOn k.module k.graphs k'.graphs := by
  intro f hf
  obtain ⟨g, hg, hflow⟩ := h.full.graphs f hf
  obtain ⟨g', hg', hflow'⟩ := h'.full.graphs f (hmodule ▸ hf)
  cases hflow.symm.trans hflow'
  rw [hg, hg']

/-- They agree on its taints. -/
theorem agreesOn_taints (h : k.Complete) (h' : k'.Complete) (hmodule : k.module = k'.module) :
    Table.AgreesOn k.module k.taints k'.taints := by
  intro f hf
  obtain ⟨g, t, hflow, ht, hget⟩ := h.taints f hf
  obtain ⟨g', t', hflow', ht', hget'⟩ := h'.taints f (hmodule ▸ hf)
  cases hflow.symm.trans hflow'
  rw [← hmodule] at ht'
  cases ht.symm.trans ht'
  rw [hget, hget']

/-- And on its regions. -/
theorem agreesOn_regions (h : k.Complete) (h' : k'.Complete) (hmodule : k.module = k'.module) :
    Table.AgreesOn k.module k.regions k'.regions := by
  intro f hf
  obtain ⟨r, hget, hr⟩ := h.full.regions f hf
  obtain ⟨r', hget', hr'⟩ := h'.full.regions f (hmodule ▸ hf)
  simp only [regionTask, lookup] at hr hr'
  rw [h.agreesOn_graphs h' hmodule f hf] at hr
  cases hr.symm.trans hr'
  rw [hget, hget']

/-- Hence on what they judge to be constant-time. -/
theorem shapes_eq (h : k.Complete) (h' : k'.Complete) (hmodule : k.module = k'.module)
    (hpolicy : k.policy = k'.policy) :
    k.shapes = k'.shapes := by
  have hshapes := h.shapes
  rw [Shapes.ofModule_congr (h.agreesOn_graphs h' hmodule) (h.agreesOn_taints h' hmodule),
    hmodule, hpolicy, h'.shapes] at hshapes
  exact (Except.ok.inj hshapes).symm

/-- The checks find the same, whatever the order in which what they read was computed. -/
theorem checkTask_eq (h : k.Complete) (h' : k'.Complete) (hmodule : k.module = k'.module)
    (hpolicy : k.policy = k'.policy) (rules : List Rule) {f : Function}
    (hf : f ∈ k.module.functions) : checkTask k rules f = checkTask k' rules f := by
  simp only [checkTask, Known.context, lookup, h.agreesOn_graphs h' hmodule f hf,
    h.agreesOn_taints h' hmodule f hf, h.agreesOn_regions h' hmodule f hf,
    h.shapes_eq h' hmodule hpolicy, hmodule, hpolicy]

/-- What is reported is the same, too. -/
theorem report_eq (h : k.Complete) (h' : k'.Complete) (hmodule : k.module = k'.module)
    (hpolicy : k.policy = k'.policy) {checked : List Function}
    (hchecked : checked ⊆ k.module.sortedFunctions) (r : Result) :
    k.report c checked r = k'.report c checked r := by
  have hmem : ∀ f ∈ checked, f ∈ k.module.functions :=
    fun f hf => Module.mem_sortedFunctions.1 (hchecked hf)
  have hanomalies : ∀ f ∈ k.module.sortedFunctions,
      ((k.regions.get? f.id).map RegionMap.anomalies).getD [] =
        ((k'.regions.get? f.id).map RegionMap.anomalies).getD [] := by
    intro f hf
    rw [h.agreesOn_regions h' hmodule f (Module.mem_sortedFunctions.1 hf)]
  have hdeclassified : ∀ f ∈ checked, ((k.taints.get? f.id).map Taints.declassifications).getD [] =
      ((k'.taints.get? f.id).map Taints.declassifications).getD [] := by
    intro f hf
    rw [h.agreesOn_taints h' hmodule f (hmem f hf)]
  have hfindings : ∀ f ∈ checked,
      (k.found c.checkedRules f).filter (Finding.isAtLeast c.minSeverity) =
      (k'.found c.checkedRules f).filter (Finding.isAtLeast c.minSeverity) := by
    intro f hf
    rw [Known.found, Known.found, h.checkTask_eq h' hmodule hpolicy c.checkedRules (hmem f hf)]
  rw [Known.report, Known.report, List.flatMap_congr hanomalies, List.flatMap_congr hdeclassified,
    List.flatMap_congr hfindings, h.shapes_eq h' hmodule hpolicy, hmodule]

end Known.Complete

/-! ## Putting together what was found

Results of checks arrive in any order. They are put together in the order of the functions that
were checked. -/

/-- A part of a list without repetitions is what a filter leaves that accepts its members. -/
theorem filter_eq_of_sublist {α : Type} {p : α → Bool} {l all : List α} (h : l.Sublist all)
    (hnodup : all.Nodup) (hp : ∀ x ∈ all, p x = true ↔ x ∈ l) : all.filter p = l := by
  induction h with
  | slnil => rfl
  | @cons l all x hsub ih =>
    rw [List.nodup_cons] at hnodup
    have hx : p x = false := by
      rw [Bool.eq_false_iff, Ne, hp x List.mem_cons_self]
      exact fun hmem => hnodup.1 (hsub.subset hmem)
    rw [List.filter_cons_of_neg (by rw [hx]; exact Bool.false_ne_true)]
    exact ih hnodup.2 fun y hy => hp y (List.mem_cons_of_mem x hy)
  | @cons_cons l all x hsub ih =>
    rw [List.nodup_cons] at hnodup
    rw [List.filter_cons_of_pos ((hp x List.mem_cons_self).2 List.mem_cons_self)]
    refine congrArg (x :: ·) (ih hnodup.2 fun y hy => ?_)
    rw [hp y (List.mem_cons_of_mem x hy), List.mem_cons]
    -- the head is not among the rest
    exact or_iff_right fun heq => hnodup.1 (heq ▸ hy)

/-- Contributions may be read off the items or off their results. -/
theorem flatMap_eq_of_collect {ε α β γ : Type} {f : α → Except ε β} {g : β → List γ}
    {g' : α → List γ} {xs : List α} {ys : List β} (h : collect f xs = .ok ys)
    (hg : ∀ x y, f x = .ok y → g' x = g y) : ys.flatMap g = xs.flatMap g' := by
  have hall := forall₂_of_collect_eq_ok h
  clear h
  induction hall with
  | nil => rfl
  | cons hx _ ih => rw [List.flatMap_cons, List.flatMap_cons, ih, hg _ _ hx]

/-- What is put together from the checks that ran is the report on their functions. -/
theorem assemble_eq_report {k : Known} (hk : k.Complete) {checked : List Function} {timedOut : Bool}
    (hchecked : checked.Sublist k.module.sortedFunctions) {found : Phase (List Finding)}
    (hfound : found.Gives (checkTask k c.checkedRules) checked timedOut) (r : Result) :
    assemble c k k.module.sortedFunctions found.table r = .ok (k.report c checked r) := by
  have hnames := hk.full.module.nodup_sortedFunctions
  have hget :=
    fun {f} (hf : f ∈ k.module.sortedFunctions) => hfound.get?_table hchecked.subset hnames hf
  -- the report asks the table which functions were checked
  have hfinished : (k.module.sortedFunctions.filter fun f => found.table.contains f.id) =
      checked := by
    refine filter_eq_of_sublist hchecked hnames.of_map fun f hf => ?_
    rw [Table.contains, Option.isSome_iff_exists]
    constructor
    · rintro ⟨xs, hxs⟩
      exact ((hget hf xs).1 hxs).1
    · intro hmem
      obtain ⟨xs, hxs⟩ := hfound.tasks f hmem
      exact ⟨xs, (hget hf xs).2 ⟨hmem, hxs⟩⟩
  obtain ⟨taints, htaints⟩ : ∃ taints, collect (lookup k.taints) checked = .ok taints := by
    refine exists_collect_eq_ok fun f hf => ?_
    obtain ⟨t, ht⟩ := hk.full.taints f (Module.mem_sortedFunctions.1 (hchecked.subset hf))
    exact ⟨t, by rw [lookup, ht]⟩
  have hdeclassified : taints.flatMap Taints.declassifications =
      checked.flatMap fun f => ((k.taints.get? f.id).map Taints.declassifications).getD [] := by
    refine flatMap_eq_of_collect htaints fun f t ht => ?_
    unfold lookup at ht
    split at ht
    · next hsome =>
      cases ht
      rw [hsome, Option.map_some, Option.getD_some]
    · cases ht
  have hfindings : ∀ f ∈ checked,
      ((found.table.get? f.id).getD []).filter (Finding.isAtLeast c.minSeverity) =
      (k.found c.checkedRules f).filter (Finding.isAtLeast c.minSeverity) := by
    intro f hf
    obtain ⟨xs, hxs⟩ := hfound.tasks f hf
    rw [(hget (hchecked.subset hf) xs).2 ⟨hf, hxs⟩, Option.getD_some, Known.found, hxs]
  simp only [assemble, hfinished, htaints, hdeclassified, Known.report,
    List.flatMap_congr hfindings]

end Analysis

/-! ## Runs

The run is followed from its last phase to the first. Each phase either ends the run at a late
reading or hands complete tables to the next one. -/

/-- The settings without those that say when tasks run. -/
def Config.unscheduled (c : Config) : Config := { c with maxWorkers := .int 1, timeout := none }

/-- The regions of a function are malformed. -/
def Function.HasMalformedRegions (f : Function) : Prop :=
  ∃ g e, FlowGraph.ofFunction f = .ok g ∧ RegionMap.ofFunction f g = .error (.malformed e)

namespace Analysis

variable {τ : Type} {c : Config} {m : Module} {s : Schedule} {deadline : Deadline τ}
    {clock : Nat → τ} {late : Nat → Bool} {n k : Nat}
  {gs : Table FlowGraph}

/-- The result after the first phase. -/
def tainted (c : Config) (m : Module) (timedOut : Bool) : Result :=
  { (Result.start m.name c.checkedRules).enter .loaded with timedOut := timedOut }.enter
    .taintComputed

/-- The result after the second phase. -/
def classified (c : Config) (m : Module) (timedOut : Bool) : Result :=
  { tainted c m false with timedOut := timedOut }.enter .regionsClassified

/-- The result after the last phase, before what was found is put in. -/
def inspected (c : Config) (m : Module) (timedOut : Bool) : Result :=
  { classified c m false with timedOut := timedOut }.enter .detectorsRun

@[simp] theorem state_tainted (timedOut : Bool) :
    (tainted c m timedOut).state = .taintComputed := rfl

@[simp] theorem state_classified (timedOut : Bool) :
    (classified c m timedOut).state = .regionsClassified := rfl

@[simp] theorem state_inspected (timedOut : Bool) :
    (inspected c m timedOut).state = .detectorsRun := rfl

@[simp] theorem Known.state_report (known : Known) (checked : List Function) (r : Result) :
    (known.report c checked r).state = r.state := rfl

/-- What the last phase gives, when its readings are late where `late` says so from `k` on. -/
structure Checks (c : Config) (s : Schedule) (m : Module) (late : Nat → Bool) (k : Nat)
    (o : Except RunError Result) : Prop where
  unusable : ∀ e, policy c = .error e → o = .error (.config e)
  checked : ∀ p, policy c = .ok p → ∃ known : Known, known.Complete ∧ known.module = m ∧
    known.policy = p ∧
    o = .ok (known.report c (Phase.ran s late k m.sortedFunctions)
      (inspected c m (Phase.struck late k m.sortedFunctions)))

/-- The last phase: the run ends with a report on the functions whose checks were in time. -/
theorem checks_runChecks (hreads : deadline.Reads clock late n k) (hm : m.WellFormed)
    (hgs : Shapes.HasGraphs m gs) {taints : Table Taints} (hts : Shapes.HasTaints m taints)
    {regions : Table RegionMap}
    (hregions : ∀ f ∈ m.functions, ∃ r, regions.get? f.id = some r ∧ regionTask gs f = .ok r) :
    Checks c s m late k
      ((runChecks c s deadline m gs taints regions (classified c m false)).answer clock n).1 := by
  constructor
  · intro e he
    simp only [runChecks, he, Timed.answer_done]
  · intro p hp
    obtain ⟨shapes, hshapes⟩ : ∃ shapes, Shapes.ofModule ⟨m, gs, taints, p⟩ (CallGraph.ofModule m) =
        .ok shapes :=
      Shapes.exists_ofModule hm hgs _
    have htaints : ∀ f ∈ m.functions, ∃ t, taints.get? f.id = some t := by
      intro f hf
      obtain ⟨_, t, -, -, ht⟩ := hts f hf
      exact ⟨t, ht⟩
    have hk : Known.Complete ⟨m, gs, taints, regions, p, shapes⟩ :=
      ⟨⟨hm, hgs, htaints, hregions⟩, hts, hshapes⟩
    refine ⟨_, hk, rfl, rfl, ?_⟩
    have hran := Phase.ran_sublist s late k m.sortedFunctions
    obtain ⟨o, n', hphase, hreturns, -⟩ := Phase.answer_run hreads s .checks
      (checkTask ⟨m, gs, taints, regions, p, shapes⟩ c.checkedRules) m.sortedFunctions
    simp only [runChecks, hp, hshapes]
    rw [Timed.map, Timed.answer_bind, hphase]
    cases hreturns with
    | failed hf he =>
      -- checks do not fail when everything is known
      obtain ⟨found, hfound⟩ :=
        hk.full.exists_checkTask c.checkedRules (Module.mem_sortedFunctions.1 (hran.subset hf))
      rw [hfound] at he
      cases he
    | @gives found hgives =>
      rw [← hgives.timedOut]
      exact congrArg (Except.mapError RunError.fault)
        (assemble_eq_report hk hran hgives (inspected c m found.timedOut))

/-- What the last two phases give, when their readings are late where `late` says so from `k` on. -/
structure Classifies (c : Config) (s : Schedule) (m : Module) (late : Nat → Bool) (k : Nat)
    (o : Except RunError Result) : Prop where
  rejected : (∃ f ∈ Phase.ran s late k m.sortedFunctions, f.HasMalformedRegions) →
    ∃ r, o = .ok r ∧ r.state = .failed
  stopped : (∀ f ∈ Phase.ran s late k m.sortedFunctions, ¬ f.HasMalformedRegions) →
    Phase.struck late k m.sortedFunctions = true → o = .ok (classified c m true)
  checks : ¬ m.HasMalformedRegions → Phase.struck late k m.sortedFunctions = false →
    Checks c s m late (k + m.sortedFunctions.length) o

/-- The second phase: a malformed region rejects the run, a late reading ends it, and otherwise the
checks follow. -/
theorem classifies_runRegions (hreads : deadline.Reads clock late n k) (hm : m.WellFormed)
    (hgs : Shapes.HasGraphs m gs) {taints : Table Taints} (hts : Shapes.HasTaints m taints) :
    Classifies c s m late k
      ((runRegions c s deadline m gs taints (tainted c m false)).answer clock n).1 := by
  have hran := Phase.ran_sublist s late k m.sortedFunctions
  obtain ⟨o, n', hphase, hreturns, hnext⟩ :=
    Phase.answer_run hreads s .regions (regionTask gs) m.sortedFunctions
  rw [runRegions, Timed.answer_bind, hphase]
  cases hreturns with
  | @failed f s hf he =>
    have hmem := Module.mem_sortedFunctions.1 (hran.subset hf)
    obtain ⟨g, e, hmalformed, hflow, hbad⟩ := exists_malformed_of_regionTask hm hgs hmem he
    dsimp only [stop]
    rw [hmalformed]
    exact ⟨fun _ => ⟨_, rfl, rfl⟩, fun hgood => absurd ⟨g, e, hflow, hbad⟩ (hgood f hf),
      fun hgood => absurd ⟨f, hmem, g, e, hflow, hbad⟩ hgood⟩
  | @gives p hp =>
    have hgood : ∀ f ∈ Phase.ran s late k m.sortedFunctions, ¬ f.HasMalformedRegions := by
      rintro f hf ⟨g, e, hflow, hbad⟩
      obtain ⟨r, hr⟩ := hp.tasks f hf
      obtain ⟨g', -, hflow', htask⟩ :=
        regionTask_eq hgs (Module.mem_sortedFunctions.1 (hran.subset hf))
      cases hflow.symm.trans hflow'
      rw [htask, hbad] at hr
      cases hr
    refine ⟨fun ⟨f, hf, hbad⟩ => absurd hbad (hgood f hf), fun _ hstruck => ?_, fun _ hstruck => ?_⟩
    · dsimp only
      rw [hp.timedOut, if_pos hstruck, hstruck]
      rfl
    · dsimp only
      rw [hp.timedOut, hstruck, if_neg Bool.false_ne_true]
      refine checks_runChecks (hnext hstruck ⟨p, rfl⟩) hm hgs hts fun f hf => ?_
      have hmem := Module.mem_sortedFunctions.2 hf
      rw [Phase.ran_eq_of_struck_eq_false s hstruck] at hp
      obtain ⟨r, hr⟩ := hp.tasks f hmem
      exact ⟨r, (hp.get?_table (List.Subset.refl _) hm.nodup_sortedFunctions hmem r).2 ⟨hmem, hr⟩,
        hr⟩

/-- What a run gives, when its readings are late where `late` says so. -/
structure Yields (c : Config) (s : Schedule) (m : Module) (late : Nat → Bool)
    (o : Except RunError Result) : Prop where
  stopped : Phase.struck late 0 m.sortedFunctions = true → o = .ok (tainted c m true)
  classifies : Phase.struck late 0 m.sortedFunctions = false →
    Classifies c s m late m.sortedFunctions.length o

/-- What tasks give does not depend on when they run. -/
theorem Yields.unscheduled {o : Except RunError Result} (h : Yields c s m late o) :
    Yields c.unscheduled s m late o where
  stopped := h.stopped
  classifies := fun hstruck =>
    { rejected := (h.classifies hstruck).rejected
      stopped := (h.classifies hstruck).stopped
      checks := fun hgood hstruck' =>
        { unusable := ((h.classifies hstruck).checks hgood hstruck').unusable
          checked := ((h.classifies hstruck).checks hgood hstruck').checked } }

/-- **What a run over a well-formed module gives**, by which of its readings are late. -/
theorem yields_run (hm : m.violation? = none) (arrival : Stage → Arrival)
    (hreads : deadline.Reads clock late n 0) :
    Yields c.unscheduled (schedule c arrival) m late
      ((run c arrival deadline m).answer clock n).1 := by
  refine Yields.unscheduled ?_
  have hwf := Module.wellFormed_of_violation?_eq_none hm
  obtain ⟨gs, hgs, hhas⟩ := exists_graphs hwf
  have hran := Phase.ran_sublist (schedule c arrival) late 0 m.sortedFunctions
  obtain ⟨o, n', hphase, hreturns, hnext⟩ :=
    Phase.answer_run hreads (schedule c arrival) .taint (taintTask m gs) m.sortedFunctions
  simp only [run, hm, hgs]
  rw [runTaints, Timed.answer_bind, hphase]
  cases hreturns with
  | failed hf he =>
    -- taints exist for every function of a well-formed module, so no task of this phase fails
    obtain ⟨t, ht⟩ := exists_taintTask hwf hhas (Module.mem_sortedFunctions.1 (hran.subset hf))
    rw [ht] at he
    cases he
  | @gives p hp =>
    refine ⟨fun hstruck => ?_, fun hstruck => ?_⟩
    · dsimp only
      rw [hp.timedOut, if_pos hstruck, hstruck]
      rfl
    · dsimp only
      rw [hp.timedOut, hstruck, if_neg Bool.false_ne_true]
      have hreads' := hnext hstruck ⟨p, rfl⟩
      rw [Nat.zero_add] at hreads'
      refine classifies_runRegions hreads' hwf hhas fun f hf => ?_
      have hmem := Module.mem_sortedFunctions.2 hf
      rw [Phase.ran_eq_of_struck_eq_false _ hstruck] at hp
      obtain ⟨t, htask⟩ := hp.tasks f hmem
      obtain ⟨g, hg, hflow⟩ := hhas f hf
      refine ⟨g, t, hflow, ?_,
        (hp.get?_table (List.Subset.refl _) hwf.nodup_sortedFunctions hmem t).2 ⟨hmem, htask⟩⟩
      simp only [taintTask, lookup, hg] at htask
      cases hof : Taints.ofFunction m f g with
      | error e =>
        rw [hof] at htask
        cases htask
      | ok _ =>
        rw [hof] at htask
        cases htask
        rfl

/-- A module that is not well formed is rejected before the clock is read. -/
theorem failed_run_of_violation {e : Abort} (he : m.violation? = some e) (arrival : Stage → Arrival)
    (deadline : Deadline τ) :
    ∃ r : Result, run c arrival deadline m = .done (.ok r) ∧ r.state = .failed := by
  cases e with
  | fault e => exact absurd he (m.violation?_ne_fault e)
  | malformed e =>
    simp only [run, he]
    exact ⟨_, rfl, rfl⟩

end Analysis

/-! ## The analyzer

The analyzer turns the result of a run into an answer and a state. A time limit adds one reading in
front, which fixes the deadline. -/

namespace Analyzer

variable {τ : Type} {a : Analyzer} {m : Module}

/-- How a step concludes from what its run gave. -/
inductive Concludes (a : Analyzer) : Except RunError Result → Step → Prop
  | error (e : RunError) : Concludes a (.error e) (.error (.run e), { a with state := .failed })
  | failed {r : Result} (h : r.state = .failed) :
    Concludes a (.ok r) (.ok r, { a with state := .failed })
  | reported {r : Result} (h : r.state ≠ .failed) (duration : Float) :
    Concludes a (.ok r)
      (.ok { r.enter .reported with duration := duration }, { a with state := .idle })

/-- A result that is not failed is that of a run that is not failed either. -/
theorem Concludes.exists_of_ok {o : Except RunError Result} {step : Step}
    (h : Concludes a o step) {r : Result} (hr : step.1 = .ok r) (hok : r.state ≠ .failed) :
    ∃ run duration, o = .ok run ∧ run.state ≠ .failed ∧
      r = { run.enter .reported with duration := duration } := by
  cases h with
  | error e => cases hr
  | failed hfailed =>
    cases hr
    exact absurd hfailed hok
  | reported hrun duration =>
    cases hr
    exact ⟨_, duration, rfl, hrun, rfl⟩

/-- A run that is not failed is reported. -/
theorem Concludes.exists_of_run {run : Result} {step : Step} (h : Concludes a (.ok run) step)
    (hok : run.state ≠ .failed) :
    ∃ duration,
      step = (.ok { run.enter .reported with duration := duration },
        { a with state := .idle }) := by
  cases h with
  | failed hfailed => exact absurd hfailed hok
  | reported hrun duration => exact ⟨duration, rfl⟩

/-- The clock is read once before the run. -/
theorem concludes_run (timing : Timing τ) (a : Analyzer) (arrival : Stage → Arrival) (m : Module)
    (deadline : Deadline τ) (clock : Nat → τ) (n : Nat) :
    Concludes a ((Analysis.run a.config arrival deadline m).answer clock (n + 1)).1
      ((a.run timing arrival m deadline).answer clock n).1 := by
  rw [run, Timed.answer_ask, Timed.answer_bind]
  cases ((Analysis.run a.config arrival deadline m).answer clock (n + 1)).1 with
  | error e => exact .error e
  | ok r =>
    dsimp only
    by_cases hr : r.state = .failed
    · rw [Result.failed, decide_eq_true hr, if_pos rfl]
      exact .failed hr
    · rw [Result.failed, decide_eq_false hr, if_neg Bool.false_ne_true]
      exact .reported hr _

/-- Without a time limit the clock is not read before the run. -/
theorem analyzeBy_of_timeout_eq_none {timing : Timing τ} (hready : a.isReady = true)
    (hlimit : a.config.timeout = none) (arrival : Stage → Arrival) (m : Module) :
    a.analyzeBy timing arrival m = a.run timing arrival m none := by
  rw [analyzeBy, if_pos hready, hlimit]

/-- With a time limit the clock is read once more, for the deadline. -/
theorem answer_analyzeBy {timing : Timing τ} (hready : a.isReady = true) {limit : Quantity}
    (hlimit : a.config.timeout = some limit) {clock : Nat → τ} {n : Nat} {past : τ → Bool}
    (hpast : timing.expiry? (clock n) limit = some past) (arrival : Stage → Arrival) (m : Module) :
    (a.analyzeBy timing arrival m).answer clock n =
      (a.run timing arrival m (some past)).answer clock (n + 1) := by
  rw [analyzeBy, if_pos hready, hlimit]
  simp only [Timed.answer_ask, hpast]

/-- A step that may start concludes from a run, unless no deadline can be set. -/
theorem concludes_analyzeBy (timing : Timing τ) (hready : a.isReady = true)
    (arrival : Stage → Arrival) (m : Module) (clock : Nat → τ) (n : Nat) :
    ((a.analyzeBy timing arrival m).answer clock n).1 =
      (.error .timeOutOfRange, { a with state := .idle }) ∨
      ∃ deadline n', Concludes a ((Analysis.run a.config arrival deadline m).answer clock n').1
        ((a.analyzeBy timing arrival m).answer clock n).1 := by
  cases hlimit : a.config.timeout with
  | none =>
    right
    rw [analyzeBy_of_timeout_eq_none hready hlimit]
    exact ⟨none, n + 1, concludes_run timing a arrival m none clock n⟩
  | some limit =>
    cases hpast : timing.expiry? (clock n) limit with
    | none =>
      left
      rw [analyzeBy, if_pos hready, hlimit]
      simp only [Timed.answer_ask, hpast, Timed.answer_done]
    | some past =>
      right
      rw [answer_analyzeBy hready hlimit hpast]
      exact ⟨some past, n + 2, concludes_run timing a arrival m (some past) clock (n + 1)⟩

end Analyzer

end ConstantTime
