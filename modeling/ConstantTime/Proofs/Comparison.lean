/-
Two modules compared.

How a run without a deadline ends is settled by a few things: whether some regions are malformed,
which functions are variable-time, and what the checks find in each function. So two modules are
compared function by function. This module has what such comparisons share: calls, the order in
which functions are judged, and the end of a run.
-/
import ConstantTime.Proofs.TimeLimits
import ConstantTime.Proofs.Workers

set_option autoImplicit false

namespace ConstantTime

/-! ## Calls

Call graphs are compared by the callees of each function, not by the sites of calls, which may
stand elsewhere. -/

/-- The same functions, with the same callees. -/
structure CallGraph.Alike (g g' : CallGraph) : Prop where
  functions : g'.functions = g.functions
  callees : ∀ f, g'.callees f = g.callees f

/-- Elements with distinct names are sorted by them in one way. -/
theorem sortByName_eq_of_perm {α : Type} {name : α → String} {l l' : List α} (h : l.Perm l')
    (hl : (l.map name).Nodup) :
    sortByName name l = sortByName name l' := by
  have hsorted : ∀ l : List α, (sortByName name l).Pairwise fun x y => name x ≤ name y := by
    intro l
    have hpairwise : (sortByName name l).Pairwise fun x y => decide (name x ≤ name y) = true :=
      pairwise_sortBy (fun x y => by simpa using le_total (name x) (name y))
        (fun x y z => by simpa using le_trans) l
    exact hpairwise.imp fun h => of_decide_eq_true h
  have hperm : (sortByName name l).Perm (sortByName name l') :=
    (sortBy_perm _ _).trans (h.trans (sortBy_perm _ _).symm)
  refine List.Perm.eq_of_pairwise (fun x y hx hy hxy hyx => ?_) (hsorted _) (hsorted _) hperm
  have hy' : y ∈ l := h.mem_iff.2 (mem_sortBy.1 hy)
  exact List.inj_on_of_nodup_map hl (mem_sortBy.1 hx) hy' (le_antisymm hxy hyx)

/-- Lists with the same names have the same names in ascending order. -/
theorem sortNames_distinct_eq {l l' : List String} (h : ∀ x, x ∈ l ↔ x ∈ l') :
    sortNames (distinct l) = sortNames (distinct l') := by
  have hnames : (distinct l).Perm (distinct l') := by
    rw [List.perm_ext_iff_of_nodup (nodup_distinct l) (nodup_distinct l')]
    simpa only [mem_distinct] using h
  refine sortByName_eq_of_perm hnames ?_
  rw [List.map_id]
  exact nodup_distinct l

/-- A function with the first name may call one with the second name. -/
def Module.MayCall (m : Module) (caller callee : String) : Prop :=
  ∃ f ∈ m.functions, f.id = caller ∧ ∃ b ∈ f.blocks, ∃ i ∈ b.instrs, i.MayCall callee

/-- The call sites of a function are its calls, with all that an indirect one may reach. -/
theorem Function.mem_callSites_iff {f : Function} {caller callee : String} :
    (∃ s ∈ f.callSites, s.caller = caller ∧ s.callee = callee) ↔
      f.id = caller ∧ ∃ b ∈ f.blocks, ∃ i ∈ b.instrs, i.MayCall callee := by
  constructor
  · rintro ⟨s, hs, rfl, rfl⟩
    obtain ⟨p, hp, hs⟩ := List.mem_flatMap.1 hs
    obtain ⟨hb, hi⟩ := mem_placed_iff.1 hp
    have hmay : s.caller = f.id ∧ p.instr.MayCall s.callee := by
      split at hs
      · next hop =>
        obtain ⟨c, hc, rfl⟩ := List.mem_map.1 hs
        exact ⟨rfl, .inl ⟨hop, Option.mem_toList.1 hc⟩⟩
      · next hop =>
        obtain ⟨c, hc, rfl⟩ := List.mem_map.1 hs
        exact ⟨rfl, .inr ⟨hop, mem_distinct.1 hc⟩⟩
      · cases hs
    exact ⟨hmay.1.symm, p.block, hb, p.instr, List.mem_of_getElem? hi, hmay.2⟩
  · rintro ⟨rfl, b, hb, i, hi, hmay⟩
    exact Module.exists_callSite hb hi hmay

/-- The callees in a call graph are what may be called. -/
theorem CallGraph.mem_callees_ofModule_iff {m : Module} {caller callee : String} :
    callee ∈ ((ofModule m).sitesOf caller).map CallSite.callee ↔ m.MayCall caller callee := by
  simp only [sitesOf, ofModule, List.mem_map, List.mem_filter, List.mem_flatMap, decide_eq_true_iff,
    Module.MayCall, ← Function.mem_callSites_iff]
  grind

/-- Callees are compared by who may call whom. -/
theorem CallGraph.callees_ofModule_eq {m m' : Module}
    (hnames : ∀ name, name ∈ m'.functions.map Function.id ↔ name ∈ m.functions.map Function.id)
    (hcalls : ∀ caller callee, m'.MayCall caller callee ↔ m.MayCall caller callee) (f : String) :
    (ofModule m').callees f = (ofModule m).callees f := by
  refine sortNames_distinct_eq fun c => ?_
  have hmem : c ∈ (ofModule m').functions ↔ c ∈ (ofModule m).functions := by
    simp only [ofModule, mem_distinct, hnames]
  rw [List.mem_filter, mem_callees_ofModule_iff, hcalls, decide_eq_true_iff, hmem, List.mem_filter,
    mem_callees_ofModule_iff, decide_eq_true_iff]

/-- Calls are compared by who may call whom. -/
theorem CallGraph.alike_ofModule {m m' : Module}
    (hnames : m'.functions.map Function.id = m.functions.map Function.id)
    (hcalls : ∀ caller callee, m'.MayCall caller callee ↔ m.MayCall caller callee) :
    (ofModule m).Alike (ofModule m') where
  functions := by rw [ofModule, ofModule, hnames]
  callees := callees_ofModule_eq (fun name => by rw [hnames]) hcalls

/-- Call graphs that are alike have equal components, in the same order. -/
theorem CallGraph.Alike.components {g g' : CallGraph} (h : g.Alike g') :
    g'.components = g.components := by
  simp only [CallGraph.components, graph, h.functions, h.callees]

/-! ## Shapes

Tables that agree on which functions are variable-time. The evidence may differ, but judging asks
only whether there is any, so the tables stay alike from component to component. -/

namespace Shapes

/-- The same functions are variable-time, and the chains of calls below functions are as long. -/
structure Alike (s s' : Shapes) : Prop where
  isVariableTime : ∀ f, s'.isVariableTime f = s.isVariableTime f
  depths : s'.depths = s.depths

theorem Alike.symm {s s' : Shapes} (h : s.Alike s') : s'.Alike s :=
  ⟨fun f => (h.isVariableTime f).symm, h.depths.symm⟩

variable {facts facts' : Facts} {calls calls' : CallGraph}

/-- The evidence in a function by what is known of it. -/
theorem bodyEvidence_eq {name : String} {f : Function} (hf : facts.module.function? name = some f)
    {g : FlowGraph} (hg : facts.graphs.get? f.id = some g) {t : Taints}
    (ht : facts.taints.get? name = some t) {loops : List Loop} (hloops : g.loops = .ok loops)
    (s : Shapes) :
    bodyEvidence facts s name =
      Inspector.evidence ⟨f, g, t, loops, facts.policy, s.isVariableTime⟩ g.reachable := by
  simp only [bodyEvidence, hf, ht, inspector, hg, hloops]

/-- What speaks against the functions of a module speaks against those of another one. -/
def SameBodies (facts facts' : Facts) : Prop :=
  ∀ {s s' : Shapes}, s.Alike s' → ∀ {f body body'}, bodyEvidence facts s f = .ok body →
    bodyEvidence facts' s' f = .ok body' → (body' = [] ↔ body = [])

/-- Entering shapes that agree on being variable-time keeps tables alike. -/
theorem Alike.set {s s' : Shapes} (h : s.Alike s') (f : String) {shape shape' : Shape}
    (hshape : shape'.isVariableTime = shape.isVariableTime) (anomalies anomalies' : List Anomaly) :
    Alike ⟨s.table.set f shape, s.depths, anomalies⟩
      ⟨s'.table.set f shape', s'.depths, anomalies'⟩ where
  isVariableTime := by
    intro name
    have hrest := h.isVariableTime name
    simp only [Shapes.isVariableTime, Table.get?_set] at hrest ⊢
    by_cases hname : f = name
    · rw [if_pos hname, if_pos hname, Option.map_some, Option.map_some, hshape]
    · rw [if_neg hname, if_neg hname, hrest]
  depths := h.depths

/-- The functions of a component are judged alike. -/
theorem alike_judge (hbodies : SameBodies facts facts') (common : List Evidence)
    (tooDeep : Option Nat) {component : List String} {s s' t t' : Shapes} (h : s.Alike s')
    (ht : judge facts common tooDeep s component = .ok t)
    (ht' : judge facts' common tooDeep s' component = .ok t') :
    t.Alike t' := by
  induction component generalizing s s' with
  | nil =>
    cases ht
    cases ht'
    exact h
  | cons f rest ih =>
    rw [judge] at ht ht'
    split at ht
    · cases ht
    · next body hbody =>
      split at ht'
      · cases ht'
      · next body' hbody' =>
        refine ih (h.set f ?_ _ _) ht ht'
        rw [Shape.isVariableTime, Shape.isVariableTime, Bool.eq_iff_iff]
        simp only [Bool.not_eq_true', List.isEmpty_eq_false_iff, ne_eq, List.append_eq_nil_iff,
          hbodies h hbody hbody']

/-- Components are judged alike: what they share depends on the calls. -/
theorem alike_judgeComponent (hbodies : SameBodies facts facts') (hcalls : calls.Alike calls')
    (hpolicy : facts'.policy = facts.policy) {component : List String} {s s' t t' : Shapes}
    (h : s.Alike s') (ht : judgeComponent facts calls s component = .ok t)
    (ht' : judgeComponent facts' calls' s' component = .ok t') :
    t.Alike t' := by
  have hcircle : isCircle calls' component = isCircle calls component := by
    simp only [isCircle, CallGraph.isSelfRecursive, hcalls.callees]
  have hdepths : collect s'.depth (outside calls' component) =
      collect s.depth (outside calls component) := by
    have hdepth : s'.depth = s.depth := by
      funext f
      rw [depth, depth, h.depths]
    rw [hdepth, outside, outside, funext hcalls.callees]
  unfold judgeComponent at ht ht'
  rw [hcircle, hdepths, hpolicy] at ht'
  split at ht
  · cases ht
  · cases ht
  · next recursive depths hrecursive hbelow =>
    rw [hrecursive, hbelow] at ht'
    have hknown : Alike
        { s with
          depths := component.foldl (fun t f => t.set f (chainLength component recursive depths))
            s.depths }
        { s' with
          depths := component.foldl (fun t f => t.set f (chainLength component recursive depths))
            s'.depths } :=
      ⟨h.isVariableTime, by rw [h.depths]⟩
    exact alike_judge hbodies _ _ hknown ht ht'

/-- **Functions with the same calls are judged alike**, if the same speaks against their bodies. -/
theorem alike_ofModule (hbodies : SameBodies facts facts') (hcalls : calls.Alike calls')
    (hpolicy : facts'.policy = facts.policy) {t t' : Shapes} (ht : ofModule facts calls = .ok t)
    (ht' : ofModule facts' calls' = .ok t') : t.Alike t' := by
  have hall : ∀ (components : List (List String)) {s s' : Shapes}, s.Alike s' →
      judgeAll facts calls s components = .ok t → judgeAll facts' calls' s' components = .ok t' →
        t.Alike t' := by
    intro components
    induction components with
    | nil =>
      intro s s' h ht ht'
      cases ht
      cases ht'
      exact h
    | cons component rest ih =>
      intro s s' h ht ht'
      rw [judgeAll] at ht ht'
      split at ht
      · cases ht
      · next next hnext =>
        split at ht'
        · cases ht'
        · next next' hnext' =>
            exact ih (alike_judgeComponent hbodies hcalls hpolicy h hnext hnext') ht ht'
  rw [ofModule, hcalls.components] at ht'
  exact hall calls.components ⟨fun _ => rfl, rfl⟩ ht ht'

end Shapes

/-! ## Checks

What the checks find in one function, given that all look-ups succeed. -/

/-- What is found in a function is what the checks find in its context. -/
theorem Analysis.Known.Complete.exists_found {k : Known} (hk : k.Complete) {f : Function}
    (hf : f ∈ k.module.functions) (rules : List Rule) :
    ∃ g t r, FlowGraph.ofFunction f = .ok g ∧ Taints.ofFunction k.module f g = .ok t ∧
      RegionMap.ofFunction f g = .ok r ∧
      Context.checkAll ⟨k.module, f, g, t, r, k.policy, k.shapes.isVariableTime⟩ rules =
        .ok (k.found rules f) := by
  obtain ⟨g, hg, hflow, htask⟩ := regionTask_eq hk.full.graphs hf
  obtain ⟨g', t, hflow', ht, hget⟩ := hk.taints f hf
  cases hflow.symm.trans hflow'
  obtain ⟨r, hr, hregions⟩ := hk.full.regions f hf
  rw [htask] at hregions
  refine ⟨g, t, r, hflow, ht, hregions, ?_⟩
  have hproper : Context.Proper ⟨k.module, f, g, t, r, k.policy, k.shapes.isVariableTime⟩ :=
    ⟨hk.full.module, hf, hflow, hregions⟩
  obtain ⟨found, hfound⟩ := hproper.exists_checkAll rules
  simp only [Known.found, checkTask, Known.context, lookup, hg, hget, hr, hfound]
  rfl

/-! ## Steps of an analyzer

`Ends` lists how a step without a time limit ends, and `Matches` is what two such steps have in
common. A comparison of modules shows that regions, settings and findings correspond, and
`matches_of_ends` does the rest. -/

namespace Analyzer

variable {τ : Type}

/-- Two steps fail in the same cases and give the same errors, and the findings of two results that
are not failed are related. -/
structure Matches (R : List Finding → List Finding → Prop) (s s' : Step) : Prop where
  failed : Failed s ↔ Failed s'
  error : ∀ e, s.1 = .error e ↔ s'.1 = .error e
  findings : ∀ r r', s.1 = .ok r → s'.1 = .ok r' → r.state ≠ .failed → R r.findings r'.findings

/-- If the one step reports, the other one does, with related findings. -/
theorem Matches.exists_result {R : List Finding → List Finding → Prop} {s s' : Step}
    (h : Matches R s s') {r : Result} (hr : s.1 = .ok r) (hok : r.state ≠ .failed) :
    ∃ r', s'.1 = .ok r' ∧ r'.state ≠ .failed ∧ R r.findings r'.findings := by
  cases hr' : s'.1 with
  | error e => cases hr.symm.trans ((h.error e).2 hr')
  | ok r' =>
    refine ⟨r', rfl, fun hfailed => ?_, h.findings r r' hr hr' hok⟩
    obtain ⟨r₁, hr₁, hfailed₁⟩ := h.failed.2 ⟨r', hr', hfailed⟩
    cases hr.symm.trans hr₁
    exact hok hfailed₁

/-- How a step without a deadline ends. -/
inductive Ends (c : Config) (m : Module) : Except AnalyzerError Result → Prop
  | failed {r : Result} (hbad : m.HasMalformedRegions) (hstate : r.state = .failed) :
    Ends c m (.ok r)
  | unusable {e : ConfigError} (hgood : ¬ m.HasMalformedRegions)
    (hpolicy : Analysis.policy c = .error e) :
    Ends c m (.error (.run (.config e)))
  | reported {k : Analysis.Known} {r : Result} (hgood : ¬ m.HasMalformedRegions) (hk : k.Complete)
    (hmodule : k.module = m)
    (hpolicy : Analysis.policy c = .ok k.policy) (hstate : r.state = .reported)
    (hfindings : r.findings = (k.report c m.sortedFunctions r).findings) : Ends c m (.ok r)

/-- Usable settings lead to a result. -/
theorem Ends.exists_result {c : Config} {m : Module} {o : Except AnalyzerError Result}
    (h : Ends c.unscheduled m o) (hc : c.Usable) : ∃ r, o = .ok r := by
  cases h with
  | failed => exact ⟨_, rfl⟩
  | reported => exact ⟨_, rfl⟩
  | unusable _ hpolicy =>
    obtain ⟨p, hp⟩ := hc.exists_policy
    cases hp.symm.trans hpolicy

/-- A run without late readings is concluded in one of these ways. -/
theorem Concludes.ends {a : Analyzer} {c : Config} {schedule : Schedule} {m : Module}
    {o : Except RunError Result} {s : Step} (h : Concludes a o s)
    (hyields : Analysis.Yields c schedule m (fun _ => false) o) : Ends c m s.1 := by
  have hclassifies := hyields.classifies (Analysis.struck_never 0 _)
  have hran : ∀ k, Phase.ran schedule (fun _ => false) k m.sortedFunctions = m.sortedFunctions :=
    fun k => Phase.ran_eq_of_struck_eq_false _ (Analysis.struck_never k _)
  by_cases hbad : m.HasMalformedRegions
  · obtain ⟨f, hf, hmalformed⟩ := hbad
    obtain ⟨r, rfl, hfailed⟩ :=
      hclassifies.rejected ⟨f, (hran _).symm ▸ Module.mem_sortedFunctions.2 hf, hmalformed⟩
    cases h with
    | failed => exact .failed ⟨f, hf, hmalformed⟩ hfailed
    | reported hok => exact absurd hfailed hok
  · have hchecks := hclassifies.checks hbad (Analysis.struck_never _ _)
    cases hpolicy : Analysis.policy c with
    | error e =>
      cases hchecks.unusable e hpolicy
      cases h
      exact .unusable hbad hpolicy
    | ok p =>
      obtain ⟨k, hk, hmodule, rfl, rfl⟩ := hchecks.checked p hpolicy
      obtain ⟨duration, rfl⟩ := h.exists_of_run (by simp)
      rw [hran]
      exact .reported hbad hk hmodule hpolicy rfl rfl

/-- Without a time limit an analysis ends in one of these ways. -/
theorem ends_analyzeBy (timing : Timing τ) {a : Analyzer} (hready : a.isReady = true)
    (hlimit : a.config.timeout = none) {m : Module} (hm : m.violation? = none)
    (arrival : Stage → Arrival) (clock : Nat → τ) (n : Nat) :
    Ends a.config.unscheduled m ((a.analyzeBy timing arrival m).answer clock n).1.1 := by
  rw [analyzeBy_of_timeout_eq_none hready hlimit]
  have hreads : Deadline.Reads none clock (fun _ => false) (n + 1) 0 := fun _ => rfl
  exact (concludes_run timing a arrival m none clock n).ends (Analysis.yields_run hm arrival hreads)

/-- **Runs over two modules match** if their regions are malformed in the same cases and what is
found in them is related. -/
theorem matches_of_ends {R : List Finding → List Finding → Prop} {c : Config} {m m' : Module}
    {s s' : Step} (h : Ends c m s.1) (h' : Ends c m' s'.1)
    (hbad : m.HasMalformedRegions ↔ m'.HasMalformedRegions)
    (hR : ∀ k k' : Analysis.Known, k.Complete → k'.Complete → k.module = m → k'.module = m' →
      k'.policy = k.policy → ∀ r r', R (k.report c m.sortedFunctions r).findings
      (k'.report c m'.sortedFunctions r').findings) :
    Matches R s s' := by
  obtain ⟨outcome, after⟩ := s
  obtain ⟨outcome', after'⟩ := s'
  have hnot : ∀ {r : Result} {next : Analyzer}, r.state = .reported → ¬ Failed (.ok r, next) := by
    rintro r next hstate ⟨r', hr', hfailed⟩
    cases hr'
    rw [hstate] at hfailed
    cases hfailed
  -- the two steps end alike: by the regions both fail, and by the settings both are unusable
  cases h with
  | failed hmalformed hstate =>
    cases h' with
    | failed _ hstate' =>
      exact ⟨⟨fun _ => ⟨_, rfl, hstate'⟩, fun _ => ⟨_, rfl, hstate⟩⟩, by simp,
        fun r r' hr _ hok => absurd (Except.ok.inj hr ▸ hstate) hok⟩
    | unusable hgood | reported hgood => exact absurd (hbad.1 hmalformed) hgood
  | unusable hgood hpolicy =>
    cases h' with
    | failed hmalformed => exact absurd (hbad.2 hmalformed) hgood
    | unusable _ hpolicy' =>
      cases hpolicy.symm.trans hpolicy'
      exact ⟨⟨fun ⟨_, hr, _⟩ => (by cases hr), fun ⟨_, hr, _⟩ => (by cases hr)⟩, fun _ => Iff.rfl,
        fun r r' hr => (by cases hr)⟩
    | reported _ _ _ hpolicy' => cases hpolicy.symm.trans hpolicy'
  | reported hgood hk hmodule hpolicy hstate hfindings =>
    cases h' with
    | failed hmalformed => exact absurd (hbad.2 hmalformed) hgood
    | unusable _ hpolicy' => cases hpolicy.symm.trans hpolicy'
    | reported _ hk' hmodule' hpolicy' hstate' hfindings' =>
      refine ⟨⟨fun hf => absurd hf (hnot hstate),
        fun hf => absurd hf (hnot hstate')⟩, by simp, fun r r' hr hr' _ => ?_⟩
      cases hr
      cases hr'
      rw [hfindings, hfindings']
      exact hR _ _ hk hk' hmodule hmodule' (Except.ok.inj (hpolicy'.symm.trans hpolicy)) _ _

end Analyzer

end ConstantTime
