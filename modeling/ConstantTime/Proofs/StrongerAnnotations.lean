/-
Stronger annotations hide nothing.

Two modules with the same code are compared, where the second one declares at least what the first
one does. Ranks only rise, so what speaks against a function still does; chains of live calls and
depths are those of the code, so every function that was variable-time stays so. The places of
findings depend on annotations through ranks alone: a skipped scrub needs a chain, and a store to
global memory a secret. Main statement: no label falls, no variable-time function and no finding is
lost, secret paths apart, whatever the settings.
-/
import ConstantTime.Proofs.Annotations
import ConstantTime.Proofs.GlobalStores
import ConstantTime.Proofs.OpenRegions
import ConstantTime.Proofs.Reports
import ConstantTime.Proofs.SkippedScrubs
import ConstantTime.Proofs.VariableTime

set_option autoImplicit false

namespace ConstantTime

/-! ## Taints

The three questions that the analysis asks about a taint can only change from no to yes when its
rank rises. -/

namespace Taint

/-- A tainted value stays tainted. -/
theorem isTainted_of_rank_le {t t' : Taint} (hle : t.rank ≤ t'.rank) (h : t.isTainted = true) :
    t'.isTainted = true := by
  have hlabel : Label.unknown ≤ t.label := of_decide_eq_true h
  exact decide_eq_true (Nat.le_trans hlabel (label_le_of_rank_le hle))

/-- A chain may become another one, but for coherent taints it does not vanish. -/
theorem hasOrigin_of_rank_le {t t' : Taint} (hle : t.rank ≤ t'.rank) (ht : t.Coherent)
    (ht' : t'.Coherent) (h : t.hasOrigin = true) : t'.hasOrigin = true := by
  rw [hasOrigin_iff] at h ⊢
  exact (traced_le_rank_iff ht').1 (le_trans ((traced_le_rank_iff ht).2 h) hle)

/-- A secret stays one. -/
theorem label_eq_secret_of_rank_le {t t' : Taint} (hle : t.rank ≤ t'.rank) (h : t.label = .secret) :
    t'.label = .secret := by
  rw [← rank_eq_secret_iff] at h ⊢
  rw [h] at hle
  exact le_antisymm (Rank.le_secret _) hle

end Taint

section Functions

variable {m m' : Module} (hm : m.WellFormed) (hm' : m'.WellFormed) (h : m.Raised m')

include h

/-- Every function has its raised counterpart. -/
theorem Module.Raised.exists_function {f : Function} (hf : f ∈ m.functions) :
    ∃ f' ∈ m'.functions, f.Raised f' :=
  exists_of_mem_of_forall₂ h.functions hf

include hm hm'

/-- The taints of a function and of the same one with raised annotations. -/
theorem Module.Raised.exists_taints {f f' : Function} (hf : f ∈ m.functions)
    (hf' : f' ∈ m'.functions) (hraised : f.Raised f') :
    ∃ g t t', FlowGraph.ofFunction f = .ok g ∧ FlowGraph.ofFunction f' = .ok g ∧
      Taints.ofFunction m f g = .ok t ∧
      Taints.ofFunction m' f' g = .ok t' ∧ t.values.Coherent ∧ t'.values.Coherent ∧
      ∀ v, (t.of v).rank ≤ (t'.of v).rank := by
  obtain ⟨g, t, hg, ht, hleast, -⟩ := Taints.exists_least hm hf
  obtain ⟨g', t', hg', ht', hleast', -⟩ := Taints.exists_least hm' hf'
  have hsame := hg'
  rw [hraised.flow_eq, hg] at hsame
  cases hsame
  exact ⟨g, t, t', hg, hg', ht, ht', hleast.values, hleast'.values,
    hleast.rank_le_of_raised h hraised hleast'⟩

end Functions

/-! ## Shapes

Chains of live calls and depths are read off the code, which is the same. Only what speaks against
a single function depends on ranks, and there is more of it afterwards. -/

namespace Module.Raised

variable {m m' : Module} (hm : m.WellFormed) (hm' : m'.WellFormed) (h : m.Raised m')

/-- A live call stays one. -/
theorem liveCall {f f' c c' : Function} (hf : f.Raised f') (hf' : f' ∈ m'.functions)
    (hc : c.Raised c') (hc' : c' ∈ m'.functions) (hcall : m.LiveCall f c) : m'.LiveCall f' c' := by
  obtain ⟨g, hg, b, hb, hreach, i, hi, hmay⟩ := hcall.site
  refine ⟨hf', hc', g, ?_, b, ?_, hreach, i, hi, ?_⟩
  · rw [hf.flow_eq, hg]
  · rw [hf.blocks]
    exact hb
  · rw [hc.id]
    exact hmay

include h in
/-- A chain of live calls leads to the counterpart of its last function. -/
theorem exists_liveChain {k : Nat} {f f' last : Function} (hf : f.Raised f')
    (hf' : f' ∈ m'.functions) (hchain : m.LiveChain k f last) :
    ∃ last' ∈ m'.functions, last.Raised last' ∧ m'.LiveChain k f' last' := by
  induction hchain generalizing f' with
  | here f => exact ⟨f', hf', hf, .here f'⟩
  | call hcall _ ih =>
    obtain ⟨c', hc', hraised⟩ := h.exists_function hcall.callee
    obtain ⟨last', hlast', hsame, hrest⟩ := ih hraised hc'
    exact ⟨last', hlast', hsame, .call (liveCall hf hf' hraised hc' hcall) hrest⟩

include hm hm' h in
/-- What speaks against a function by itself still does. -/
theorem varies {p : Policy} {f f' : Function} (hf : f ∈ m.functions) (hf' : f' ∈ m'.functions)
    (hraised : f.Raised f') (hvaries : f.Varies m p) : f'.Varies m' p := by
  obtain ⟨g, t, t', hg, hg', ht, ht', -, -, hrank⟩ := h.exists_taints hm hm' hf hf' hraised
  have htainted : ∀ v, (t.of v).isTainted = true → (t'.of v).isTainted = true := fun v hv =>
    Taint.isTainted_of_rank_le (hrank v) hv
  obtain ⟨g₁, t₁, hg₁, ht₁, hunder⟩ := hvaries
  cases hg.symm.trans hg₁
  cases ht.symm.trans ht₁
  refine ⟨g, t', hg', ht', ?_⟩
  rcases hunder with ⟨b, hb, hreach, i, hi, hinstr⟩ | ⟨loops, hloops, l, hl, hreach, hleaves⟩
  · rw [← hraised.blocks] at hb
    refine .inl ⟨b, hb, hreach, i, hi, ?_⟩
    cases hinstr with
    | branch hop hv hv' => exact .branch hop hv (htainted _ hv')
    | indirectBranch hop htargets hv hv' => exact .indirectBranch hop htargets hv (htainted _ hv')
    | routine hcall hroutine => exact .routine hcall hroutine
    | unresolved hop htargets hcounts => exact .unresolved hop htargets hcounts
  · obtain ⟨b, hb, hexit, last, hlast, hop, v, hv, hv'⟩ := hleaves
    rw [← hraised.blocks] at hb
    exact .inr ⟨loops, hloops, l, hl, hreach, b, hb, hexit, last, hlast, hop, v, hv, htainted _ hv'⟩

end Module.Raised

namespace Shapes

section Depths

variable {facts facts' : Facts} {calls : CallGraph} {s s' : Shapes}
    (hs : ofModule facts calls = .ok s)
  (hs' : ofModule facts' calls = .ok s')

include hs hs'

/-- Depths depend on the calls alone. -/
theorem get?_depths_eq {f : String} (hf : f ∈ calls.functions) :
    s.depths.get? f = s'.depths.get? f := by
  refine CallGraph.components_induction (P := fun f => s.depths.get? f = s'.depths.get? f) ?_ hf
  intro component hcomponent ih f hf
  obtain ⟨recursive, depths, hverdict⟩ := (settles_of_ofModule hs).1 component hcomponent
  obtain ⟨recursive', depths', hverdict'⟩ := (settles_of_ofModule hs').1 component hcomponent
  cases hverdict.circle.symm.trans hverdict'.circle
  have hbelow : collect s.depth (outside calls component) =
      collect s'.depth (outside calls component) := by
    refine collect_congr fun c hc => ?_
    obtain ⟨⟨g, hg, hcallee⟩, hout⟩ := mem_outside_iff.1 hc
    have hcall : calls.Calls g c :=
      ⟨CallGraph.mem_functions_of_mem_component hcomponent hg, hcallee⟩
    rw [depth, depth, ih g hg c hcall hout]
  cases hverdict.below.symm.trans (hbelow.trans hverdict'.below)
  rw [hverdict.depth f hf, hverdict'.depth f hf]

/-- Chains of calls that are too long stay so. -/
theorem TooDeep.of_calls {p : Policy} {f : String} (h : TooDeep p calls s f) :
    TooDeep p calls s' f := by
  obtain ⟨component, hcomponent, hf, recursive, depths, hcircle, hbelow, hexceeds⟩ := h
  refine ⟨component, hcomponent, hf, recursive, depths, hcircle, ?_, hexceeds⟩
  rw [← hbelow]
  refine collect_congr fun c hc => ?_
  obtain ⟨⟨g, -, hcallee⟩, -⟩ := mem_outside_iff.1 hc
  rw [depth, depth, get?_depths_eq hs hs' (calls.callees_subset g c hcallee)]

end Depths

variable {facts facts' : Facts} {s s' : Shapes}

/-- **A function that is variable-time stays so**, because a chain of live calls still leads to one
with something against it. -/
theorem isVariableTime_of_raised (hm : facts.module.WellFormed) (hm' : facts'.module.WellFormed)
    (h : facts.module.Raised facts'.module) (hpolicy : facts'.policy = facts.policy)
    (hgs : HasGraphs facts.module facts.graphs) (hts : HasTaints facts.module facts.taints)
    (hgs' : HasGraphs facts'.module facts'.graphs) (hts' : HasTaints facts'.module facts'.taints)
    (hs : ofModule facts (CallGraph.ofModule facts.module) = .ok s)
    (hs' : ofModule facts' (CallGraph.ofModule facts'.module) = .ok s') {name : String}
    (hvariable : s.isVariableTime name = true) : s'.isVariableTime name = true := by
  obtain ⟨shape, hshape, -⟩ := isVariableTime_iff.1 hvariable
  obtain ⟨f, hf, rfl⟩ :=
    Module.mem_functions_ofModule.1 ((settles_of_ofModule hs).2.table name shape hshape)
  obtain ⟨f', hf', hraised⟩ := h.exists_function hf
  obtain ⟨k, last, hchain, hoffends⟩ :=
    exists_liveChain_of_isVariableTime hm hgs hts hs hf hvariable
  obtain ⟨last', hlast', hsame, hchain'⟩ := h.exists_liveChain hraised hf' hchain
  -- cycles and depths are those of the calls, which are the same; what varies still does
  have hoffends' : Offends facts' s' last' := by
    rw [Offends, h.calls_eq, hsame.id, hpolicy]
    rw [h.calls_eq] at hs'
    rcases hoffends with hcycle | hdeep | hvaries
    · exact .inl hcycle
    · exact .inr (.inl (hdeep.of_calls hs hs'))
    · exact .inr (.inr (h.varies hm hm' (hchain.mem_functions hf) hlast' hsame hvaries))
  rw [← hraised.id]
  exact isVariableTime_of_liveChain hm' hgs' hts' hs' hf' hchain'
    ((isVariableTime_iff_offends_or_call hm' hgs' hts' hs' hlast').2 (.inl hoffends'))

end Shapes

/-! ## Findings

Each rule but that on secret paths finds at least as much. A secret path can disappear: with more
evidence on the other arm the two may agree. -/

namespace Context

/-- What the checks of a function and of the same one with raised annotations know. -/
structure Raised (c c' : Context) : Prop where
  module : c.module.Raised c'.module
  function : c.function.Raised c'.function
  graph : c'.graph = c.graph
  regions : c'.regions = c.regions
  coherent : c.taints.values.Coherent
  coherent' : c'.taints.values.Coherent
  rank : ∀ v, (c.taints.of v).rank ≤ (c'.taints.of v).rank

variable {c c' : Context} (h : c.Raised c') (hc : c.Proper) (hc' : c'.Proper)

include h

/-- A scrub that can be missed can be missed, and its value has a chain. -/
theorem SkipsScrub.of_raised {p : Placed} {v : String} (hskips : c.SkipsScrub p v) :
    c'.SkipsScrub p v := by
  have hdefinition : c'.definitionBlock c'.function.sites v =
      c.definitionBlock c.function.sites v := by
    rw [definitionBlock, definitionBlock, h.function.sites_eq, h.graph]
  refine ⟨?_, hskips.op, ?_, hskips.input, Taint.isTainted_of_rank_le (h.rank _) hskips.tainted,
    Taint.hasOrigin_of_rank_le (h.rank _) (h.coherent.ofValue v)
      (h.coherent'.ofValue v) hskips.origin, ?_, ?_, ?_⟩
  · rw [h.function.placed_eq]
    exact hskips.placed
  · rw [h.graph]
    exact hskips.reached
  · rw [hdefinition]
    exact hskips.apart
  · rw [hdefinition, h.graph]
    exact hskips.defined
  · rw [hdefinition, h.graph]
    exact hskips.around

/-- A store of a secret to global memory stays one. -/
theorem storesSecret_of_raised {p : Placed}
    (hstores : p.StoresSecret c.module c.function c.taints) :
    p.StoresSecret c'.module c'.function c'.taints := by
  obtain ⟨v, hv, hsecret⟩ := hstores.value
  obtain ⟨l, hl, hglobal⟩ := hstores.location
  obtain ⟨name, hname, hget⟩ := Option.bind_eq_some_iff.1 hl
  have hfound := h.module.locationsFor h.function name
  rw [hget] at hfound
  obtain ⟨l', hget', hraised⟩ := exists_of_rel_some hfound
  refine ⟨hstores.op, ⟨v, hv, Taint.label_eq_secret_of_rank_le (h.rank _) hsecret⟩, l', ?_, ?_⟩
  · rw [hname, Option.bind_some, hget']
  · rw [hraised.storage, hglobal]

include hc hc'

/-- What a rule found, it finds again at the same place. -/
theorem exists_finding_of_raised {rule : Rule} (hrule : rule ≠ .secretPath)
    {found found' : List Finding} (hfound : c.check rule = .ok found)
    (hfound' : c'.check rule = .ok found') {x : Finding} (hx : x ∈ found) :
    ∃ x' ∈ found', x'.instrPlace = x.instrPlace := by
  cases rule with
  | secretPath => exact absurd rfl hrule
  | indirectBranch =>
    -- neither the sites nor the regions depend on annotations
    obtain ⟨p, hp, hdynamic, hcovered, hat⟩ := exists_of_mem_indirectBranches hc hfound hx
    rw [← h.function.placed_eq] at hp
    rw [← h.regions] at hcovered
    obtain ⟨x', hx', hplace⟩ := exists_mem_indirectBranches hc' hfound' hp hdynamic hcovered
    exact ⟨x', hx', hplace.trans hat.place.symm⟩
  | conditionalScrub =>
    obtain ⟨_, heq, hmade, -⟩ := exists_reportsScrubs hc.wellFormed
    cases heq.symm.trans hfound
    obtain ⟨_, heq', -, hmade'⟩ := exists_reportsScrubs hc'.wellFormed
    cases heq'.symm.trans hfound'
    obtain ⟨p, v, hskips, hat⟩ := hmade x hx
    obtain ⟨x', hx', hat'⟩ := hmade' p v (hskips.of_raised h)
    exact ⟨x', hx', hat'.place.trans hat.place.symm⟩
  | globalStorage =>
    obtain ⟨p, hp, hstores, hat⟩ := storesSecret_of_mem_globalStores hfound hx
    rw [← h.function.placed_eq] at hp
    have hstores' := storesSecret_of_raised h hstores
    obtain ⟨x', hfinding⟩ := exists_finding_of_storesSecret h.coherent' hp hstores'
    refine ⟨x', (mem_collectSome_iff hfound').2
      ⟨p, List.mem_filter.2 ⟨hp, decide_eq_true hstores'.op⟩, hfinding⟩, ?_⟩
    exact (madeAt_of_storeFinding? hfinding).isFindingAt.place.trans hat.place.symm

end Context

/-- Two findings of one rule at one instruction. -/
structure Finding.SameSite (x x' : Finding) : Prop where
  rule : x'.rule = x.rule
  function : x'.function = x.function
  block : x'.block = x.block
  index : x'.index = x.index

namespace Context

variable {c c' : Context}

/-- What its rule finds again at the same place, all rules together find again, as severe as
before. -/
theorem exists_sameSite (hid : c'.function.id = c.function.id) (hc' : c'.Proper) {rules : List Rule}
    {found found' : List Finding} (hfound : c.checkAll rules = .ok found)
    (hfound' : c'.checkAll rules = .ok found') {x : Finding} (hx : x ∈ found)
    (hagain : ∀ ofRule ofRule', c.check x.rule = .ok ofRule →
      c'.check x.rule = .ok ofRule' → x ∈ ofRule → ∃ x' ∈ ofRule', x'.instrPlace = x.instrPlace) :
    ∃ x' ∈ found', x.SameSite x' ∧ x'.severity = x.severity := by
  obtain ⟨rule, hmem, ofRule, hcheck, hin⟩ := (mem_checkAll_iff hfound).1 hx
  obtain ⟨_, _, hmade⟩ := exists_madeAt_of_mem_check hcheck hin
  obtain ⟨ofRule', hcheck'⟩ := hc'.exists_check rule
  rw [hmade.isFindingAt.rule] at hagain
  obtain ⟨x', hin', hplace⟩ := hagain ofRule ofRule' hcheck hcheck' hin
  obtain ⟨_, _, hmade'⟩ := exists_madeAt_of_mem_check hcheck' hin'
  refine ⟨x', (mem_checkAll_iff hfound').2 ⟨rule, hmem, ofRule', hcheck', hin'⟩,
    ⟨?_, ?_, ?_, ?_⟩, ?_⟩
  · rw [hmade.isFindingAt.rule, hmade'.isFindingAt.rule]
  · rw [hmade.isFindingAt.function, hmade'.isFindingAt.function, hid]
  · exact congrArg Prod.fst hplace
  · exact congrArg Prod.snd hplace
  · rw [hmade.severity, hmade'.severity]

end Context

/-! ## Runs

Both runs report or both are rejected, since regions do not depend on annotations. -/

/-- Regions are malformed in both modules or in neither. -/
theorem Module.Raised.hasMalformedRegions_iff {m m' : Module} (h : m.Raised m') :
    m'.HasMalformedRegions ↔ m.HasMalformedRegions := by
  constructor
  · rintro ⟨f', hf', g, e, hflow, hbad⟩
    obtain ⟨f, hf, hraised⟩ := exists_of_mem_of_forall₂ h.functions.flip hf'
    exact ⟨f, hf, g, e, hraised.flow_eq.symm.trans hflow, (hraised.regions_eq g).symm.trans hbad⟩
  · rintro ⟨f, hf, g, e, hflow, hbad⟩
    obtain ⟨f', hf', hraised⟩ := h.exists_function hf
    exact ⟨f', hf', g, e, hraised.flow_eq.trans hflow, (hraised.regions_eq g).trans hbad⟩

/-- What one run found is also found by another one, secret paths apart. -/
def Result.Covers (r r' : Result) : Prop :=
  ∀ x ∈ r.findings, x.rule ≠ .secretPath → ∃ x' ∈ r'.findings, x.SameSite x'

namespace Analysis

variable {c : Config} {m m' : Module}

/-- The check of a function misses nothing under raised annotations. -/
theorem Known.Complete.exists_sameSite_of_raised {k k' : Known} (hk : k.Complete)
    (hk' : k'.Complete) (h : k.module.Raised k'.module) {rules : List Rule} {f f' : Function}
    (hf : f ∈ k.module.functions) (hf' : f' ∈ k'.module.functions) (hraised : f.Raised f')
    {found found' : List Finding} (hfound : checkTask k rules f = .ok found)
    (hfound' : checkTask k' rules f' = .ok found') {x : Finding} (hx : x ∈ found)
    (hrule : x.rule ≠ .secretPath) : ∃ x' ∈ found', x.SameSite x' ∧ x'.severity = x.severity := by
  -- both contexts hold the graph, the regions and the taints that the functions have by themselves
  obtain ⟨d, hd, hmodule, rfl, ht, htask⟩ := hk.exists_context hf
  obtain ⟨d', hd', hmodule', rfl, ht', htask'⟩ := hk'.exists_context hf'
  obtain ⟨g, t, t', hg, hg', hof, hof', hcoherent, hcoherent', hrank⟩ :=
    h.exists_taints hk.full.module hk'.full.module hf hf' hraised
  cases hg.symm.trans hd.graph
  have hgraph : d'.graph = d.graph := Except.ok.inj (hd'.graph.symm.trans hg')
  have hregions : d'.regions = d.regions := by
    have hsame := hd'.regions
    rw [hraised.regions_eq, hgraph, hd.regions] at hsame
    exact (Except.ok.inj hsame).symm
  cases hof.symm.trans ht
  rw [hgraph] at ht'
  cases hof'.symm.trans ht'
  have hcontext : d.Raised d' :=
    ⟨by rw [hmodule, hmodule']; exact h, hraised, hgraph, hregions, hcoherent, hcoherent', hrank⟩
  exact Context.exists_sameSite hraised.id hd' ((htask rules found).1 hfound)
    ((htask' rules found').1 hfound') hx
    fun _ _ hcheck hcheck' hin => Context.exists_finding_of_raised hcontext hd hd' hrule
      hcheck hcheck' hin

/-- A run under raised annotations ends as before and misses nothing. -/
theorem Reports.covers_of_raised (h : m.Raised m') {r : Result} (hr : Reports c m (.ok r))
    {o : Except RunError Result} (ho : Reports c m' o) :
    ∃ r', o = .ok r' ∧ (r'.state = .failed ↔ r.state = .failed) ∧ r.Covers r' := by
  cases hr with
  | rejected hbad hstate hfindings =>
    cases ho with
    | rejected _ hstate' _ =>
      refine ⟨_, rfl, iff_of_true hstate' hstate, fun x hx => ?_⟩
      rw [hfindings] at hx
      cases hx
    | unusable hgood' => exact absurd (h.hasMalformedRegions_iff.2 hbad) hgood'
    | checked hgood' => exact absurd (h.hasMalformedRegions_iff.2 hbad) hgood'
  | @checked k found begun _ hgood hk hmodule hpolicy hfound hstate hr =>
    cases ho with
    | rejected hbad' => exact absurd (h.hasMalformedRegions_iff.1 hbad') hgood
    | unusable _ hpolicy' => cases hpolicy.symm.trans hpolicy'
    | @checked k' found' begun' r' _ hk' hmodule' _ hfound' hstate' hr' =>
      obtain ⟨hsame, hmem⟩ := assemble_eq_ok hfound hr
      obtain ⟨hsame', hmem'⟩ := assemble_eq_ok hfound' hr'
      refine ⟨r', rfl, ?_, fun x hx hrule => ?_⟩
      · rw [hsame, hsame', hstate, hstate']
      · obtain ⟨f, hf, xs, hcheck, hxs, hsevere⟩ := (hmem x).1 hx
        obtain ⟨f', hf', hraised⟩ := h.exists_function hf
        obtain ⟨xs', -, hcheck'⟩ := hfound' f' hf'
        subst hmodule hmodule'
        obtain ⟨x', hxs', hsite, hseverity⟩ :=
          hk.exists_sameSite_of_raised hk' h hf hf' hraised hcheck hcheck' hxs hrule
        -- the severity is that of the rule, so what was severe enough still is
        refine ⟨x', (hmem' x').2 ⟨f', hf', xs', hcheck', hxs', ?_⟩, hsite⟩
        rw [Finding.isAtLeast, hseverity]
        exact hsevere

end Analysis

/-- A step of an analyzer under raised annotations ends as before and misses nothing. -/
theorem Analyzer.Reports.covers_of_raised {c : Config} {m m' : Module}
    (h : m.Raised m') {r : Result} (hr : Reports c m (.ok r)) {o : Except AnalyzerError Result}
    (ho : Reports c m' o) :
    ∃ r', o = .ok r' ∧ (r'.state = .failed ↔ r.state = .failed) ∧ r.Covers r' := by
  cases hr with
  | result hrun hfindings hstate =>
    cases ho with
    | error hrun' =>
      obtain ⟨_, heq, -⟩ := hrun.covers_of_raised h hrun'
      cases heq
    | @result run' r' hrun' hfindings' hstate' =>
      obtain ⟨_, heq, hiff, hcovers⟩ := hrun.covers_of_raised h hrun'
      cases heq
      refine ⟨r', rfl, hstate'.trans (hiff.trans hstate.symm), fun x hx hrule => ?_⟩
      rw [hfindings] at hx
      rw [hfindings']
      exact hcovers x hx hrule

/-- **Stronger annotations hide nothing.** If a validated module declares at least what another one
does, and is the same otherwise, then no label falls, regions are what they were, variable-time
functions stay so, and a run without a time limit ends as before, with a finding wherever there was
one, secret paths apart. -/
theorem Module.nothing_hidden_of_raised {m m' : Module} (hm : m.validate = .ok ())
    (hm' : m'.validate = .ok ()) (h : m.Raised m') :
    (∀ f ∈ m.functions, ∃ f' ∈ m'.functions, f'.id = f.id ∧ ∃ g t t',
      FlowGraph.ofFunction f = .ok g ∧ FlowGraph.ofFunction f' = .ok g ∧
      Taints.ofFunction m f g = .ok t ∧ Taints.ofFunction m' f' g = .ok t' ∧
      (∀ v, (t.of (some v)).label ≤ (t'.of (some v)).label) ∧
      RegionMap.ofFunction f' g = RegionMap.ofFunction f g) ∧
    (∀ facts facts' : Shapes.Facts, facts.module = m → facts'.module = m' →
      facts'.policy = facts.policy →
      Shapes.HasGraphs m facts.graphs → Shapes.HasTaints m facts.taints →
      Shapes.HasGraphs m' facts'.graphs → Shapes.HasTaints m' facts'.taints →
      ∃ s s', Shapes.ofModule facts (CallGraph.ofModule m) = .ok s ∧
        Shapes.ofModule facts' (CallGraph.ofModule m') = .ok s' ∧
        ∀ name, s.isVariableTime name = true → s'.isVariableTime name = true) ∧
    ∀ a : Analyzer, a.isReady = true → a.config.timeout = none →
      ∀ arrival arrival' clock clock' n n',
      (a.config.Usable → ∃ r, ((a.analyzeIn arrival m).answer clock n).1.1 = .ok r) ∧
      ∀ r, ((a.analyzeIn arrival m).answer clock n).1.1 = .ok r →
        ∃ r', ((a.analyzeIn arrival' m').answer clock' n').1.1 = .ok r' ∧
          (r'.state = .failed ↔ r.state = .failed) ∧ r.Covers r' := by
  have hwf := Module.wellFormed_of_validate hm
  have hwf' := Module.wellFormed_of_validate hm'
  refine ⟨fun f hf => ?_, ?_, fun a hready hlimit arrival arrival' clock clock' n n' =>
    ⟨fun husable => ?_, fun r hr => ?_⟩⟩
  · obtain ⟨f', hf', hraised⟩ := h.exists_function hf
    obtain ⟨g, t, t', hg, hg', ht, ht', -, -, hrank⟩ := h.exists_taints hwf hwf' hf hf' hraised
    exact ⟨f', hf', hraised.id, g, t, t', hg, hg', ht, ht',
      fun v => Taint.label_le_of_rank_le (hrank (some v)), hraised.regions_eq g⟩
  · rintro facts facts' rfl rfl hpolicy hgs hts hgs' hts'
    obtain ⟨s, hs⟩ := Shapes.exists_ofModule hwf hgs (CallGraph.ofModule facts.module)
    obtain ⟨s', hs'⟩ := Shapes.exists_ofModule hwf' hgs' (CallGraph.ofModule facts'.module)
    exact ⟨s, s', hs, hs',
      fun name => Shapes.isVariableTime_of_raised hwf hwf' h hpolicy hgs hts hgs' hts' hs hs'⟩
  · obtain ⟨r, hr, -⟩ :=
      Analyzer.always_analyzeIn hready husable (Module.violation?_eq_none_of_validate hm)
        arrival clock n
    exact ⟨r, hr⟩
  · have hreports : Analyzer.Reports a.config m ((a.analyzeIn arrival m).answer clock n).1.1 :=
      Analyzer.always_analyzeIn_reports hready hlimit (Module.violation?_eq_none_of_validate hm)
        arrival clock n
    have hreports' : Analyzer.Reports a.config m'
        ((a.analyzeIn arrival' m').answer clock' n').1.1 :=
      Analyzer.always_analyzeIn_reports hready hlimit (Module.violation?_eq_none_of_validate hm')
        arrival' clock' n'
    rw [hr] at hreports
    exact hreports.covers_of_raised h hreports'

/-- A function that scrubs a key on one way out only, and logs a hint that is declared as given. -/
def discard (hint : Sensitivity) : Function :=
  ⟨"discard",
    [⟨"entry", [⟨.branch, ["key"], none, ["wipe", "out"], none, none⟩]⟩,
      ⟨"wipe", [⟨.scrub, ["key"], none, [], none, none⟩, ⟨.jump, [], none, ["out"], none, none⟩]⟩,
      ⟨"out", [⟨.store, ["hint"], none, [], some "log", none⟩, ⟨.ret, [], none, [], none, none⟩]⟩],
    [⟨"key", .secret⟩, ⟨"hint", hint⟩], none, []⟩

def discarding (hint : Sensitivity) : Module :=
  ⟨"discarding", [discard hint], [⟨"log", .global, none, false⟩]⟩

theorem raised_discarding : (discarding .pub).Raised (discarding .secret) where
  functions := .cons
    ⟨rfl, rfl, .cons ⟨rfl, Nat.le_refl _⟩ (.cons ⟨rfl, by decide⟩ .nil), .same none, .nil⟩ .nil
  locations := .cons ⟨rfl, rfl, rfl, id⟩ .nil

/-- With a secret hint the function still branches on the key, and the scrub that can be skipped is
still found. -/
theorem Module.nothing_hidden_of_raised_discarding :
    (discarding .pub).validate = .ok () ∧ (discarding .secret).validate = .ok () ∧
      (discarding .pub).Raised (discarding .secret) ∧
      (∃ s, Shapes.ofModule (Shapes.Facts.ofModule (discarding .secret) Shapes.lenient)
        (CallGraph.ofModule (discarding .secret)) = .ok s ∧ s.isVariableTime "discard" = true) ∧
      ∀ arrival clock n, ∃ r,
        (((Analyzer.ofConfig Config.default).analyzeIn arrival (discarding .secret)).answer clock
          n).1.1 = .ok r ∧
          ∃ x ∈ r.findings, x.rule = .conditionalScrub ∧ x.function = "discard" ∧ x.block = "wipe" ∧
            x.index = 0 := by
  have hvalid : (discarding .pub).validate = .ok () := by rfl
  have hvalid' : (discarding .secret).validate = .ok () := by rfl
  obtain ⟨-, hshapes, hruns⟩ := Module.nothing_hidden_of_raised hvalid hvalid' raised_discarding
  refine ⟨hvalid, hvalid', raised_discarding, ?_, fun arrival clock n => ?_⟩
  · obtain ⟨hgs, hts⟩ :=
      Shapes.hasGraphs_ofModule (Module.wellFormed_of_validate hvalid) Shapes.lenient
    obtain ⟨hgs', hts'⟩ :=
      Shapes.hasGraphs_ofModule (Module.wellFormed_of_validate hvalid') Shapes.lenient
    obtain ⟨s, s', hs, hs', hstays⟩ := hshapes (.ofModule (discarding .pub) Shapes.lenient)
      (.ofModule (discarding .secret) Shapes.lenient) rfl rfl rfl hgs hts hgs' hts'
    have hcomputed : (Shapes.ofModule (Shapes.Facts.ofModule (discarding .pub) Shapes.lenient)
        (CallGraph.ofModule (discarding .pub))).map (fun s => s.isVariableTime "discard") =
          .ok true := by rfl
    rw [hs] at hcomputed
    exact ⟨s', hs', hstays "discard" (Except.ok.inj hcomputed)⟩
  · obtain ⟨hresult, hcovers⟩ :=
      hruns (Analyzer.ofConfig Config.default) rfl rfl arrival arrival clock clock n n
    obtain ⟨r, hr⟩ := hresult Config.usable_default
    obtain ⟨r', hr', -, hcovered⟩ := hcovers r hr
    have hcomputed :
      ((((Analyzer.ofConfig Config.default).analyzeIn arrival (discarding .pub)).answer
        clock n).1.1.map fun r => r.findings.map fun x => (x.rule, x.function, x.block, x.index)) =
          .ok [(.conditionalScrub, "discard", "wipe", 0)] := by rfl
    rw [hr] at hcomputed
    have hsites : r.findings.map (fun x => (x.rule, x.function, x.block, x.index)) =
        [(.conditionalScrub, "discard", "wipe", 0)] := Except.ok.inj hcomputed
    obtain ⟨x, hfindings, hsite⟩ := List.map_eq_singleton_iff.1 hsites
    obtain ⟨hrule, hfunction, hblock, hindex⟩ : x.rule = .conditionalScrub ∧
        x.function = "discard" ∧
        x.block = "wipe" ∧ x.index = 0 := by
      simpa only [Prod.mk.injEq] using hsite
    obtain ⟨x', hx', hsame⟩ :=
      hcovered x (by rw [hfindings]; exact List.mem_singleton.2 rfl) (by rw [hrule]; decide)
    exact ⟨r', hr', x', hx', hsame.rule.trans hrule, hsame.function.trans hfunction,
      hsame.block.trans hblock, hsame.index.trans hindex⟩

end ConstantTime
