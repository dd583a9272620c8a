/-
Verdicts do not depend on the order of listing.

A module may list the targets of its branches, the inputs of its computations and the blocks of its
functions in another order. Its calls stay what they are, so the same functions are variable-time,
and the checks find the same in each function. Main statement: a run over the reordered module
fails if and only if the run over the module does, and otherwise there are findings at the same
sites. No block may have the name of the virtual exit, where all ways out end.
-/
import ConstantTime.Proofs.Comparison
import ConstantTime.Proofs.ReorderedChecks

set_option autoImplicit false

namespace ConstantTime

/-! ## Calls and shapes

The same functions may be called, so the components are the same and functions are judged alike. -/

/-- What may be called does not depend on any order. -/
theorem Module.Reordered.mayCall {m m' : Module} (h : m.Reordered m') {caller callee : String}
    (hcall : m.MayCall caller callee) : m'.MayCall caller callee := by
  obtain ⟨f, hf, rfl, b, hb, i, hi, hmay⟩ := hcall
  obtain ⟨f', hf', hsame⟩ := h.exists_function hf
  obtain ⟨b', hb', hblock⟩ := hsame.exists_block hb
  obtain ⟨i', hi', hinstr⟩ := hblock.exists_instr hi
  exact ⟨f', hf', hsame.id, b', hb', i', hi', hinstr.mayCall hmay⟩

/-- So the call graphs are alike. -/
theorem CallGraph.alike_of_reordered {m m' : Module} (h : m.Reordered m') :
    (ofModule m).Alike (ofModule m') :=
  alike_ofModule h.ids_eq fun _ _ => ⟨h.symm.mayCall, h.mayCall⟩

namespace Shapes

/-- Something speaks against the reordered function if something speaks against the function. -/
theorem bodyEvidence_ne_nil_of_reordered {facts facts' : Facts}
    (h : facts.module.Reordered facts'.module) (hm : facts.module.WellFormed)
    (hpolicy : facts'.policy = facts.policy) (hgs : HasGraphs facts.module facts.graphs)
    (hts : HasTaints facts.module facts.taints) (hgs' : HasGraphs facts'.module facts'.graphs)
    (hts' : HasTaints facts'.module facts'.taints) {s s' : Shapes} (hs : s.Alike s') {name : String}
    {body body' : List Evidence} (hbody : bodyEvidence facts s name = .ok body)
    (hbody' : bodyEvidence facts' s' name = .ok body') (hne : body ≠ []) : body' ≠ [] := by
  have hrel := h.rel_function? name
  cases hfound : facts.module.function? name with
  | none =>
    simp only [bodyEvidence, hfound] at hbody
    cases hbody
    exact absurd rfl hne
  | some f =>
    rw [hfound] at hrel
    obtain ⟨f', hfound', hsame⟩ := exists_of_rel_some hrel
    obtain ⟨hf, rfl⟩ := Module.mem_of_function?_eq_some hfound
    obtain ⟨hf', -⟩ := Module.mem_of_function?_eq_some hfound'
    have hwf := hm.function f hf
    have hwf' := hsame.wellFormed hwf
    -- both bodies are looked at with the graph, the taints and the loops that their functions have
    -- by themselves
    obtain ⟨g, hg, hflow⟩ := hgs f hf
    obtain ⟨_, t, hflow₁, ht, htaints⟩ := hts f hf
    cases hflow.symm.trans hflow₁
    obtain ⟨g', hg', hflow'⟩ := hgs' f' hf'
    obtain ⟨_, t', hflow₁', ht', htaints'⟩ := hts' f' hf'
    cases hflow'.symm.trans hflow₁'
    obtain ⟨loops, hloops⟩ := FlowGraph.exists_loops hflow hwf.blocks
    obtain ⟨loops', hloops'⟩ := FlowGraph.exists_loops hflow' hwf'.blocks
    rw [hsame.id] at htaints'
    rw [bodyEvidence_eq hfound hg htaints hloops] at hbody
    rw [bodyEvidence_eq hfound' hg' htaints' hloops', hpolicy] at hbody'
    have hspeaks := (Inspector.evidence_ne_nil_iff_speaksAgainst hwf.blocks hbody).1 hne
    refine (Inspector.evidence_ne_nil_iff_speaksAgainst hwf'.blocks hbody').2 ?_
    exact (h.inspector hm hf hf' hsame hflow hflow' ht ht' hloops hloops'
      _ hs.isVariableTime).speaksAgainst
      (fun _ => (hsame.sameFlow hwf hflow hflow').mem_reachable_iff.2) hspeaks

/-- **Functions of a reordered module are judged alike**: their calls are the same, and so is what
speaks against their bodies. -/
theorem alike_of_reordered (facts facts' : Facts) (h : facts.module.Reordered facts'.module)
    (hm : facts.module.WellFormed) (hpolicy : facts'.policy = facts.policy)
    (hgs : HasGraphs facts.module facts.graphs) (hts : HasTaints facts.module facts.taints)
    (hgs' : HasGraphs facts'.module facts'.graphs) (hts' : HasTaints facts'.module facts'.taints)
    {s s' : Shapes} (hs : ofModule facts (CallGraph.ofModule facts.module) = .ok s)
    (hs' : ofModule facts' (CallGraph.ofModule facts'.module) = .ok s') : s.Alike s' := by
  have hbodies : SameBodies facts facts' := by
    intro s s' hs name body body' hbody hbody'
    refine not_iff_not.1 ⟨fun hne => ?_, fun hne => ?_⟩
    · exact bodyEvidence_ne_nil_of_reordered h.symm (h.wellFormed hm) hpolicy.symm hgs' hts' hgs hts
        hs.symm hbody' hbody
        hne
    · exact bodyEvidence_ne_nil_of_reordered h hm hpolicy hgs hts hgs' hts' hs hbody hbody' hne
  exact alike_ofModule hbodies (CallGraph.alike_of_reordered h) hpolicy hs hs'

end Shapes

/-! ## Findings

Chains and texts may differ, so findings are compared by rule and place. -/

/-- The rule and the place of a finding. -/
def Finding.site (x : Finding) : Rule × String × String × Int :=
  (x.rule, x.function, x.block, x.index)

theorem Finding.SameSite.site_eq {x x' : Finding} (h : x.SameSite x') : x'.site = x.site := by
  rw [site, site, h.rule, h.function, h.block, h.index]

/-- Two lists of findings have the same sites. -/
def SameSites (xs xs' : List Finding) : Prop :=
  ∀ s, s ∈ xs'.map Finding.site ↔ s ∈ xs.map Finding.site

namespace Analysis

variable {k k' : Known} {c : Config}

/-- The findings of a report are those of its functions that are severe enough. -/
theorem Known.mem_findings_report_iff {functions : List Function} {r : Result} {x : Finding} :
    x ∈ (k.report c functions r).findings ↔
      ∃ f ∈ functions, x ∈ k.found c.checkedRules f ∧ x.isAtLeast c.minSeverity = true := by
  simp only [Known.report, sortFindings, mem_sortBy, List.mem_flatMap, List.mem_filter]

namespace Known.Complete

variable (hk : k.Complete) (hk' : k'.Complete) (h : k.module.Reordered k'.module)
    (hpolicy : k'.policy = k.policy)
  (hname : ∀ f ∈ k.module.functions, virtualExit ∉ f.blocks.map Block.id)

include hk hk' h hpolicy

theorem alike_shapes_of_reordered : k.shapes.Alike k'.shapes :=
  Shapes.alike_of_reordered ⟨k.module, k.graphs, k.taints, k.policy⟩
    ⟨k'.module, k'.graphs, k'.taints, k'.policy⟩ h
    hk.full.module hpolicy hk.full.graphs hk.taints hk'.full.graphs hk'.taints hk.shapes hk'.shapes

include hname

/-- What is found in a function is found in the reordered one. -/
theorem exists_sameSite_of_reordered (rules : List Rule) {f f' : Function}
    (hf : f ∈ k.module.functions) (hf' : f' ∈ k'.module.functions) (hsame : f.Reordered f')
    {x : Finding} (hx : x ∈ k.found rules f) :
    ∃ x' ∈ k'.found rules f', x.SameSite x' ∧ x'.severity = x.severity := by
  obtain ⟨g, t, r, hg, ht, hr, hfound⟩ := hk.exists_found hf rules
  obtain ⟨g', t', r', hg', ht', hr', hfound'⟩ := hk'.exists_found hf' rules
  have hshapes := hk.alike_shapes_of_reordered hk' h hpolicy
  have hreordered : Context.Reordered ⟨k.module, f, g, t, r, k.policy, k.shapes.isVariableTime⟩
      ⟨k'.module, f', g', t', r', k'.policy, k'.shapes.isVariableTime⟩ :=
    ⟨h, hsame, ⟨hk.full.module, hf, hg, hr⟩, ⟨hk'.full.module, hf', hg', hr'⟩, ht, ht', hpolicy,
      hshapes.isVariableTime⟩
  have hexit : virtualExit ∉ g.blocks := by
    rw [FlowGraph.blocks_eq hg]
    exact hname f hf
  exact Context.exists_sameSite hsame.id hreordered.proper' hfound hfound' hx
    fun _ _ hcheck hcheck' hin => hreordered.exists_finding hexit hcheck hcheck' hin

/-- What is reported on a module is reported on the reordered one. -/
theorem mem_sites_report (r r' : Result) {s : Rule × String × String × Int}
    (hs : s ∈ (k.report c k.module.sortedFunctions r).findings.map Finding.site) :
    s ∈ (k'.report c k'.module.sortedFunctions r').findings.map Finding.site := by
  obtain ⟨x, hx, rfl⟩ := List.mem_map.1 hs
  obtain ⟨f, hf, hfound, hsevere⟩ := Known.mem_findings_report_iff.1 hx
  rw [Module.mem_sortedFunctions] at hf
  obtain ⟨f', hf', hsame⟩ := h.exists_function hf
  obtain ⟨x', hfound', hsite, hseverity⟩ :=
    hk.exists_sameSite_of_reordered hk' h hpolicy hname c.checkedRules hf hf' hsame hfound
  -- the severity is that of the rule, so what was severe enough still is
  refine List.mem_map.2
    ⟨x', Known.mem_findings_report_iff.2 ⟨f', Module.mem_sortedFunctions.2 hf', hfound', ?_⟩,
    hsite.site_eq⟩
  rw [Finding.isAtLeast, hseverity]
  exact hsevere

/-- **There are findings at the same sites.** -/
theorem sameSites_report (r r' : Result) :
    SameSites (k.report c k.module.sortedFunctions r).findings
      (k'.report c k'.module.sortedFunctions r').findings := by
  have hname' : ∀ f' ∈ k'.module.functions, virtualExit ∉ f'.blocks.map Block.id := by
    intro f' hf'
    obtain ⟨f, hf, hsame⟩ := h.symm.exists_function hf'
    rw [hsame.names_perm.symm.mem_iff]
    exact hname f hf
  exact fun s =>
    ⟨hk'.mem_sites_report hk h.symm hpolicy.symm hname' r' r,
      hk.mem_sites_report hk' h hpolicy hname r r'⟩

end Known.Complete

end Analysis

/-! ## The analyzer

The main statement, with a module in which targets, inputs and blocks are listed in another
order. -/

/-- **Verdicts do not depend on the order of listing.** If a validated module without a block that
has the name of the virtual exit is reordered, the outcome is a validated module with the same
variable-time functions. Without a time limit, its analysis fails if and only if the analysis of
the module does, and otherwise there are findings at the same sites. -/
theorem Module.sameSites_of_reordered {m m' : Module} (hm : m.validate = .ok ())
    (hname : ∀ f ∈ m.functions, ∀ b ∈ f.blocks, b.id ≠ virtualExit) (h : m.Reordered m') :
    m'.validate = .ok () ∧
    (∀ facts facts' : Shapes.Facts, facts.module = m → facts'.module = m' →
      facts'.policy = facts.policy →
      Shapes.HasGraphs m facts.graphs → Shapes.HasTaints m facts.taints →
      Shapes.HasGraphs m' facts'.graphs → Shapes.HasTaints m' facts'.taints →
      ∃ s s', Shapes.ofModule facts (CallGraph.ofModule m) = .ok s ∧
        Shapes.ofModule facts' (CallGraph.ofModule m') = .ok s' ∧
        ∀ name, s'.isVariableTime name = s.isVariableTime name) ∧
    ∀ {τ : Type} (timing : Timing τ) (a : Analyzer), a.isReady = true → a.config.timeout = none →
      ∀ arrival arrival' clock clock' n n',
        Analyzer.Matches SameSites ((a.analyzeBy timing arrival m).answer clock n).1
          ((a.analyzeBy timing arrival' m').answer clock' n').1 ∧
        (a.config.Usable → ∃ r r', ((a.analyzeBy timing arrival m).answer clock n).1.1 = .ok r ∧
          ((a.analyzeBy timing arrival' m').answer clock' n').1.1 = .ok r') := by
  have hwf := Module.wellFormed_of_validate hm
  have hwf' := h.wellFormed hwf
  have hvalid' := Module.violation?_eq_none_of_wellFormed hwf'
  refine ⟨by rw [Module.validate, hvalid'], ?_,
    fun timing a hready hlimit arrival arrival' clock clock' n n' => ?_⟩
  · rintro facts facts' rfl rfl hpolicy hgs hts hgs' hts'
    obtain ⟨s, hs⟩ := Shapes.exists_ofModule hwf hgs (CallGraph.ofModule facts.module)
    obtain ⟨s', hs'⟩ := Shapes.exists_ofModule hwf' hgs' (CallGraph.ofModule facts'.module)
    have halike := Shapes.alike_of_reordered facts facts' h hwf hpolicy hgs hts hgs' hts' hs hs'
    exact ⟨s, s', hs, hs', halike.isVariableTime⟩
  · have hends :=
      Analyzer.ends_analyzeBy timing hready hlimit (Module.violation?_eq_none_of_validate hm)
        arrival clock n
    have hends' := Analyzer.ends_analyzeBy timing hready hlimit hvalid' arrival' clock' n'
    refine ⟨Analyzer.matches_of_ends hends hends'
      ⟨h.hasMalformedRegions hwf, h.symm.hasMalformedRegions hwf'⟩ ?_, fun husable => ?_⟩
    · rintro k k' hk hk' rfl rfl hpolicy r r'
      refine hk.sameSites_report hk' h hpolicy (fun f hf hexit => ?_) r r'
      obtain ⟨b, hb, hid⟩ := List.mem_map.1 hexit
      exact hname f hf b hb hid
    · obtain ⟨r, hr⟩ := hends.exists_result husable
      obtain ⟨r', hr'⟩ := hends'.exists_result husable
      exact ⟨r, r', hr, hr'⟩

/-- A function that blends a key with a salt and compares tags on one of two ways. The inputs of
the blend, the ways and the blocks behind the entry are listed as given. -/
def blendKey (inputs targets : List String) (rest : List Block) : Function :=
  ⟨"blend",
    ⟨"entry",
      [⟨.compute, inputs, some "blended", [], none, none⟩,
        ⟨.branch, ["blended"], none, targets, none, none⟩]⟩ ::
      rest,
    [⟨"key", .secret⟩, ⟨"salt", .pub⟩], none, []⟩

def blendSlow : Block :=
  ⟨"slow", [⟨.call, [], none, [], none, some "memcmp"⟩, ⟨.jump, [], none, ["last"], none, none⟩]⟩

def blendFast : Block := ⟨"fast", [⟨.jump, [], none, ["last"], none, none⟩]⟩

def blendLast : Block := ⟨"last", [⟨.ret, [], none, [], none, none⟩]⟩

def blending : Module :=
  ⟨"blending", [blendKey ["key", "salt"] ["slow", "fast"] [blendSlow, blendFast, blendLast]], []⟩

def blendingReordered : Module :=
  ⟨"blending", [blendKey ["salt", "key"] ["fast", "slow"] [blendLast, blendFast, blendSlow]], []⟩

theorem Instr.Reordered.refl (i : Instr) : i.Reordered i :=
  ⟨rfl, rfl, rfl, rfl, .refl _, fun _ => rfl, .refl _, fun _ => rfl⟩

theorem reordered_blending : blending.Reordered blendingReordered where
  name := rfl
  functions := by
    have hrest : ∀ b : Block, b.Reordered b :=
      fun b => ⟨rfl, List.forall₂_same.2 fun i _ => .refl i⟩
    have hblend : Instr.Reordered ⟨.compute, ["key", "salt"], some "blended", [], none, none⟩
        ⟨.compute, ["salt", "key"], some "blended", [], none, none⟩ :=
      ⟨rfl, rfl, rfl, rfl, .swap _ _ _, nofun, .nil, fun _ => rfl⟩
    have hbranch : Instr.Reordered ⟨.branch, ["blended"], none, ["slow", "fast"], none, none⟩
        ⟨.branch, ["blended"], none, ["fast", "slow"], none, none⟩ :=
      ⟨rfl, rfl, rfl, rfl, .refl _, fun _ => rfl, .swap _ _ _, nofun⟩
    have hblocks : List.Forall₂ Block.Reordered
        (blendKey ["key", "salt"] ["slow", "fast"] [blendSlow, blendFast, blendLast]).blocks
        (blendKey ["salt", "key"] ["fast", "slow"] [blendSlow, blendFast, blendLast]).blocks :=
      .cons ⟨rfl, .cons hblend (.cons hbranch .nil)⟩ (List.forall₂_same.2 fun b _ => hrest b)
    have hback := List.reverse_perm [blendSlow, blendFast, blendLast]
    refine .cons ⟨rfl, rfl, rfl, rfl, _, hblocks, .inr ⟨?_, rfl, hback⟩⟩ .nil
    simp [blendKey, blendSlow, blendFast, blendLast, Block.FallsThrough, Block.terminator?,
      Opcode.isTerminator]
  locations := rfl

theorem validate_blending : blending.validate = .ok () := rfl

/-- The branch on the blended key is found in the reordered module, and nothing else is. -/
theorem Module.sameSites_of_reordered_blending :
    blending.validate = .ok () ∧ (∀ f ∈ blending.functions, ∀ b ∈ f.blocks, b.id ≠ virtualExit) ∧
      blending.Reordered blendingReordered ∧
      ∀ arrival clock n, ∃ r,
        (((Analyzer.ofConfig Config.default).analyzeBy .seconds arrival blendingReordered).answer
          clock n).1.1 = .ok r ∧
        ∀ s, s ∈ r.findings.map Finding.site ↔ s = (.secretPath, "blend", "entry", 1) := by
  have hname : ∀ f ∈ blending.functions, ∀ b ∈ f.blocks, b.id ≠ virtualExit := by decide
  refine ⟨validate_blending, hname, reordered_blending, fun arrival clock n => ?_⟩
  have hcomputed :
    ((((Analyzer.ofConfig Config.default).analyzeBy .seconds arrival blending).answer
      clock n).1.1.map fun r => (r.state, r.findings.map Finding.site)) =
        .ok (.reported, [(.secretPath, "blend", "entry", 1)]) := by rfl
  obtain ⟨r, hr, heq⟩ := exists_of_map_eq_ok hcomputed
  obtain ⟨hstate, hsites⟩ := Prod.mk.inj heq
  obtain ⟨-, -, hruns⟩ := Module.sameSites_of_reordered validate_blending hname reordered_blending
  obtain ⟨hmatches, -⟩ :=
    hruns .seconds (.ofConfig Config.default) rfl rfl arrival arrival clock clock n n
  obtain ⟨r', hr', -, hsame⟩ := hmatches.exists_result hr (by rw [hstate]; decide)
  refine ⟨r', hr', fun s => ?_⟩
  rw [hsame s, hsites, List.mem_singleton]

end ConstantTime
