/-
What is found in functions with other names for their blocks.

The texts of a finding name blocks, and so do its details. Everything else stays: the same rules
find something at the same instructions, with the same chains of values. What speaks against a
block is compared by its reasons alone.
-/
import ConstantTime.Check.Rules
import ConstantTime.Proofs.RenamedFacts
import Mathlib.Data.List.Forall2

set_option autoImplicit false

namespace ConstantTime

/-! ## Working through renamed lists

A rule works through a list and collects what it finds. If the items of the renamed list give
related results, the collected lists are related item by item. -/

section Collect

variable {ε α α' β β' : Type} {R : β → β' → Prop} {g : α → α'} {xs : List α}

/-- What is worked through element by element, with other elements and results that are related. -/
theorem exists_collect_map {f : α → Except ε β} {f' : α' → Except ε β'}
    (hf : ∀ x ∈ xs, ∀ y, f x = .ok y → ∃ y', f' (g x) = .ok y' ∧ R y y') {ys : List β}
    (h : collect f xs = .ok ys) :
    ∃ ys', collect f' (xs.map g) = .ok ys' ∧ List.Forall₂ R ys ys' := by
  have hall := forall₂_of_collect_eq_ok h
  clear h
  induction hall with
  | nil => exact ⟨[], rfl, .nil⟩
  | cons hx _ ih =>
    obtain ⟨y', hy', hrel⟩ := hf _ List.mem_cons_self _ hx
    obtain ⟨ys', hys', hrels⟩ := ih fun x hx => hf x (List.mem_cons_of_mem _ hx)
    exact ⟨y' :: ys', by rw [List.map_cons, collect, hy', hys'], .cons hrel hrels⟩

/-- The same where an item may have no result. -/
theorem exists_collectSome_map {f : α → Except ε (Option β)} {f' : α' → Except ε (Option β')}
    (hf : ∀ x ∈ xs, ∀ y, f x = .ok y → ∃ y', f' (g x) = .ok y' ∧ Option.Rel R y y') {ys : List β}
    (h : collectSome f xs = .ok ys) :
    ∃ ys', collectSome f' (xs.map g) = .ok ys' ∧ List.Forall₂ R ys ys' := by
  unfold collectSome at h ⊢
  split at h
  · cases h
  · next found hfound =>
    cases h
    obtain ⟨found', hfound', hrels⟩ := exists_collect_map hf hfound
    rw [hfound']
    exact ⟨_, rfl, List.rel_filterMap (fun _ _ hrel => hrel) hrels⟩

end Collect

/-! ## Evidence

Evidence names blocks in its text. Its reason does not, and the reasons are what decides whether a
block varies. -/

/-- A taint is looked up among the values only. -/
theorem Taints.of_eq_of_values {t t' : Taints} (h : t'.values = t.values) (v : Option String) :
    t'.of v = t.of v := by
  cases v with
  | none => rfl
  | some v => rw [of, h, of]

/-- The reasons that speak against something. -/
def reasons (es : List Evidence) : List Reason := es.map Evidence.reason

/-- Evidence with the same reasons is there for both or for none. -/
theorem isEmpty_eq_of_reasons {es es' : List Evidence} (h : reasons es' = reasons es) :
    es'.isEmpty = es.isEmpty := by
  rw [← List.isEmpty_map (f := Evidence.reason) (l := es'),
    ← List.isEmpty_map (f := Evidence.reason) (l := es)]
  exact congrArg List.isEmpty h

namespace Inspector

/-- The inspector of a function with other names for its blocks. -/
structure Renamed (σ : String → String) (i i' : Inspector) : Prop where
  function : i'.function = i.function.rename σ
  graph : i'.graph = i.graph.rename σ
  taints : i'.taints.values = i.taints.values
  loops : i'.loops = i.loops.map (Loop.rename σ)
  policy : i'.policy = i.policy
  isVariableTime : ∀ f, i'.isVariableTime f = i.isVariableTime f

variable {σ : String → String} (hσ : Function.Injective σ) {i i' : Inspector} (h : i.Renamed σ i')

include h

/-- The renaming does not change which values are tainted. -/
theorem Renamed.isTainted (v : Option String) : i'.isTainted v = i.isTainted v := by
  rw [Inspector.isTainted, Taints.of_eq_of_values h.taints, Inspector.isTainted]

/-- A call speaks against its block because of the callees, wherever it stands. -/
theorem Renamed.reasons_callEvidence (b b' : String) (callees : List String) :
    reasons (i'.callEvidence b' callees) = reasons (i.callEvidence b callees) := by
  rw [reasons, callEvidence, List.map_filterMap, reasons, callEvidence, List.map_filterMap]
  congr 1
  funext c
  rw [h.policy, h.isVariableTime]
  split
  · rfl
  · split <;> rfl

include hσ

/-- Other instructions do so because of their opcode and inputs. -/
theorem Renamed.reasons_instrEvidence (b : String) (instr : Instr) :
    reasons (i'.instrEvidence (σ b) (instr.rename σ)) = reasons (i.instrEvidence b instr) := by
  simp only [instrEvidence, Instr.op_rename, Instr.condition_rename, Instr.indirectTarget_rename,
    Instr.callee_rename, Instr.length_distinctTargets_rename hσ, h.isTainted, h.policy]
  split
  · split <;> rfl
  · split <;> rfl
  · exact h.reasons_callEvidence b (σ b) _
  · next hop =>
    rw [Instr.rename_eq_self (by rw [hop]; rfl)]
    split
    · split <;> rfl
    · exact h.reasons_callEvidence b (σ b) _
  · rfl

/-- The value that decides about leaving a block keeps its name. -/
theorem Renamed.exitValue? {b : String} {v : Option String} (hv : i.exitValue? b = .ok v) :
    i'.exitValue? (σ b) = .ok v := by
  unfold Inspector.exitValue? at hv ⊢
  rw [h.function, Function.block?_rename hσ]
  cases hb : i.function.block? b with
  | none =>
    rw [hb] at hv
    cases hv
  | some blk =>
    rw [hb, Option.bind_some] at hv
    rw [Option.map_some, Option.bind_some, Block.terminator?_rename]
    cases ht : blk.terminator? with
    | none =>
      rw [ht] at hv
      cases hv
    | some t =>
      rw [ht] at hv
      exact hv

/-- A loop whose exits depend on a secret does so under the new names. -/
theorem Renamed.exists_exitEvidence (header : String) {bs : List String} {e : Option Evidence}
    (he : i.exitEvidence? header bs = .ok e) :
    ∃ e', i'.exitEvidence? (σ header) (bs.map σ) = .ok e' ∧
      Option.Rel (fun x x' => Evidence.reason x' = Evidence.reason x) e e' := by
  induction bs with
  | nil =>
    cases he
    exact ⟨none, rfl, .none⟩
  | cons b rest ih =>
    rw [exitEvidence?] at he
    rw [List.map_cons, exitEvidence?]
    split at he
    · cases he
    · next hv =>
      rw [h.exitValue? hσ hv]
      exact ih he
    · next v hv =>
      rw [h.exitValue? hσ hv]
      dsimp only
      rw [h.isTainted]
      split at he
      · next htainted =>
        cases he
        exact ⟨_, if_pos htainted, .some rfl⟩
      · next htainted =>
        rw [if_neg htainted]
        exact ih he

/-- The same reasons speak against some blocks after renaming. -/
theorem Renamed.exists_evidence (blocks : List String) {es : List Evidence}
    (hes : i.evidence blocks = .ok es) :
    ∃ es', i'.evidence (blocks.map σ) = .ok es' ∧ reasons es' = reasons es := by
  unfold evidence at hes ⊢
  have hloops : (i'.loops.filter fun l => decide (l.header ∈ blocks.map σ)) =
      (i.loops.filter fun l => decide (l.header ∈ blocks)).map (Loop.rename σ) := by
    rw [h.loops, List.filter_map]
    simp only [Function.comp_def, Loop.rename, List.mem_map_of_injective hσ]
  split at hes
  · cases hes
  · next found hfound =>
    cases hes
    have hloop : ∀ l ∈ i.loops.filter fun l => decide (l.header ∈ blocks), ∀ e,
        i.loopEvidence? l = .ok e →
        ∃ e', i'.loopEvidence? (l.rename σ) = .ok e' ∧
          Option.Rel (fun x x' => Evidence.reason x' = Evidence.reason x) e e' := by
      intro l _ e he
      rw [loopEvidence?, h.graph, FlowGraph.exiting_rename hσ]
      exact h.exists_exitEvidence hσ l.header he
    obtain ⟨found', hfound', hrels⟩ := exists_collectSome_map hloop hfound
    rw [hloops, hfound']
    refine ⟨_, rfl, ?_⟩
    have hblocks : (i'.function.blocks.filter fun b => decide (b.id ∈ blocks.map σ)) =
        (i.function.blocks.filter fun b => decide (b.id ∈ blocks)).map (Block.rename σ) := by
      rw [h.function, Function.rename, List.filter_map]
      simp only [Function.comp_def, Block.id_rename, List.mem_map_of_injective hσ]
    have hreasons : reasons found' = reasons found := by
      clear hfound hfound'
      induction hrels with
      | nil => rfl
      | cons hx _ ih => exact congrArg₂ List.cons hx ih
    -- evidence comes from the instructions first and from the loops behind them
    rw [reasons, List.map_append, reasons, List.map_append]
    refine congrArg₂ (· ++ ·) ?_ hreasons
    rw [hblocks, List.flatMap_map, List.map_flatMap, List.map_flatMap]
    congr 1
    funext b
    rw [Block.rename, List.flatMap_map, List.map_flatMap, List.map_flatMap]
    congr 1
    funext instr
    exact h.reasons_instrEvidence hσ b.id instr

end Inspector

/-! ## Findings

A finding may differ in its texts and the names of blocks. Rule, place and chain must agree, up to
the renaming of the place. -/

/-- A finding at the renamed block: of the same rule, at the same place, with the same chain. -/
structure Finding.Renamed (σ : String → String) (x x' : Finding) : Prop where
  rule : x'.rule = x.rule
  function : x'.function = x.function
  block : x'.block = σ x.block
  blockIndex : x'.blockIndex = x.blockIndex
  index : x'.index = x.index
  severity : x'.severity = x.severity
  chain : x'.chain = x.chain

namespace Context

/-- What the checks read of a function with other names for its blocks. -/
structure Renamed (σ : String → String) (c c' : Context) : Prop where
  function : c'.function = c.function.rename σ
  graph : c'.graph = c.graph.rename σ
  taints : c'.taints.values = c.taints.values
  regions : c'.regions.regions = c.regions.regions.map (Region.rename σ)
  sites : c'.regions.sites = c.regions.sites.map (IndirectSite.rename σ)
  policy : c'.policy = c.policy
  isVariableTime : ∀ f, c'.isVariableTime f = c.isVariableTime f
  locations : c'.module.locationsFor c'.function = c.module.locationsFor c.function

variable {σ : String → String} (hσ : Function.Injective σ) {c c' : Context} (h : c.Renamed σ c')

include h

theorem Renamed.of_taints (v : Option String) :
    c'.taints.of v = c.taints.of v := Taints.of_eq_of_values h.taints v

include hσ

/-- A finding can be made at the renamed place, with any texts. -/
theorem Renamed.exists_finding {rule : Rule} {b : String} {index : Nat} {chain : List String}
    {description : String} {detail : Detail} {x : Finding}
    (hx : c.finding rule b index chain description detail = .ok x) (description' : String)
    (detail' : Detail) :
    ∃ x', c'.finding rule (σ b) index chain description' detail' = .ok x' ∧ x.Renamed σ x' := by
  unfold finding at hx ⊢
  rw [h.function, Function.blockIndex?_rename hσ]
  split at hx
  · cases hx
  · next position hposition =>
    cases hx
    exact ⟨_, rfl, rfl, rfl, rfl, rfl, rfl, rfl, rfl⟩

/-- The same for a finding that may be missing. -/
theorem Renamed.exists_some_finding {rule : Rule} {b : String} {index : Nat} {chain : List String}
    {description : String} {detail : Detail} {x : Option Finding}
    (hx : (c.finding rule b index chain description detail).map some = .ok x)
    (description' : String) (detail' : Detail) :
    ∃ x', (c'.finding rule (σ b) index chain description' detail').map some = .ok x' ∧
      Option.Rel (Finding.Renamed σ) x x' := by
  obtain ⟨y, hy, rfl⟩ := exists_of_map_eq_ok hx
  obtain ⟨y', hy', hrel⟩ := h.exists_finding hσ hy description' detail'
  rw [hy']
  exact ⟨some y', rfl, .some hrel⟩

/-! ### Stores

A store is judged by its location and value, which have no names of blocks in them. -/

/-- The rule on stores finds the same. -/
theorem Renamed.exists_globalStores {found : List Finding} (hfound : c.globalStores = .ok found) :
    ∃ found', c'.globalStores = .ok found' ∧ List.Forall₂ (Finding.Renamed σ) found found' := by
  unfold globalStores at hfound ⊢
  have hstores : (c'.function.placed.filter fun p => decide (p.instr.op = .store)) =
      (c.function.placed.filter fun p => decide (p.instr.op = .store)).map (Placed.rename σ) := by
    rw [h.function, Function.placed_rename, List.filter_map]
    rfl
  dsimp only at hfound ⊢
  rw [hstores, h.locations]
  refine exists_collectSome_map (fun p _ x hx => ?_) hfound
  unfold storeFinding? at hx ⊢
  have hlocation : (p.rename σ).instr.location = p.instr.location := rfl
  have hinputs : (p.rename σ).instr.inputs = p.instr.inputs := rfl
  rw [hlocation, hinputs]
  split at hx
  · cases hx
  · next l hl =>
    split at hx
    · next hglobal =>
      rw [if_pos hglobal]
      split at hx
      · cases hx
      · next v rest hv =>
        unfold secretStoreFinding? at hx ⊢
        rw [h.of_taints]
        dsimp only at hx ⊢
        split at hx
        · next hsecret =>
          rw [if_pos hsecret]
          exact h.exists_some_finding hσ hx _ _
        · next hsecret =>
          cases hx
          exact ⟨none, if_neg hsecret, .none⟩
    · next hglobal =>
      cases hx
      exact ⟨none, if_neg hglobal, .none⟩

/-! ### Indirect branches

The regions of a renamed function are the renamed regions, so the branch is in the same one. -/

/-- So does the rule on indirect branches. -/
theorem Renamed.exists_indirectBranches {found : List Finding}
    (hfound : c.indirectBranches = .ok found) :
    ∃ found', c'.indirectBranches = .ok found' ∧ List.Forall₂ (Finding.Renamed σ) found found' := by
  unfold indirectBranches at hfound ⊢
  have hsites : (c'.regions.sites.filter fun s => s.inRegion && s.isDynamic) =
      (c.regions.sites.filter fun s => s.inRegion && s.isDynamic).map (IndirectSite.rename σ) := by
    rw [h.sites, List.filter_map]
    rfl
  rw [hsites]
  refine exists_collect_map (fun s _ x hx => ?_) hfound
  unfold siteFinding at hx ⊢
  have hregion : c'.regions.regionOf? (s.rename σ).block = (c.regions.regionOf? s.block).map
      (Region.rename σ) := by
    rw [RegionMap.regionOf?, h.regions]
    exact regionOf?_rename hσ c.regions.regions s.block
  have hvalue : (s.rename σ).value = s.value := rfl
  rw [hregion, hvalue, h.of_taints]
  dsimp only at hx ⊢
  split at hx
  · cases hx
  · next region hregion =>
    rw [hregion]
    exact h.exists_finding hσ hx _ _

/-! ### Scrubs

Whether a scrub can be missed is a question about ways, which the renaming preserves. The
description of the way around is renamed with it. -/

omit hσ in
/-- A value is defined in the renamed block. -/
theorem Renamed.definitionBlock (sites : Table Site) (v : String) :
    c'.definitionBlock (sites.mapValues (Site.rename σ)) v = σ (c.definitionBlock sites v) := by
  unfold Context.definitionBlock
  rw [Table.get?_mapValues, h.graph]
  cases sites.get? v with
  | none => rfl
  | some site => cases site <;> rfl

/-- The blocks that decide about a scrub are the renamed ones. -/
theorem Renamed.bypassBlocks (escaping exits : List String) (scrub : String) :
    c'.bypassBlocks (escaping.map σ) (exits.map σ) (σ scrub) =
      (c.bypassBlocks escaping exits scrub).map (Block.rename σ) := by
  have htoScrub : c'.graph.reaching [σ scrub] [] = (c.graph.reaching [scrub] []).map σ := by
    rw [h.graph]
    exact FlowGraph.reaching_rename hσ [scrub] []
  have haround : c'.graph.reaching (exits.map σ) [σ scrub] =
      (c.graph.reaching exits [scrub]).map σ := by
    rw [h.graph]
    exact FlowGraph.reaching_rename hσ exits [scrub]
  rw [Context.bypassBlocks, htoScrub, haround, h.function, h.graph, Function.rename,
    List.filter_map, Context.bypassBlocks]
  simp only [Function.comp_def, Block.id_rename, FlowGraph.succs_rename hσ, List.any_map,
    List.length_map, List.mem_map_of_injective hσ, hσ.ne_iff]

omit hσ in
/-- And so is the description of the way around it. -/
theorem Renamed.bypass {b : Block} {x : Bypass} (hx : c.bypass b = .ok x) :
    c'.bypass (b.rename σ) = .ok ⟨σ x.block, x.index, x.decider, x.label⟩ := by
  obtain ⟨v, hv, rfl⟩ := exists_of_map_eq_ok hx
  have hv' : decider (b.rename σ) = .ok v := by
    unfold decider at hv ⊢
    rw [Block.terminator?_rename]
    split at hv
    · cases hv
    · next t ht =>
      rw [ht]
      exact hv
  rw [Context.bypass, hv', Except.map, h.of_taints, Block.length_instrs_rename, Block.id_rename]

/-- A scrub that can be missed can be missed in the renamed function. -/
theorem Renamed.exists_scrubFinding (reachable exits : List String) (sites : Table Site)
    (p : Placed) (v : String) {x : Option Finding}
    (hx : c.scrubFinding? reachable exits sites p v = .ok x) :
    ∃ x', c'.scrubFinding? (reachable.map σ) (exits.map σ) (sites.mapValues (Site.rename σ))
      (p.rename σ) v = .ok x' ∧
      Option.Rel (Finding.Renamed σ) x x' := by
  unfold scrubFinding? at hx ⊢
  have hblock : (p.rename σ).block.id = σ p.block.id := rfl
  have hescaping : c'.graph.reachableFrom [σ (c.definitionBlock sites v)] [σ p.block.id] =
      (c.graph.reachableFrom [c.definitionBlock sites v] [p.block.id]).map σ := by
    rw [h.graph]
    exact FlowGraph.reachableFrom_rename hσ [c.definitionBlock sites v] [p.block.id]
  simp only [h.of_taints, h.definitionBlock, hblock, hσ.eq_iff, List.mem_map_of_injective hσ,
    hescaping, List.all_map, Function.comp_def, h.bypassBlocks hσ] at hx ⊢
  -- three ends: nothing to look at, no way out around the scrub, or a finding
  by_cases hplain :
    ¬ ((c.taints.of (some v)).isTainted = true ∧ (c.taints.of (some v)).hasOrigin = true) ∨
      c.definitionBlock sites v = p.block.id ∨ c.definitionBlock sites v ∉ reachable
  · rw [if_pos hplain] at hx
    cases hx
    exact ⟨none, if_pos hplain, .none⟩
  · rw [if_neg hplain] at hx ⊢
    by_cases hclosed : (exits.all fun e =>
        decide (e ∉ c.graph.reachableFrom [c.definitionBlock sites v] [p.block.id])) = true
    · rw [if_pos hclosed] at hx
      cases hx
      exact ⟨none, if_pos hclosed, .none⟩
    · rw [if_neg hclosed] at hx ⊢
      split at hx
      · cases hx
      · next bypasses hbypasses =>
        rw [collect_map_eq_ok (fun b x hx => h.bypass hx) hbypasses]
        dsimp only
        have hdecider :
          (bypasses.map fun x => (⟨σ x.block, x.index, x.decider, x.label⟩ : Bypass)).head?.bind
            Bypass.decider = bypasses.head?.bind Bypass.decider := by
          rw [List.head?_map]
          cases bypasses.head? <;> rfl
        rw [hdecider]
        exact h.exists_some_finding hσ hx _ _

/-- The rule on scrubs finds the same. -/
theorem Renamed.exists_conditionalScrubs {found : List Finding}
    (hfound : c.conditionalScrubs = .ok found) :
    ∃ found', c'.conditionalScrubs = .ok found' ∧
      List.Forall₂ (Finding.Renamed σ) found found' := by
  unfold conditionalScrubs at hfound ⊢
  have hexits : (c'.graph.exits.filter fun e => decide (e ∈ c.graph.reachable.map σ)) =
      (c.graph.exits.filter fun e => decide (e ∈ c.graph.reachable)).map σ := by
    rw [h.graph, FlowGraph.rename, List.filter_map]
    simp only [Function.comp_def, List.mem_map_of_injective hσ]
  have hscrubs : (c'.function.placed.filter fun p =>
      decide (p.instr.op = .scrub) && decide (p.block.id ∈ c.graph.reachable.map σ)) =
        (c.function.placed.filter fun p =>
          decide (p.instr.op = .scrub) && decide (p.block.id ∈ c.graph.reachable)).map
            (Placed.rename σ) := by
    rw [h.function, Function.placed_rename, List.filter_map]
    congr 2
    funext p
    exact congrArg (decide (p.instr.op = .scrub) && ·)
      (decide_mem_map hσ p.block.id c.graph.reachable)
  have hreachable : c'.graph.reachable = c.graph.reachable.map σ := by
    rw [h.graph, FlowGraph.reachable_rename hσ]
  have hsites : c'.function.sites = c.function.sites.mapValues (Site.rename σ) := by
    rw [h.function, Function.sites_rename]
  dsimp only at hfound ⊢
  rw [hreachable, hexits, hscrubs, hsites]
  refine exists_collectSome_map (fun p _ x hx => ?_) hfound
  unfold scrubbedFinding? at hx ⊢
  have hinputs : (p.rename σ).instr.inputs = p.instr.inputs := rfl
  rw [hinputs]
  split at hx
  · cases hx
  · exact h.exists_scrubFinding hσ _ _ _ p _ hx

/-! ### Secret paths

The arms of a branch are found by post-dominance. This is the one rule for which the renaming has
to keep the virtual exit. -/

/-- The inspector of the renamed function is the renamed one. -/
theorem Renamed.exists_inspector {i : Inspector} (hi : c.inspector = .ok i) :
    ∃ i', c'.inspector = .ok i' ∧ i.Renamed σ i' := by
  unfold inspector at hi ⊢
  split at hi
  · cases hi
  · next loops hloops =>
    cases hi
    rw [h.graph, FlowGraph.loops_rename hσ hloops]
    exact ⟨_, rfl, h.function, rfl, h.taints, rfl, h.policy, h.isVariableTime⟩

/-- A branch on a secret stays one. -/
theorem Renamed.secretBranch? (reachable : List String) {b : Block}
    {x : Option (Block × Option String)} (hx : c.secretBranch? reachable b = .ok x) :
    c'.secretBranch? (reachable.map σ) (b.rename σ) =
      .ok (x.map (Prod.map (Block.rename σ) id)) := by
  have hreach : (b.rename σ).id ∈ reachable.map σ ↔ b.id ∈ reachable := List.mem_map_of_injective hσ
  have hlength : (c'.graph.succs (b.rename σ).id).length = (c.graph.succs b.id).length := by
    rw [h.graph, Block.id_rename, FlowGraph.succs_rename hσ, List.length_map]
  unfold Context.secretBranch? at hx ⊢
  simp only [hreach, hlength, h.of_taints]
  split at hx
  · next hmem =>
    rw [if_pos hmem]
    obtain ⟨condition, hcondition, rfl⟩ := exists_of_map_eq_ok hx
    have hcondition' : branchCondition? (b.rename σ) = .ok condition := by
      unfold branchCondition? at hcondition ⊢
      rw [Block.terminator?_rename]
      split at hcondition
      · cases hcondition
      · next t ht =>
        rw [ht]
        exact hcondition
    rw [hcondition', Except.map]
    cases condition with
    | none => rfl
    | some v =>
      dsimp only [Option.bind_some]
      split <;> rfl
  · next hmem =>
    cases hx
    rw [if_neg hmem]
    rfl

/-- So the same branches are looked at, in the same order. -/
theorem Renamed.collectSome_secretBranch {branches : List (Block × Option String)}
    (hbranches : collectSome (c.secretBranch? c.graph.reachable) c.function.blocks = .ok branches) :
    collectSome (c'.secretBranch? c'.graph.reachable) c'.function.blocks =
      .ok (branches.map (Prod.map (Block.rename σ) id)) := by
  unfold collectSome at hbranches ⊢
  rw [h.graph, FlowGraph.reachable_rename hσ, h.function, Function.rename]
  split at hbranches
  · cases hbranches
  · next found hfound =>
    cases hbranches
    rw [collect_map_eq_ok (fun b x hx => h.secretBranch? hσ c.graph.reachable hx) hfound]
    dsimp only
    rw [List.filterMap_map, List.map_filterMap]
    rfl

variable (hexit : σ virtualExit = virtualExit)

omit h in
include hexit in
/-- Arms join again at the renamed block. -/
theorem joinBlock?_rename (post : Dominance String) (b : String) :
    joinBlock? (post.rename hσ) (σ b) = (joinBlock? post b).map σ := by
  unfold joinBlock?
  rw [Dominance.immediate?_rename]
  cases post.immediate? b with
  | none => rfl
  | some j =>
    have hiff : σ j = virtualExit ↔ j = virtualExit := by
      rw [← hσ.eq_iff (a := j), hexit]
    simp only [Option.map_some, hiff]
    split <;> rfl

omit h in
/-- An arm has the renamed blocks. -/
theorem armBlocks_rename (g : FlowGraph) (branch : String) (joinBlock : Option String)
    (target : String) :
    armBlocks (g.rename σ) (σ branch) (joinBlock.map σ) (σ target) =
      (armBlocks g branch joinBlock target).map σ := by
  rw [armBlocks, armBlocks, ← FlowGraph.reachableFrom_rename hσ, List.map_cons]
  cases joinBlock <;> rfl

omit h in
/-- The same speaks against it. -/
theorem exists_arm_rename {i i' : Inspector} (hi : i.Renamed σ i') (branch : String)
    (joinBlock : Option String) {target : String} {a : Arm}
    (ha : arm i branch joinBlock target = .ok a) :
    ∃ a', arm i' (σ branch) (joinBlock.map σ) (σ target) = .ok a' ∧
      reasons a'.evidence = reasons a.evidence := by
  obtain ⟨es, hes, rfl⟩ := exists_of_map_eq_ok ha
  obtain ⟨es', hes', hreasons⟩ := hi.exists_evidence hσ _ hes
  rw [arm, hi.graph, armBlocks_rename hσ, hes']
  exact ⟨_, rfl, hreasons⟩

include hexit

/-- Whether the arms of a branch differ is seen from their reasons. -/
theorem Renamed.exists_pathFinding {i i' : Inspector} (hi : i.Renamed σ i')
    (post : Dominance String) (branch : Block × Option String) {x : Option Finding}
    (hx : c.pathFinding? i post branch = .ok x) :
    ∃ x', c'.pathFinding? i' (post.rename hσ) (Prod.map (Block.rename σ) id branch) = .ok x' ∧
      Option.Rel (Finding.Renamed σ) x x' := by
  unfold pathFinding? at hx ⊢
  dsimp only [Prod.map_fst, Prod.map_snd, id_eq] at hx ⊢
  rw [Block.id_rename, joinBlock?_rename hσ hexit, hi.graph, FlowGraph.succs_rename hσ, h.of_taints,
    Block.length_instrs_rename]
  split at hx
  · cases hx
  · next arms harms =>
    obtain ⟨arms', harms', hrels⟩ := exists_collect_map
      (fun target _ a ha => exists_arm_rename hσ hi branch.1.id (joinBlock? post branch.1.id) ha)
        harms
    rw [harms']
    dsimp only
    have hany : ∀ p : Bool → Bool, (arms'.any fun a => p a.evidence.isEmpty) = arms.any fun a =>
        p a.evidence.isEmpty := by
      intro p
      clear harms harms' hx
      induction hrels with
      | nil => rfl
      | cons hreasons _ ih => rw [List.any_cons, List.any_cons, ih, isEmpty_eq_of_reasons hreasons]
    rw [hany (fun b => !b), hany (fun b => b)]
    split at hx
    · next hdiffer =>
      rw [if_pos hdiffer]
      exact h.exists_some_finding hσ hx _ _
    · next hdiffer =>
      cases hx
      exact ⟨none, if_neg hdiffer, .none⟩

/-- All branches together. -/
theorem Renamed.exists_pathFindings (branches : List (Block × Option String)) {found : List Finding}
    (hfound : c.pathFindings branches = .ok found) :
    ∃ found', c'.pathFindings (branches.map (Prod.map (Block.rename σ) id)) = .ok found' ∧
      List.Forall₂ (Finding.Renamed σ) found found' := by
  unfold pathFindings at hfound ⊢
  cases hi : c.inspector with
  | error e =>
    rw [hi] at hfound
    cases hfound
  | ok i =>
    cases hpost : c.graph.postDominance with
    | error e =>
      rw [hi, hpost] at hfound
      cases hfound
    | ok post =>
      rw [hi, hpost] at hfound
      obtain ⟨i', hi', hrenamed⟩ := h.exists_inspector hσ hi
      rw [hi', h.graph, FlowGraph.postDominance_rename hσ hexit hpost]
      exact exists_collectSome_map
        (fun branch _ x hx => h.exists_pathFinding hσ hexit hrenamed post branch hx) hfound

/-- The rule on secret paths finds the same. -/
theorem Renamed.exists_secretPaths {found : List Finding} (hfound : c.secretPaths = .ok found) :
    ∃ found', c'.secretPaths = .ok found' ∧ List.Forall₂ (Finding.Renamed σ) found found' := by
  unfold secretPaths at hfound ⊢
  cases hbranches : collectSome (c.secretBranch? c.graph.reachable) c.function.blocks with
  | error e =>
    rw [hbranches] at hfound
    cases hfound
  | ok branches =>
    rw [hbranches] at hfound
    rw [h.collectSome_secretBranch hσ hbranches]
    cases branches with
    | nil =>
      cases hfound
      exact ⟨[], rfl, .nil⟩
    | cons first rest => exact h.exists_pathFindings hσ hexit (first :: rest) hfound

/-! ### All rules

Rules are checked one after the other, so their findings are related in the same order. -/

/-- Each rule finds the same in both functions. -/
theorem Renamed.exists_check (rule : Rule) {found : List Finding}
    (hfound : c.check rule = .ok found) :
    ∃ found', c'.check rule = .ok found' ∧ List.Forall₂ (Finding.Renamed σ) found found' := by
  cases rule with
  | secretPath => exact h.exists_secretPaths hσ hexit hfound
  | indirectBranch => exact h.exists_indirectBranches hσ hfound
  | conditionalScrub => exact h.exists_conditionalScrubs hσ hfound
  | globalStorage => exact h.exists_globalStores hσ hfound

/-- **The checks of a renamed function find the same**, rule by rule and in the same order. -/
theorem Renamed.exists_checkAll (rules : List Rule) {found : List Finding}
    (hfound : c.checkAll rules = .ok found) :
    ∃ found', c'.checkAll rules = .ok found' ∧ List.Forall₂ (Finding.Renamed σ) found found' := by
  unfold checkAll at hfound ⊢
  split at hfound
  · cases hfound
  · next ofRules hofRules =>
    cases hfound
    obtain ⟨ofRules', hofRules', hrels⟩ := exists_collect_map (g := id)
      (fun rule _ found hfound => h.exists_check hσ hexit rule hfound) hofRules
    rw [List.map_id] at hofRules'
    rw [hofRules']
    exact ⟨_, rfl, List.rel_flatten hrels⟩

end Context

end ConstantTime
