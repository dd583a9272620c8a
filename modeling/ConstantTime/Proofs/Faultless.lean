/-
On a well-formed module nothing is looked up in vain.

The checks of a module make sure that names are distinct and that every operand, target and
location exists. The steps of the analysis rely on that in many places: they take the block behind
a name, the last instruction of a block, the site of a value, the marker that opens a region. Here
each of these places is shown to find what it asks for, step by step up to the findings of the
rules. What is left is malformed input, in two places: the checks themselves and the regions.
-/
import ConstantTime.Check.Rules
import ConstantTime.Proofs.CallComponents
import ConstantTime.Proofs.Regions

set_option autoImplicit false

namespace ConstantTime

/-- A list is worked through if each of its items is. -/
theorem exists_collectSome_eq_ok {ε α β : Type} {f : α → Except ε (Option β)} {xs : List α}
    (h : ∀ x ∈ xs, ∃ y, f x = .ok y) : ∃ ys, collectSome f xs = .ok ys := by
  obtain ⟨found, hfound⟩ := exists_collect_eq_ok h
  exact ⟨_, by rw [collectSome, hfound]⟩

/-- What is collected was given for some element. -/
theorem mem_collect_iff {ε α β : Type} {f : α → Except ε β} {xs : List α} {ys : List β}
    (h : collect f xs = .ok ys) {y : β} : y ∈ ys ↔ ∃ x ∈ xs, f x = .ok y := by
  have hall := forall₂_of_collect_eq_ok h
  constructor
  · intro hy
    exact exists_of_mem_of_forall₂ hall.flip hy
  · rintro ⟨x, hx, hy⟩
    obtain ⟨y', hy', hfx⟩ := exists_of_mem_of_forall₂ hall hx
    rw [hy] at hfx
    rw [Except.ok.inj hfx]
    exact hy'

/-- What is collected are the results of the items that have one. -/
theorem mem_collectSome_iff {ε α β : Type} {f : α → Except ε (Option β)} {xs : List α} {ys : List β}
    (h : collectSome f xs = .ok ys) {y : β} : y ∈ ys ↔ ∃ x ∈ xs, f x = .ok (some y) := by
  unfold collectSome at h
  split at h
  · cases h
  · next found hfound =>
    cases h
    rw [List.mem_filterMap, ← mem_collect_iff hfound]
    exact ⟨fun ⟨o, ho, hy⟩ => hy ▸ ho, fun ho => ⟨some y, ho, rfl⟩⟩

/-- Where all is collected, every element gave something or nothing. -/
theorem exists_of_collectSome_eq_ok {ε α β : Type} {f : α → Except ε (Option β)} {xs : List α}
    {ys : List β} (h : collectSome f xs = .ok ys) {x : α} (hx : x ∈ xs) : ∃ y?, f x = .ok y? := by
  unfold collectSome at h
  split at h
  · cases h
  · next found hfound =>
    obtain ⟨y?, -, hy⟩ := exists_of_mem_of_forall₂ (forall₂_of_collect_eq_ok hfound) hx
    exact ⟨y?, hy⟩

/-! ## Blocks and sites

A block has a terminator and a position, and a value has a site. Everything later looks up one of
these. -/

namespace Function

variable {f : Function} {shared : List Location}

/-- Every block ends with a terminator. -/
theorem WellFormed.exists_terminator (hf : f.WellFormed shared) {b : Block} (hb : b ∈ f.blocks) :
    ∃ t, b.terminator? = some t := by
  obtain ⟨isLast, hshaped⟩ := hf.shaped_of_mem hb
  obtain ⟨t, ht, -⟩ := hshaped.terminated
  exact ⟨t, ht⟩

/-- A block of the function is found by its name. -/
theorem exists_blockIndex {b : Block} (hb : b ∈ f.blocks) : ∃ k, f.blockIndex? b.id = some k := by
  rw [← Option.isSome_iff_exists, blockIndex?, List.findIdx?_isSome, List.any_eq_true]
  exact ⟨b, hb, beq_self_eq_true b.id⟩

/-- The operands of any instruction exist. -/
theorem WellFormed.operands_of_mem_placed (hf : f.WellFormed shared) {p : Placed}
    (hp : p ∈ f.placed) :
    p.instr.Operands (f.names shared) := by
  obtain ⟨hb, hi⟩ := mem_placed_iff.1 hp
  exact hf.operands hb (List.mem_of_getElem? hi)

/-- A defined value has a site. -/
theorem WellFormed.exists_site (hf : f.WellFormed shared) {v : String} (hv : v ∈ f.definedValues) :
    ∃ s, f.sites.get? v = some s := by
  refine Table.exists_get?_of_mem_names ?_
  rw [names_sites hf.values]
  exact hv

/-! ## The checks of a module

The checks themselves use dominators, so they could fail to find something as well. They do not,
since the form is checked first. -/

/-- A use of a defined value is right or malformed. -/
theorem useViolation?_ne_fault {dom : Dominance String} {reachable : List String}
    {sites : Table Site} {p : Placed} {v : String} (hv : ∃ s, sites.get? v = some s) (e : Fault) :
    f.useViolation? dom reachable sites p v ≠ some (.fault e) := by
  obtain ⟨s, hs⟩ := hv
  rw [useViolation?, hs]
  cases s with
  | param => exact nofun
  | instr b i =>
    dsimp only
    split
    · split <;> exact nofun
    · split <;> exact nofun

/-- The checks of a function never fault. -/
theorem violation?_ne_fault (f : Function) (shared : List Location) (e : Fault) :
    f.violation? shared ≠ some (.fault e) := by
  intro h
  unfold violation? at h
  split at h
  · cases h
  · next hstructure =>
    have hf := wellFormed_of_structureViolation?_eq_none hstructure
    split at h
    · cases h
    · next g hg =>
      obtain ⟨dom, hdom, -⟩ := FlowGraph.exists_dominance hg hf.blocks
      rw [orderViolation?, hdom] at h
      obtain ⟨p, hp, hplace⟩ := List.exists_of_findSome?_eq_some h
      split at hplace
      · cases hplace
      · obtain ⟨v, hv, huse⟩ := List.exists_of_findSome?_eq_some hplace
        have hdefined := (hf.operands_of_mem_placed hp).defined v hv
        exact useViolation?_ne_fault (hf.exists_site hdefined) e huse

end Function

/-- **The checks of a module never fault.** -/
theorem Module.violation?_ne_fault (m : Module) (e : Fault) : m.violation? ≠ some (.fault e) := by
  intro h
  unfold violation? at h
  simp only [Option.orElse_eq_orElse, Option.orElse_eq_or, Option.or_eq_some_iff,
    Option.map_eq_some_iff, reduceCtorEq, and_false, exists_false, false_or] at h
  obtain ⟨-, -, h⟩ := h
  obtain ⟨f, -, hf⟩ := List.exists_of_findSome?_eq_some h
  rcases Option.or_eq_some_iff.1 hf with hshadow | ⟨-, hf⟩
  · obtain ⟨l, -, hl⟩ := List.exists_of_findSome?_eq_some hshadow
    split at hl <;> cases hl
  · exact f.violation?_ne_fault m.locations e hf

/-! ## Regions

A region is opened by a marker, which is looked up again where its place is reported. -/

namespace Function

variable {f : Function} {g : FlowGraph}

/-- Whether an instruction is covered can be told. -/
theorem exists_covered (hf : (f.blocks.map Block.id).Nodup) {regions : List Region}
    (h : f.regions g = .ok regions) {b : Block} (hb : b ∈ f.blocks) (index : Nat) :
    ∃ c, covered regions b index = .ok c := by
  unfold covered
  split
  · exact ⟨false, rfl⟩
  · next r hr =>
    split
    · next hentry =>
      have hstart :=
        (hasRegions_of_regions h).startsRegion_eq hf (mem_of_regionOf?_eq_some hr).1 hb hentry
      obtain ⟨k, hk⟩ := Block.any_op_iff.1 hstart
      split
      · exact ⟨_, rfl⟩
      · next hnil =>
        rw [hnil] at hk
        exact absurd hk List.not_mem_nil
    · exact ⟨_, rfl⟩

end Function

namespace RegionMap

variable {f : Function} {g : FlowGraph}

/-- **The regions of a function never fault**: they are found, or the function is malformed. -/
theorem ofFunction_ne_fault (hf : (f.blocks.map Block.id).Nodup) (e : Fault) :
    ofFunction f g ≠ .error (.fault e) := by
  intro h
  unfold ofFunction at h
  split at h
  · cases h
  · next regions hregions =>
    have hsites : ∃ sites, f.indirectSites regions = .ok sites := by
      refine exists_collect_eq_ok fun p hp => ?_
      obtain ⟨hb, -⟩ := Function.mem_placed_iff.1 (List.mem_filter.1 hp).1
      obtain ⟨c, hc⟩ := Function.exists_covered hf hregions hb p.index
      exact ⟨_, by rw [Function.indirectSite, hc]⟩
    obtain ⟨sites, hsites⟩ := hsites
    rw [hsites] at h
    cases h

/-- An indirect site stands in a block, and in a region if it says so. -/
theorem exists_of_mem_sites {r : RegionMap} (h : ofFunction f g = .ok r) {s : IndirectSite}
    (hs : s ∈ r.sites) :
    (∃ b ∈ f.blocks, b.id = s.block) ∧
      (s.inRegion = true → ∃ region, r.regionOf? s.block = some region) := by
  obtain ⟨p, hp, hsite⟩ := (mem_collect_iff (ofFunction_eq_ok h).2).1 hs
  obtain ⟨hb, -⟩ := Function.mem_placed_iff.1 (List.mem_filter.1 hp).1
  unfold Function.indirectSite at hsite
  split at hsite
  · cases hsite
  · next inRegion hcovered =>
    cases hsite
    refine ⟨⟨p.block, hb, rfl⟩, fun hin => ?_⟩
    change inRegion = true at hin
    subst hin
    exact exists_regionOf?_of_covered hcovered

end RegionMap

/-! ## Shapes

Functions are judged along the components of the call graph, callees first. The depth of a callee
outside the component is therefore known when it is asked for. -/

namespace Inspector

variable {i : Inspector} {shared : List Location} (hf : i.function.WellFormed shared)
  (hg : FlowGraph.ofFunction i.function = .ok i.graph)

include hf hg

/-- The value that decides about leaving a block is found. -/
theorem exists_exitValue {b : String} (hb : b ∈ i.graph.blocks) : ∃ v, i.exitValue? b = .ok v := by
  rw [FlowGraph.blocks_eq hg] at hb
  obtain ⟨blk, hblk, rfl⟩ := List.mem_map.1 hb
  obtain ⟨t, ht⟩ := hf.exists_terminator hblk
  exact ⟨_, by rw [exitValue?, Function.block?_id hf.blocks hblk, Option.bind_some, ht]⟩

/-- So evidence is gathered over all exits of a loop. -/
theorem exists_exitEvidence (header : String) {bs : List String}
    (hbs : ∀ b ∈ bs, b ∈ i.graph.blocks) :
    ∃ found, i.exitEvidence? header bs = .ok found := by
  induction bs with
  | nil => exact ⟨none, rfl⟩
  | cons b rest ih =>
    obtain ⟨v, hv⟩ := exists_exitValue hf hg (hbs b List.mem_cons_self)
    have hrest := ih fun c hc => hbs c (List.mem_cons_of_mem _ hc)
    rw [exitEvidence?, hv]
    cases v with
    | none => exact hrest
    | some v =>
      dsimp only
      split
      · exact ⟨_, rfl⟩
      · exact hrest

/-- Blocks of a function can be inspected. -/
theorem exists_evidence (blocks : List String) : ∃ found, i.evidence blocks = .ok found := by
  obtain ⟨found, hfound⟩ :
      ∃ found, collectSome i.loopEvidence? (i.loops.filter fun l => decide (l.header ∈ blocks)) =
        .ok found :=
    exists_collectSome_eq_ok fun l _ => exists_exitEvidence hf hg l.header fun b hb =>
      (List.mem_filter.1 hb).1
  exact ⟨_, by rw [evidence, hfound]⟩

end Inspector

namespace Shapes

/-- A function with its flow graph, as the steps after the first look it up. -/
def HasGraphs (m : Module) (gs : Table FlowGraph) : Prop :=
  ∀ f ∈ m.functions, ∃ g, gs.get? f.id = some g ∧ FlowGraph.ofFunction f = .ok g

variable {facts : Facts}

/-- The body of a function is inspected. An external function has none. -/
theorem exists_bodyEvidence (hm : facts.module.WellFormed)
    (hgs : HasGraphs facts.module facts.graphs) (s : Shapes) (name : String) :
    ∃ found, bodyEvidence facts s name = .ok found := by
  unfold bodyEvidence
  split
  · next fn taints hfn _ =>
    have hmem : fn ∈ facts.module.functions := List.mem_reverse.1 (List.mem_of_find?_eq_some hfn)
    have hwf := hm.function fn hmem
    obtain ⟨g, hg, hflow⟩ := hgs fn hmem
    obtain ⟨loops, hloops⟩ := FlowGraph.exists_loops hflow hwf.blocks
    simp only [inspector, hg, hloops]
    exact Inspector.exists_evidence hwf hflow g.reachable
  · exact ⟨[], rfl⟩

/-- Judging functions does not change how deep the calls below them go. -/
theorem exists_judge (hm : facts.module.WellFormed) (hgs : HasGraphs facts.module facts.graphs)
    (common : List Evidence) (tooDeep : Option Nat) (s : Shapes) (component : List String) :
    ∃ s', judge facts common tooDeep s component = .ok s' ∧ s'.depths = s.depths := by
  induction component generalizing s with
  | nil => exact ⟨s, rfl, rfl⟩
  | cons f rest ih =>
    obtain ⟨body, hbody⟩ := exists_bodyEvidence hm hgs s f
    rw [judge, hbody]
    exact ih _

/-- The callees of a component that do not belong to it. -/
theorem mem_outside_iff {calls : CallGraph} {component : List String} {c : String} :
    c ∈ outside calls component ↔ (∃ f ∈ component, c ∈ calls.callees f) ∧ c ∉ component := by
  rw [outside, List.mem_filter, List.mem_flatMap, decide_eq_true_iff]

/-- The depth of calls is known for a function. -/
def HasDepth (s : Shapes) (f : String) : Prop := ∃ d, s.depths.get? f = some d

/-- Entering a depth for a whole component keeps the depths that were known. -/
theorem hasDepth_foldl_set (depth : Nat) (component : List String) (t : Table Nat) {f : String}
    (h : f ∈ component ∨ ∃ d, t.get? f = some d) :
    ∃ d, (component.foldl (fun t f => t.set f depth) t).get? f = some d := by
  induction component generalizing t with
  | nil => exact h.resolve_left List.not_mem_nil
  | cons first rest ih =>
    refine ih (t.set first depth) ?_
    by_cases hfirst : first = f
    · exact .inr ⟨depth, by rw [Table.get?_set, if_pos hfirst]⟩
    · rcases h with h | ⟨d, hd⟩
      · exact .inl ((List.mem_cons.1 h).resolve_left (Ne.symm hfirst))
      · exact .inr ⟨d, by rw [Table.get?_set, if_neg hfirst, hd]⟩

/-- A component is judged when the depths below it are known. -/
theorem exists_judgeComponent (hm : facts.module.WellFormed)
    (hgs : HasGraphs facts.module facts.graphs) {calls : CallGraph} {s : Shapes}
    {component : List String} (hne : component ≠ [])
    (hdepths : ∀ f ∈ component, ∀ c ∈ calls.callees f, c ∉ component → s.HasDepth c) :
    ∃ s', judgeComponent facts calls s component = .ok s' ∧
      ∀ f, f ∈ component ∨ s.HasDepth f → s'.HasDepth f := by
  have hcircle : ∃ recursive, isCircle calls component = .ok recursive := by
    match component, hne with
    | [f], _ => exact ⟨_, rfl⟩
    | f :: g :: rest, _ => exact ⟨_, rfl⟩
  have hbelow : ∃ depths, collect s.depth (outside calls component) = .ok depths := by
    refine exists_collect_eq_ok fun c hc => ?_
    obtain ⟨⟨f, hf, hcallee⟩, hout⟩ := mem_outside_iff.1 hc
    obtain ⟨d, hd⟩ := hdepths f hf c hcallee hout
    exact ⟨d, by rw [depth, hd]⟩
  obtain ⟨recursive, hrecursive⟩ := hcircle
  obtain ⟨depths, hdepths⟩ := hbelow
  simp only [judgeComponent, hrecursive, hdepths]
  obtain ⟨s', hs', hsame⟩ := exists_judge hm hgs _ _ _ component
  refine ⟨s', hs', fun f hf => ?_⟩
  rw [HasDepth, hsame]
  exact hasDepth_foldl_set _ component s.depths hf

/-- Components that come in order are judged one after the other. -/
theorem exists_judgeAll (hm : facts.module.WellFormed) (hgs : HasGraphs facts.module facts.graphs)
    {calls : CallGraph} {s : Shapes} (before after : List (List String))
    (hsplit : calls.components = before ++ after)
    (hs : ∀ component ∈ before, ∀ f ∈ component, s.HasDepth f) :
    ∃ s', judgeAll facts calls s after = .ok s' := by
  induction after generalizing before s with
  | nil => exact ⟨s, rfl⟩
  | cons component rest ih =>
    have hne := CallGraph.component_ne_nil hsplit
    have hbelow : ∀ f ∈ component, ∀ c ∈ calls.callees f, c ∉ component → s.HasDepth c := by
      intro f hf c hc hout
      obtain ⟨earlier, hearlier, hmem⟩ := CallGraph.exists_earlier_of_callee hsplit hf hc hout
      exact hs earlier hearlier c hmem
    obtain ⟨s', hs', hknown⟩ := exists_judgeComponent hm hgs hne hbelow
    rw [judgeAll, hs']
    refine ih (before ++ [component]) (by rw [hsplit, List.append_assoc, List.singleton_append]) ?_
    intro c hc f hf
    rcases List.mem_append.1 hc with hc | hc
    · exact hknown f (.inr (hs c hc f hf))
    · rw [List.mem_singleton.1 hc] at hf
      exact hknown f (.inl hf)

/-- **All functions are judged.** -/
theorem exists_ofModule (hm : facts.module.WellFormed) (hgs : HasGraphs facts.module facts.graphs)
    (calls : CallGraph) : ∃ s, ofModule facts calls = .ok s :=
  exists_judgeAll hm hgs [] calls.components rfl fun _ hc => absurd hc List.not_mem_nil

end Shapes

/-! ## Rules

Each rule reports places of the function it looks at, and the line of a place is all that a finding
looks up. The rules on flow need no more than a well-formed function, the others need its
module. -/

namespace Context

/-- What a context says fits together. -/
structure Proper (c : Context) : Prop where
  module : c.module.WellFormed
  function : c.function ∈ c.module.functions
  graph : FlowGraph.ofFunction c.function = .ok c.graph
  regions : RegionMap.ofFunction c.function c.graph = .ok c.regions

variable {c : Context}

/-- The function of a context passes the checks of form. -/
theorem Proper.wellFormed (h : c.Proper) :
    c.function.WellFormed c.module.locations := h.module.function _ h.function

/-- A finding can be made at any place of the function. -/
theorem exists_finding {b : Block} (hb : b ∈ c.function.blocks) (rule : Rule) (index : Nat)
    (chain : List String) (description : String) (detail : Detail) :
    ∃ x, c.finding rule b.id index chain description detail = .ok x := by
  obtain ⟨k, hk⟩ := Function.exists_blockIndex hb
  exact ⟨_, by rw [finding, hk]⟩

/-! ### Secret paths

The rules about flow ask for a function of the right structure with its flow graph, and not for its
regions. -/

section Flow

variable {shared : List Location} (hf : c.function.WellFormed shared)

include hf

/-- The loops of the function are found, and with them the inspector. -/
theorem exists_inspector (hg : FlowGraph.ofFunction c.function = .ok c.graph) :
    ∃ i, c.inspector = .ok i ∧ i.function = c.function ∧ i.graph = c.graph := by
  obtain ⟨loops, hloops⟩ := FlowGraph.exists_loops hg hf.blocks
  exact ⟨_, by rw [inspector, hloops], rfl, rfl⟩

/-- Looking for a branch on a secret looks at the block alone. -/
theorem exists_secretBranch (reachable : List String) {b : Block} (hb : b ∈ c.function.blocks) :
    ∃ found, c.secretBranch? reachable b = .ok found := by
  obtain ⟨t, ht⟩ := hf.exists_terminator hb
  unfold secretBranch?
  split
  · exact ⟨_, by rw [branchCondition?, ht]; rfl⟩
  · exact ⟨none, rfl⟩

omit hf in
/-- A branch on a secret is reported for the block it ends. -/
theorem eq_of_secretBranch? {reachable : List String} {b : Block} {branch : Block × Option String}
    (h : c.secretBranch? reachable b = .ok (some branch)) : branch.1 = b := by
  unfold secretBranch? at h
  split at h
  · cases hcondition : branchCondition? b with
    | error e =>
      rw [hcondition] at h
      cases h
    | ok found =>
      rw [hcondition] at h
      obtain ⟨condition, -, hbranch⟩ := Option.bind_eq_some_iff.1 (Except.ok.inj h)
      dsimp only at hbranch
      split at hbranch
      · cases hbranch
        rfl
      · cases hbranch
  · cases h

/-- The arms of a branch are inspected, one by one. -/
theorem exists_pathFinding (hg : FlowGraph.ofFunction c.function = .ok c.graph) {i : Inspector}
    (hi : i.function = c.function ∧ i.graph = c.graph) (post : Dominance String)
    {branch : Block × Option String} (hb : branch.1 ∈ c.function.blocks) :
    ∃ found, c.pathFinding? i post branch = .ok found := by
  have hwf : i.function.WellFormed shared := hi.1 ▸ hf
  have hflow : FlowGraph.ofFunction i.function = .ok i.graph := by
    rw [hi.1, hi.2]
    exact hg
  have harms : ∃ arms, collect (arm i branch.1.id (joinBlock? post branch.1.id))
      (i.graph.succs branch.1.id) =
      .ok arms := by
    refine exists_collect_eq_ok fun target _ => ?_
    obtain ⟨found, hfound⟩ := Inspector.exists_evidence hwf hflow
      (armBlocks i.graph branch.1.id (joinBlock? post branch.1.id) target)
    exact ⟨_, by rw [arm, hfound]; rfl⟩
  obtain ⟨arms, harms⟩ := harms
  simp only [pathFinding?, harms]
  split
  · obtain ⟨x, hx⟩ :=
      exists_finding hb .secretPath (branch.1.instrs.length - 1) (c.taints.of branch.2).chain _ _
    exact ⟨_, by rw [hx]; rfl⟩
  · exact ⟨none, rfl⟩

/-- Post-dominators exist, so all branches are looked at. -/
theorem exists_pathFindings (hg : FlowGraph.ofFunction c.function = .ok c.graph)
    {branches : List (Block × Option String)}
    (hb : ∀ branch ∈ branches, branch.1 ∈ c.function.blocks) :
    ∃ found, c.pathFindings branches = .ok found := by
  obtain ⟨i, hi, hsame⟩ := exists_inspector hf hg
  obtain ⟨post, hpost⟩ := FlowGraph.exists_postDominance hg hf.blocks
  rw [pathFindings, hi, hpost]
  exact exists_collectSome_eq_ok fun branch hbranch => exists_pathFinding hf hg hsame post
    (hb branch hbranch)

/-- The first rule gives its findings. -/
theorem exists_secretPaths (hg : FlowGraph.ofFunction c.function = .ok c.graph) :
    ∃ found, c.secretPaths = .ok found := by
  obtain ⟨branches, hbranches⟩ : ∃ branches,
      collectSome (c.secretBranch? c.graph.reachable) c.function.blocks = .ok branches :=
    exists_collectSome_eq_ok fun b hb => exists_secretBranch hf _ hb
  have hmem : ∀ branch ∈ branches, branch.1 ∈ c.function.blocks := by
    intro branch hbranch
    obtain ⟨b, hb, hsecret⟩ := (mem_collectSome_iff hbranches).1 hbranch
    rw [eq_of_secretBranch? hsecret]
    exact hb
  rw [secretPaths, hbranches]
  cases branches with
  | nil => exact ⟨[], rfl⟩
  | cons first rest => exact exists_pathFindings hf hg hmem

/-! ### Conditional scrubs

The block of a scrub and the block that decides about it are looked up to report the way around
it. -/

/-- The way around a scrub is described by the block that decides about it. -/
theorem exists_bypass {b : Block} (hb : b ∈ c.function.blocks) : ∃ x, c.bypass b = .ok x := by
  obtain ⟨t, ht⟩ := hf.exists_terminator hb
  exact ⟨_, by rw [bypass, decider, ht]; rfl⟩

/-- A scrub is looked at together with the site of the value it overwrites. -/
theorem exists_scrubFinding (reachable exits : List String) (sites : Table Site) {p : Placed}
    (hp : p ∈ c.function.placed) (v : String) :
    ∃ found, c.scrubFinding? reachable exits sites p v = .ok found := by
  obtain ⟨hb, -⟩ := Function.mem_placed_iff.1 hp
  unfold scrubFinding?
  dsimp only
  split
  · exact ⟨none, rfl⟩
  · split
    · exact ⟨none, rfl⟩
    · obtain ⟨bypasses, hbypasses⟩ : ∃ bypasses, collect c.bypass (c.bypassBlocks
          (c.graph.reachableFrom [c.definitionBlock sites v] [p.block.id]) exits p.block.id) =
            .ok bypasses :=
        exists_collect_eq_ok fun b hb => exists_bypass hf (List.mem_filter.1 hb).1
      simp only [hbypasses]
      obtain ⟨x, hx⟩ := exists_finding hb .conditionalScrub p.index _ _ _
      exact ⟨_, by rw [hx]; rfl⟩

/-- The rule on scrubs gives its findings. -/
theorem exists_conditionalScrubs : ∃ found, c.conditionalScrubs = .ok found := by
  refine exists_collectSome_eq_ok fun p hp => ?_
  rw [List.mem_filter, Bool.and_eq_true, decide_eq_true_iff] at hp
  have hinput := (hf.operands_of_mem_placed hp.1).input (by rw [hp.2.1]; rfl)
  unfold scrubbedFinding?
  split
  · next hnil => exact absurd hnil hinput
  · next v _ _ => exact exists_scrubFinding hf _ _ _ hp.1 v

end Flow

/-! ### Indirect branches

Besides the place there is the region that the branch is in, with its marker. -/

/-- The rule on indirect branches gives its findings. -/
theorem Proper.exists_indirectBranches (h : c.Proper) :
    ∃ found, c.indirectBranches = .ok found := by
  refine exists_collect_eq_ok fun s hs => ?_
  rw [List.mem_filter, Bool.and_eq_true] at hs
  obtain ⟨⟨b, hb, hblock⟩, hregion⟩ := RegionMap.exists_of_mem_sites h.regions hs.1
  obtain ⟨region, hregion⟩ := hregion hs.2.1
  simp only [siteFinding, hregion]
  rw [← hblock]
  exact exists_finding hb _ _ _ _ _

/-! ### Global storage

A store names a location that is visible from its function. -/

theorem exists_secretStoreFinding {p : Placed} (hp : p ∈ c.function.placed) (l : Location)
    (v : String) :
    ∃ found, c.secretStoreFinding? p l v = .ok found := by
  obtain ⟨hb, -⟩ := Function.mem_placed_iff.1 hp
  unfold secretStoreFinding?
  dsimp only
  split
  · obtain ⟨x, hx⟩ := exists_finding hb .globalStorage p.index (c.taints.of (some v)).chain _ _
    exact ⟨_, by rw [hx]; rfl⟩
  · exact ⟨none, rfl⟩

/-- The location of a store exists, so the store can be judged. -/
theorem exists_storeFinding (hm : c.module.WellFormed) (hf : c.function ∈ c.module.functions)
    {p : Placed} (hp : p ∈ c.function.placed) (hop : p.instr.op = .store) :
    ∃ found, c.storeFinding? (c.module.locationsFor c.function) p = .ok found := by
  have hoperands := (hm.function _ hf).operands_of_mem_placed hp
  obtain ⟨l, hl⟩ := Taints.exists_location hm hf hoperands (by rw [hop]; rfl)
  have hinput := hoperands.input (by rw [hop]; rfl)
  simp only [storeFinding?, hl]
  split
  · split
    · next hnil => exact absurd hnil hinput
    · next v _ _ => exact exists_secretStoreFinding hp l v
  · exact ⟨none, rfl⟩

/-- The rule on stores gives its findings. -/
theorem exists_globalStores (hm : c.module.WellFormed) (hf : c.function ∈ c.module.functions) :
    ∃ found, c.globalStores = .ok found := by
  refine exists_collectSome_eq_ok fun p hp => ?_
  rw [List.mem_filter, decide_eq_true_iff] at hp
  exact exists_storeFinding hm hf hp.1 hp.2

/-! ### All rules

One context serves all rules, and `Proper` is what it has to satisfy. -/

/-- Each of the rules gives its findings in a proper context. -/
theorem Proper.exists_check (h : c.Proper) (rule : Rule) : ∃ found, c.check rule = .ok found := by
  cases rule with
  | secretPath => exact exists_secretPaths h.wellFormed h.graph
  | indirectBranch => exact h.exists_indirectBranches
  | conditionalScrub => exact exists_conditionalScrubs h.wellFormed
  | globalStorage => exact exists_globalStores h.module h.function

/-- **The rules are checked.** -/
theorem Proper.exists_checkAll (h : c.Proper) (rules : List Rule) :
    ∃ found, c.checkAll rules = .ok found := by
  obtain ⟨found, hfound⟩ := exists_collect_eq_ok fun rule (_ : rule ∈ rules) => h.exists_check rule
  exact ⟨_, by rw [checkAll, hfound]⟩

end Context

end ConstantTime
