/-
Modules that list their functions and locations in another order.

Functions and locations are looked up by their names, and functions are taken in ascending order of
their names wherever the order could be seen. So nothing of an analysis depends on how a module
lists them: not the taints with their chains, not the calls and the order in which functions are
judged, and not what the checks find.

Main statement: without a time limit, an analyzer gives the same for a module that passes the
checks and for a permutation of it.
-/
import ConstantTime.Proofs.Comparison
import ConstantTime.Proofs.RenamedFacts
import ConstantTime.Proofs.StrongerAnnotations
import ConstantTime.Proofs.Untimed

set_option autoImplicit false

namespace ConstantTime

/-! ## Relisting

Two functions that differ only in the order of their locations have equal blocks, so their flow
graphs and regions are equal and not just alike. -/

/-- The same function, with its locations listed in any order. -/
structure Function.Relisted (f f' : Function) : Prop where
  same : f' = { f with locations := f'.locations }
  locations : f'.locations.Perm f.locations

/-- The same module, with its functions and all locations listed in any order. -/
structure Module.Relisted (m m' : Module) : Prop where
  name : m'.name = m.name
  functions : ∃ functions, List.Forall₂ Function.Relisted m.functions functions ∧
    m'.functions.Perm functions
  locations : m'.locations.Perm m.locations

namespace Function.Relisted

variable {f f' : Function} (h : f.Relisted f')

include h

theorem id_eq : f'.id = f.id := by rw [h.same]

theorem blocks_eq : f'.blocks = f.blocks := by rw [h.same]

theorem returns_eq : f'.returns = f.returns := by rw [h.same]

/-- The flow graph is made from the blocks. -/
theorem flow_eq : FlowGraph.ofFunction f' = FlowGraph.ofFunction f := by
  rw [h.same]
  rfl

theorem regions_eq (g : FlowGraph) : RegionMap.ofFunction f' g = RegionMap.ofFunction f g := by
  rw [h.same]
  exact Function.regions_annotated f f.params f.returns f'.locations g

/-- And the regions from the blocks and the flow graph. -/
theorem regionMap_eq : f'.regionMap = f.regionMap := by
  simp only [Function.regionMap, h.flow_eq, h.regions_eq]

theorem orderViolation?_eq (g : FlowGraph) : f'.orderViolation? g = f.orderViolation? g := by
  rw [h.same]
  rfl

/-- Values are defined by parameters and blocks. -/
theorem definedValues_eq : f'.definedValues = f.definedValues := by
  rw [h.same]
  rfl

/-- A function is well formed however locations are listed: instructions only ask which ones there
are. -/
theorem wellFormed {shared shared' : List Location} (hshared : shared'.Perm shared)
    (hf : f.WellFormed shared) :
    f'.WellFormed shared' where
  nonempty := h.blocks_eq ▸ hf.nonempty
  blocks := h.blocks_eq ▸ hf.blocks
  locations := (h.locations.map Location.id).nodup_iff.2 hf.locations
  values := h.definedValues_eq ▸ hf.values
  shaped := by
    have hnames : ∀ l, l ∈ (f.names shared).locations → l ∈ (f'.names shared').locations := by
      intro l hl
      simp only [names, List.mem_append] at hl ⊢
      exact hl.imp (h.locations.map Location.id).mem_iff.2 (hshared.map Location.id).mem_iff.2
    intro p hp
    rw [h.blocks_eq] at hp ⊢
    have hshaped := hf.shaped p hp
    refine ⟨hshaped.terminated, hshaped.early, fun i hi => ?_⟩
    have hoperands := hshaped.operands i hi
    exact
      { hoperands with
        defined := by
          intro v hv
          simp only [names, h.definedValues_eq]
          exact hoperands.defined v hv
        known := fun l hl => hnames l (hoperands.known l hl)
        targets := by
          intro hop t ht
          simp only [names, h.blocks_eq]
          exact hoperands.targets hop t ht }

end Function.Relisted

namespace Module.Relisted

variable {m m' : Module} (h : m.Relisted m')

include h

/-- Each function of the one module stands in the other, with its locations in some order. -/
theorem exists_of_mem {f : Function} (hf : f ∈ m.functions) :
    ∃ f' ∈ m'.functions, f.Relisted f' := by
  obtain ⟨functions, hall, hperm⟩ := h.functions
  obtain ⟨f', hf', hrel⟩ := exists_of_mem_of_forall₂ hall hf
  exact ⟨f', hperm.mem_iff.2 hf', hrel⟩

/-- The same in the other direction. -/
theorem exists_of_mem' {f' : Function} (hf' : f' ∈ m'.functions) :
    ∃ f ∈ m.functions, f.Relisted f' := by
  obtain ⟨functions, hall, hperm⟩ := h.functions
  obtain ⟨f, hf, hrel⟩ := exists_of_mem_of_forall₂ hall.flip (hperm.mem_iff.1 hf')
  exact ⟨f, hf, hrel⟩

/-- Both modules have the same names for their functions. -/
theorem ids_perm : (m'.functions.map Function.id).Perm (m.functions.map Function.id) := by
  obtain ⟨functions, hall, hperm⟩ := h.functions
  rw [← map_eq_map_of_forall₂ hall fun _ _ hf => hf.id_eq]
  exact hperm.map _

variable (hm : m.WellFormed)

include hm

/-- A relisted module passes the checks of form: they look at names as sets. -/
theorem wellFormed : m'.WellFormed where
  functions := h.ids_perm.nodup_iff.2 hm.functions
  locations := (h.locations.map Location.id).nodup_iff.2 hm.locations
  apart := by
    intro f' hf' l hl
    obtain ⟨f, hf, hrel⟩ := h.exists_of_mem' hf'
    rw [(h.locations.map Location.id).mem_iff]
    exact hm.apart f hf l (hrel.locations.mem_iff.1 hl)
  function := by
    intro f' hf'
    obtain ⟨f, hf, hrel⟩ := h.exists_of_mem' hf'
    exact hrel.wellFormed h.locations (hm.function f hf)
  flow := by
    intro f' hf'
    obtain ⟨f, hf, hrel⟩ := h.exists_of_mem' hf'
    obtain ⟨g, hg, horder⟩ := hm.flow f hf
    exact ⟨g, hrel.flow_eq.trans hg, (hrel.orderViolation?_eq g).trans horder⟩

/-- In ascending order of names, functions stand in the same order. -/
theorem forall₂_sortedFunctions :
    List.Forall₂ Function.Relisted m.sortedFunctions m'.sortedFunctions := by
  obtain ⟨functions, hall, hperm⟩ := h.functions
  have hsorted : m'.sortedFunctions = sortByName Function.id functions :=
    sortByName_eq_of_perm hperm (h.wellFormed hm).functions
  rw [hsorted]
  apply forall₂_sortBy _ hall
  intro f f' g g' hf hg
  rw [hf.id_eq, hg.id_eq]

/-- The function that is found by a name is the same, with its locations listed in some order. -/
theorem rel_function? (name : String) :
    Option.Rel Function.Relisted (m.function? name) (m'.function? name) := by
  cases hfound : m.function? name with
  | some f =>
    obtain ⟨hf, rfl⟩ := mem_of_function?_eq_some hfound
    obtain ⟨f', hf', hrel⟩ := h.exists_of_mem hf
    rw [← hrel.id_eq, function?_id (h.wellFormed hm).functions hf']
    exact .some hrel
  | none =>
    cases hfound' : m'.function? name with
    | none => exact .none
    | some f' =>
      -- a function with the name would have been found in the other module
      obtain ⟨hf', rfl⟩ := mem_of_function?_eq_some hfound'
      obtain ⟨f, hf, hrel⟩ := h.exists_of_mem' hf'
      rw [hrel.id_eq, function?_id hm.functions hf] at hfound
      cases hfound

end Module.Relisted

/-! ## Taints

The taints read tables by name. Tables with the same entries in another order answer alike, so
every step of the rounds gives the same, chains included. -/

/-- The look-up in a table does not depend on the order of its entries. -/
theorem Table.get?_eq_of_perm {α : Type} {t t' : Table α} (h : t'.entries.Perm t.entries) :
    t'.get? = t.get? := by
  funext name
  apply Option.ext
  intro v
  rw [get?_eq_some_iff, get?_eq_some_iff, h.mem_iff]

namespace Scope.Alike

variable {s s' : Scope} (h : s.Alike s')

include h

/-- An instruction does the same in scopes that look up alike. -/
theorem step_eq : Taints.Point.step s' = Taints.Point.step s := by
  funext p i
  simp only [Taints.Point.step, Instr.transfer_congr h]

/-- So does a block. -/
theorem runBlock_eq (f : Function) : Taints.runBlock s' f = Taints.runBlock s f := by
  funext p b
  simp only [Taints.runBlock, h.step_eq]

/-- And a visit of it. -/
theorem visit_eq (f : Function) (g : FlowGraph) :
    Taints.State.visit s' f g = Taints.State.visit s f g := by
  funext st b
  simp only [Taints.State.visit, h.runBlock_eq]

/-- Operands are missing in both or in none. -/
theorem operandFault?_eq (i : Instr) : Taints.operandFault? s' i = Taints.operandFault? s i := by
  simp only [Taints.operandFault?, h.locations]

end Scope.Alike

namespace Module.Relisted

variable {m m' : Module} (h : m.Relisted m') (hm : m.WellFormed)

include h hm

/-- A callee returns what it is declared to return, wherever it is listed. -/
theorem returns_eq (c : String) :
    (m'.function? c).bind Function.returns = (m.function? c).bind Function.returns := by
  have hrel := h.rel_function? hm c
  generalize m.function? c = found, m'.function? c = found' at hrel
  cases hrel with
  | none => rfl
  | some hf => exact hf.returns_eq

variable {f f' : Function} (hf : f ∈ m.functions) (hf' : f' ∈ m'.functions) (hrel : f.Relisted f')

include hf hf' hrel

/-- A function names the same memory. -/
theorem entries_locationsFor_perm :
    (m'.locationsFor f').entries.Perm (m.locationsFor f).entries := by
  rw [entries_locationsFor (h.wellFormed hm) hf', entries_locationsFor hm hf]
  exact (h.locations.append hrel.locations).map _

/-- Related functions look up alike in their modules. -/
theorem scope_alike : (Scope.ofFunction m f).Alike (Scope.ofFunction m' f') where
  returns := h.returns_eq hm
  locations := Table.get?_eq_of_perm (h.entries_locationsFor_perm hm hf hf' hrel)
  size := (h.entries_locationsFor_perm hm hf hf' hrel).length_eq

/-- **Taints do not depend on how a module lists what it has**, and neither do their chains. -/
theorem taints_eq (g : FlowGraph) : Taints.ofFunction m' f' g = Taints.ofFunction m f g := by
  have hscope := h.scope_alike hm hf hf' hrel
  have hbound : ∀ n, Taints.roundBound (Scope.ofFunction m' f') f' n =
      Taints.roundBound (Scope.ofFunction m f) f n := by
    intro n
    rw [Taints.roundBound, Taints.roundBound, hscope.size, hrel.same]
    rfl
  have hround : Taints.State.round (Scope.ofFunction m' f') f' g =
      Taints.State.round (Scope.ofFunction m f) f g := by
    funext order st
    rw [Taints.State.round, Taints.State.round, hscope.visit_eq, hrel.same]
    rfl
  have hplaced : f'.placed = f.placed := by
    rw [hrel.same]
    rfl
  have hseeds : Taints.seeds f' = Taints.seeds f := by
    rw [hrel.same]
    rfl
  have hdeclassified : ∀ values, Taints.declassified f' values = Taints.declassified f values := by
    intro values
    rw [hrel.same]
    rfl
  simp only [Taints.ofFunction, hscope.operandFault?_eq, hplaced, hseeds, hbound, hround,
    hdeclassified, hrel.id_eq]

end Module.Relisted

/-! ## Regions and calls

The call graph is built from functions in the order of their names. It is the same graph, with the
same components in the same order. -/

namespace Module.Relisted

variable {m m' : Module} (h : m.Relisted m')

include h

/-- The same functions may call each other. -/
theorem mayCall_iff (caller callee : String) :
    m'.MayCall caller callee ↔ m.MayCall caller callee := by
  constructor
  · rintro ⟨f', hf', rfl, hcalls⟩
    obtain ⟨f, hf, hrel⟩ := h.exists_of_mem' hf'
    exact ⟨f, hf, hrel.id_eq.symm, hrel.blocks_eq ▸ hcalls⟩
  · rintro ⟨f, hf, rfl, hcalls⟩
    obtain ⟨f', hf', hrel⟩ := h.exists_of_mem hf
    exact ⟨f', hf', hrel.id_eq, hrel.blocks_eq.symm ▸ hcalls⟩

/-- The call graph lists callees in the order of their names. -/
theorem callees_eq : (CallGraph.ofModule m').callees = (CallGraph.ofModule m).callees :=
  funext (CallGraph.callees_ofModule_eq (fun _ => h.ids_perm.mem_iff) h.mayCall_iff)

/-- So its components are found in the same order. -/
theorem components_eq : (CallGraph.ofModule m').components = (CallGraph.ofModule m).components := by
  have hnames : sortNames (CallGraph.ofModule m').functions =
      sortNames (CallGraph.ofModule m).functions :=
    sortNames_distinct_eq fun _ => h.ids_perm.mem_iff
  simp only [CallGraph.components, CallGraph.graph, hnames, h.callees_eq]

variable (hm : m.WellFormed)

include hm

/-- The regions of functions arrive in the same order. -/
theorem regionPhase_eq (s : Schedule) : m'.regionPhase s = m.regionPhase s := by
  have hattempts : Phase.attempts Function.regionMap m'.sortedFunctions =
      Phase.attempts Function.regionMap m.sortedFunctions := by
    apply map_eq_map_of_forall₂ (h.forall₂_sortedFunctions hm)
    intro f f' hf
    simp only [hf.id_eq, Phase.attempt, hf.regionMap_eq]
  rw [regionPhase, regionPhase, hattempts]

/-- Malformed regions are in both modules or in neither. -/
theorem hasMalformedRegions_iff : m'.HasMalformedRegions ↔ m.HasMalformedRegions := by
  rw [← exists_regionPhase_eq_error_iff (h.wellFormed hm) .sequential, h.regionPhase_eq hm,
    exists_regionPhase_eq_error_iff hm]

end Module.Relisted

/-! ## Checks

A check reads the module through the locations of its function and through calls by name. So it is
enough to exchange the two in its context. -/

namespace Inspector

/-- An inspector that sees the same code, with the locations of the function listed as given. -/
def relisted (i : Inspector) (locations : List Location) : Inspector :=
  { i with function := { i.function with locations := locations } }

variable (i : Inspector) (locations : List Location)

/-- Evidence at the exits of a loop does not depend on how locations are listed. -/
theorem exitEvidence?_relisted (header : String) (blocks : List String) :
    (i.relisted locations).exitEvidence? header blocks = i.exitEvidence? header blocks := by
  induction blocks with
  | nil => rfl
  | cons b rest ih =>
    have hvalue : (i.relisted locations).exitValue? b = i.exitValue? b := rfl
    rw [exitEvidence?, exitEvidence?, hvalue]
    simp only [ih]
    rfl

/-- Nor does any other evidence. -/
theorem evidence_relisted : (i.relisted locations).evidence = i.evidence := by
  have hloop : (i.relisted locations).loopEvidence? = i.loopEvidence? := by
    funext l
    exact i.exitEvidence?_relisted locations l.header _
  funext blocks
  rw [evidence, evidence, hloop]
  rfl

end Inspector

namespace Context

/-- The same facts about a function whose module lists functions and locations in another order. -/
def relisted (c : Context) (m : Module) (locations : List Location) : Context :=
  { c with module := m, function := { c.function with locations := locations } }

variable (c : Context) (m : Module) (locations : List Location)

/-- A branch on a secret is found in both contexts, with the same text. -/
theorem pathFinding?_relisted (i : Inspector) (post : Dominance String) :
    (c.relisted m locations).pathFinding? (i.relisted locations) post = c.pathFinding? i post := by
  have harm : arm (i.relisted locations) = arm i := by
    funext branch joinBlock target
    rw [arm, arm, Inspector.evidence_relisted]
    rfl
  funext branch
  rw [pathFinding?, pathFinding?, harm]
  rfl

/-- The findings of all branches, in order. -/
theorem pathFindings_relisted : (c.relisted m locations).pathFindings = c.pathFindings := by
  have hgraph : (c.relisted m locations).graph = c.graph := rfl
  have hinspector : (c.relisted m locations).inspector =
      c.inspector.map (Inspector.relisted · locations) := by
    rw [inspector, inspector, hgraph]
    cases c.graph.loops <;> rfl
  funext branches
  rw [pathFindings, pathFindings, hinspector, hgraph]
  cases c.inspector with
  | error e => rfl
  | ok i =>
    cases c.graph.postDominance with
    | error e => rfl
    | ok post =>
      exact congrArg (collectSome · branches) (c.pathFinding?_relisted m locations i post)

variable {m locations}

/-- The findings of a rule are the same if the function names the same memory. -/
theorem check_relisted
    (h : (m.locationsFor { c.function with locations := locations }).get? =
      (c.module.locationsFor c.function).get?)
    (rule : Rule) : (c.relisted m locations).check rule = c.check rule := by
  cases rule with
  | secretPath =>
    simp only [check, secretPaths, pathFindings_relisted]
    rfl
  | indirectBranch => rfl
  | conditionalScrub => rfl
  | globalStorage =>
    have hstore : (c.relisted m locations).storeFinding?
        (m.locationsFor { c.function with locations := locations }) =
        c.storeFinding? (c.module.locationsFor c.function) := by
      funext p
      simp only [storeFinding?, h]
      rfl
    exact congrArg (collectSome · _) hstore

/-- All chosen checks find the same if locations are looked up alike. -/
theorem checkAll_relisted
    (h : (m.locationsFor { c.function with locations := locations }).get? =
      (c.module.locationsFor c.function).get?) :
    (c.relisted m locations).checkAll = c.checkAll := by
  funext rules
  rw [checkAll, checkAll, funext (c.check_relisted h)]

end Context

/-! ## Complete runs

Where all tables of a run are filled, they are filled alike for both modules, and the report reads
nothing else. -/

/-- What related items contribute equally adds up to the same list. -/
theorem flatMap_eq_of_forall₂ {α β γ : Type} {R : α → β → Prop} {xs : List α} {ys : List β}
    (h : List.Forall₂ R xs ys) (g : α → List γ) (g' : β → List γ)
    (hg : ∀ x ∈ xs, ∀ y ∈ ys, R x y → g' y = g x) : ys.flatMap g' = xs.flatMap g := by
  induction h with
  | nil => rfl
  | @cons x y xs ys hxy _ ih =>
    rw [List.flatMap_cons, List.flatMap_cons, hg x List.mem_cons_self y List.mem_cons_self hxy]
    refine congrArg (g x ++ ·) (ih ?_)
    intro x' hx' y' hy'
    exact hg x' (List.mem_cons_of_mem x hx') y' (List.mem_cons_of_mem y hy')

namespace Analysis.Known.Complete

variable {k k' : Known} (hk : k.Complete) (hk' : k'.Complete)

section Functions

variable {f f' : Function} (hf : f ∈ k.module.functions) (hf' : f' ∈ k'.module.functions)
    (hrel : f.Relisted f')

include hk hk' hf hf' hrel

/-- A complete run has one flow graph for both functions. -/
theorem graphs_relisted : k'.graphs.get? f'.id = k.graphs.get? f.id := by
  obtain ⟨g, hget, hg⟩ := hk.full.graphs f hf
  obtain ⟨g', hget', hg'⟩ := hk'.full.graphs f' hf'
  rw [hrel.flow_eq, hg] at hg'
  cases hg'
  rw [hget, hget']

/-- It has the same taints for them. -/
theorem taints_relisted (h : k.module.Relisted k'.module) :
    k'.taints.get? f'.id = k.taints.get? f.id := by
  obtain ⟨g, t, hg, ht, hget⟩ := hk.taints f hf
  obtain ⟨g', t', hg', ht', hget'⟩ := hk'.taints f' hf'
  rw [hrel.flow_eq, hg] at hg'
  cases hg'
  rw [h.taints_eq hk.full.module hf hf' hrel, ht] at ht'
  cases ht'
  rw [hget, hget']

/-- And the same regions. -/
theorem regions_relisted : k'.regions.get? f'.id = k.regions.get? f.id := by
  obtain ⟨r, hget, hr⟩ := hk.full.regions f hf
  obtain ⟨r', hget', hr'⟩ := hk'.full.regions f' hf'
  obtain ⟨g, -, hg, htask⟩ := regionTask_eq hk.full.graphs hf
  obtain ⟨g', -, hg', htask'⟩ := regionTask_eq hk'.full.graphs hf'
  rw [hrel.flow_eq, hg] at hg'
  cases hg'
  rw [htask', hrel.regions_eq, ← htask, hr] at hr'
  cases hr'
  rw [hget, hget']

end Functions

variable (h : k.module.Relisted k'.module) (hpolicy : k'.policy = k.policy)

include hk hk' h hpolicy

/-- The same speaks against the functions. -/
theorem bodyEvidence_relisted (s : Shapes) (name : String) :
    Shapes.bodyEvidence ⟨k'.module, k'.graphs, k'.taints, k'.policy⟩ s name =
      Shapes.bodyEvidence ⟨k.module, k.graphs, k.taints, k.policy⟩ s name := by
  have hfound := h.rel_function? hk.full.module name
  cases hf : k.module.function? name with
  | none =>
    rw [hf] at hfound
    cases hf' : k'.module.function? name with
    | none => simp only [Shapes.bodyEvidence, hf, hf']
    | some f' =>
      rw [hf'] at hfound
      cases hfound
  | some f =>
    rw [hf] at hfound
    obtain ⟨f', hf', hrel⟩ := exists_of_rel_some hfound
    obtain ⟨hmem, rfl⟩ := Module.mem_of_function?_eq_some hf
    obtain ⟨hmem', hid⟩ := Module.mem_of_function?_eq_some hf'
    have htaints := hk.taints_relisted hk' hmem hmem' hrel h
    have hgraphs := hk.graphs_relisted hk' hmem hmem' hrel
    rw [hid] at htaints
    obtain ⟨g, t, -, -, ht⟩ := hk.taints f hmem
    obtain ⟨g, hg, -⟩ := hk.full.graphs f hmem
    simp only [Shapes.bodyEvidence, hf, hf', htaints, ht, Shapes.inspector, hgraphs, hg, hpolicy]
    cases g.loops with
    | error e => rfl
    | ok loops =>
      rw [hrel.same]
      exact congrFun
        (Inspector.evidence_relisted ⟨f, g, t, loops, k.policy, s.isVariableTime⟩ f'.locations)
          g.reachable

/-- Functions are judged in the same order and in the same way. -/
theorem shapes_relisted : k'.shapes = k.shapes := by
  have hshapes :=
    Shapes.ofModule_eq (hk.bodyEvidence_relisted hk' h hpolicy) hpolicy h.callees_eq h.components_eq
  rw [hk'.shapes, hk.shapes] at hshapes
  exact Except.ok.inj hshapes

/-- The checks find the same in the functions. -/
theorem found_relisted {f f' : Function} (hf : f ∈ k.module.functions)
    (hf' : f' ∈ k'.module.functions) (hrel : f.Relisted f') (rules : List Rule) :
    k'.found rules f' = k.found rules f := by
  obtain ⟨g, t, r, hg, ht, hr, hfound⟩ := hk.exists_found hf rules
  obtain ⟨g', t', r', hg', ht', hr', hfound'⟩ := hk'.exists_found hf' rules
  rw [hrel.flow_eq, hg] at hg'
  cases hg'
  rw [h.taints_eq hk.full.module hf hf' hrel, ht] at ht'
  cases ht'
  rw [hrel.regions_eq, hr] at hr'
  cases hr'
  have hlocations := Table.get?_eq_of_perm (h.entries_locationsFor_perm hk.full.module hf hf' hrel)
  rw [hrel.same] at hlocations
  have hchecks : Context.checkAll
      ⟨k'.module, f', g, t, r, k'.policy, k'.shapes.isVariableTime⟩ rules =
      Context.checkAll ⟨k.module, f, g, t, r, k.policy, k.shapes.isVariableTime⟩ rules := by
    rw [hpolicy, hk.shapes_relisted hk' h hpolicy, hrel.same]
    exact congrFun
      (Context.checkAll_relisted ⟨k.module, f, g, t, r, k.policy, k.shapes.isVariableTime⟩
        hlocations) rules
  rw [hchecks, hfound] at hfound'
  exact (Except.ok.inj hfound').symm

/-- **What is reported does not depend on how a module lists what it has.** -/
theorem report_relisted (c : Config) :
    k'.report c k'.module.sortedFunctions (inspected c k'.module false) =
      k.report c k.module.sortedFunctions (inspected c k.module false) := by
  have hsorted := h.forall₂_sortedFunctions hk.full.module
  have hanomalies := flatMap_eq_of_forall₂ hsorted
    (fun f => ((k.regions.get? f.id).map RegionMap.anomalies).getD [])
    (fun f => ((k'.regions.get? f.id).map RegionMap.anomalies).getD []) fun f hf f' hf' hrel => by
      rw [hk.regions_relisted hk' (Module.mem_sortedFunctions.1 hf)
        (Module.mem_sortedFunctions.1 hf') hrel]
  have hdeclassified := flatMap_eq_of_forall₂ hsorted
    (fun f => ((k.taints.get? f.id).map Taints.declassifications).getD [])
    (fun f => ((k'.taints.get? f.id).map Taints.declassifications).getD [])
      fun f hf f' hf' hrel => by
      rw [hk.taints_relisted hk' (Module.mem_sortedFunctions.1 hf)
        (Module.mem_sortedFunctions.1 hf') hrel h]
  have hfindings := flatMap_eq_of_forall₂ hsorted
    (fun f => (k.found c.checkedRules f).filter (Finding.isAtLeast c.minSeverity))
    (fun f => (k'.found c.checkedRules f).filter (Finding.isAtLeast c.minSeverity))
      fun f hf f' hf' hrel => by
      rw [hk.found_relisted hk' h hpolicy (Module.mem_sortedFunctions.1 hf)
        (Module.mem_sortedFunctions.1 hf') hrel]
  have hinspected : inspected c k'.module false = inspected c k.module false := by
    simp only [inspected, classified, tainted, h.name]
  rw [report, report, hanomalies, hdeclassified, hfindings, hsorted.length_eq,
    hk.shapes_relisted hk' h hpolicy, hinspected]

end Analysis.Known.Complete

/-! ## Runs

Both runs end alike, with a report or with the same error, since the first malformed function in
the order of names is the same. -/

/-- **The order of listing is irrelevant.** If a module passes the checks, so does every
permutation of its functions and of all locations, and without a time limit an analyzer gives the
same for both. -/
theorem Module.givesSame_of_relisted {m m' : Module} (hm : m.validate = .ok ())
    (h : m.Relisted m') :
    m'.validate = .ok () ∧
      ∀ {τ : Type} (timing : Timing τ) (a : Analyzer), a.config.timeout = none →
        ∀ (arrival arrival' : Stage → Arrival) (clock clock' : Nat → τ) (n n' : Nat),
          Analyzer.GivesSame id (a.config.SameOrder arrival arrival')
            ((a.analyzeBy timing arrival m).answer clock n).1
            ((a.analyzeBy timing arrival' m').answer clock' n').1 := by
  have hwf := wellFormed_of_validate hm
  have hpasses := violation?_eq_none_of_wellFormed hwf
  have hpasses' := violation?_eq_none_of_wellFormed (h.wellFormed hwf)
  refine ⟨by rw [validate, hpasses'], ?_⟩
  intro τ timing a hlimit arrival arrival' clock clock' n n'
  by_cases hready : a.isReady = true
  · have hsettled := Analyzer.settled_analyzeBy timing hready hlimit arrival m clock n
    have hsettled' := Analyzer.settled_analyzeBy timing hready hlimit arrival' m' clock' n'
    refine (hsettled.givesSame hsettled' id (hpasses'.trans hpasses.symm)
      (h.hasMalformedRegions_iff hwf) rfl ?_ ?_ ?_).imp fun horder => ?_
    · intro e
      rw [h.name]
      rfl
    · intro e
      simp only [Analysis.tainted, h.name, id]
    · rintro k k' hk hk' rfl rfl hpolicy duration duration'
      rw [hk.report_relisted hk' h hpolicy]
      rfl
    · exact Module.rejectsAlike_of_eq
        ((horder.regionPhase_eq m).trans (h.regionPhase_eq hwf _).symm)
  · rw [Analyzer.analyzeBy, Analyzer.analyzeBy, if_neg hready, if_neg hready]
    exact ⟨.error _ _ _, rfl⟩

/-- A function that keeps a key in memory of its own and logs what it reads there. -/
def keepKey (locations : List Location) : Function :=
  ⟨"keep",
    [⟨"entry",
      [⟨.store, ["key"], none, [], some "slot", none⟩,
        ⟨.load, [], some "copy", [], some "slot", none⟩,
      ⟨.store, ["copy"], none, [], some "log", none⟩, ⟨.ret, [], none, [], none, none⟩]⟩],
    [⟨"key", .secret⟩], none, locations⟩

/-- Two functions, two shared locations and two locations of the first function, in two orders. -/
def keeping : Module :=
  ⟨"keeping",
    [booking "book", keepKey [⟨"slot", .stack, none, false⟩, ⟨"spare", .stack, none, false⟩]],
    [⟨"log", .global, none, false⟩, ⟨"total", .global, none, false⟩]⟩

def keepingRelisted : Module :=
  ⟨"keeping",
    [keepKey [⟨"spare", .stack, none, false⟩, ⟨"slot", .stack, none, false⟩], booking "book"],
    [⟨"total", .global, none, false⟩, ⟨"log", .global, none, false⟩]⟩

theorem relisted_keeping : keeping.Relisted keepingRelisted where
  name := rfl
  functions :=
    ⟨[booking "book", keepKey [⟨"spare", .stack, none, false⟩, ⟨"slot", .stack, none, false⟩]],
    .cons ⟨rfl, .refl _⟩ (.cons ⟨rfl, .swap _ _ _⟩ .nil), .swap _ _ _⟩
  locations := .swap _ _ _

/-- Both modules pass, and the chain of the logged key is found in both. -/
theorem Module.givesSame_of_relisted_keeping :
    keeping.validate = .ok () ∧ keeping.Relisted keepingRelisted ∧
      keepingRelisted.validate = .ok () ∧
      (Analyzer.ofConfig Config.default).config.timeout = none ∧ ∀ arrival clock n, ∃ r,
        (((Analyzer.ofConfig Config.default).analyzeBy .seconds arrival keepingRelisted).answer
          clock n).1.1 = .ok r ∧
        r.findings.map (fun x => (x.function, x.index, x.chain)) =
          [("book", 1, ["amount"]), ("keep", 2, ["key", "copy"])] := by
  have hvalid : keeping.validate = .ok () := by rfl
  obtain ⟨hvalid', hruns⟩ := Module.givesSame_of_relisted hvalid relisted_keeping
  refine ⟨hvalid, relisted_keeping, hvalid', rfl, fun arrival clock n => ?_⟩
  -- the order in which results arrive is settled for the module itself, and any for its permutation
  have hcomputed :
    (((Analyzer.ofConfig Config.default).analyzeBy .seconds (fun _ => .inOrder) keeping).answer
      clock n).1.1.map (fun r => r.findings.map fun x => (x.function, x.index, x.chain)) =
        .ok [("book", 1, ["amount"]), ("keep", 2, ["key", "copy"])] := by rfl
  obtain ⟨full, hfull, heq⟩ := exists_of_map_eq_ok hcomputed
  have hsame :=
    (hruns .seconds (.ofConfig Config.default) rfl (fun _ => .inOrder) arrival clock clock n
      n).result.gist
  rw [hfull] at hsame
  obtain ⟨r, hr, hgist⟩ := exists_of_map_eq_ok hsame.symm
  have hfindings : r.findings = full.findings := by
    have hfields := congrArg Result.findings hgist
    exact hfields
  exact ⟨r, hr, by rw [hfindings]; exact heq⟩

end ConstantTime
