/-
Verdicts do not depend on the names of blocks.

A function may have other names for its blocks, as long as different blocks keep different names.
Main statement: the run over the renamed module fails if and only if the run over the module does,
and otherwise reports the same findings in the same order, at the renamed blocks. One name is not
free: the virtual exit, where all ways out end, has the name of a block, and whether a block goes
by it must not change.
-/
import ConstantTime.Proofs.Comparison
import ConstantTime.Proofs.RenamedChecks

set_option autoImplicit false

namespace ConstantTime

section

variable {ρ : String → String → String} {m : Module}

/-! ## Calls and shapes

Names of blocks occur in the sites of calls and in the text of evidence. Neither decides whether a
function is variable-time. -/

/-- The same functions may be called. -/
theorem Instr.mayCall_rename {σ : String → String} {i : Instr} {c : String} :
    (i.rename σ).MayCall c ↔ i.MayCall c := by
  cases hop : i.op.targetsBlocks with
  | false => rw [rename_eq_self hop]
  | true =>
    have hnot : ∀ i' : Instr, i'.op.targetsBlocks = true → ¬ i'.MayCall c := by
      rintro i' hop' (⟨hcall, -⟩ | ⟨hcall, -⟩) <;> rw [hcall] at hop' <;> cases hop'
    exact iff_of_false (hnot _ hop) (hnot _ hop)

/-- So the call graphs are alike. -/
theorem CallGraph.alike_rename (ρ : String → String → String) (m : Module) :
    (ofModule m).Alike (ofModule (m.rename ρ)) := by
  refine alike_ofModule ?_ fun caller callee => ?_
  · rw [Module.rename, List.map_map]
    rfl
  · simp only [Module.MayCall, Module.rename, List.mem_map, exists_exists_and_eq_and,
      Function.rename, Block.rename, Instr.mayCall_rename]

namespace Shapes

variable {gs gs' : Table FlowGraph} {ts ts' : Table Taints} {p : Policy}

/-- The same speaks against a renamed function. -/
theorem sameBodies_rename (hρ : ∀ f, Function.Injective (ρ f)) (hm : m.WellFormed)
    (hgs : HasGraphs m gs) (hts : HasTaints m ts) (hgs' : HasGraphs (m.rename ρ) gs')
    (hts' : HasTaints (m.rename ρ) ts') :
    SameBodies ⟨m, gs, ts, p⟩ ⟨m.rename ρ, gs', ts', p⟩ := by
  intro s s' hs name body body' hbody hbody'
  cases hfound : m.function? name with
  | none =>
    simp only [bodyEvidence, Module.function?_rename, hfound, Option.map_none] at hbody hbody'
    cases hbody
    cases hbody'
    exact Iff.rfl
  | some f =>
    obtain ⟨hf, rfl⟩ := Module.mem_of_function?_eq_some hfound
    have hf' : f.rename (ρ f.id) ∈ (m.rename ρ).functions := List.mem_map.2 ⟨f, hf, rfl⟩
    have hfound' : (m.rename ρ).function? f.id = some (f.rename (ρ f.id)) := by
      rw [Module.function?_rename, hfound, Option.map_some]
    obtain ⟨g, hg, hflow⟩ := hgs f hf
    obtain ⟨_, t, hflow₁, ht, htaints⟩ := hts f hf
    cases hflow.symm.trans hflow₁
    have hsame := FlowGraph.ofFunction_rename (hρ f.id) hflow
    obtain ⟨_, hg', hflow'⟩ := hgs' _ hf'
    cases hsame.symm.trans hflow'
    obtain ⟨_, t', hflow₁', ht', htaints'⟩ := hts' _ hf'
    cases hsame.symm.trans hflow₁'
    obtain ⟨_, ht₁, hvalues⟩ := Taints.exists_ofFunction_rename (hρ f.id) ht
    cases ht'.symm.trans ht₁
    obtain ⟨loops, hloops⟩ := FlowGraph.exists_loops hflow (hm.function f hf).blocks
    have hloops' := FlowGraph.loops_rename (hρ f.id) hloops
    rw [bodyEvidence_eq hfound hg htaints hloops] at hbody
    rw [bodyEvidence_eq hfound' hg' htaints' hloops', FlowGraph.reachable_rename (hρ f.id)]
      at hbody'
    have hrenamed : Inspector.Renamed (ρ f.id) ⟨f, g, t, loops, p, s.isVariableTime⟩
        ⟨f.rename (ρ f.id), g.rename (ρ f.id), t', loops.map (Loop.rename (ρ f.id)), p,
          s'.isVariableTime⟩ :=
      ⟨rfl, rfl, hvalues, rfl, rfl, hs.isVariableTime⟩
    obtain ⟨_, hbody₁, hreasons⟩ := hrenamed.exists_evidence (hρ f.id) g.reachable hbody
    cases hbody'.symm.trans hbody₁
    rw [← List.isEmpty_iff, isEmpty_eq_of_reasons hreasons, List.isEmpty_iff]

end Shapes

/-! ## Regions

Regions are malformed in both functions or in neither, though the texts differ. -/

/-- Regions are malformed after renaming if they were before. -/
theorem Module.hasMalformedRegions_rename (hρ : ∀ f, Function.Injective (ρ f)) (hm : m.WellFormed) :
    m.HasMalformedRegions ↔ (m.rename ρ).HasMalformedRegions := by
  constructor
  · rintro ⟨f, hf, g, e, hg, he⟩
    obtain ⟨e', he'⟩ := RegionMap.exists_malformed_rename (hρ f.id) he
    exact ⟨f.rename (ρ f.id), List.mem_map.2 ⟨f, hf, rfl⟩, g.rename (ρ f.id), e',
      FlowGraph.ofFunction_rename (hρ f.id) hg, he'⟩
  · rintro ⟨_, hf', g', e', hg', he'⟩
    obtain ⟨f, hf, rfl⟩ := List.mem_map.1 hf'
    obtain ⟨g, hg, -⟩ := hm.flow f hf
    cases hg'.symm.trans (FlowGraph.ofFunction_rename (hρ f.id) hg)
    cases hr : RegionMap.ofFunction f g with
    | ok r =>
      obtain ⟨r', hr', -⟩ := RegionMap.exists_ofFunction_rename (hρ f.id) hr
      cases he'.symm.trans hr'
    | error e =>
      cases e with
      | fault e => exact absurd hr (RegionMap.ofFunction_ne_fault (hm.function f hf).blocks e)
      | malformed e => exact ⟨f, hf, g, e, hg, hr⟩

/-! ## Findings

The reports of two complete runs, function by function. Findings are sorted by the positions of
their blocks, which the renaming keeps, so their order stays. -/

/-- Functions keep their names, so they keep their order. -/
theorem Module.sortedFunctions_rename :
    (m.rename ρ).sortedFunctions = m.sortedFunctions.map fun f => f.rename (ρ f.id) := by
  have hforall : List.Forall₂ (fun f f' => f' = f.rename (ρ f.id)) m.sortedFunctions
      (m.rename ρ).sortedFunctions := by
    refine forall₂_sortBy (fun f f' h h' hf hh => ?_) ?_
    · rw [hf, hh]
      rfl
    · rw [Module.rename, List.forall₂_map_right_iff]
      exact List.forall₂_same.2 fun _ _ => rfl
  rw [← List.forall₂_eq_eq_eq, List.forall₂_map_right_iff]
  exact hforall.flip

namespace Analysis.Known.Complete

variable {k k' : Known} {c : Config}

/-- The same functions are variable-time. -/
theorem alike_shapes_rename (hρ : ∀ f, Function.Injective (ρ f)) (hk : k.Complete)
    (hk' : k'.Complete) (hmodule : k'.module = k.module.rename ρ) (hpolicy : k'.policy = k.policy) :
    k.shapes.Alike k'.shapes := by
  have hgs' := hk'.full.graphs
  have hts' := hk'.taints
  have hshapes' := hk'.shapes
  rw [hmodule] at hgs' hts' hshapes'
  rw [hpolicy] at hshapes'
  exact Shapes.alike_ofModule
    (Shapes.sameBodies_rename hρ hk.full.module hk.full.graphs hk.taints hgs' hts')
    (CallGraph.alike_rename ρ k.module) rfl hk.shapes hshapes'

/-- The findings in a function correspond to each other, one by one. -/
theorem forall₂_found (hρ : ∀ f, Function.Injective (ρ f))
    (hexit : ∀ f, ρ f virtualExit = virtualExit) (hk : k.Complete) (hk' : k'.Complete)
    (hmodule : k'.module = k.module.rename ρ) (hpolicy : k'.policy = k.policy) (rules : List Rule)
    {f : Function} (hf : f ∈ k.module.functions) :
    List.Forall₂ (Finding.Renamed (ρ f.id)) (k.found rules f)
      (k'.found rules (f.rename (ρ f.id))) := by
  have hf' : f.rename (ρ f.id) ∈ k'.module.functions := hmodule ▸ List.mem_map.2 ⟨f, hf, rfl⟩
  obtain ⟨g, t, r, hg, ht, hr, hfound⟩ := hk.exists_found hf rules
  obtain ⟨g', t', r', hg', ht', hr', hfound'⟩ := hk'.exists_found hf' rules
  cases hg'.symm.trans (FlowGraph.ofFunction_rename (hρ f.id) hg)
  rw [hmodule] at ht'
  obtain ⟨t₁, ht₁, hvalues⟩ := Taints.exists_ofFunction_rename (hρ f.id) ht
  cases ht'.symm.trans ht₁
  obtain ⟨r₁, hr₁, hregions, hsites⟩ := RegionMap.exists_ofFunction_rename (hρ f.id) hr
  cases hr'.symm.trans hr₁
  have hshapes := hk.alike_shapes_rename hρ hk' hmodule hpolicy
  have hlocations : k'.module.locationsFor (f.rename (ρ f.id)) = k.module.locationsFor f := by
    rw [hmodule]
    rfl
  have hrenamed : Context.Renamed (ρ f.id) ⟨k.module, f, g, t, r, k.policy, k.shapes.isVariableTime⟩
      ⟨k'.module, f.rename (ρ f.id), g.rename (ρ f.id), t', r', k'.policy,
        k'.shapes.isVariableTime⟩ :=
    ⟨rfl, rfl, hvalues, hregions, hsites, hpolicy, hshapes.isVariableTime, hlocations⟩
  obtain ⟨found, hsame, hrels⟩ := hrenamed.exists_checkAll (hρ f.id) (hexit f.id) rules hfound
  cases hfound'.symm.trans hsame
  exact hrels

/-- What is found in a function is found at one of its blocks. -/
theorem exists_block_of_mem_found (hk : k.Complete) {rules : List Rule} {f : Function}
    (hf : f ∈ k.module.functions) {x : Finding} (hx : x ∈ k.found rules f) :
    x.function = f.id ∧ ∃ b ∈ f.blocks, b.id = x.block := by
  obtain ⟨g, t, r, -, -, -, hfound⟩ := hk.exists_found hf rules
  obtain ⟨rule, -, ofRule, hofRule, hx⟩ := (Context.mem_checkAll_iff hfound).1 hx
  obtain ⟨block, index, hmade⟩ := Context.exists_madeAt_of_mem_check hofRule hx
  refine ⟨hmade.isFindingAt.function, ?_⟩
  obtain ⟨chain, description, detail, hmade⟩ := hmade
  unfold Context.finding at hmade
  split at hmade
  · cases hmade
  · next position hposition =>
    cases hmade
    obtain ⟨hlt, hblock, -⟩ := List.findIdx?_eq_some_iff_getElem.1 hposition
    exact ⟨f.blocks[position], List.getElem_mem hlt, eq_of_beq hblock⟩

/-- **What is reported on a renamed module** is what is reported on the module, in the same
order. -/
theorem forall₂_report (hρ : ∀ f, Function.Injective (ρ f))
    (hexit : ∀ f, ρ f virtualExit = virtualExit) (hk : k.Complete) (hk' : k'.Complete)
    (hmodule : k'.module = k.module.rename ρ) (hpolicy : k'.policy = k.policy) (r r' : Result) :
    List.Forall₂
      (fun x x' => ∃ f ∈ k.module.functions, (x.function = f.id ∧ ∃ b ∈ f.blocks, b.id = x.block) ∧
        x.Renamed (ρ f.id) x')
      (k.report c k.module.sortedFunctions r).findings
        (k'.report c k'.module.sortedFunctions r').findings := by
  -- sorting looks at positions, which are the same, and not at the names of blocks
  refine forall₂_sortBy ?_ ?_
  · rintro x x' y y' ⟨_, _, _, hx⟩ ⟨_, _, _, hy⟩
    simp only [Finding.le, hx.function, hx.blockIndex, hx.index, hx.rule, hy.function,
      hy.blockIndex, hy.index, hy.rule]
  · rw [hmodule, Module.sortedFunctions_rename, List.flatMap_map]
    have hall : ∀ functions : List Function, (∀ f ∈ functions, f ∈ k.module.functions) →
        List.Forall₂
          (fun x x' => ∃ f ∈ k.module.functions,
            (x.function = f.id ∧ ∃ b ∈ f.blocks, b.id = x.block) ∧ x.Renamed (ρ f.id) x')
          (functions.flatMap fun f => (k.found c.checkedRules f).filter
            (Finding.isAtLeast c.minSeverity))
          (functions.flatMap fun f =>
            (k'.found c.checkedRules (f.rename (ρ f.id))).filter
              (Finding.isAtLeast c.minSeverity)) := by
      intro functions hmem
      induction functions with
      | nil => exact .nil
      | cons f rest ih =>
        have hf := hmem f List.mem_cons_self
        have hfound := hk.forall₂_found hρ hexit hk' hmodule hpolicy c.checkedRules hf
        have hplaces : ∀ x ∈ k.found c.checkedRules f, x.function = f.id ∧ ∃ b ∈ f.blocks,
            b.id = x.block :=
          fun x hx => hk.exists_block_of_mem_found hf hx
        have hboth := (List.forall₂_and_left _ _).2 ⟨hplaces, hfound⟩
        rw [List.flatMap_cons, List.flatMap_cons]
        refine List.rel_append
          (List.rel_filter (fun x x' hx => ?_) (hboth.imp fun x x' hx => ⟨f, hf, hx⟩))
          (ih fun f' hf' => hmem f' (List.mem_cons_of_mem f hf'))
        obtain ⟨_, _, _, hx⟩ := hx
        simp only [Finding.isAtLeast, hx.severity]
    exact hall k.module.sortedFunctions fun f hf => Module.mem_sortedFunctions.1 hf

end Analysis.Known.Complete

/-! ## Renamings of blocks

A renaming that keeps the blocks of a function apart agrees, on these blocks, with an injective one
that leaves the virtual exit alone. Everything was shown for the latter. -/

/-- A renaming that keeps some names apart can be extended to one that keeps all names apart. -/
theorem exists_injective_eq {names : List String} {σ : String → String}
    (hσ : ∀ x ∈ names, ∀ y ∈ names, σ x = σ y → x = y) :
    ∃ σ', Function.Injective σ' ∧ ∀ x ∈ names, σ' x = σ x := by
  -- all other names get a long first part, which no new name has
  obtain ⟨n, hn⟩ : ∃ n, ∀ x ∈ names, (σ x).length < n := by
    clear hσ
    induction names with
    | nil => exact ⟨0, by simp⟩
    | cons x rest ih =>
      obtain ⟨n, hn⟩ := ih
      refine ⟨n + (σ x).length + 1, List.forall_mem_cons.2 ⟨by omega, fun y hy => ?_⟩⟩
      have hlt := hn y hy
      omega
  let first := String.ofList (List.replicate n ' ')
  have hlength : first.length = n := by simp [first]
  refine ⟨fun x => if x ∈ names then σ x else first ++ x, fun x y hxy => ?_, fun x hx => if_pos hx⟩
  have hapart : ∀ {x y}, x ∈ names → σ x ≠ first ++ y := by
    intro x y hx heq
    have hlt := hn x hx
    rw [heq, String.length_append, hlength] at hlt
    omega
  dsimp only at hxy
  by_cases hx : x ∈ names
  · by_cases hy : y ∈ names
    · rw [if_pos hx, if_pos hy] at hxy
      exact hσ x hx y hy hxy
    · rw [if_pos hx, if_neg hy] at hxy
      exact absurd hxy (hapart hx)
  · by_cases hy : y ∈ names
    · rw [if_neg hx, if_pos hy] at hxy
      exact absurd hxy.symm (hapart hy)
    · rw [if_neg hx, if_neg hy] at hxy
      exact (String.append_right_inj first).1 hxy

/-- A renaming of a function is settled by the names of its blocks. -/
theorem Function.rename_congr {σ σ' : String → String} {f : Function} {shared : List Location}
    (hf : f.WellFormed shared) (h : ∀ b ∈ f.blocks, σ' b.id = σ b.id) :
    f.rename σ' = f.rename σ := by
  rw [rename, rename]
  congr 1
  refine List.map_congr_left fun b hb => ?_
  rw [Block.rename, Block.rename, h b hb]
  congr 1
  refine List.map_congr_left fun i hi => ?_
  rw [Instr.rename, Instr.rename]
  congr 1
  by_cases hop : i.op.targetsBlocks = true
  · rw [if_pos hop, if_pos hop]
    refine List.map_congr_left fun t ht => ?_
    obtain ⟨b', hb', rfl⟩ := List.mem_map.1 ((hf.operands hb hi).targets hop t ht)
    exact h b' hb'
  · rw [if_neg hop, if_neg hop]

/-- Different blocks of a function get different names, and the name of the virtual exit stays with
who has it. -/
structure Module.KeepsApart (ρ : String → String → String) (m : Module) : Prop where
  apart : ∀ f ∈ m.functions, ∀ b ∈ f.blocks, ∀ b' ∈ f.blocks, ρ f.id b.id = ρ f.id b'.id →
    b.id = b'.id
  exit : ∀ f ∈ m.functions, ∀ b ∈ f.blocks, ρ f.id b.id = virtualExit ↔ b.id = virtualExit

/-- The renamings of all functions may be replaced by injective ones. -/
theorem Module.KeepsApart.exists_injective (h : m.KeepsApart ρ) (hm : m.WellFormed) :
    ∃ ρ' : String → String → String, (∀ f, Function.Injective (ρ' f)) ∧
      (∀ f, ρ' f virtualExit = virtualExit) ∧
      ∀ f ∈ m.functions, ∀ b ∈ f.blocks, ρ' f.id b.id = ρ f.id b.id := by
  have hname : ∀ name, ∃ σ : String → String, Function.Injective σ ∧ σ virtualExit = virtualExit ∧
      ∀ f ∈ m.functions, f.id = name → ∀ b ∈ f.blocks, σ b.id = ρ name b.id := by
    intro name
    by_cases hfound : ∃ f ∈ m.functions, f.id = name
    · obtain ⟨f, hf, rfl⟩ := hfound
      -- the renaming need not leave the virtual exit alone where no block has its name
      let σ : String → String := fun b => if b = virtualExit then virtualExit else ρ f.id b
      have hblock : ∀ b ∈ f.blocks, σ b.id = ρ f.id b.id := by
        intro b hb
        by_cases hexit : b.id = virtualExit
        · rw [(h.exit f hf b hb).2 hexit]
          exact if_pos hexit
        · exact if_neg hexit
      have hkeep : ∀ x ∈ virtualExit :: f.blocks.map Block.id,
          ∀ y ∈ virtualExit :: f.blocks.map Block.id,
          σ x = σ y → x = y := by
        have hexit : ∀ b ∈ f.blocks, σ b.id = virtualExit → b.id = virtualExit := fun b hb heq =>
          (h.exit f hf b hb).1 ((hblock b hb).symm.trans heq)
        rw [List.forall_mem_cons, List.forall_mem_map]
        refine ⟨List.forall_mem_cons.2 ⟨fun _ => rfl, List.forall_mem_map.2 fun b hb heq => ?_⟩,
          fun b hb => ?_⟩
        · exact (hexit b hb heq.symm).symm
        · refine List.forall_mem_cons.2
            ⟨fun heq => hexit b hb heq, List.forall_mem_map.2 fun b' hb' heq => ?_⟩
          rw [hblock b hb, hblock b' hb'] at heq
          exact h.apart f hf b hb b' hb' heq
      obtain ⟨σ', hinj, hsame⟩ := exists_injective_eq hkeep
      refine ⟨σ', hinj, hsame virtualExit List.mem_cons_self, fun f' hf' hid b hb => ?_⟩
      cases List.inj_on_of_nodup_map hm.functions hf' hf hid
      rw [hsame b.id (List.mem_cons_of_mem _ (List.mem_map_of_mem hb)), hblock b hb]
    · exact ⟨id, Function.injective_id, rfl, fun f hf hid => absurd ⟨f, hf, hid⟩ hfound⟩
  choose ρ' hinj hexit hsame using hname
  exact ⟨ρ', hinj, hexit, fun f hf => hsame f.id f hf rfl⟩

end

/-! ## The analyzer

The main statement, and what goes wrong if a block is given the name of the virtual exit. -/

/-- **Verdicts do not depend on the names of blocks.** Without a time limit, the analysis of a
renamed module fails if and only if the analysis of the module does, and otherwise it reports the
same findings in the same order, at the renamed blocks. -/
theorem Analyzer.matches_rename {τ : Type} (timing : Timing τ) {a : Analyzer}
    (hready : a.isReady = true) (hlimit : a.config.timeout = none) {m : Module}
    (hm : m.validate = .ok ()) {ρ : String → String → String} (hρ : m.KeepsApart ρ)
    (arrival arrival' : Stage → Arrival) (clock clock' : Nat → τ) (n n' : Nat) :
    Matches (List.Forall₂ fun x x' => x.Renamed (ρ x.function) x')
      ((a.analyzeBy timing arrival m).answer clock n).1
        ((a.analyzeBy timing arrival' (m.rename ρ)).answer clock' n').1 := by
  have hwf := Module.wellFormed_of_validate hm
  obtain ⟨ρ', hinj, hexit, hsame⟩ := hρ.exists_injective hwf
  have hrename : m.rename ρ = m.rename ρ' := by
    rw [Module.rename, Module.rename]
    congr 1
    refine List.map_congr_left fun f hf => ?_
    exact (Function.rename_congr (hwf.function f hf) (hsame f hf)).symm
  rw [hrename]
  have hvalid := Module.violation?_eq_none_of_wellFormed (hwf.rename hinj)
  refine matches_of_ends
    (ends_analyzeBy timing hready hlimit (Module.violation?_eq_none_of_validate hm) arrival clock n)
    (ends_analyzeBy timing hready hlimit hvalid arrival' clock' n')
      (Module.hasMalformedRegions_rename hinj hwf) ?_
  rintro k k' hk hk' rfl hmodule' hpolicy r r'
  rw [← hmodule']
  refine (hk.forall₂_report hinj hexit hk' hmodule' hpolicy r r').imp fun x x' hx => ?_
  obtain ⟨f, hf, ⟨hfunction, b, hb, hblock⟩, hrenamed⟩ := hx
  have hnew : x'.block = ρ x.function x.block := by
    rw [hrenamed.block, hfunction, ← hblock, hsame f hf b hb]
  exact ⟨hrenamed.rule, hrenamed.function, hnew, hrenamed.blockIndex, hrenamed.index,
    hrenamed.severity, hrenamed.chain⟩

/-- A function that compares a tag in variable time, twice on one way and once on the other. The
ways meet at the last block. -/
def compareTag : Function :=
  ⟨"compare",
    [⟨"entry", [⟨.branch, ["tag"], none, ["long", "short"], none, none⟩]⟩,
      ⟨"long",
        [⟨.call, [], none, [], none, some "memcmp"⟩, ⟨.jump, [], none, ["last"], none, none⟩]⟩,
      ⟨"short", [⟨.jump, [], none, ["last"], none, none⟩]⟩,
      ⟨"last", [⟨.call, [], none, [], none, some "memcmp"⟩, ⟨.ret, [], none, [], none, none⟩]⟩],
    [⟨"tag", .secret⟩], none, []⟩

def comparingTags : Module := ⟨"tags", [compareTag], []⟩

/-- Another name for the last block. -/
def renameLast (last : String) (_ b : String) : String := if b = "last" then last else b

theorem validate_comparingTags : comparingTags.validate = .ok () := rfl

/-- The branch at the entry is found as before when the last block is called by another name. -/
theorem Analyzer.matches_rename_comparingTags :
    comparingTags.validate = .ok () ∧ comparingTags.KeepsApart (renameLast "done") ∧
      ∀ arrival clock n, ∃ r,
        (((ofConfig Config.default).analyzeBy .seconds arrival
          (comparingTags.rename (renameLast "done"))).answer clock n).1.1 = .ok r ∧
        r.findings.map (fun x => (x.rule, x.block, x.index, x.chain)) =
          [(.secretPath, "entry", 0, ["tag"])] := by
  have hkeeps : comparingTags.KeepsApart (renameLast "done") := ⟨by decide, by decide⟩
  refine ⟨validate_comparingTags, hkeeps, fun arrival clock n => ?_⟩
  have hcomputed :
    ((((ofConfig Config.default).analyzeBy .seconds arrival comparingTags).answer clock n).1.1.map
      fun r => (r.state, r.findings.map fun x => (x.rule, x.block, x.index, x.chain))) =
        .ok (.reported, [(.secretPath, "entry", 0, ["tag"])]) := by rfl
  obtain ⟨r, hr, heq⟩ := exists_of_map_eq_ok hcomputed
  obtain ⟨hstate, hfindings⟩ := Prod.mk.inj heq
  obtain ⟨r', hr', -, hrels⟩ :=
    (matches_rename .seconds (a := .ofConfig Config.default) rfl rfl validate_comparingTags
    hkeeps arrival arrival clock clock n n).exists_result hr (by rw [hstate]; decide)
  refine ⟨r', hr', ?_⟩
  obtain ⟨x, hx, hplace⟩ := List.map_eq_singleton_iff.1 hfindings
  rw [hx] at hrels
  obtain ⟨x', rest, hsame, hrest, hx'⟩ := List.forall₂_cons_left_iff.1 hrels
  cases hrest
  obtain ⟨hrule, hblock, hindex, hchain⟩ : x.rule = .secretPath ∧ x.block = "entry" ∧ x.index = 0 ∧
      x.chain = ["tag"] := by
    simpa only [Prod.mk.injEq] using hplace
  rw [hx', List.map_singleton, hsame.rule, hsame.block, hsame.index, hsame.chain, hrule, hblock,
    hindex, hchain]
  rfl

/-- The name of the virtual exit is not free: with it for the last block nothing is found. -/
theorem Analyzer.not_matches_rename_virtualExit :
    comparingTags.validate = .ok () ∧
      (∀ b ∈ compareTag.blocks, ∀ b' ∈ compareTag.blocks,
        renameLast virtualExit "compare" b.id = renameLast virtualExit "compare" b'.id →
          b.id = b'.id) ∧
      ∀ arrival clock n,
        ¬ Matches (List.Forall₂ fun x x' => x.Renamed (renameLast virtualExit x.function) x')
        (((ofConfig Config.default).analyzeBy .seconds arrival comparingTags).answer clock n).1
        (((ofConfig Config.default).analyzeBy .seconds arrival
          (comparingTags.rename (renameLast virtualExit))).answer clock n).1 := by
  refine ⟨validate_comparingTags, by decide, fun arrival clock n hmatches => ?_⟩
  have hcomputed :
    ((((ofConfig Config.default).analyzeBy .seconds arrival comparingTags).answer clock n).1.1.map
      fun r => (r.state, r.findings.length)) = .ok (.reported, 1) := by rfl
  have hcomputed' : ((((ofConfig Config.default).analyzeBy .seconds arrival
      (comparingTags.rename (renameLast virtualExit))).answer clock n).1.1.map fun r =>
        r.findings.length) = .ok 0 := by rfl
  obtain ⟨r, hr, heq⟩ := exists_of_map_eq_ok hcomputed
  obtain ⟨hstate, hone⟩ := Prod.mk.inj heq
  obtain ⟨r', hr', hnone⟩ := exists_of_map_eq_ok hcomputed'
  have hlength := (hmatches.findings r r' hr hr' (by rw [hstate]; decide)).length_eq
  rw [hone, hnone] at hlength
  cases hlength

end ConstantTime
