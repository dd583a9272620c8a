/-
A scrub that can be skipped is skipped at a branch, and the finding names it.

The definition of the scrubbed value leads to the scrub, and it leads out around it. On a way to
the scrub, take the first edge behind which there is no way out around the scrub any more. The
block before this edge is no exit, since control goes on from it, so its own way out takes another
edge. At this block control goes to the scrub or around it, and everything before it on the way
still leads out around the scrub, so the scrub has not been passed. A block with two successors
ends in a branch or in an indirect branch. Hence the bypasses that a finding lists, which are all
such blocks, are never none.
-/
import ConstantTime.Proofs.UnscrubbedWays

set_option autoImplicit false

namespace ConstantTime

/-! ## Where control goes to a block or around it

The argument on ways, for any two blocks. The scrub enters only as a block to avoid. -/

namespace FlowGraph

variable {f : Function} {g : FlowGraph} {shared : List Location}

/-- On a way from `d` that has not passed `s`, the block decides whether control goes to `s` or to
an exit around it. -/
structure IsBypass (g : FlowGraph) (d s : String) (b : Block) : Prop where
  around : ∃ path, g.Way d path b.id ∧ s ∉ path
  decides : ∃ t, b.terminator? = some t ∧ (t.op = .branch ∨ t.op = .indirectBranch) ∧
    2 ≤ t.distinctTargets.length
  splits : ∃ inward ∈ g.succs b.id, ∃ outward ∈ g.succs b.id, inward ≠ outward ∧
    (∃ path, g.Way inward path s) ∧
    ∃ path, g.WayOut outward path ∧ s ∉ path

/-- On a way from where something holds to where it does not, there is a first edge behind which it
fails. -/
theorem Way.exists_crossing {P : String → Prop} {a b : String} {path : List String}
    (h : g.Way a path b) (ha : P a) (hb : ¬ P b) :
    ∃ x y before rest, g.Way a before x ∧ (∀ z ∈ before, P z) ∧ y ∈ g.succs x ∧ ¬ P y ∧
      g.Way y rest b := by
  induction h with
  | here => exact absurd ha hb
  | @step a next _ path hedge hway ih =>
    by_cases hnext : P next
    · obtain ⟨x, y, before, rest, hbefore, hall, hcrossing⟩ := ih hnext hb
      exact ⟨x, y, a :: before, rest, .step hedge hbefore,
        List.forall_mem_cons.2 ⟨ha, hall⟩, hcrossing⟩
    · refine ⟨a, next, [a], path, .here a, ?_, hedge, hnext, hway⟩
      intro z hz
      rwa [List.mem_singleton.1 hz]

/-- Control has a choice only at a branch and at an indirect branch. -/
theorem exists_choice (hg : ofFunction f = .ok g) (hf : f.WellFormed shared) {b : Block}
    (hb : b ∈ f.blocks) {y z : String} (hy : y ∈ g.succs b.id) (hz : z ∈ g.succs b.id)
    (hne : y ≠ z) :
    ∃ t, b.terminator? = some t ∧ (t.op = .branch ∨ t.op = .indirectBranch) ∧
      2 ≤ t.distinctTargets.length := by
  have hpair : [y, z] ⊆ g.succs b.id :=
    List.cons_subset.2 ⟨hy, List.cons_subset.2 ⟨hz, List.nil_subset _⟩⟩
  have hdistinct : [y, z].Nodup := by simpa using hne
  have htwo : 2 ≤ (g.succs b.id).length := (List.subperm_of_subset hdistinct hpair).length_le
  obtain ⟨t, ht⟩ := hf.exists_terminator hb
  refine ⟨t, ht, ?_⟩
  rcases succs_cases hg hf.blocks hb ht with ⟨htargets, hsuccs⟩ | ⟨-, next, hsuccs⟩ | ⟨-, hsuccs⟩
  · rw [hsuccs] at htwo
    refine ⟨?_, htwo⟩
    -- a jump has one target
    have hjump : t.op ≠ .jump := by
      intro hop
      have hone : t.targets.length = 1 :=
        (hf.operands hb (Block.mem_instrs_of_terminator? ht)).jump hop
      have hle :=
        (List.subperm_of_subset (nodup_distinct t.targets) fun x hx => mem_distinct.1 hx).length_le
      rw [Instr.distinctTargets] at htwo
      omega
    revert htargets hjump
    cases t.op <;> decide
  · simp [hsuccs] at htwo
  · simp [hsuccs] at htwo

/-- **There is a bypass.** A block that leads to another and out around it leads to one where
control goes either way. -/
theorem exists_isBypass (hg : ofFunction f = .ok g) (hf : f.WellFormed shared) {d s : String}
    {path out : List String} (hway : g.Way d path s) (hout : g.WayOut d out) (haround : s ∉ out) :
    ∃ b ∈ f.blocks, g.IsBypass d s b := by
  have hs : ¬ ∃ path, g.WayOut s path ∧ s ∉ path := fun ⟨_, hpath, hnot⟩ => hnot hpath.mem_path
  obtain ⟨x, y, before, rest, hbefore, hall, hy, hstuck, hrest⟩ :=
    hway.exists_crossing (P := fun x => ∃ path, g.WayOut x path ∧ s ∉ path) ⟨out, hout, haround⟩ hs
  obtain ⟨outX, houtX, hnot⟩ := hall x hbefore.last_mem
  have hx := houtX.mem_blocks hg hf.blocks
  rw [blocks_eq hg] at hx
  obtain ⟨b, hb, rfl⟩ := List.mem_map.1 hx
  cases houtX with
  | leave hexit =>
    rw [succs_eq_nil_of_mem_exits hg hf.blocks hexit] at hy
    exact absurd hy List.not_mem_nil
  | @step _ z path hz houtZ =>
    have hleaves : ∃ path, g.WayOut z path ∧ s ∉ path :=
      ⟨path, houtZ, fun h => hnot (List.mem_cons_of_mem _ h)⟩
    have hne : y ≠ z := fun heq => hstuck (heq ▸ hleaves)
    refine ⟨b, hb, ⟨before, hbefore, ?_⟩, exists_choice hg hf hb hy hz hne, y, hy, z, hz, hne,
      ⟨rest, hrest⟩, hleaves⟩
    intro hmem
    exact hs (hall s hmem)

/-- The backward search from the exits finds the blocks that lead out around a block. -/
theorem Reached.mem_reaching_exits_iff (hg : ofFunction f = .ok g)
    (hf : (f.blocks.map Block.id).Nodup) {b s : String} (hb : g.Reached b) :
    b ∈ g.reaching (g.exits.filter fun e => decide (e ∈ g.reachable)) [s] ↔
      ∃ path, g.WayOut b path ∧ s ∉ path := by
  rw [← hb.exists_exit_iff, mem_reaching_iff hg hf]
  simp only [mem_reachableFrom_iff, List.mem_filter, decide_eq_true_iff, List.mem_singleton,
    exists_eq_left, and_assoc]

/-- The backward search from a block finds the blocks with a way to it. -/
theorem mem_reaching_singleton_iff (hg : ofFunction f = .ok g) (hf : (f.blocks.map Block.id).Nodup)
    {b s : String} :
    b ∈ g.reaching [s] [] ↔ ∃ path, g.Way b path s := by
  rw [mem_reaching_iff hg hf]
  simp

end FlowGraph

/-! ## The bypasses of a finding

The list in a finding has the blocks for which both searches succeed, and these searches are
exact. -/

namespace Context

variable {c : Context} {shared : List Location}

/-- The rule takes just the blocks where control goes to the scrub or around it. -/
theorem mem_bypassBlocks_iff (hf : c.function.WellFormed shared)
    (hg : FlowGraph.ofFunction c.function = .ok c.graph) {d s : String} (hd : c.graph.Reached d)
    {b : Block} :
    b ∈ c.bypassBlocks (c.graph.reachableFrom [d] [s])
        (c.graph.exits.filter fun e => decide (e ∈ c.graph.reachable)) s ↔
      b ∈ c.function.blocks ∧ c.graph.IsBypass d s b := by
  simp only [bypassBlocks, List.mem_filter, Bool.and_eq_true, decide_eq_true_iff, List.any_eq_true,
    FlowGraph.mem_reachableFrom_singleton_iff, FlowGraph.mem_reaching_singleton_iff hg hf.blocks]
  refine and_congr_right fun hb => ?_
  -- the successors of the block are reached, since the block is
  have hleaves : (∃ path, c.graph.Way d path b.id ∧ s ∉ path) → ∀ z ∈ c.graph.succs b.id,
      (z ∈ c.graph.reaching (c.graph.exits.filter fun e => decide (e ∈ c.graph.reachable)) [s] ↔
        ∃ path, c.graph.WayOut z path ∧ s ∉ path) := by
    rintro ⟨path, hway, -⟩ z hz
    exact (hd.way (hway.concat hz)).mem_reaching_exits_iff hg hf.blocks
  constructor
  · rintro ⟨⟨hway, -⟩, y, hy, hto, z, hz, hout, hne⟩
    exact ⟨hway, FlowGraph.exists_choice hg hf hb hy hz hne, y, hy, z, hz, hne, hto,
      (hleaves hway z hz).1 hout⟩
  · rintro ⟨hway, ⟨t, ht, hop, htwo⟩, y, hy, z, hz, hne, hto, hout⟩
    refine ⟨⟨hway, ?_⟩, y, hy, hto, z, hz, (hleaves hway z hz).2 hout, hne⟩
    have htargets : t.op.targetsBlocks = true := by
      rcases hop with hop | hop <;> rw [hop] <;> rfl
    rwa [FlowGraph.succs_eq_distinctTargets hg hf.blocks hb ht htargets]

theorem chain_detail_of_finding {rule : Rule} {block : String} {index : Nat} {chain : List String}
    {description : String} {detail : Detail} {x : Finding}
    (h : c.finding rule block index chain description detail = .ok x) :
    x.chain = chain ∧ x.detail = detail := by
  unfold finding at h
  split at h
  · cases h
  · cases h
    exact ⟨rfl, rfl⟩

/-- What a finding says, and what its bypasses were collected from. -/
theorem exists_of_scrubResult_eq_some {p : Placed} {x : Finding}
    (h : c.scrubResult p = .ok (some x)) :
    ∃ v bypasses left, p.instr.inputs.head? = some v ∧
      collect c.bypass
        (c.bypassBlocks (c.graph.reachableFrom [c.definitionBlock c.function.sites v] [p.block.id])
        (c.graph.exits.filter fun e => decide (e ∈ c.graph.reachable)) p.block.id) = .ok bypasses ∧
      x.detail = .scrub v p.instr.location (c.definitionBlock c.function.sites v) bypasses left ∧
      x.chain = (c.taints.of (some v)).chain ++ (bypasses.head?.bind Bypass.decider).toList := by
  unfold scrubResult scrubbedFinding? at h
  split at h
  · cases h
  · next v rest hinputs =>
    unfold scrubFinding? at h
    dsimp only at h
    split at h
    · cases h
    · split at h
      · cases h
      · split at h
        · cases h
        · next bypasses hbypasses =>
          obtain ⟨y, hy, heq⟩ := exists_of_map_eq_ok h
          cases heq
          obtain ⟨hchain, hdetail⟩ := chain_detail_of_finding hy
          exact ⟨v, bypasses, _, by rw [hinputs, List.head?_cons], hbypasses, hdetail, hchain⟩

/-- A bypass stands for its block. -/
theorem block_of_bypass {b : Block} {y : Bypass} (h : c.bypass b = .ok y) : y.block = b.id := by
  obtain ⟨v, -, rfl⟩ := exists_of_map_eq_ok h
  rfl

/-- A bypass names the value that decides there, if this has a name. -/
theorem exists_decider_of_bypass (hf : c.function.WellFormed shared) {b : Block}
    (hb : b ∈ c.function.blocks) {d s : String} (hbypass : c.graph.IsBypass d s b) {y : Bypass}
    (h : c.bypass b = .ok y) :
    ∃ t v, b.terminator? = some t ∧ t.inputs.head? = some v ∧ (v ≠ "" → y.decider = some v) := by
  obtain ⟨t, ht, hop, -⟩ := hbypass.decides
  have hinput : t.inputs ≠ [] := by
    apply (hf.operands hb (Block.mem_instrs_of_terminator? ht)).input
    rcases hop with hop | hop <;> rw [hop] <;> rfl
  have hhead := List.head?_eq_some_head hinput
  refine ⟨t, _, ht, hhead, ?_⟩
  intro hnamed
  obtain ⟨v, hv, rfl⟩ := exists_of_map_eq_ok h
  rw [decider, ht] at hv
  rw [← Except.ok.inj hv]
  rcases hop with hop | hop
  · simp [Instr.condition, hop, hhead, hnamed]
  · simp [Instr.condition, Instr.indirectTarget, Opcode.isIndirect, hop, hhead]

/-- **The bypasses of a finding are those there are**, and its chain ends with what decides at the
first. -/
theorem exists_bypasses_of_mem (hf : c.function.WellFormed shared)
    (hg : FlowGraph.ofFunction c.function = .ok c.graph)
    (horder : c.function.orderViolation? c.graph = none) {p : Placed} (hp : p ∈ c.scrubs)
    {x : Finding} (h : c.scrubResult p = .ok (some x)) :
    ∃ v d bypasses left, p.instr.inputs.head? = some v ∧ c.function.DefinedIn c.graph v d ∧
      x.detail = .scrub v p.instr.location d bypasses left ∧
      (∀ name, name ∈ bypasses.map Bypass.block ↔
        ∃ b ∈ c.function.blocks, b.id = name ∧ c.graph.IsBypass d p.block.id b) ∧
      ∃ first ∈ bypasses.head?, ∃ b ∈ c.function.blocks, b.id = first.block ∧
        ∃ t u, b.terminator? = some t ∧ t.inputs.head? = some u ∧
          (u ≠ "" → x.chain = (c.taints.of (some v)).chain ++ [u]) := by
  obtain ⟨hplaced, hop, -⟩ := mem_scrubs_iff.1 hp
  obtain ⟨v, bypasses, left, hv, hcollect, hdetail, hchain⟩ := exists_of_scrubResult_eq_some h
  obtain ⟨w, hskips⟩ := (scrubResult_eq_some_iff hp h).1 ⟨x, rfl⟩
  obtain rfl : w = v := Option.some.inj (hskips.input.symm.trans hv)
  have hmem : w ∈ p.instr.inputs := List.mem_of_head? hv
  have hdefined := definedIn_definitionBlock hf ((hf.operands_of_mem_placed hplaced).defined w hmem)
  obtain ⟨hsecret, out, hout, haround⟩ :=
    (skipsScrub_iff hf hg horder hplaced hop hv hdefined).1 hskips
  have hdominates :=
    hdefined.dominates hf hg horder hplaced (by rw [hop]; decide) hmem hsecret.reached
  have hlisted : ∀ name, name ∈ bypasses.map Bypass.block ↔ ∃ b ∈ c.function.blocks, b.id = name ∧
      c.graph.IsBypass (c.definitionBlock c.function.sites w) p.block.id b := by
    intro name
    rw [List.mem_map]
    constructor
    · rintro ⟨y, hy, rfl⟩
      obtain ⟨b, hb, hbypass⟩ := (mem_collect_iff hcollect).1 hy
      obtain ⟨hb, hsplits⟩ := (mem_bypassBlocks_iff hf hg hdominates.1).1 hb
      exact ⟨b, hb, (block_of_bypass hbypass).symm, hsplits⟩
    · rintro ⟨b, hb, rfl, hsplits⟩
      obtain ⟨y, hy⟩ := exists_bypass hf hb
      have hb' := (mem_bypassBlocks_iff hf hg hdominates.1).2 ⟨hb, hsplits⟩
      exact ⟨y, (mem_collect_iff hcollect).2 ⟨b, hb', hy⟩, block_of_bypass hy⟩
  refine ⟨w, _, bypasses, left, hv, hdefined, hdetail, hlisted, ?_⟩
  -- the definition leads to the scrub because it dominates it
  obtain ⟨path, hway⟩ := hdominates.exists_way
  obtain ⟨b, hb, hsplits⟩ := FlowGraph.exists_isBypass hg hf hway hout haround
  have hsome : b.id ∈ bypasses.map Bypass.block := (hlisted b.id).2 ⟨b, hb, rfl, hsplits⟩
  cases bypasses with
  | nil => exact absurd hsome List.not_mem_nil
  | cons first rest =>
    obtain ⟨b, hb, hbypass⟩ := (mem_collect_iff hcollect).1 List.mem_cons_self
    obtain ⟨hb, hsplits⟩ := (mem_bypassBlocks_iff hf hg hdominates.1).1 hb
    obtain ⟨t, u, ht, hu, hdecider⟩ := exists_decider_of_bypass hf hb hsplits hbypass
    refine ⟨first, rfl, b, hb, (block_of_bypass hbypass).symm, t, u, ht, hu, ?_⟩
    intro hnamed
    rw [hchain, List.head?_cons, Option.bind_some, hdecider hnamed, Option.toList_some]

/-! ## Functions of a validated module

The statement for callers. In the sample the bypass of the scrub in the loop is the head of the
loop. -/

/-- **A finding names its bypass.** A finding at a scrub lists just the blocks, of those that the
definition of the scrubbed value leads to before the scrub, at which control goes to the scrub or
leaves around it. There is at least one, and the chain of the finding is the chain of the scrubbed
value with the value that decides at the first, unless the name of that is empty. -/
theorem exists_bypasses_forall_finding {m : Module} (hm : m.validate = .ok ()) {f : Function}
    (hf : f ∈ m.functions) :
    ∃ g, FlowGraph.ofFunction f = .ok g ∧ ∀ c : Context, c.module = m → c.function = f →
      c.graph = g →
      ∃ found, c.conditionalScrubs = .ok found ∧ ∀ x ∈ found,
        ∃ p ∈ f.placed, p.instr.op = .scrub ∧ c.IsFindingAt .conditionalScrub p.place x ∧
          ∃ v d bypasses left, p.instr.inputs.head? = some v ∧ f.DefinedIn g v d ∧
            x.detail = .scrub v p.instr.location d bypasses left ∧
            (∀ name, name ∈ bypasses.map Bypass.block ↔ ∃ b ∈ f.blocks, b.id = name ∧
              g.IsBypass d p.block.id b) ∧
            ∃ first ∈ bypasses.head?, ∃ b ∈ f.blocks, b.id = first.block ∧
              ∃ t u, b.terminator? = some t ∧ t.inputs.head? = some u ∧
                (u ≠ "" → x.chain = (c.taints.of (some v)).chain ++ [u]) := by
  have hwf := (Module.wellFormed_of_validate hm).function f hf
  obtain ⟨g, hg, horder⟩ := (Module.wellFormed_of_validate hm).flow f hf
  refine ⟨g, hg, ?_⟩
  rintro c rfl rfl rfl
  obtain ⟨found, hfound⟩ := exists_conditionalScrubs hwf
  refine ⟨found, hfound, ?_⟩
  intro x hx
  rw [conditionalScrubs_eq] at hfound
  obtain ⟨p, hp, hresult⟩ := (mem_collectSome_iff hfound).1 hx
  obtain ⟨hplaced, hop, -⟩ := mem_scrubs_iff.1 hp
  refine ⟨p, hplaced, hop, (madeAt_of_scrubbedFinding? hresult).isFindingAt, ?_⟩
  exact exists_bypasses_of_mem hwf hg horder hp hresult

/-- Only the head of the loop can be a bypass. -/
theorem eq_of_isBypass_wipe {d s : String} {b : Block} (hb : b ∈ wipe.blocks)
    (h : wipeGraph.IsBypass d s b) :
    b = ⟨"head", [⟨.branch, ["n"], none, ["body", "out"], none, none⟩]⟩ := by
  obtain ⟨t, ht, hop, -⟩ := h.decides
  simp only [wipe, List.mem_cons, List.not_mem_nil, or_false] at hb
  rcases hb with rfl | rfl | rfl | rfl
  · cases ht
    simp at hop
  · rfl
  · cases ht
    simp at hop
  · cases ht
    simp at hop

/-- The scrub of the key is skipped where the loop is left. -/
theorem exists_bypasses_wiping : wiping.validate = .ok () ∧ wipe ∈ wiping.functions ∧
    ∃ g, FlowGraph.ofFunction wipe = .ok g ∧ ∀ c : Context, c.module = wiping → c.function = wipe →
      c.graph = g →
      Taints.ofFunction wiping wipe g = .ok c.taints → ∃ found, c.conditionalScrubs = .ok found ∧
        ∃ x ∈ found, c.IsFindingAt .conditionalScrub ("body", (0 : Nat)) x ∧
          x.chain = ["seed", "key", "n"] ∧
          ∃ b ∈ wipe.blocks, b.id = "head" ∧ g.IsBypass "entry" "body" b := by
  refine ⟨validate_wiping, wipe_mem_wiping, ?_⟩
  have hwf := (Module.wellFormed_of_validate validate_wiping).function wipe wipe_mem_wiping
  obtain ⟨g, hg, hall⟩ := exists_bypasses_forall_finding validate_wiping wipe_mem_wiping
  cases hg.symm.trans ofFunction_wipe
  refine ⟨wipeGraph, hg, ?_⟩
  rintro ⟨m, f, g, taints, regions, policy, isVariableTime⟩ rfl rfl rfl htaints
  cases taints_wipe.symm.trans htaints
  obtain ⟨found, hfound, hfindings⟩ :=
    hall ⟨wiping, wipe, wipeGraph, wipeTaints, regions, policy, isVariableTime⟩ rfl rfl rfl
  -- the loop can be left at once
  have hout : wipeGraph.WayOut "entry" ["entry", "head", "out"] :=
    .step (by decide) (.step (by decide) (.leave (by decide)))
  have hskips : SkipsScrub ⟨wiping, wipe, wipeGraph, wipeTaints, regions, policy, isVariableTime⟩
      keyScrub "key" := by
    apply (skipsScrub_iff hwf hg rfl keyScrub_mem rfl rfl definedIn_key).2
    exact ⟨⟨reached_wipe _ (by decide), by decide, rfl, List.cons_ne_nil _ _⟩, _, hout, by decide⟩
  obtain ⟨x, hx, hat⟩ := (exists_finding_iff_skips hwf hfound keyScrub_mem).2 ⟨"key", hskips⟩
  obtain ⟨p, hp, -, hplace, v, d, bypasses, left, hv, hdefined, -, hlisted, first, hfirst, b, hb,
    hname, hvalue⟩ :=
    hfindings x hx
  obtain rfl :=
    Function.eq_of_place_eq hwf.blocks hp keyScrub_mem (hplace.place.symm.trans hat.place)
  cases hv
  obtain rfl := definedIn_key.unique hwf hdefined
  -- and the first bypass is where it is left
  have hlist : first.block ∈ bypasses.map Bypass.block :=
    List.mem_map_of_mem (List.mem_of_mem_head? hfirst)
  obtain ⟨b', hb', hname', hsplits⟩ := (hlisted first.block).1 hlist
  obtain rfl := List.inj_on_of_nodup_map hwf.blocks hb hb' (hname.trans hname'.symm)
  obtain rfl := eq_of_isBypass_wipe hb hsplits
  obtain ⟨t, u, ht, hu, hchain⟩ := hvalue
  cases ht
  cases hu
  exact ⟨found, hfound, x, hx, hat, hchain (by decide), _, hb, rfl, hsplits⟩

end Context

end ConstantTime
