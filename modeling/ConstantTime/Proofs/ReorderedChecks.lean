/-
What is found in reordered functions.

Reordered functions have the same flow, and their values have the same ranks. So the same speaks
against blocks with the same names, and the rules look at the same places. Main statement: what a
rule finds in a function it finds in the reordered function, at the same place. One rule asks where
the arms of a branch meet again, which is only settled by the flow if no block has the name of the
virtual exit.
-/
import ConstantTime.Proofs.ReorderedFacts
import ConstantTime.Proofs.SecretPaths

set_option autoImplicit false

namespace ConstantTime

/-! ## What speaks against blocks

Evidence depends on the instructions of a block, on which values are tainted and on the loops. All
of that is the same, up to order. -/

/-- An instruction that varies does so in any order of its operands. -/
theorem Instr.Reordered.varies {i i' : Instr} (h : i.Reordered i') {p : Policy} {t t' : Taints}
    (htainted : ∀ v, (t.of v).isTainted = true → (t'.of v).isTainted = true)
    (hvaries : i.Varies p t) :
    i'.Varies p t' := by
  have hinputs : ∀ {op}, i.op = op → op.joinsInputs = false → i'.inputs = i.inputs :=
    fun hop hjoins => h.inputs_eq (hop ▸ hjoins)
  cases hvaries with
  | branch hop hv ht => exact .branch (h.op.trans hop) (hinputs hop rfl ▸ hv) (htainted _ ht)
  | indirectBranch hop hseveral hv ht =>
    refine .indirectBranch (h.op.trans hop) ?_ (hinputs hop rfl ▸ hv) (htainted _ ht)
    rw [h.distinctTargets.length_eq]
    exact hseveral
  | routine hcall hroutine => exact .routine (h.mayCall hcall) hroutine
  | unresolved hop htargets hcounts =>
    exact .unresolved (h.op.trans hop) (List.perm_nil.1 (htargets ▸ h.targets)) hcounts

/-- What is known of a function also holds of the reordered one. -/
structure Inspector.Reordered (i i' : Inspector) : Prop where
  function : i.function.Reordered i'.function
  tainted : ∀ v, (i.taints.of v).isTainted = true → (i'.taints.of v).isTainted = true
  loops : ∀ l ∈ i.loops, ∃ l' ∈ i'.loops, l'.header = l.header ∧ ∀ b, b ∈ l'.exiting i'.graph ↔
    b ∈ l.exiting i.graph
  policy : i'.policy = i.policy
  isVariableTime : ∀ f, i'.isVariableTime f = i.isVariableTime f

/-- **What speaks against blocks of a function** speaks against those of the reordered one. -/
theorem Inspector.Reordered.speaksAgainst {i i' : Inspector} (h : i.Reordered i')
    {blocks blocks' : List String} (hsubset : ∀ b, b ∈ blocks → b ∈ blocks')
    (hspeaks : i.SpeaksAgainst blocks) : i'.SpeaksAgainst blocks' := by
  rcases hspeaks with ⟨b, hb, hmem, instr, hinstr, hagainst⟩ | ⟨l, hl, hmem, b, hb, hexit, last,
    hlast, hop, v, hv, ht⟩
  · obtain ⟨b', hb', hsame⟩ := h.function.exists_block hb
    obtain ⟨instr', hinstr', hsame'⟩ := hsame.exists_instr hinstr
    refine .inl ⟨b', hb', hsame.id ▸ hsubset _ hmem, instr', hinstr', ?_⟩
    rcases hagainst with hvaries | ⟨c, hcall, hvariable⟩
    · exact .inl (h.policy ▸ hsame'.varies h.tainted hvaries)
    · exact .inr ⟨c, hsame'.mayCall hcall, (h.isVariableTime c).trans hvariable⟩
  · obtain ⟨l', hl', hheader, hexiting⟩ := h.loops l hl
    obtain ⟨b', hb', hsame⟩ := h.function.exists_block hb
    obtain ⟨last', hlast', hsame'⟩ := hsame.exists_terminator hlast
    -- only computations have their inputs permuted, so the loop is left on the same value
    have hinputs : last'.inputs = last.inputs := by
      refine hsame'.inputs_eq ?_
      rcases hop with hop | hop <;> rw [hop] <;> rfl
    refine .inr
      ⟨l', hl', hheader ▸ hsubset _ hmem, b', hb', ?_, last', hlast', ?_, v, hinputs ▸ hv,
        h.tainted _ ht⟩
    · rw [hsame.id, hexiting]
      exact hexit
    · rw [hsame'.op]
      exact hop

/-- What is known of the functions of reordered modules. -/
theorem Module.Reordered.inspector {m m' : Module} (h : m.Reordered m') (hm : m.WellFormed)
    {f f' : Function} (hf : f ∈ m.functions) (hf' : f' ∈ m'.functions) (hsame : f.Reordered f')
    {g g' : FlowGraph} (hg : FlowGraph.ofFunction f = .ok g)
    (hg' : FlowGraph.ofFunction f' = .ok g') {t t' : Taints} (ht : Taints.ofFunction m f g = .ok t)
    (ht' : Taints.ofFunction m' f' g' = .ok t') {loops loops' : List Loop}
    (hloops : g.loops = .ok loops) (hloops' : g'.loops = .ok loops') (p : Policy)
    {isVariableTime isVariableTime' : String → Bool}
    (hvariable : ∀ f, isVariableTime' f = isVariableTime f) :
    Inspector.Reordered ⟨f, g, t, loops, p, isVariableTime⟩
      ⟨f', g', t', loops', p, isVariableTime'⟩ := by
  have hwf := hm.function f hf
  obtain ⟨-, -, hrank⟩ := h.exists_taints hm hf hf' hsame hg hg' ht ht'
  refine ⟨hsame, fun v => Taint.isTainted_of_rank_le (hrank v).ge, fun l hl => ?_, rfl, hvariable⟩
  exact (hsame.sameFlow hwf hg hg').exists_loop hg hwf.blocks hg' (hsame.wellFormed hwf).blocks
    hloops hloops' hl

/-! ## Sites of values

A value is defined in the same block, at the same position. -/

namespace Function.Reordered

variable {f f' : Function} (h : f.Reordered f') {shared : List Location} (hf : f.WellFormed shared)

include h hf

/-- The site of a value is where it is defined, which reordering keeps. -/
theorem get?_sites {v : String} {s : Site} (hs : f.sites.get? v = some s) :
    f'.sites.get? v = some s := by
  have hf' := h.wellFormed hf
  cases s with
  | param =>
    rw [hf'.get?_sites_eq_param_iff, h.params]
    exact hf.get?_sites_eq_param_iff.1 hs
  | instr b k =>
    obtain ⟨q, hq, hout, rfl, rfl⟩ := hf.get?_sites_eq_instr_iff.1 hs
    obtain ⟨q', hq', hsame⟩ := h.exists_placed hq
    exact hf'.get?_sites_eq_instr_iff.2
      ⟨q', hq', hsame.instr.output.trans hout, hsame.block.id, hsame.index⟩

/-- Values are defined where they were. -/
theorem get?_sites_eq (v : String) : f'.sites.get? v = f.sites.get? v := by
  refine Option.ext fun s => ⟨fun hs => ?_, fun hs => ?_⟩
  · exact h.symm.get?_sites (h.wellFormed hf) hs
  · exact h.get?_sites hf hs

end Function.Reordered

/-! ## Findings

The places of findings were characterised by ranks, ways and sites. Each of these carries over,
rule by rule. -/

namespace Context

/-- What the checks of a function and of the reordered one know. -/
structure Reordered (c c' : Context) : Prop where
  module : c.module.Reordered c'.module
  function : c.function.Reordered c'.function
  proper : c.Proper
  proper' : c'.Proper
  taints : Taints.ofFunction c.module c.function c.graph = .ok c.taints
  taints' : Taints.ofFunction c'.module c'.function c'.graph = .ok c'.taints
  policy : c'.policy = c.policy
  isVariableTime : ∀ f, c'.isVariableTime f = c.isVariableTime f

namespace Reordered

variable {c c' : Context} (h : c.Reordered c')

include h

theorem symm : c'.Reordered c :=
  ⟨h.module.symm, h.function.symm, h.proper', h.proper, h.taints', h.taints, h.policy.symm,
    fun f => (h.isVariableTime f).symm⟩

theorem sameFlow :
    c.graph.SameFlow c'.graph :=
  h.function.sameFlow h.proper.wellFormed h.proper.graph h.proper'.graph

/-- Taints have the same ranks, though their chains may differ. -/
theorem ranks : c.taints.values.Coherent ∧ c'.taints.values.Coherent ∧
    ∀ v, (c'.taints.of v).rank = (c.taints.of v).rank :=
  h.module.exists_taints h.proper.module h.proper.function h.proper'.function h.function
    h.proper.graph h.proper'.graph
    h.taints h.taints'

theorem isTainted {v : String} (hv : (c.taints.of (some v)).isTainted = true) :
    (c'.taints.of (some v)).isTainted = true :=
  Taint.isTainted_of_rank_le (h.ranks.2.2 v).ge hv

/-- A value has a chain in both functions, maybe another one. -/
theorem hasOrigin {v : String} (hv : (c.taints.of (some v)).hasOrigin = true) :
    (c'.taints.of (some v)).hasOrigin = true := by
  obtain ⟨hcoherent, hcoherent', hrank⟩ := h.ranks
  exact Taint.hasOrigin_of_rank_le (hrank v).ge (hcoherent.ofValue v) (hcoherent'.ofValue v) hv

theorem inspector {i i' : Inspector} (hi : c.inspector = .ok i) (hi' : c'.inspector = .ok i') :
    i.Reordered i' := by
  unfold Context.inspector at hi hi'
  split at hi
  · cases hi
  · next hloops =>
    cases hi
    split at hi'
    · cases hi'
    · next hloops' =>
      cases hi'
      rw [h.policy]
      exact h.module.inspector h.proper.module h.proper.function h.proper'.function h.function
        h.proper.graph
        h.proper'.graph h.taints h.taints' hloops hloops' c.policy h.isVariableTime

/-- A scrub that can be skipped still can. -/
theorem exists_skipsScrub {p : Placed} {v : String} (hskips : c.SkipsScrub p v) :
    ∃ p', p.Reordered p' ∧ c'.SkipsScrub p' v := by
  have hflow := h.sameFlow
  have hdefinition : c'.definitionBlock c'.function.sites v =
      c.definitionBlock c.function.sites v := by
    rw [definitionBlock, definitionBlock, h.function.get?_sites_eq h.proper.wellFormed, hflow.entry]
  obtain ⟨p', hp', hsame⟩ := h.function.exists_placed hskips.placed
  have hinputs : p'.instr.inputs = p.instr.inputs := hsame.instr.inputs_eq (hskips.op ▸ rfl)
  refine ⟨p', hsame, hp', hsame.instr.op.trans hskips.op, ?_, hinputs ▸ hskips.input,
    h.isTainted hskips.tainted, h.hasOrigin hskips.origin, ?_, ?_, ?_⟩
  · rw [hsame.block.id, hflow.mem_reachable_iff]
    exact hskips.reached
  · rw [hdefinition, hsame.block.id]
    exact hskips.apart
  · rw [hdefinition, hflow.mem_reachable_iff]
    exact hskips.defined
  · obtain ⟨e, hexit, hreached, haround⟩ := hskips.around
    refine ⟨e, (hflow.exits e).2 hexit, hflow.mem_reachable_iff.2 hreached, ?_⟩
    rw [hdefinition, hsame.block.id, hflow.mem_reachableFrom_iff]
    exact haround

/-- A store of a secret stays one. -/
theorem storesSecret {p p' : Placed} (hsame : p.Reordered p')
    (hstores : p.StoresSecret c.module c.function c.taints) :
    p'.StoresSecret c'.module c'.function c'.taints := by
  obtain ⟨v, hv, hsecret⟩ := hstores.value
  refine ⟨hsame.instr.op.trans hstores.op,
    ⟨v, ?_, Taint.label_eq_secret_of_rank_le (h.ranks.2.2 _).ge hsecret⟩, ?_⟩
  · rw [hsame.instr.inputs_eq (hstores.op ▸ rfl)]
    exact hv
  · rw [hsame.instr.location, h.module.locationsFor_eq h.function]
    exact hstores.location

/-- A branch on a secret whose arms differ stays one, since the arms have the same blocks. -/
theorem exists_splitsOnSecret (hname : virtualExit ∉ c.graph.blocks) {b : Block}
    (hsplits : c.SplitsOnSecret b) :
    ∃ b', b.Reordered b' ∧ c'.SplitsOnSecret b' := by
  have hflow := h.sameFlow
  obtain ⟨b', hb', hsame⟩ := h.function.exists_block hsplits.block
  obtain ⟨t, v, ht, hop, hv, htainted, horigin⟩ := hsplits.condition
  obtain ⟨t', ht', hlast⟩ := hsame.exists_terminator ht
  have hinputs : t'.inputs = t.inputs := hlast.inputs_eq (hop ▸ rfl)
  obtain ⟨i, post, hi, hpost, ⟨s, hs, hspeaks⟩, s₁, hs₁, hsilent⟩ := hsplits.arms
  obtain ⟨i', hi', -⟩ := exists_inspector h.proper'.wellFormed h.proper'.graph
  have hname' : virtualExit ∉ c'.graph.blocks := mt hflow.blocks.mem_iff.1 hname
  obtain ⟨_, hpost₁, hexact⟩ :=
    FlowGraph.exists_isPostDominance h.proper.graph h.proper.wellFormed hname
  cases hpost.symm.trans hpost₁
  obtain ⟨post', hpost', hexact'⟩ :=
    FlowGraph.exists_isPostDominance h.proper'.graph h.proper'.wellFormed hname'
  have hblock : b.id ∈ c.graph.blocks := by
    rw [FlowGraph.blocks_eq h.proper.graph]
    exact List.mem_map_of_mem hsplits.block
  -- the trees may list nodes in another order, but the block where the arms meet is unique
  have hjoin : joinBlock? post' b'.id = joinBlock? post b.id := by
    rw [hsame.id]
    exact hflow.joinBlock?_eq hexact hexact' fun hexit => hname (hexit ▸ hblock)
  have harm : ∀ s x, x ∈ armBlocks c'.graph b'.id (joinBlock? post' b'.id) s ↔
      x ∈ armBlocks c.graph b.id (joinBlock? post b.id) s := by
    intro s x
    rw [armBlocks, armBlocks, hjoin, hsame.id, hflow.mem_reachableFrom_iff]
  have hsuccs : (c'.graph.succs b'.id).Perm (c.graph.succs b.id) := hsame.id ▸ hflow.succs b.id
  refine ⟨b', hsame,
    ⟨⟨hb', ?_,
      ⟨t', v, ht', hlast.op.trans hop, hinputs ▸ hv, h.isTainted htainted, h.hasOrigin horigin⟩,
    ?_⟩, i', post', hi', hpost', ⟨s, hsuccs.mem_iff.2 hs, ?_⟩, s₁, hsuccs.mem_iff.2 hs₁, ?_⟩⟩
  · rw [hsame.id, hflow.mem_reachable_iff]
    exact hsplits.reached
  · rw [hsuccs.length_eq]
    exact hsplits.several
  · exact (h.inspector hi hi').speaksAgainst (fun x => (harm s x).2) hspeaks
  · -- a silent arm stays silent, because the relation can be read backwards
    exact fun hspeaks' =>
      hsilent ((h.symm.inspector hi' hi).speaksAgainst (fun x => (harm s₁ x).1) hspeaks')

/-- **What a rule found, it finds in the reordered function at the same place.** -/
theorem exists_finding (hname : virtualExit ∉ c.graph.blocks) {rule : Rule}
    {found found' : List Finding} (hfound : c.check rule = .ok found)
    (hfound' : c'.check rule = .ok found') {x : Finding} (hx : x ∈ found) :
    ∃ x' ∈ found', x'.instrPlace = x.instrPlace := by
  cases rule with
  | secretPath =>
    obtain ⟨_, heq, hmade, -⟩ := exists_reportsPaths h.proper.wellFormed h.proper.graph
    cases heq.symm.trans hfound
    obtain ⟨_, heq', -, hmade'⟩ := exists_reportsPaths h.proper'.wellFormed h.proper'.graph
    cases heq'.symm.trans hfound'
    obtain ⟨b, hsplits, hat⟩ := hmade x hx
    obtain ⟨b', hsame, hsplits'⟩ := h.exists_splitsOnSecret hname hsplits
    obtain ⟨x', hx', hat'⟩ := hmade' b' hsplits'
    refine ⟨x', hx', ?_⟩
    rw [hat'.place, hat.place, hsame.id, hsame.length_eq]
  | indirectBranch =>
    -- the targets may be permuted, but there are as many, and the regions cover the same places
    obtain ⟨p, hp, hdynamic, hcovered, hat⟩ := exists_of_mem_indirectBranches h.proper hfound hx
    obtain ⟨p', hp', hsame⟩ := h.function.exists_placed hp
    have hdynamic' : p'.IsDynamic :=
      ⟨hsame.instr.op ▸ hdynamic.indirect, hsame.instr.distinctTargets.length_eq ▸ hdynamic.targets⟩
    have hcovered' := h.function.covered_eq_true h.proper.wellFormed h.proper.graph h.proper'.graph
      (RegionMap.ofFunction_eq_ok h.proper.regions).1
        (RegionMap.ofFunction_eq_ok h.proper'.regions).1 hp hp' hsame
      hcovered
    obtain ⟨x', hx', hplace⟩ :=
      exists_mem_indirectBranches h.proper' hfound' hp' hdynamic' hcovered'
    exact ⟨x', hx', hplace.trans (hsame.place_eq.trans hat.place.symm)⟩
  | conditionalScrub =>
    obtain ⟨_, heq, hmade, -⟩ := exists_reportsScrubs h.proper.wellFormed
    cases heq.symm.trans hfound
    obtain ⟨_, heq', -, hmade'⟩ := exists_reportsScrubs h.proper'.wellFormed
    cases heq'.symm.trans hfound'
    obtain ⟨p, v, hskips, hat⟩ := hmade x hx
    obtain ⟨p', hsame, hskips'⟩ := h.exists_skipsScrub hskips
    obtain ⟨x', hx', hat'⟩ := hmade' p' v hskips'
    exact ⟨x', hx', hat'.place.trans (hsame.place_eq.trans hat.place.symm)⟩
  | globalStorage =>
    obtain ⟨p, hp, hstores, hat⟩ := storesSecret_of_mem_globalStores hfound hx
    obtain ⟨p', hp', hsame⟩ := h.function.exists_placed hp
    have hstores' := h.storesSecret hsame hstores
    obtain ⟨x', hfinding⟩ := exists_finding_of_storesSecret h.ranks.2.1 hp' hstores'
    refine ⟨x', (mem_collectSome_iff hfound').2
      ⟨p', List.mem_filter.2 ⟨hp', decide_eq_true hstores'.op⟩, hfinding⟩, ?_⟩
    exact (madeAt_of_storeFinding? hfinding).isFindingAt.place.trans
      (hsame.place_eq.trans hat.place.symm)

end Reordered

end Context

end ConstantTime
