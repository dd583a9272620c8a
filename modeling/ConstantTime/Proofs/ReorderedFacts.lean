/-
What is known of a reordered module.

Taints: an instruction gives its output the same rank and does the same to memory, so the equations
of a reordered function have the same solutions. Ranks are the least solution, and therefore the
same; only the chains behind them may differ. Regions: whether they fit, and what they cover, is
told from blocks, edges and markers alone.
-/
import ConstantTime.Proofs.AcceptedRegions
import ConstantTime.Proofs.Reordering
import ConstantTime.Proofs.StrongerAnnotations

set_option autoImplicit false

namespace ConstantTime

/-! ## Ranks

A join does not depend on the order of what is joined. This is the only place where the permutation
of inputs and callees matters. -/

/-- A join depends on the members of a list only. -/
theorem Rank.joinAll_congr {rs rs' : List Rank} (h : ∀ r, r ∈ rs' ↔ r ∈ rs) :
    joinAll rs' = joinAll rs :=
  le_antisymm (joinAll_le_iff.2 fun r hr => le_joinAll ((h r).1 hr))
    (joinAll_le_iff.2 fun r hr => le_joinAll ((h r).2 hr))

namespace Instr.Reordered

variable {i i' : Instr} (h : i.Reordered i')

include h

/-- The arguments of an indirect call stand behind its pointer, in their order. -/
theorem arguments_eq : i'.arguments = i.arguments := by
  rw [arguments, arguments, h.op]
  cases hop : i.op with
  | call | indirectCall => simp only [h.inputs_eq (by rw [hop]; rfl)]
  | _ => rfl

theorem indirectTarget_eq : i'.indirectTarget = i.indirectTarget := by
  rw [indirectTarget, indirectTarget, h.op]
  by_cases hop : i.op.isIndirect = true
  · have hjoins : i.op.joinsInputs = false := by
      revert hop
      cases i.op <;> decide
    rw [if_pos hop, if_pos hop, h.inputs_eq hjoins]
  · rw [if_neg hop, if_neg hop]

variable {s s' : Scope}
    (hreturned : ∀ callee, s'.module.returned? callee = s.module.returned? callee)
  (hlocations : s'.locations = s.locations)

include hreturned in
omit h in
/-- A callee declares the same. -/
theorem ofCall_eq (callee : Option String) (args : List Rank) :
    Rank.ofCall s'.module callee args = Rank.ofCall s.module callee args := by
  rw [Rank.ofCall, Rank.ofCall, hreturned]

include hreturned hlocations

/-- The output ranks as before. -/
theorem outputRank_eq (values memory : Ranks) :
    i'.outputRank s' values memory = i.outputRank s values memory := by
  unfold outputRank
  cases hop : i.op with
  | compute | phi =>
    simp only [h.op, hop]
    rw [Rank.joinAll_congr fun r => (h.inputs.map values).mem_iff]
  | load =>
    simp only [h.op, hop, h.location, h.inputs_eq (by rw [hop]; rfl), Rank.aliases, hlocations]
  | call => simp only [h.op, hop, h.callee, h.arguments_eq, ofCall_eq hreturned]
  | indirectCall =>
    simp only [h.op, hop, h.arguments_eq, h.indirectTarget_eq, ofCall_eq hreturned,
      Rank.joinAll_append]
    have htargets := h.distinctTargets
    generalize i.distinctTargets = ts, i'.distinctTargets = ts' at htargets
    cases ts with
    | nil => rw [htargets.eq_nil]
    | cons t ts =>
      cases ts' with
      | nil => cases htargets.symm.eq_nil
      | cons t' ts' =>
        dsimp only
        rw [Rank.joinAll_congr fun r => (htargets.map _).mem_iff]
  | _ => simp only [h.op, hop]

/-- So a reordered instruction gives its output the same rank. -/
theorem definedRank_eq (values memory : Ranks) :
    i'.definedRank s' values memory = i.definedRank s values memory := by
  rw [definedRank, definedRank, h.output, h.outputRank_eq hreturned hlocations]

omit hreturned hlocations

/-- Stores and scrubs are not reordered. -/
theorem memoryRanks_eq (values memory : Ranks) :
    i'.memoryRanks values memory = i.memoryRanks values memory := by
  by_cases hop : i.op.joinsInputs = true
  · have hnone : ∀ j : Instr, j.op.joinsInputs = true → j.memoryRanks values memory = memory := by
      intro j hj
      unfold memoryRanks
      split
      · next hstore _ _ =>
        rw [hstore] at hj
        cases hj
      · next hscrub _ =>
        rw [hscrub] at hj
        cases hj
      · rfl
    rw [hnone i hop, hnone i' (h.op ▸ hop)]
  · rw [memoryRanks, memoryRanks, h.op, h.location, h.inputs_eq (Bool.eq_false_iff.2 hop)]

end Instr.Reordered

/-- The instructions of a block leave the same memory behind. -/
theorem memoryAfter_reordered (values memory : Ranks) {is is' : List Instr}
    (h : List.Forall₂ Instr.Reordered is is') :
    memoryAfter values memory is' = memoryAfter values memory is := by
  induction h generalizing memory with
  | nil => rfl
  | cons hi _ ih =>
    rw [memoryAfter, memoryAfter, List.foldl_cons, List.foldl_cons, hi.memoryRanks_eq]
    exact ih _

/-! ## Equations

The equations at a block mention the block, its terminator and its predecessors. All of them
correspond, so an assignment bounds the one system exactly if it bounds the other. -/

/-- The end of a list and what is related to it. -/
theorem exists_concat_of_forall₂ {α β : Type} {R : α → β → Prop} {xs : List α} {ys : List β} {y : β}
    (h : List.Forall₂ R xs (ys ++ [y])) :
    ∃ xs' x, xs = xs' ++ [x] ∧ List.Forall₂ R xs' ys ∧ R x y := by
  rw [← List.forall₂_reverse_iff, List.reverse_concat, List.forall₂_cons_right_iff] at h
  obtain ⟨x, rest, hx, hrest, heq⟩ := h
  rw [List.reverse_eq_cons_iff] at heq
  exact ⟨rest.reverse, x, heq, List.forall₂_reverse_iff.1 (by rwa [List.reverse_reverse]), hx⟩

namespace Function.Reordered

variable {f f' : Function} (h : f.Reordered f') (hf : (f.blocks.map Block.id).Nodup)

include h hf

/-- The block that is found by a name is the same, reordered. -/
theorem rel_block? (name : String) :
    Option.Rel Block.Reordered (f.block? name) (f'.block? name) := by
  have hf' := h.names_perm.nodup_iff.2 hf
  cases hblock : f.block? name with
  | none =>
    cases hblock' : f'.block? name with
    | none => exact .none
    | some b' =>
      obtain ⟨hb', rfl⟩ := mem_of_block?_eq_some hblock'
      obtain ⟨b, hb, hsame⟩ := h.symm.exists_block hb'
      rw [← hsame.id, block?_id hf hb] at hblock
      cases hblock
  | some b =>
    obtain ⟨hb, rfl⟩ := mem_of_block?_eq_some hblock
    obtain ⟨b', hb', hsame⟩ := h.exists_block hb
    rw [← hsame.id, block?_id hf' hb']
    exact .some hsame

/-- The equations at the end of a block are the same. -/
theorem leaving_eq (a : Assignment) (name : String) : a.leaving f' name = a.leaving f name := by
  have hblock := h.rel_block? hf name
  unfold Assignment.leaving
  generalize f.block? name = b, f'.block? name = b' at hblock
  cases hblock with
  | none => rfl
  | some hsame => exact memoryAfter_reordered _ _ hsame.instrs

/-- Those at its entry join over the same predecessors, in another order. -/
theorem meeting_eq {g g' : FlowGraph} (hflow : g.SameFlow g') (hn : g.blocks.Nodup) (a : Assignment)
    (name : String) :
    a.meeting f' g' name = a.meeting f g name := by
  funext l
  refine Rank.joinAll_congr fun r => ?_
  simp only [List.mem_map, hflow.mem_preds_iff hn, h.leaving_eq hf]

end Function.Reordered

namespace Module.Reordered

variable {m m' : Module} (h : m.Reordered m')

include h

/-- The function that is found by a name is the same, reordered. -/
theorem rel_function? (name : String) :
    Option.Rel Function.Reordered (m.function? name) (m'.function? name) :=
  rel_find? (List.forall₂_reverse_iff.2 h.functions) fun f f' hf => by rw [hf.id]

/-- Functions declare what they did of returned values. -/
theorem returned?_eq (callee : Option String) : m'.returned? callee = m.returned? callee := by
  have hfound : ∀ name, (m'.function? name).bind Function.returns =
      (m.function? name).bind Function.returns := by
    intro name
    have hrel := h.rel_function? name
    generalize m.function? name = found, m'.function? name = found' at hrel
    cases hrel with
    | none => rfl
    | some hf => exact hf.returns
  cases callee with
  | none => rfl
  | some c => simp only [Module.returned?, hfound]

/-- Locations are not reordered. -/
theorem locationsFor_eq {f f' : Function} (hf : f.Reordered f') :
    m'.locationsFor f' = m.locationsFor f := by
  rw [locationsFor, locationsFor, h.locations, hf.locations]

/-- **The equations of a reordered function are bounded by the same ranks.** -/
theorem bounds {f f' : Function} (hf : f.Reordered f') (hblocks : (f.blocks.map Block.id).Nodup)
    {g g' : FlowGraph} (hflow : g.SameFlow g') (hn : g.blocks.Nodup) {a : Assignment}
    (ha : a.Bounds m f g) : a.Bounds m' f' g' := by
  refine ⟨fun p hp => ha.params p (hf.params ▸ hp), fun b' hb' before' i' hbefore v r hr => ?_,
    fun b' hb' => ?_⟩
  · obtain ⟨b, hb, hsame⟩ := hf.symm.exists_block hb'
    have htake := List.forall₂_take (before'.length + 1) hsame.symm.instrs
    have htaken : b'.instrs.take (before'.length + 1) = before' ++ [i'] := by
      rw [List.prefix_iff_eq_take.1 hbefore, List.length_append, List.length_singleton]
    rw [htaken] at htake
    obtain ⟨before, i, heq, hall, hi⟩ := exists_concat_of_forall₂ htake
    refine ha.outputs b hb before i (heq ▸ List.take_prefix _ _) v r ?_
    have hrank : i'.definedRank (Scope.ofFunction m' f') a.value (a.memoryAt b' before') =
        i.definedRank (Scope.ofFunction m f) a.value (a.memoryAt b' before') :=
      hi.definedRank_eq h.returned?_eq (h.locationsFor_eq hf) _ _
    rw [hr] at hrank
    rw [hrank, Assignment.memoryAt, Assignment.memoryAt, hsame.id, memoryAfter_reordered _ _ hall]
  · obtain ⟨b, hb, hsame⟩ := hf.symm.exists_block hb'
    rw [hf.meeting_eq hblocks hflow hn, ← hsame.id]
    exact ha.entries b hb

/-- **Values of a reordered function have the same ranks.** -/
theorem exists_taints (hm : m.WellFormed) {f f' : Function} (hf : f ∈ m.functions)
    (hf' : f' ∈ m'.functions) (hsame : f.Reordered f') {g g' : FlowGraph}
    (hg : FlowGraph.ofFunction f = .ok g) (hg' : FlowGraph.ofFunction f' = .ok g') {t t' : Taints}
    (ht : Taints.ofFunction m f g = .ok t) (ht' : Taints.ofFunction m' f' g' = .ok t') :
    t.values.Coherent ∧ t'.values.Coherent ∧ ∀ v, (t'.of v).rank = (t.of v).rank := by
  obtain ⟨_, _, hg₁, ht₁, hleast, -⟩ := Taints.exists_least hm hf
  cases hg.symm.trans hg₁
  cases ht.symm.trans ht₁
  obtain ⟨_, _, hg₁', ht₁', hleast', -⟩ := Taints.exists_least (h.wellFormed hm) hf'
  cases hg'.symm.trans hg₁'
  cases ht'.symm.trans ht₁'
  have hwf := hm.function f hf
  have hwf' := hsame.wellFormed hwf
  have hflow := hsame.sameFlow hwf hg hg'
  refine ⟨hleast.values, hleast'.values, fun v => ?_⟩
  cases v with
  | none => rfl
  | some v =>
    have hbounds :=
      h.bounds hsame hwf.blocks hflow (FlowGraph.nodes_nodup hg hwf.blocks) hleast.bounds
    have hbounds' :=
      h.symm.bounds hsame.symm hwf'.blocks hflow.symm (FlowGraph.nodes_nodup hg' hwf'.blocks)
        hleast'.bounds
    exact le_antisymm ((hleast'.least _ hbounds).1 v) ((hleast.least _ hbounds').1 v)

end Module.Reordered

/-! ## Regions

Regions are not compared as lists, since their order may differ. Whether a function has well-formed
regions is a property of its blocks and edges, and so is whether an instruction is covered. -/

namespace Function.Reordered

variable {f f' : Function} (h : f.Reordered f') {shared : List Location} (hf : f.WellFormed shared)
    {g g' : FlowGraph}
  (hg : FlowGraph.ofFunction f = .ok g) (hg' : FlowGraph.ofFunction f' = .ok g')

include h hf

/-- Markers stay with their blocks. -/
theorem closesRegion_eq (name : String) : f'.closesRegion name = f.closesRegion name := by
  have hblock := h.rel_block? hf.blocks name
  unfold closesRegion
  generalize f.block? name = b, f'.block? name = b' at hblock
  cases hblock with
  | none => rfl
  | some hsame => simp only [Option.map_some, hsame.endsRegion_eq]

include hg hg'

/-- A block that opens a region is reachable in both functions. -/
theorem opensRegion {name : String} (hopens : f.OpensRegion g name) : f'.OpensRegion g' name := by
  obtain ⟨b, hb, rfl, hstart, hreached⟩ := hopens
  obtain ⟨b', hb', hsame⟩ := h.exists_block hb
  exact ⟨b', hb', hsame.id, hsame.startsRegion_eq.trans hstart,
    (h.sameFlow hf hg hg').reached_iff.2 hreached⟩

theorem opensRegion_iff {name : String} : f'.OpensRegion g' name ↔ f.OpensRegion g name :=
  ⟨h.symm.opensRegion (h.wellFormed hf) hg' hg, h.opensRegion hf hg hg'⟩

/-- Regions grow to the same blocks. -/
theorem regionGraph_reaches_iff {a b : String} :
    (f'.regionGraph g').Reaches a b ↔ (f.regionGraph g).Reaches a b := by
  have hedges : (f.regionGraph g).SameEdges (f'.regionGraph g') := by
    intro a b
    rw [edge_regionGraph_iff, edge_regionGraph_iff, h.closesRegion_eq hf,
      ((h.sameFlow hf hg hg').succs a).mem_iff]
  exact hedges.reaches_iff

/-- **The regions of a reordered function fit** if those of the function do. -/
theorem regionsFit (hfit : f.RegionsFit g) : f'.RegionsFit g' := by
  have hflow := h.sameFlow hf hg hg'
  have hreaches : ∀ {a b}, (f'.regionGraph g').Reaches a b ↔ (f.regionGraph g).Reaches a b :=
    h.regionGraph_reaches_iff hf hg hg'
  have hopens : ∀ {name}, f'.OpensRegion g' name ↔ f.OpensRegion g name :=
    h.opensRegion_iff hf hg hg'
  refine ⟨fun b' hb' => ?_, fun entry hentry => ?_, fun b' hb' hends hreached => ?_⟩
  · obtain ⟨b, hb, hsame⟩ := h.symm.exists_block hb'
    exact hsame.symm.marked (hfit.marked b hb)
  · have hgrow := hfit.grown entry (hopens.1 hentry)
    refine ⟨fun b hb hopen => hgrow.flat b (hreaches.1 hb) (hopens.1 hopen),
      fun b hb hne p hp hreached => ?_, ?_⟩
    · rw [hflow.mem_preds_iff (FlowGraph.nodes_nodup hg hf.blocks)] at hp
      obtain ⟨hmem, hopen⟩ :=
        hgrow.entered b (hreaches.1 hb) hne p hp (hflow.reached_iff.1 hreached)
      exact ⟨hreaches.2 hmem, (h.closesRegion_eq hf p).trans hopen⟩
    · obtain ⟨b, hb, hmem, hleft⟩ := hgrow.left
      obtain ⟨b', hb', hsame⟩ := h.exists_block hb
      refine ⟨b', hb', ?_, ?_⟩
      · rw [hsame.id, hreaches]
        exact hmem
      · rw [hsame.endsRegion_eq, hsame.id, hflow.exits]
        exact hleft
  · obtain ⟨b, hb, hsame⟩ := h.symm.exists_block hb'
    rw [← hsame.endsRegion_eq] at hends
    rw [← hsame.id, hflow.reached_iff] at hreached
    obtain ⟨entry, hentry, hmem⟩ := hfit.closed b hb hends hreached
    refine ⟨entry, hopens.2 hentry, ?_⟩
    rw [← hsame.id, hreaches]
    exact hmem

/-- The same instructions are covered. -/
theorem covered_eq_true {regions regions' : List Region} (hregions : f.regions g = .ok regions)
    (hregions' : f'.regions g' = .ok regions') {p p' : Placed} (hp : p ∈ f.placed)
    (hp' : p' ∈ f'.placed) (hsame : p.Reordered p')
    (hcovered : covered regions p.block p.index = .ok true) :
    covered regions' p'.block p'.index = .ok true := by
  have hb := (mem_placed_iff.1 hp).1
  have hb' := (mem_placed_iff.1 hp').1
  rw [(hasRegions_of_regions hregions).covered_iff hf.blocks hb] at hcovered
  rw [(hasRegions_of_regions hregions').covered_iff (h.wellFormed hf).blocks hb']
  obtain ⟨⟨entry, hentry, hreaches⟩, hindex, hend⟩ := hcovered
  refine ⟨⟨entry, h.opensRegion hf hg hg' hentry, ?_⟩, ?_, ?_⟩
  · rw [hsame.block.id]
    exact (h.regionGraph_reaches_iff hf hg hg').2 hreaches
  · rw [hsame.block.positions_eq, hsame.index]
    exact hindex
  · rw [Block.isBehindEnd, hsame.block.positions_eq, hsame.index]
    exact hend

end Function.Reordered

/-- Regions are malformed in a reordered module if they are in the module. -/
theorem Module.Reordered.hasMalformedRegions {m m' : Module} (h : m.Reordered m')
    (hm : m.WellFormed) (hbad : m.HasMalformedRegions) : m'.HasMalformedRegions := by
  obtain ⟨f, hf, g, e, hg, he⟩ := hbad
  obtain ⟨f', hf', hsame⟩ := h.exists_function hf
  have hwf := hm.function f hf
  have hwf' := hsame.wellFormed hwf
  obtain ⟨g', hg'⟩ := FlowGraph.exists_ofFunction hwf'
  refine ⟨f', hf', g', ?_⟩
  cases hr : RegionMap.ofFunction f' g' with
  | ok r' =>
    -- accepted regions fit, and then so do those of the function
    have hfit' :=
      (Function.exists_regions_iff hg' hwf'.blocks).1 ⟨_, (RegionMap.ofFunction_eq_ok hr).1⟩
    obtain ⟨regions, hregions⟩ :=
      (Function.exists_regions_iff hg hwf.blocks).2 (hsame.symm.regionsFit hwf' hg' hg hfit')
    rw [RegionMap.ofFunction, hregions] at he
    dsimp only at he
    split at he <;> cases he
  | error e' =>
    cases e' with
    | fault e' => exact absurd hr (RegionMap.ofFunction_ne_fault hwf'.blocks e')
    | malformed e' => exact ⟨e', hg', rfl⟩

end ConstantTime
