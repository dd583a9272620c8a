/-
Modules that list the same in another order.

What a branch may lead to, what an indirect call may reach and what a computation joins are lists
whose order means nothing, and neither does the order of the blocks of a function, if control never
just falls from one into the next. A module is reordered by permuting these lists, with the entry
of a function kept first. The relation is symmetric, so what is shown of the reordered module holds
of the module too.

Main statements: a reordered module is well formed if the module is, and its functions have the
same flow.
-/
import Mathlib.Data.List.Perm.Basic
import ConstantTime.Proofs.Annotations
import ConstantTime.Proofs.DefinitionOrder
import ConstantTime.Proofs.FindingPlaces
import ConstantTime.Proofs.LiveCalls
import ConstantTime.Proofs.Regions
import ConstantTime.Proofs.SameFlow

set_option autoImplicit false

namespace ConstantTime

/-! ## Reordering

One relation for each level, from instructions to modules. An instruction may permute its targets
if it chooses one of them, and its inputs if it joins them; a function may permute its blocks if
none falls through. -/

/-- Instructions whose targets are alternatives. -/
def Opcode.choosesTarget : Opcode → Bool
  | .branch | .indirectBranch | .indirectCall => true
  | _ => false

/-- Instructions that join all their inputs. -/
def Opcode.joinsInputs : Opcode → Bool
  | .compute | .phi => true
  | _ => false

/-- The same instruction, with alternative targets and joined inputs in any order. -/
structure Instr.Reordered (i i' : Instr) : Prop where
  op : i'.op = i.op
  output : i'.output = i.output
  location : i'.location = i.location
  callee : i'.callee = i.callee
  inputs : i'.inputs.Perm i.inputs
  inputs_eq : i.op.joinsInputs = false → i'.inputs = i.inputs
  targets : i'.targets.Perm i.targets
  targets_eq : i.op.choosesTarget = false → i'.targets = i.targets

/-- The same block, with its instructions reordered one by one. -/
structure Block.Reordered (b b' : Block) : Prop where
  id : b'.id = b.id
  instrs : List.Forall₂ Instr.Reordered b.instrs b'.instrs

/-- Control falls from the block into the next one. -/
def Block.FallsThrough (b : Block) : Prop := ∃ t, b.terminator? = some t ∧ t.op = .fallthrough

/-- The same function, with its blocks reordered one by one. Where no block falls through to the
next, the blocks behind the first may be listed in any order. -/
structure Function.Reordered (f f' : Function) : Prop where
  id : f'.id = f.id
  params : f'.params = f.params
  returns : f'.returns = f.returns
  locations : f'.locations = f.locations
  blocks : ∃ blocks, List.Forall₂ Block.Reordered f.blocks blocks ∧ (f'.blocks = blocks ∨
    (∀ b ∈ f.blocks, ¬ b.FallsThrough) ∧ f'.blocks.head? = blocks.head? ∧
      f'.blocks.tail.Perm blocks.tail)

/-- The same module, with its functions reordered one by one. -/
structure Module.Reordered (m m' : Module) : Prop where
  name : m'.name = m.name
  functions : List.Forall₂ Function.Reordered m.functions m'.functions
  locations : m'.locations = m.locations

/-! ## Instructions and blocks

What the checks read off an instruction or a block is the same, or the same up to order. -/

/-- Related lists have related items at each index. -/
theorem exists_getElem?_of_forall₂ {α β : Type} {R : α → β → Prop} {xs : List α} {ys : List β}
    (h : List.Forall₂ R xs ys) {k : Nat} {x : α} (hx : xs[k]? = some x) :
    ∃ y, ys[k]? = some y ∧ R x y := by
  obtain ⟨hk, rfl⟩ := List.getElem?_eq_some_iff.1 hx
  have hk' : k < ys.length := h.length_eq ▸ hk
  exact ⟨ys[k], List.getElem?_eq_getElem hk', h.get hk hk'⟩

namespace Instr.Reordered

variable {i i' : Instr} (h : i.Reordered i')

include h

theorem symm : i'.Reordered i where
  op := h.op.symm
  output := h.output.symm
  location := h.location.symm
  callee := h.callee.symm
  inputs := h.inputs.symm
  inputs_eq hop := (h.inputs_eq (h.op ▸ hop)).symm
  targets := h.targets.symm
  targets_eq hop := (h.targets_eq (h.op ▸ hop)).symm

/-- The targets that differ are the same up to order. -/
theorem distinctTargets : i'.distinctTargets.Perm i.distinctTargets := by
  rw [Instr.distinctTargets, Instr.distinctTargets,
    List.perm_ext_iff_of_nodup (nodup_distinct _) (nodup_distinct _)]
  intro t
  rw [mem_distinct, mem_distinct, h.targets.mem_iff]

/-- An indirect call may reach the same functions, in whatever order they are listed. -/
theorem mayCall {c : String} (hc : i.MayCall c) : i'.MayCall c := by
  rcases hc with ⟨hop, hcallee⟩ | ⟨hop, htarget⟩
  · exact .inl ⟨h.op.trans hop, h.callee.trans hcallee⟩
  · exact .inr ⟨h.op.trans hop, h.targets.mem_iff.2 htarget⟩

/-- The operands are there and refer to what exists, if the same names do. -/
theorem operands {s s' : Instr.Names} (hvalues : ∀ v, v ∈ s.values → v ∈ s'.values)
    (hblocks : ∀ b, b ∈ s.blocks → b ∈ s'.blocks) (hlocations : s'.locations = s.locations)
    (hi : i.Operands s) :
    i'.Operands s' where
  output hop := by
    rw [h.output]
    exact hi.output (h.op ▸ hop)
  input hop hnil := hi.input (h.op ▸ hop) (List.nil_perm.1 (hnil ▸ h.inputs))
  defined v hv := hvalues v (hi.defined v (h.inputs.mem_iff.1 hv))
  self v hv hout := h.op.trans (hi.self v (h.inputs.mem_iff.1 hv) (h.output ▸ hout))
  location hop := by
    rw [h.location]
    exact hi.location (h.op ▸ hop)
  known l hl := by
    rw [hlocations]
    exact hi.known l (h.location ▸ hl)
  callee hop := by
    rw [h.callee]
    exact hi.callee (h.op ▸ hop)
  branch hop := by
    rw [h.targets.length_eq]
    exact hi.branch (h.op ▸ hop)
  jump hop := by
    rw [h.targets.length_eq]
    exact hi.jump (h.op ▸ hop)
  targets hop t ht := hblocks t (hi.targets (h.op ▸ hop) t (h.targets.mem_iff.1 ht))

end Instr.Reordered

namespace Block.Reordered

variable {b b' : Block} (h : b.Reordered b')

include h

theorem symm : b'.Reordered b := ⟨h.id.symm, h.instrs.flip.imp fun _ _ => Instr.Reordered.symm⟩

theorem length_eq : b'.instrs.length = b.instrs.length := h.instrs.length_eq.symm

/-- Every instruction has its counterpart. -/
theorem exists_instr {i : Instr} (hi : i ∈ b.instrs) : ∃ i' ∈ b'.instrs, i.Reordered i' :=
  exists_of_mem_of_forall₂ h.instrs hi

/-- The terminators correspond to each other. -/
theorem exists_terminator {t : Instr} (ht : b.terminator? = some t) :
    ∃ t', b'.terminator? = some t' ∧ t.Reordered t' := by
  obtain ⟨hlast, hop⟩ := terminator?_eq_some_iff.1 ht
  rw [List.getLast?_eq_getElem?] at hlast
  obtain ⟨t', ht', hsame⟩ := exists_getElem?_of_forall₂ h.instrs hlast
  rw [← h.length_eq, ← List.getLast?_eq_getElem?] at ht'
  exact ⟨t', terminator?_eq_some_iff.2 ⟨ht', hsame.op ▸ hop⟩, hsame⟩

/-- A block falls through if its counterpart does. -/
theorem fallsThrough (hb : b.FallsThrough) : b'.FallsThrough := by
  obtain ⟨t, ht, hop⟩ := hb
  obtain ⟨t', ht', hsame⟩ := h.exists_terminator ht
  exact ⟨t', ht', hsame.op.trans hop⟩

/-- And it ends the function if its counterpart does. -/
theorem leavesAt (hb : Function.leavesAt b = true) : Function.leavesAt b' = true := by
  unfold Function.leavesAt at hb
  split at hb
  · next t ht =>
    obtain ⟨t', ht', hsame⟩ := h.exists_terminator ht
    rw [Function.leavesAt, ht']
    simpa only [hsame.op, hsame.targets.isEmpty_eq] using hb
  · cases hb

/-- A block defines the same values in the same order. -/
theorem outputs_eq : b'.instrs.filterMap Instr.output = b.instrs.filterMap Instr.output := by
  obtain ⟨-, hall⟩ := h
  generalize b.instrs = is, b'.instrs = is' at hall
  induction hall with
  | nil => rfl
  | cons hi _ ih => rw [List.filterMap_cons, List.filterMap_cons, hi.output, ih]

/-- Instructions of a kind stand where they did. -/
theorem positions_eq (op : Opcode) : b'.positions op = b.positions op := by
  obtain ⟨-, hall⟩ := h
  rw [positions, positions]
  generalize 0 = k
  generalize b.instrs = is, b'.instrs = is' at hall
  induction hall generalizing k with
  | nil => rfl
  | cons hi _ ih =>
    rw [List.zipIdx_cons, List.zipIdx_cons, List.filter_cons, List.filter_cons, hi.op]
    split
    · rw [List.map_cons, List.map_cons, ih]
    · exact ih _

theorem startsRegion_eq : b'.startsRegion = b.startsRegion := by
  rw [Bool.eq_iff_iff, startsRegion, startsRegion, any_op_iff, any_op_iff, h.positions_eq]

theorem endsRegion_eq : b'.endsRegion = b.endsRegion := by
  rw [Bool.eq_iff_iff, endsRegion, endsRegion, any_op_iff, any_op_iff, h.positions_eq]

/-- Markers of regions stay where they are. -/
theorem marked (hb : b.Marked) : b'.Marked := by
  constructor
  · rw [h.positions_eq]
    exact hb.start_unique
  · rw [h.positions_eq]
    exact hb.end_unique
  · rw [h.positions_eq, h.positions_eq]
    exact hb.start_lt_end

/-- A block of the right shape keeps it, at the end of the list of blocks too if it does not fall
through. -/
theorem shaped {s s' : Instr.Names} {isLast isLast' : Bool}
    (hvalues : ∀ v, v ∈ s.values → v ∈ s'.values) (hblocks : ∀ b, b ∈ s.blocks → b ∈ s'.blocks)
    (hlocations : s'.locations = s.locations) (hlast : isLast' = isLast ∨ ¬ b.FallsThrough)
    (hb : b.Shaped s isLast) : b'.Shaped s' isLast' where
  terminated := by
    obtain ⟨t, ht, hthrough⟩ := hb.terminated
    obtain ⟨t', ht', hsame⟩ := h.exists_terminator ht
    refine ⟨t', ht', fun hop => ?_⟩
    rw [hsame.op] at hop
    rcases hlast with rfl | hnot
    · exact hthrough hop
    · exact absurd ⟨t, ht, hop⟩ hnot
  early := by
    rintro ⟨i', k⟩ hmem hop
    obtain ⟨i, hi, hsame⟩ :=
      exists_getElem?_of_forall₂ h.symm.instrs (List.mem_zipIdx_iff_getElem?.1 hmem)
    rw [h.length_eq]
    exact hb.early (i, k) (List.mem_zipIdx_iff_getElem?.2 hi) (hsame.op ▸ hop)
  operands := by
    intro i' hi'
    obtain ⟨i, hi, hsame⟩ := h.symm.exists_instr hi'
    exact hsame.symm.operands hvalues hblocks hlocations (hb.operands i hi)

end Block.Reordered

/-! ## Functions

Blocks are found by name, so it does not matter where in the list they stand. Only the first one is
special. -/

/-- An instruction and the reordered one at the same place. -/
structure Placed.Reordered (p p' : Placed) : Prop where
  block : p.block.Reordered p'.block
  index : p'.index = p.index
  instr : p.instr.Reordered p'.instr

/-- A reordered instruction keeps its place, which is given by the name of its block. -/
theorem Placed.Reordered.place_eq {p p' : Placed} (h : p.Reordered p') : p'.place = p.place := by
  rw [place, place, h.block.id, h.index]

namespace Function.Reordered

variable {f f' : Function} (h : f.Reordered f')

include h

/-- Both cases of the relation in one: the blocks correspond to each other up to order. -/
theorem exists_perm :
    ∃ blocks, List.Forall₂ Block.Reordered f.blocks blocks ∧ f'.blocks.Perm blocks := by
  obtain ⟨blocks, hall, rfl | ⟨-, hhead, htail⟩⟩ := h.blocks
  · exact ⟨_, hall, .refl _⟩
  · refine ⟨blocks, hall, ?_⟩
    cases hblocks : f'.blocks with
    | nil =>
      rw [hblocks, List.head?_nil] at hhead
      rw [List.head?_eq_none_iff.1 hhead.symm]
    | cons first rest =>
      rw [hblocks, List.head?_cons] at hhead
      rw [hblocks, List.tail_cons] at htail
      rw [← List.cons_head?_tail (Option.mem_def.2 hhead.symm)]
      exact htail.cons first

/-- Every block has its counterpart. -/
theorem exists_block {b : Block} (hb : b ∈ f.blocks) : ∃ b' ∈ f'.blocks, b.Reordered b' := by
  obtain ⟨blocks, hall, hperm⟩ := h.exists_perm
  obtain ⟨b', hb', hsame⟩ := exists_of_mem_of_forall₂ hall hb
  exact ⟨b', hperm.mem_iff.2 hb', hsame⟩

omit h in
/-- Blocks that correspond have the same names. -/
theorem map_id_eq {blocks blocks' : List Block}
    (hall : List.Forall₂ Block.Reordered blocks blocks') :
    blocks'.map Block.id = blocks.map Block.id :=
  map_eq_map_of_forall₂ hall fun _ _ hb => hb.id

/-- So the functions have the same names of blocks. -/
theorem names_perm : (f'.blocks.map Block.id).Perm (f.blocks.map Block.id) := by
  obtain ⟨blocks, hall, hperm⟩ := h.exists_perm
  rw [← map_id_eq hall]
  exact hperm.map Block.id

/-- The entry is the same. -/
theorem head?_id_eq : f'.blocks.head?.map Block.id = f.blocks.head?.map Block.id := by
  obtain ⟨blocks, hall, hsame⟩ := h.blocks
  have hhead : f'.blocks.head? = blocks.head? := by
    rcases hsame with rfl | ⟨-, hhead, -⟩
    · rfl
    · exact hhead
  rw [hhead, ← List.head?_map, map_id_eq hall, List.head?_map]

/-- Where a block falls through, the blocks are listed in the same order. -/
theorem names_eq {b : Block} (hb : b ∈ f.blocks) (hthrough : b.FallsThrough) :
    f'.blocks.map Block.id = f.blocks.map Block.id := by
  obtain ⟨blocks, hall, rfl | ⟨hnot, -⟩⟩ := h.blocks
  · exact map_id_eq hall
  · exact absurd hthrough (hnot b hb)

theorem symm : f'.Reordered f := by
  refine ⟨h.id.symm, h.params.symm, h.returns.symm, h.locations.symm, ?_⟩
  obtain ⟨blocks, hall, hsame⟩ := h.blocks
  have hflip : List.Forall₂ Block.Reordered blocks f.blocks :=
    hall.flip.imp fun _ _ => Block.Reordered.symm
  rcases hsame with rfl | ⟨hnot, hhead, htail⟩
  · exact ⟨f.blocks, hflip, .inl rfl⟩
  · have hnot' : ∀ b' ∈ f'.blocks, ¬ b'.FallsThrough := by
      intro b' hb' hthrough
      obtain ⟨blocks, hall, hperm⟩ := h.exists_perm
      obtain ⟨b, hb, hsame⟩ := exists_of_mem_of_forall₂ hall.flip (hperm.mem_iff.1 hb')
      exact hnot b hb (hsame.symm.fallsThrough hthrough)
    cases hblocks : f'.blocks with
    | nil =>
      rw [hblocks, List.head?_nil] at hhead
      rw [List.head?_eq_none_iff.1 hhead.symm] at hflip
      exact ⟨[], .nil, .inl (List.forall₂_nil_left_iff.1 hflip)⟩
    | cons first rest' =>
      rw [hblocks, List.head?_cons] at hhead
      rw [hblocks, List.tail_cons] at htail
      rw [← List.cons_head?_tail (Option.mem_def.2 hhead.symm)] at hflip
      -- what stands behind the first block is permuted first and reordered one by one then
      obtain ⟨first₀, rest₀, hfirst, hrest, hcons⟩ := List.forall₂_cons_left_iff.1 hflip
      obtain ⟨rest, hreordered, hperm⟩ := List.perm_comp_forall₂ htail hrest
      refine ⟨first₀ :: rest, .cons hfirst hreordered, .inr ⟨hblocks ▸ hnot', ?_, ?_⟩⟩
      · rw [hcons]
        rfl
      · rw [hcons]
        exact hperm.symm

/-- Every placed instruction has its counterpart, at the same place. -/
theorem exists_placed {p : Placed} (hp : p ∈ f.placed) : ∃ p' ∈ f'.placed, p.Reordered p' := by
  obtain ⟨hb, hi⟩ := mem_placed_iff.1 hp
  obtain ⟨b', hb', hblock⟩ := h.exists_block hb
  obtain ⟨i', hi', hinstr⟩ := exists_getElem?_of_forall₂ hblock.instrs hi
  exact ⟨⟨b', p.index, i'⟩, mem_placed_iff.2 ⟨hb', hi'⟩, hblock, rfl, hinstr⟩

omit h in
/-- The outputs of a function, block by block. -/
theorem outputs_eq_flatMap (f : Function) :
    f.outputs.map Prod.fst = f.blocks.flatMap fun b => b.instrs.filterMap Instr.output := by
  rw [map_fst_outputs, placed, List.filterMap_flatMap]
  congr 1
  funext b
  have hfst : b.instrs.filterMap Instr.output =
      (b.instrs.zipIdx.map Prod.fst).filterMap Instr.output := by
    rw [List.zipIdx_map_fst]
  rw [List.filterMap_map, hfst, List.filterMap_map]
  rfl

/-- The same values are defined. -/
theorem definedValues_perm : f'.definedValues.Perm f.definedValues := by
  obtain ⟨blocks, hall, hperm⟩ := h.exists_perm
  have hvalues : blocks.flatMap (fun b => b.instrs.filterMap Instr.output) =
      f.blocks.flatMap fun b => b.instrs.filterMap Instr.output := by
    rw [List.flatMap_def, List.flatMap_def]
    congr 1
    exact map_eq_map_of_forall₂ hall fun _ _ hb => hb.outputs_eq
  rw [definedValues, definedValues, h.params, outputs_eq_flatMap, outputs_eq_flatMap, ← hvalues]
  exact (hperm.flatMap_right _).append_left _

/-- The checks of form ask about names as sets, so they pass for both functions. -/
theorem wellFormed {shared : List Location} (hf : f.WellFormed shared) : f'.WellFormed shared where
  nonempty := by
    intro hnil
    have hperm := h.names_perm
    rw [hnil, List.map_nil, List.nil_perm, List.map_eq_nil_iff] at hperm
    exact hf.nonempty hperm
  blocks := h.names_perm.nodup_iff.2 hf.blocks
  locations := h.locations ▸ hf.locations
  values := h.definedValues_perm.nodup_iff.2 hf.values
  shaped := by
    have hvalues : ∀ v, v ∈ (f.names shared).values → v ∈ (f'.names shared).values :=
      fun v => h.definedValues_perm.mem_iff.2
    have hblocks : ∀ b, b ∈ (f.names shared).blocks → b ∈ (f'.names shared).blocks :=
      fun b => h.names_perm.mem_iff.2
    have hlocations : (f'.names shared).locations = (f.names shared).locations := by
      rw [names, names, h.locations]
    rintro ⟨b', k⟩ hmem
    obtain ⟨blocks, hall, rfl | ⟨hnot, -⟩⟩ := h.blocks
    · obtain ⟨b, hb, hsame⟩ :=
        exists_getElem?_of_forall₂ hall.flip (List.mem_zipIdx_iff_getElem?.1 hmem)
      refine hsame.shaped hvalues hblocks hlocations (.inl ?_)
        (hf.shaped (b, k) (List.mem_zipIdx_iff_getElem?.2 hb))
      rw [hall.length_eq]
    · obtain ⟨b, hb, hsame⟩ :=
        h.symm.exists_block (List.mem_of_getElem? (List.mem_zipIdx_iff_getElem?.1 hmem))
      obtain ⟨isLast, hshaped⟩ := hf.shaped_of_mem hb
      exact hsame.symm.shaped hvalues hblocks hlocations (.inr (hnot b hb)) hshaped

/-! ### Flow

Where blocks may be permuted, no block falls through; where one does, the blocks stand in the same
order. In both cases the successors are the same up to order. -/

omit h in
/-- The name of the next block depends on the list of names only. -/
theorem map_id_nextBlock? (f : Function) (name : String) :
    (f.nextBlock? name).map Block.id =
      ((f.blocks.map Block.id).findIdx? fun n => n == name).bind fun i =>
        (f.blocks.map Block.id)[i + 1]? := by
  rw [nextBlock?, blockIndex?, Option.map_bind, List.findIdx?_map]
  congr 1
  funext i
  exact List.getElem?_map.symm

/-- Control goes from a block to the same blocks as before. -/
theorem successors_perm {shared : List Location} (hf : f.WellFormed shared) {b b' : Block}
    (hb : b ∈ f.blocks) (hb' : b' ∈ f'.blocks) (hsame : b.Reordered b') {ss ss' : List String}
    (hss : f.successors b.id = .ok ss) (hss' : f'.successors b'.id = .ok ss') : ss'.Perm ss := by
  obtain ⟨t, ht⟩ := hf.exists_terminator hb
  obtain ⟨t', ht', hlast⟩ := hsame.exists_terminator ht
  simp only [successors, block?_id hf.blocks hb, ht] at hss
  simp only [successors, block?_id (h.wellFormed hf).blocks hb', ht', hlast.op] at hss'
  by_cases htargets : t.op.targetsBlocks = true
  · rw [if_pos htargets] at hss hss'
    cases hss
    cases hss'
    exact hlast.distinctTargets
  · rw [if_neg htargets] at hss hss'
    by_cases hthrough : t.op = .fallthrough
    · -- a function with a block that falls through keeps the order of its blocks
      rw [if_pos hthrough] at hss hss'
      have hnext : (f'.nextBlock? b'.id).map Block.id = (f.nextBlock? b.id).map Block.id := by
        rw [map_id_nextBlock?, map_id_nextBlock?, h.names_eq hb ⟨t, ht, hthrough⟩, hsame.id]
      split at hss
      · next next hsome =>
        split at hss'
        · next next' hsome' =>
          rw [hsome, hsome', Option.map_some, Option.map_some, Option.some.injEq] at hnext
          cases hss
          cases hss'
          rw [hnext]
        · cases hss'
      · cases hss
    · rw [if_neg hthrough] at hss hss'
      cases hss
      cases hss'
      exact .refl _

omit h in
/-- Nothing follows a name that is no block. -/
theorem succs_eq_nil {g : FlowGraph} {b : String} (hb : b ∉ g.blocks) : g.succs b = [] := by
  by_contra hne
  obtain ⟨c, hc⟩ := List.exists_mem_of_ne_nil _ hne
  exact hb (Digraph.Edge.mem_nodes hc)

/-- **A reordered function has the same flow.** -/
theorem sameFlow {shared : List Location} (hf : f.WellFormed shared) {g g' : FlowGraph}
    (hg : FlowGraph.ofFunction f = .ok g) (hg' : FlowGraph.ofFunction f' = .ok g') :
    g.SameFlow g' := by
  have hf' := h.wellFormed hf
  have hblocks : g'.blocks.Perm g.blocks := by
    rw [FlowGraph.blocks_eq hg, FlowGraph.blocks_eq hg']
    exact h.names_perm
  refine ⟨?_, hblocks, fun name => ?_, fun name => ?_⟩
  · have hhead := h.head?_id_eq
    obtain ⟨⟨first, rest, hfirst, hentry⟩, -⟩ := FlowGraph.ofFunction_eq_ok hg
    obtain ⟨⟨first', rest', hfirst', hentry'⟩, -⟩ := FlowGraph.ofFunction_eq_ok hg'
    rw [hfirst, hfirst'] at hhead
    rw [hentry, hentry']
    exact Option.some.inj hhead
  · by_cases hname : name ∈ g.blocks
    · rw [FlowGraph.blocks_eq hg] at hname
      obtain ⟨b, hb, rfl⟩ := List.mem_map.1 hname
      obtain ⟨b', hb', hsame⟩ := h.exists_block hb
      have hsuccs := h.successors_perm hf hb hb' hsame (FlowGraph.successors_eq hg hf.blocks hb)
        (FlowGraph.successors_eq hg' hf'.blocks hb')
      rw [hsame.id] at hsuccs
      exact hsuccs
    · rw [succs_eq_nil hname, succs_eq_nil (mt hblocks.mem_iff.1 hname)]
  · rw [FlowGraph.mem_exits_iff hg hf.blocks, FlowGraph.mem_exits_iff hg' hf'.blocks]
    constructor
    · rintro ⟨b', hb', rfl, hleaves⟩
      obtain ⟨b, hb, hsame⟩ := h.symm.exists_block hb'
      exact ⟨b, hb, hsame.id, hsame.leavesAt hleaves⟩
    · rintro ⟨b, hb, rfl, hleaves⟩
      obtain ⟨b', hb', hsame⟩ := h.exists_block hb
      exact ⟨b', hb', hsame.id, hsame.leavesAt hleaves⟩

/-- Every definition still precedes the uses of its value. -/
theorem orderViolation?_eq_none {shared : List Location} (hf : f.WellFormed shared)
    {g g' : FlowGraph} (hg : FlowGraph.ofFunction f = .ok g)
    (hg' : FlowGraph.ofFunction f' = .ok g') (horder : f.orderViolation? g = none) :
    f'.orderViolation? g' = none := by
  have hflow := h.sameFlow hf hg hg'
  rw [orderViolation?_eq_none_iff hf hg] at horder
  rw [orderViolation?_eq_none_iff (h.wellFormed hf) hg']
  intro p' hp' hphi v hv q' hq' hdefines
  obtain ⟨p, hp, hsame⟩ := h.symm.exists_placed hp'
  obtain ⟨q, hq, hsame'⟩ := h.symm.exists_placed hq'
  have hprecedes := horder p hp (hsame.instr.op ▸ hphi) v (hsame.instr.inputs.mem_iff.2 hv) q hq
    (hsame'.instr.output.trans hdefines)
  constructor
  · rw [← hsame.block.id, ← hsame'.block.id, ← hsame.index, ← hsame'.index]
    exact hprecedes.within
  · rw [← hsame.block.id, ← hsame'.block.id, hflow.reached_iff, hflow.dominates_iff]
    exact hprecedes.across

end Function.Reordered

/-! ## Modules

The relation of functions, in the order in which the module lists them. -/

namespace Module.Reordered

variable {m m' : Module} (h : m.Reordered m')

include h

theorem symm : m'.Reordered m :=
  ⟨h.name.symm, h.functions.flip.imp fun _ _ => Function.Reordered.symm, h.locations.symm⟩

/-- Every function has its counterpart. -/
theorem exists_function {f : Function} (hf : f ∈ m.functions) :
    ∃ f' ∈ m'.functions, f.Reordered f' :=
  exists_of_mem_of_forall₂ h.functions hf

/-- Functions keep their names and their order. -/
theorem ids_eq : m'.functions.map Function.id = m.functions.map Function.id :=
  map_eq_map_of_forall₂ h.functions fun _ _ hf => hf.id

/-- **A reordered module is well formed.** -/
theorem wellFormed (hm : m.WellFormed) : m'.WellFormed where
  functions := h.ids_eq ▸ hm.functions
  locations := h.locations ▸ hm.locations
  apart f' hf' l hl := by
    obtain ⟨f, hf, hsame⟩ := h.symm.exists_function hf'
    rw [h.locations]
    exact hm.apart f hf l (hsame.locations ▸ hl)
  function f' hf' := by
    obtain ⟨f, hf, hsame⟩ := h.symm.exists_function hf'
    rw [h.locations]
    exact hsame.symm.wellFormed (hm.function f hf)
  flow f' hf' := by
    obtain ⟨f, hf, hsame⟩ := h.symm.exists_function hf'
    have hwf := hm.function f hf
    obtain ⟨g, hg, horder⟩ := hm.flow f hf
    obtain ⟨g', hg'⟩ := FlowGraph.exists_ofFunction (hsame.symm.wellFormed hwf)
    exact ⟨g', hg', hsame.symm.orderViolation?_eq_none hwf hg hg' horder⟩

end Module.Reordered

end ConstantTime
