/-
Functions with other names for their blocks.

The names of blocks stand at the blocks and in the targets of branches. An injective renaming
changes neither the order of the blocks nor what their instructions do, so the flow graph of the
renamed function is the flow graph, renamed, and a function that passes the checks still passes
them. Post-dominance needs more: the virtual exit has a name of its own, which the renaming must
keep.
-/
import ConstantTime.Flow.Loops
import ConstantTime.Proofs.Flow
import ConstantTime.Proofs.RenamedGraphs
import ConstantTime.Proofs.WellFormed

set_option autoImplicit false

namespace ConstantTime

/-! ## Instructions and blocks

Only branches and jumps name blocks. Everything else that an instruction holds is kept, and simp
may look through the renaming. -/

namespace Instr

/-- An instruction with other names for the blocks that it leads to. -/
def rename (σ : String → String) (i : Instr) : Instr :=
  { i with targets := if i.op.targetsBlocks then i.targets.map σ else i.targets }

variable (σ : String → String) (i : Instr)

@[simp] theorem op_rename : (i.rename σ).op = i.op := rfl

@[simp] theorem inputs_rename : (i.rename σ).inputs = i.inputs := rfl

@[simp] theorem output_rename : (i.rename σ).output = i.output := rfl

@[simp] theorem location_rename : (i.rename σ).location = i.location := rfl

@[simp] theorem callee_rename : (i.rename σ).callee = i.callee := rfl

@[simp] theorem condition_rename : (i.rename σ).condition = i.condition := rfl

@[simp] theorem indirectTarget_rename : (i.rename σ).indirectTarget = i.indirectTarget := rfl

@[simp] theorem arguments_rename : (i.rename σ).arguments = i.arguments := rfl

/-- A branch or jump leads to the renamed blocks. -/
theorem targets_rename_of_targetsBlocks {σ : String → String} {i : Instr}
    (h : i.op.targetsBlocks = true) :
    (i.rename σ).targets = i.targets.map σ := if_pos h

/-- Other instructions stay as they are. -/
theorem rename_eq_self {σ : String → String} {i : Instr} (h : i.op.targetsBlocks = false) :
    i.rename σ = i := by
  rw [rename, h, if_neg Bool.false_ne_true]

/-- Arities are kept, which is what the checks of operands count. -/
@[simp] theorem length_targets_rename : (i.rename σ).targets.length = i.targets.length := by
  rw [rename]
  split
  · exact List.length_map _
  · rfl

theorem targets_rename_eq_nil_iff : (i.rename σ).targets = [] ↔ i.targets = [] := by
  rw [← List.length_eq_zero_iff, length_targets_rename, List.length_eq_zero_iff]

/-- Targets that differ still differ under an injective renaming, so none is lost. -/
theorem distinctTargets_rename {σ : String → String} (hσ : Function.Injective σ) (i : Instr) :
    (i.rename σ).distinctTargets = if i.op.targetsBlocks then i.distinctTargets.map σ
      else i.distinctTargets := by
  rw [distinctTargets, rename]
  split
  · exact distinct_map hσ i.targets
  · rfl

/-- A branch decides between as many blocks as before. -/
theorem length_distinctTargets_rename {σ : String → String} (hσ : Function.Injective σ)
    (i : Instr) :
    (i.rename σ).distinctTargets.length = i.distinctTargets.length := by
  rw [distinctTargets_rename hσ]
  split
  · exact List.length_map _
  · rfl

end Instr

namespace Block

/-- A block with another name, and with other names for the blocks that it leads to. -/
def rename (σ : String → String) (b : Block) : Block := ⟨σ b.id, b.instrs.map (Instr.rename σ)⟩

variable (σ : String → String) (b : Block)

@[simp] theorem id_rename : (b.rename σ).id = σ b.id := rfl

@[simp] theorem length_instrs_rename :
    (b.rename σ).instrs.length = b.instrs.length := List.length_map _

/-- Whether an instruction ends its block is up to its opcode. -/
theorem terminator?_rename : (b.rename σ).terminator? = b.terminator?.map (Instr.rename σ) := by
  rw [terminator?, rename, List.getLast?_map, terminator?]
  cases b.instrs.getLast? with
  | none => rfl
  | some i =>
    by_cases h : i.op.isTerminator = true
    · simp only [Option.map_some, Instr.op_rename, h, if_true]
    · simp only [Option.map_some, Instr.op_rename, h, if_false, Bool.false_eq_true, Option.map_none]

/-- Instructions stay where they are in their block. -/
@[simp] theorem positions_rename (op : Opcode) : (b.rename σ).positions op = b.positions op := by
  rw [positions, rename, List.zipIdx_map, List.filter_map, List.map_map, positions]
  rfl

@[simp] theorem startsRegion_rename : (b.rename σ).startsRegion = b.startsRegion := by
  rw [startsRegion, rename, List.any_map]
  rfl

@[simp] theorem endsRegion_rename : (b.rename σ).endsRegion = b.endsRegion := by
  rw [endsRegion, rename, List.any_map]
  rfl

/-- A block ends the function under any names: it has no targets, whatever they are called. -/
theorem leavesAt_rename : Function.leavesAt (b.rename σ) = Function.leavesAt b := by
  rw [Function.leavesAt, terminator?_rename, Function.leavesAt]
  cases b.terminator? with
  | none => rfl
  | some t =>
    have hempty : (t.rename σ).targets.isEmpty = t.targets.isEmpty := by
      rw [Bool.eq_iff_iff, List.isEmpty_iff, List.isEmpty_iff, Instr.targets_rename_eq_nil_iff]
    simp only [Option.map_some, Instr.op_rename, hempty]
    rfl

end Block

/-- A place with other names for the blocks. -/
def Placed.rename (σ : String → String) (p : Placed) : Placed :=
  ⟨p.block.rename σ, p.index, p.instr.rename σ⟩

/-! ## Functions

The renamed function has the same parameters, values and locations, and its blocks in the same
order. So the block that follows another one is the same as well, and control falls through to it
as before. -/

namespace Function

/-- A function with other names for its blocks. -/
def rename (σ : String → String) (f : Function) : Function :=
  { f with blocks := f.blocks.map (Block.rename σ) }

variable {σ : String → String} {f : Function}

@[simp] theorem id_rename : (f.rename σ).id = f.id := rfl

/-- The names of the renamed blocks, in the old order. -/
theorem map_id_blocks_rename :
    (f.rename σ).blocks.map Block.id = (f.blocks.map Block.id).map σ := by
  rw [rename, List.map_map, List.map_map]
  rfl

/-- Instructions keep their order and index, in renamed blocks. -/
theorem placed_rename : (f.rename σ).placed = f.placed.map (Placed.rename σ) := by
  rw [placed, rename, List.flatMap_map, placed, List.map_flatMap]
  congr 1
  funext b
  rw [Block.rename, List.zipIdx_map, List.map_map, List.map_map]
  rfl

/-- The same values are defined, each in the renamed block. -/
theorem outputs_rename : (f.rename σ).outputs = f.outputs.map fun o => (o.1, σ o.2) := by
  rw [outputs, placed_rename, List.filterMap_map, outputs, List.map_filterMap]
  congr 1
  funext p
  rw [Function.comp_apply, Placed.rename, Instr.output_rename, Option.map_map]
  rfl

@[simp] theorem definedValues_rename : (f.rename σ).definedValues = f.definedValues := by
  rw [definedValues, outputs_rename, List.map_map, definedValues]
  rfl

variable (hσ : Function.Injective σ)

include hσ

/-- Looking up a renamed block gives what was found under the old name. -/
theorem block?_rename (b : String) :
    (f.rename σ).block? (σ b) = (f.block? b).map (Block.rename σ) := by
  rw [block?, rename, List.find?_map, block?]
  congr 2
  funext blk
  rw [Function.comp_apply, Block.id_rename, Bool.eq_iff_iff, beq_iff_eq, beq_iff_eq, hσ.eq_iff]

/-- The position of a block does not change with its name. -/
theorem blockIndex?_rename (b : String) : (f.rename σ).blockIndex? (σ b) = f.blockIndex? b := by
  rw [blockIndex?, rename, List.findIdx?_map, blockIndex?]
  congr 1
  funext blk
  rw [Function.comp_apply, Block.id_rename, Bool.eq_iff_iff, beq_iff_eq, beq_iff_eq, hσ.eq_iff]

/-- Neither does the block behind it. -/
theorem nextBlock?_rename (b : String) :
    (f.rename σ).nextBlock? (σ b) = (f.nextBlock? b).map (Block.rename σ) := by
  rw [nextBlock?, blockIndex?_rename hσ, nextBlock?]
  cases f.blockIndex? b with
  | none => rfl
  | some i => exact List.getElem?_map

/-- So control leads from a renamed block to the renamed successors, be it by a branch or by
falling through. -/
theorem successors_rename {b : String} {ss : List String} (h : f.successors b = .ok ss) :
    (f.rename σ).successors (σ b) = .ok (ss.map σ) := by
  rw [successors] at h ⊢
  rw [block?_rename hσ]
  cases hb : f.block? b with
  | none =>
    rw [hb] at h
    cases h
  | some blk =>
    rw [hb] at h
    dsimp only [Option.map_some] at h ⊢
    rw [Block.terminator?_rename]
    cases ht : blk.terminator? with
    | none =>
      rw [ht] at h
      cases h
    | some t =>
      rw [ht] at h
      simp only [Option.map_some, Instr.op_rename, Instr.distinctTargets_rename hσ,
        nextBlock?_rename hσ] at h ⊢
      split at h
      · next htargets =>
        cases h
        rw [if_pos htargets, if_pos htargets]
      · next htargets =>
        rw [if_neg htargets]
        split at h
        · next hnext =>
          rw [if_pos hnext]
          cases hblock : f.nextBlock? b with
          | none =>
            rw [hblock] at h
            cases h
          | some next =>
            rw [hblock] at h
            cases h
            rfl
        · next hnext =>
          cases h
          rw [if_neg hnext]
          rfl

end Function

/-! ## Flow graphs

What is read off the flow graph commutes with the renaming: searches, dominators and loops. For the
searches and dominators this is known of all graphs; here the functions of the flow graph are
brought into that form. -/

/-- What is worked through element by element, with other elements and other results. -/
theorem collect_map_eq_ok {ε α α' β β' : Type} {f : α → Except ε β} {f' : α' → Except ε β'}
    {g : α → α'} {h : β → β'} (hf : ∀ x y, f x = .ok y → f' (g x) = .ok (h y)) {xs : List α}
    {ys : List β} (hxs : collect f xs = .ok ys) :
    collect f' (xs.map g) = .ok (ys.map h) := by
  have hall := forall₂_of_collect_eq_ok hxs
  clear hxs
  induction hall with
  | nil => rfl
  | cons hx _ ih => rw [List.map_cons, collect, hf _ _ hx, ih, List.map_cons]

/-- A loop with other names for its blocks. -/
def Loop.rename (σ : String → String) (l : Loop) : Loop :=
  ⟨σ l.header, l.latches.map σ, l.body.map σ⟩

namespace FlowGraph

/-- A flow graph with other names for its blocks. -/
def rename (σ : String → String) (g : FlowGraph) : FlowGraph :=
  ⟨σ g.entry, g.graph.rename σ, g.exits.map σ⟩

variable {σ : String → String} (hσ : Function.Injective σ) {f : Function} {g : FlowGraph}

/-- The graph has the renamed blocks. -/
theorem blocks_rename : (g.rename σ).blocks = g.blocks.map σ := Digraph.nodes_rename σ g.graph

include hσ

/-- The flow graph of the renamed function is the flow graph of the function, renamed. -/
theorem ofFunction_rename (hg : ofFunction f = .ok g) :
    ofFunction (f.rename σ) = .ok (g.rename σ) := by
  unfold ofFunction at hg ⊢
  cases hblocks : f.blocks with
  | nil =>
    rw [Function.entry, hblocks] at hg
    cases hg
  | cons first rest =>
    have hentry : f.entry = .ok first := by rw [Function.entry, hblocks]
    have hentry' : (f.rename σ).entry = .ok (first.rename σ) := by
      rw [Function.entry, Function.rename, hblocks]
      rfl
    rw [hentry] at hg
    rw [hentry']
    dsimp only at hg ⊢
    split at hg
    · cases hg
    · next adj hadj =>
      cases hg
      have hadj' : collect (fun b => ((f.rename σ).successors b.id).map fun ss => (b.id, ss))
          (f.rename σ).blocks =
          .ok (adj.map (Prod.map σ (List.map σ))) := by
        refine collect_map_eq_ok (fun b entry hentry => ?_) hadj
        obtain ⟨ss, hss, rfl⟩ := exists_of_map_eq_ok hentry
        rw [Block.id_rename, Function.successors_rename hσ hss]
        rfl
      have hexits : (((f.rename σ).blocks.map Block.id).filter fun b =>
          (((f.rename σ).block? b).map Function.leavesAt).getD false) =
            ((f.blocks.map Block.id).filter fun b =>
              ((f.block? b).map Function.leavesAt).getD false).map σ := by
        rw [Function.map_id_blocks_rename, List.filter_map]
        simp only [Function.comp_def, Function.block?_rename hσ, Option.map_map,
          Block.leavesAt_rename]
      rw [hadj']
      dsimp only
      rw [hexits, hblocks]
      rfl

/-- Its edges are the renamed ones, in the old order. -/
theorem succs_rename (b : String) :
    (g.rename σ).succs (σ b) = (g.succs b).map σ := Digraph.succs_rename hσ g.graph b

theorem preds_rename (b : String) :
    (g.rename σ).preds (σ b) = (g.preds b).map σ := Digraph.preds_rename hσ g.graph b

/-- The search from the entry finds the renamed blocks in the old order. -/
theorem reachable_rename :
    (g.rename σ).reachable = g.reachable.map σ := Digraph.reach_rename hσ g.graph [g.entry]

/-- The same of a search that starts anywhere and keeps off some blocks. -/
theorem reachableFrom_rename (starts avoid : List String) :
    (g.rename σ).reachableFrom (starts.map σ) (avoid.map σ) =
      (g.reachableFrom starts avoid).map σ :=
  Digraph.reachAvoiding_rename hσ g.graph starts avoid

/-- And of the search against the edges. -/
theorem reaching_rename (targets avoid : List String) :
    (g.rename σ).reaching (targets.map σ) (avoid.map σ) = (g.reaching targets avoid).map σ := by
  rw [reaching, rename, Digraph.flip_rename hσ, Digraph.reachAvoiding_rename hσ, reaching]

/-- The order in which the rounds visit the blocks does not depend on names. -/
theorem reversePostOrder_rename : (g.rename σ).reversePostOrder = g.reversePostOrder.map σ :=
  Digraph.reversePostOrder_rename hσ g.graph g.entry

/-- The iteration for dominators takes the same steps and ends with the renamed tree. -/
theorem dominance_rename {dom : Dominance String} (h : g.dominance = .ok dom) :
    (g.rename σ).dominance = .ok (dom.rename hσ) := by
  unfold dominance at h ⊢
  rw [reversePostOrder_rename hσ]
  have hgrow : Dominance.grow? (g.reversePostOrder.map σ) (g.rename σ).preds (g.rename σ).entry =
      (Dominance.grow? g.reversePostOrder g.preds g.entry).map (Dominance.rename hσ) :=
    Dominance.grow?_rename hσ (preds_rename hσ) _ _
  rw [hgrow]
  split at h
  · next t ht =>
    cases h
    rw [ht, Option.map_some]
  · cases h

/-- The body of a loop is found by a search against the edges. -/
theorem loopBody_rename (reachable : List String) (header : String) (latches : List String) :
    (g.rename σ).loopBody (reachable.map σ) (σ header) (latches.map σ) =
      (g.loopBody reachable header latches).map σ := by
  have hback :
    (⟨(g.rename σ).graph.flip.adj.map fun e =>
      (e.1, e.2.filter fun b => decide (b ∈ reachable.map σ))⟩ : Digraph String) =
        Digraph.rename σ
          ⟨g.graph.flip.adj.map fun e => (e.1, e.2.filter fun b => decide (b ∈ reachable))⟩ := by
    rw [rename, Digraph.flip_rename hσ]
    simp only [Digraph.rename, List.map_map, Function.comp_def, Prod.map_apply, Prod.map_fst,
      Prod.map_snd, List.filter_map, List.mem_map_of_injective hσ]
  have havoid := Digraph.reachAvoiding_rename hσ
    ⟨g.graph.flip.adj.map fun e => (e.1, e.2.filter fun b => decide (b ∈ reachable))⟩
      latches [header]
  rw [loopBody, hback, loopBody, List.map_cons]
  exact congrArg (σ header :: ·) havoid

/-- The same loops are found, under the new names. -/
theorem loops_rename {loops : List Loop} (h : g.loops = .ok loops) :
    (g.rename σ).loops = .ok (loops.map (Loop.rename σ)) := by
  unfold FlowGraph.loops at h ⊢
  cases hdom : g.dominance with
  | error e =>
    rw [hdom] at h
    cases h
  | ok dom =>
    rw [hdom] at h
    cases h
    rw [dominance_rename hσ hdom]
    dsimp only
    rw [blocks_rename, List.filterMap_map, List.map_filterMap]
    congr 2
    funext header
    have hlatches : ((g.rename σ).reversePostOrder.filter fun b =>
        decide (σ header ∈ (g.rename σ).succs b) && (dom.rename hσ).dominates (σ header) b) =
          (g.reversePostOrder.filter fun b => decide (header ∈ g.succs b) &&
            dom.dominates header b).map σ := by
      rw [reversePostOrder_rename hσ, List.filter_map]
      simp only [Function.comp_def, succs_rename hσ, Dominance.dominates_rename,
        List.mem_map_of_injective hσ]
    simp only [Function.comp_apply, hlatches, List.isEmpty_map, reachable_rename hσ,
      loopBody_rename hσ]
    split <;> rfl

/-- And they are left from the same blocks. -/
theorem exiting_rename (l : Loop) : (l.rename σ).exiting (g.rename σ) = (l.exiting g).map σ := by
  rw [Loop.exiting, blocks_rename, List.filter_map, Loop.exiting]
  simp only [Function.comp_def, Loop.rename, succs_rename hσ, List.any_map,
    List.mem_map_of_injective hσ]

/-! ### The virtual exit

The renaming must leave the name of the virtual exit alone. Otherwise a block could take that name,
and post-dominance would confuse the two. -/

section

variable (hexit : σ virtualExit = virtualExit)

include hexit

/-- A block without successors leads to the virtual exit, which keeps its name. -/
theorem succsOrExit_rename (b : String) :
    (g.rename σ).succsOrExit (σ b) = (g.succsOrExit b).map σ := by
  have hmem : σ b ∈ (g.rename σ).exits ↔ b ∈ g.exits := List.mem_map_of_injective hσ
  simp only [succsOrExit, hmem, succs_rename hσ]
  split
  · rw [List.map_append, List.map_singleton, hexit]
  · rfl

/-- The graph with the virtual exit, with its edges turned round. -/
theorem exitGraph_rename : (g.rename σ).exitGraph = g.exitGraph.rename σ := by
  have hnodes : distinct (virtualExit :: (g.rename σ).graph.everyNode) =
      (distinct (virtualExit :: g.graph.everyNode)).map σ := by
    rw [rename, Digraph.everyNode_rename hσ, ← distinct_map hσ, List.map_cons, hexit]
  have hiff : ∀ b, σ b = virtualExit ↔ b = virtualExit := fun b =>
    ⟨fun h => hσ (h.trans hexit.symm), fun h => h ▸ hexit⟩
  rw [exitGraph, hnodes, exitGraph, Digraph.rename, List.map_map, List.map_map]
  congr 2
  funext b
  simp only [Function.comp_apply, hiff, preds_rename hσ, Prod.map_apply]
  split <;> rfl

/-- Post-dominators are the dominators of that graph. -/
theorem postDominance_rename {post : Dominance String} (h : g.postDominance = .ok post) :
    (g.rename σ).postDominance = .ok (post.rename hσ) := by
  unfold postDominance at h ⊢
  have horder : (g.rename σ).exitGraph.reversePostOrder virtualExit =
      (g.exitGraph.reversePostOrder virtualExit).map σ := by
    rw [exitGraph_rename hσ hexit, ← Digraph.reversePostOrder_rename hσ, hexit]
  have hgrow := Dominance.grow?_rename hσ (succsOrExit_rename (g := g) hσ hexit)
    (g.exitGraph.reversePostOrder virtualExit) virtualExit
  rw [hexit] at hgrow
  rw [horder, hgrow]
  split at h
  · next t ht =>
    cases h
    rw [ht, Option.map_some]
  · cases h

end

end FlowGraph

/-! ## Sites

Values keep their names, so the table of their sites has the same names in the same order, with
renamed blocks. -/

namespace Table

variable {α β : Type}

/-- A table with other values. -/
def mapValues (g : α → β) (t : Table α) : Table β where
  entries := t.entries.map (Prod.map id g)
  nodup := by
    rw [List.map_map]
    exact t.nodup

/-- Looking up a name gives the changed value. -/
theorem get?_mapValues (g : α → β) (t : Table α) (name : String) :
    (t.mapValues g).get? name = (t.get? name).map g :=
  Assoc.find?_map_keys Function.injective_id g name t.entries

theorem size_mapValues (g : α → β) (t : Table α) :
    (t.mapValues g).size = t.size := List.length_map _

/-- Values may be changed before or after one of them is entered. -/
theorem set_mapValues (g : α → β) (t : Table α) (name : String) (v : α) :
    (t.mapValues g).set name (g v) = (t.set name v).mapValues g := by
  have hentries := Assoc.put_map_keys Function.injective_id g name v t.entries
  simp only [set, mapValues, Table.mk.injEq]
  exact hentries

/-- The same where a name that is there keeps its value. -/
theorem setNew_mapValues (g : α → β) (t : Table α) (name : String) (v : α) :
    (t.mapValues g).setNew name (g v) = (t.setNew name v).mapValues g := by
  have hcontains : (t.mapValues g).contains name = t.contains name := by
    rw [contains, get?_mapValues, Option.isSome_map, contains]
  rw [setNew, hcontains, set_mapValues, setNew]
  split <;> rfl

end Table

/-- The place of a definition with other names for the blocks. -/
def Site.rename (σ : String → String) : Site → Site
  | .param => .param
  | .instr b i => .instr (σ b) i

/-- Enters the value that an instruction defines, unless it is there. -/
def Table.addSite (t : Table Site) (p : Placed) : Table Site :=
  match p.instr.output with
  | some v => t.setNew v (.instr p.block.id p.index)
  | none => t

/-- Entering the site of a value commutes with the renaming. -/
theorem Table.addSite_rename (σ : String → String) (t : Table Site) (p : Placed) :
    (t.mapValues (Site.rename σ)).addSite (p.rename σ) =
      (t.addSite p).mapValues (Site.rename σ) := by
  rw [addSite, Placed.rename, Instr.output_rename, addSite]
  cases p.instr.output with
  | none => rfl
  | some v => exact setNew_mapValues (Site.rename σ) t v (.instr p.block.id p.index)

/-- The table of sites: the parameters, then the outputs in the order of the instructions. -/
theorem Function.sites_eq (f : Function) :
    f.sites = f.placed.foldl Table.addSite
      (f.params.foldl (fun t p => t.set p.value .param) Table.empty) := rfl

/-- Every value has the same site as before, in the renamed block. -/
theorem Function.sites_rename {σ : String → String} {f : Function} :
    (f.rename σ).sites = f.sites.mapValues (Site.rename σ) := by
  have hparams : ∀ (ps : List Param) (t : Table Site),
      ps.foldl (fun t p => t.set p.value .param) (t.mapValues (Site.rename σ)) =
        (ps.foldl (fun t p => t.set p.value .param) t).mapValues (Site.rename σ) := by
    intro ps
    induction ps with
    | nil => intro t; rfl
    | cons p ps ih =>
      intro t
      rw [List.foldl_cons, List.foldl_cons, ← ih, ← Table.set_mapValues]
      rfl
  have houtputs : ∀ (ps : List Placed) (t : Table Site),
      (ps.map (Placed.rename σ)).foldl Table.addSite (t.mapValues (Site.rename σ)) =
        (ps.foldl Table.addSite t).mapValues (Site.rename σ) := by
    intro ps
    induction ps with
    | nil => intro t; rfl
    | cons p ps ih =>
      intro t
      rw [List.map_cons, List.foldl_cons, List.foldl_cons, Table.addSite_rename, ih]
  rw [sites_eq, placed_rename, sites_eq, ← houtputs, ← hparams]
  rfl

/-! ## Validity

The checks compare names of blocks with each other and with nothing else. Injectivity is needed
where they ask for distinct blocks. -/

/-- An instruction that names known things does so after the renaming, with the blocks renamed. -/
theorem Instr.Operands.rename {σ : String → String} {s : Instr.Names} {i : Instr}
    (h : i.Operands s) :
    (i.rename σ).Operands ⟨s.values, s.blocks.map σ, s.locations⟩ where
  output := h.output
  input := h.input
  defined := h.defined
  self := h.self
  location := h.location
  known := h.known
  callee := h.callee
  branch := by
    rw [length_targets_rename]
    exact h.branch
  jump := by
    rw [length_targets_rename]
    exact h.jump
  targets := by
    intro hop t ht
    rw [targets_rename_of_targetsBlocks (i := i) hop] at ht
    obtain ⟨t', ht', rfl⟩ := List.mem_map.1 ht
    exact List.mem_map.2 ⟨t', h.targets hop t' ht', rfl⟩

/-- A block keeps its shape: one terminator, at its end. -/
theorem Block.Shaped.rename {σ : String → String} {s : Instr.Names} {isLast : Bool} {b : Block}
    (h : b.Shaped s isLast) :
    (b.rename σ).Shaped ⟨s.values, s.blocks.map σ, s.locations⟩ isLast where
  terminated := by
    obtain ⟨t, ht, hlast⟩ := h.terminated
    refine ⟨t.rename σ, ?_, hlast⟩
    rw [terminator?_rename, ht, Option.map_some]
  early := by
    rw [length_instrs_rename, Block.rename, List.zipIdx_map, List.forall_mem_map]
    exact h.early
  operands := by
    rw [Block.rename, List.forall_mem_map]
    exact fun i hi => (h.operands i hi).rename

/-- A function that passes the checks of its form still does. -/
theorem Function.WellFormed.rename {σ : String → String} (hσ : Function.Injective σ) {f : Function}
    {shared : List Location} (h : f.WellFormed shared) : (f.rename σ).WellFormed shared where
  nonempty := by
    rw [Function.rename, Ne, List.map_eq_nil_iff]
    exact h.nonempty
  blocks := by
    rw [map_id_blocks_rename]
    exact h.blocks.map hσ
  locations := h.locations
  values := by
    rw [definedValues_rename]
    exact h.values
  shaped := by
    have hnames : (f.rename σ).names shared =
        ⟨(f.names shared).values, (f.names shared).blocks.map σ, (f.names shared).locations⟩ := by
      rw [names, definedValues_rename, map_id_blocks_rename]
      rfl
    rw [hnames, Function.rename, List.length_map, List.zipIdx_map, List.forall_mem_map]
    exact fun p hp => (h.shaped p hp).rename

namespace Function

variable {σ : String → String} (hσ : Function.Injective σ) {f : Function} {g : FlowGraph}

/-- A use is dominated by its definition under the new names exactly if it was under the old
ones. -/
theorem useViolation?_rename (dom : Dominance String) (reachable : List String)
    (sites : Table Site) (p : Placed) (v : String) :
    (f.rename σ).useViolation? (dom.rename hσ) (reachable.map σ) (sites.mapValues (Site.rename σ))
      (p.rename σ) v =
      none ↔ f.useViolation? dom reachable sites p v = none := by
  rw [useViolation?, Table.get?_mapValues, useViolation?]
  cases sites.get? v with
  | none => simp
  | some site =>
    cases site with
    | param => simp [Site.rename]
    | instr b i =>
      simp only [Option.map_some, Site.rename, Placed.rename, Block.id_rename, hσ.eq_iff,
        List.mem_map_of_injective hσ, Dominance.dominates_rename]
      by_cases hsame : b = p.block.id
      · by_cases hle : p.index ≤ i
        · simp only [hsame, hle, if_true, reduceCtorEq]
        · simp only [hsame, hle, if_true, if_false]
      · simp only [hsame, if_false, ite_eq_right_iff, reduceCtorEq, imp_false]

include hσ

/-- So the check of the order of definitions and uses passes again. -/
theorem orderViolation?_rename (h : f.orderViolation? g = none) :
    (f.rename σ).orderViolation? (g.rename σ) = none := by
  rw [orderViolation?] at h ⊢
  cases hdom : g.dominance with
  | error e =>
    rw [hdom] at h
    cases h
  | ok dom =>
    rw [hdom] at h
    rw [FlowGraph.dominance_rename hσ hdom, FlowGraph.reachable_rename hσ, sites_rename,
      placed_rename]
    dsimp only at h ⊢
    rw [List.findSome?_eq_none_iff] at h ⊢
    rw [List.forall_mem_map]
    intro p hp
    have hpass := h p hp
    by_cases hphi : p.instr.op = .phi
    · exact if_pos hphi
    · rw [if_neg hphi, List.findSome?_eq_none_iff] at hpass
      refine (if_neg hphi).trans (List.findSome?_eq_none_iff.2 fun v hv => ?_)
      exact (useViolation?_rename hσ dom g.reachable f.sites p v).2 (hpass v hv)

end Function

/-! ## Modules

Blocks are named within their function, so each function may have a renaming of its own. -/

namespace Module

/-- A module with other names for the blocks of its functions, where `ρ` gives the renaming for
each function. -/
def rename (ρ : String → String → String) (m : Module) : Module :=
  { m with functions := m.functions.map fun f => f.rename (ρ f.id) }

variable {ρ : String → String → String} {m : Module}

/-- Functions keep their names. -/
theorem function?_rename (name : String) :
    (m.rename ρ).function? name = (m.function? name).map fun f => f.rename (ρ f.id) := by
  rw [function?, rename, ← List.map_reverse, List.find?_map]
  rfl

/-- A module that passes the checks of form still does if each function has an injective
renaming. -/
theorem WellFormed.rename (hρ : ∀ f, Function.Injective (ρ f)) (h : m.WellFormed) :
    (m.rename ρ).WellFormed where
  functions := by
    rw [Module.rename, List.map_map]
    exact h.functions
  locations := h.locations
  apart := by
    rw [Module.rename, List.forall_mem_map]
    exact h.apart
  function := by
    rw [Module.rename, List.forall_mem_map]
    exact fun f hf => (h.function f hf).rename (hρ f.id)
  flow := by
    rw [Module.rename, List.forall_mem_map]
    intro f hf
    obtain ⟨g, hg, horder⟩ := h.flow f hf
    exact ⟨g.rename (ρ f.id), FlowGraph.ofFunction_rename (hρ f.id) hg,
      Function.orderViolation?_rename (hρ f.id) horder⟩

end Module

end ConstantTime
