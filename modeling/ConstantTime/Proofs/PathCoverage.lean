/-
The taints of a function cover every execution path.

A trail follows one path through the blocks. It starts with the declared taints of the parameters
and with nothing in memory, and applies the effects of the instructions one after the other. An
instruction that is passed again gives its output a new taint, which replaces the old one: nothing
is joined along a trail, neither at a definition nor where paths meet. What a trail says about a
value or a cell is therefore what holds for this path alone, and it may rise and fall.

The taints of the function hold for all paths at once. Their ranks bound the equations, and an
assignment that does is never below a trail: an effect is monotone, and a block that leads to
another is one of those joined at its entry. The induction is over the path from its end, and
within a block over the instructions from the last one.
-/
import Mathlib.Data.List.Chain
import ConstantTime.Proofs.Convergence

set_option autoImplicit false

namespace ConstantTime

/-! ## Paths and trails

A trail is what an analysis of one path would know. It uses the same effects as the rounds, without
their joins. -/

/-- A path through the blocks, from the entry along the edges. -/
def FlowGraph.IsPath (g : FlowGraph) (path : List String) : Prop :=
  path.head? = some g.entry ∧ path.IsChain fun a b => b ∈ g.succs a

instance (g : FlowGraph) (path : List String) : Decidable (g.IsPath path) :=
  inferInstanceAs (Decidable (_ ∧ _))

/-- A path grows at its end by one edge. -/
theorem FlowGraph.isPath_concat {g : FlowGraph} {path : List String} {a b : String} :
    g.IsPath (path ++ [a] ++ [b]) ↔ g.IsPath (path ++ [a]) ∧ b ∈ g.succs a := by
  have hhead : (path ++ [a] ++ [b]).head? = (path ++ [a]).head? := by
    cases path <;> rfl
  rw [IsPath, IsPath, hhead, List.isChain_append, and_assoc]
  simp

/-- A path stays within the blocks. -/
theorem FlowGraph.mem_blocks_of_isPath {f : Function} {g : FlowGraph} {shared : List Location}
    (hg : ofFunction f = .ok g) (hf : f.WellFormed shared) {path : List String} {b : String}
    (h : g.IsPath (path ++ [b])) : b ∈ g.blocks := by
  induction path using List.reverseRecOn with
  | nil =>
    have hentry : b = g.entry := Option.some.inj h.1
    rw [hentry]
    exact entry_mem_blocks hg
  | append_singleton path a _ => exact succs_subset hg hf (isPath_concat.1 h).2

namespace Taints

/-- The taints along one path. -/
structure Trail where
  values : Table Taint
  memory : Memory

namespace Trail

/-- Applies the effect of an instruction; its output forgets what it was before. -/
def step (s : Scope) (x : Trail) (i : Instr) : Trail :=
  let e := i.transfer s x.values x.memory
  match e.defines with
  | some (v, t) => ⟨x.values.set v t, e.memory⟩
  | none => ⟨x.values, e.memory⟩

/-- Runs through a block. -/
def through (s : Scope) (f : Function) (x : Trail) (b : String) : Trail :=
  match f.block? b with
  | some blk => blk.instrs.foldl (step s) x
  | none => x

/-- The trail through the blocks of `path`, to the end of the last one. -/
def along (s : Scope) (f : Function) (path : List String) : Trail :=
  path.foldl (through s f) ⟨seeds f, .empty⟩

/-- A trail goes on through one more block. -/
theorem along_concat (s : Scope) (f : Function) (path : List String) (b : String) :
    along s f (path ++ [b]) = (along s f path).through s f b := by
  rw [along, List.foldl_append]
  rfl

/-- All that a step can do. -/
theorem step_cases (s : Scope) (x : Trail) (i : Instr) :
    (x.step s i).memory = (i.transfer s x.values x.memory).memory ∧
      (((i.transfer s x.values x.memory).defines = none ∧ (x.step s i).values = x.values) ∨
        ∃ v t, (i.transfer s x.values x.memory).defines = some (v, t) ∧
          (x.step s i).values = x.values.set v t) := by
  unfold step
  simp only
  split
  · next v t hd => exact ⟨rfl, .inr ⟨v, t, hd, rfl⟩⟩
  · next hd => exact ⟨rfl, .inl ⟨hd, rfl⟩⟩

/-! ## Covering

What bounds the equations bounds a trail: at each instruction, over a block, and from one block to
the next. -/

/-- A step stays below the equations. -/
theorem covered_step {values memory : Ranks} {s : Scope} {x : Trail}
    (hx : Covered values memory x.values x.memory) {i : Instr}
    (hi : ∀ v r, i.definedRank s values memory = some (v, r) → r ≤ values v) :
    Covered values (i.memoryRanks values memory) (x.step s i).values (x.step s i).memory := by
  obtain ⟨hmc, hmr⟩ := hx.memory_transfer s i
  obtain ⟨hmemory, ⟨-, hvalues⟩ | ⟨v, t, hd, hvalues⟩⟩ := step_cases s x i
  · rw [hmemory, hvalues]
    exact ⟨hx.coherentValues, hmc, hx.values_le, hmr⟩
  · obtain ⟨ht, r, hr, hle⟩ := hx.defines_transfer hd
    rw [hmemory, hvalues]
    refine ⟨hx.coherentValues.set ht, hmc, ?_, hmr⟩
    rw [Table.ranks_set]
    exact update_le_iff.2 ⟨le_trans hle (hi v r hr), fun w _ => hx.values_le w⟩

variable {m : Module} {f : Function} {g : FlowGraph} {a : Assignment}

/-- Within a block the trail is below what the equations say at the same instruction. -/
theorem covered_run (ha : a.CoversOutputs m f) {b : Block} (hb : b ∈ f.blocks) {x : Trail}
    (hx : Covered a.value (a.entry b.id) x.values x.memory) {before : List Instr}
    (hbefore : before <+: b.instrs) :
    Covered a.value (a.memoryAt b before) (before.foldl (step (Scope.ofFunction m f)) x).values
      (before.foldl (step (Scope.ofFunction m f)) x).memory :=
  Covered.run Trail.values Trail.memory (step (Scope.ofFunction m f))
    (fun _ _ _ hx hi => covered_step hx hi) ha hb
    hx hbefore

/-- On arrival at a block the trail is below what the equations say at its entry. -/
theorem covered_arrival (ha : a.Bounds m f g) (hf : f.WellFormed m.locations)
    (hg : FlowGraph.ofFunction f = .ok g) {path : List String} {b : String}
    (hpath : g.IsPath (path ++ [b])) :
    Covered a.value (a.entry b) (along (Scope.ofFunction m f) f path).values
      (along (Scope.ofFunction m f) f path).memory := by
  induction path using List.reverseRecOn generalizing b with
  | nil =>
    have hstart := below_start ha (List.nodup_append.1 hf.values).1
    exact ⟨hstart.coherent, Memory.coherent_empty, hstart.values, fun l => Rank.pub_le _⟩
  | append_singleton path c ih =>
    obtain ⟨hbefore, hedge⟩ := FlowGraph.isPath_concat.1 hpath
    have hto := FlowGraph.mem_blocks_of_isPath hg hf hpath
    have hfrom := FlowGraph.mem_blocks_of_isPath hg hf hbefore
    rw [FlowGraph.blocks_eq hg] at hto hfrom
    obtain ⟨target, htarget, rfl⟩ := List.mem_map.1 hto
    obtain ⟨source, hsource, rfl⟩ := List.mem_map.1 hfrom
    have hrun := covered_run ha.outputs hsource (ih hbefore) (List.prefix_refl source.instrs)
    -- what leaves the block before is among what meets at the entry
    have hleaving : a.memoryAt source source.instrs ≤ a.entry target.id := by
      refine le_trans (fun l => ?_) (ha.entries target htarget)
      have hmem : a.leaving f source.id l ∈ (g.preds target.id).map fun p => a.leaving f p l :=
        List.mem_map_of_mem ((FlowGraph.mem_preds_iff hg hf.blocks).2 hedge)
      rw [Assignment.leaving, Function.block?_id hf.blocks hsource] at hmem
      exact Rank.le_joinAll hmem
    rw [along_concat, through, Function.block?_id hf.blocks hsource]
    exact ⟨hrun.coherentValues, hrun.coherentMemory, hrun.values_le,
      le_trans hrun.memory_le hleaving⟩

end Trail

/-! ## Functions of a validated module -/

/-- **The taints cover every path.** Whatever path leads to a block, the cells are labelled no
higher there than at the recorded entry of the block, and up to any instruction in it no value is
labelled higher than the taints say. -/
theorem exists_forall_path_label_le {m : Module} (hm : m.validate = .ok ()) {f : Function}
    (hf : f ∈ m.functions) :
    ∃ g t, FlowGraph.ofFunction f = .ok g ∧ ofFunction m f g = .ok t ∧
      ∀ path b, g.IsPath (path ++ [b]) → ∃ blk mem, f.block? b = some blk ∧
        t.memoryIn.get? b = some mem ∧
        (∀ l, ((Trail.along (Scope.ofFunction m f) f path).memory.read l).label ≤
          (mem.read l).label) ∧
        ∀ before, before <+: blk.instrs → ∀ v,
          (Taint.ofValue (before.foldl (Trail.step (Scope.ofFunction m f))
            (Trail.along (Scope.ofFunction m f) f path)).values v).label ≤
              (t.of (some v)).label := by
  have hwf := Module.wellFormed_of_validate hm
  have hff := hwf.function f hf
  obtain ⟨g, t, hg, ht, hleast, -⟩ := exists_least hwf hf
  refine ⟨g, t, hg, ht, fun path b hpath => ?_⟩
  have harrival := Trail.covered_arrival hleast.bounds hff hg hpath
  have hb := FlowGraph.mem_blocks_of_isPath hg hff hpath
  rw [FlowGraph.blocks_eq hg] at hb
  obtain ⟨blk, hblk, rfl⟩ := List.mem_map.1 hb
  obtain ⟨mem, hmem, -⟩ := hleast.entries blk hblk
  refine ⟨blk, mem, Function.block?_id hff.blocks hblk, hmem, fun l => ?_,
    fun before hbefore v => ?_⟩
  · have hle := harrival.memory_le l
    change _ ≤ ranksAt t.memoryIn blk.id l at hle
    rw [ranksAt_of_get?_eq_some hmem] at hle
    exact Taint.label_le_of_rank_le hle
  · have hrun := Trail.covered_run hleast.bounds.outputs hblk harrival hbefore
    exact Taint.label_le_of_rank_le (hrun.values_le v)

/-- Back at the head of the loop, the buffer holds a secret. -/
theorem exists_path_label_le_mixing : mixing.validate = .ok () ∧ mix ∈ mixing.functions ∧
    ((Trail.along (Scope.ofFunction mixing mix) mix ["entry", "head", "body"]).memory.read
      "buf").label = .secret ∧
    ∃ g t, FlowGraph.ofFunction mix = .ok g ∧ ofFunction mixing mix g = .ok t ∧
      g.IsPath (["entry", "head", "body"] ++ ["head"]) ∧
      ∃ mem, t.memoryIn.get? "head" = some mem ∧ .secret ≤ (mem.read "buf").label := by
  refine ⟨validate_mixing, mix_mem_mixing, rfl, ?_⟩
  obtain ⟨g, t, hg, ht, hpaths⟩ := exists_forall_path_label_le validate_mixing mix_mem_mixing
  have hpath : g.IsPath (["entry", "head", "body"] ++ ["head"]) := by
    cases hg
    decide
  obtain ⟨_, mem, -, hmem, hcells, -⟩ := hpaths _ _ hpath
  exact ⟨g, t, hg, ht, hpath, mem, hmem, hcells "buf"⟩

end Taints

end ConstantTime
