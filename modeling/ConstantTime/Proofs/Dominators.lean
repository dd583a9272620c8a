/-
The dominators of a block are the blocks on every path to it.

Paths are those of the flow graph, from the entry along its edges. The iteration that grows the
dominance tree knows nothing of them: it sees the reverse post-order and the predecessors of each
block. Both descriptions are brought together here. The reverse post-order is a numbering as the
iteration needs it, and a way of the iteration is a path read from its end. The same numbering
carries the tree from the virtual exit, where the graph is turned around.
-/
import ConstantTime.Flow.Loops
import ConstantTime.Proofs.DominanceTree
import ConstantTime.Proofs.PostOrder
import ConstantTime.Proofs.PathCoverage

set_option autoImplicit false

namespace ConstantTime

/-! ## Reverse post-orders as numberings

The iteration asks for an order in which the root comes first and every other node has a
predecessor before it. A reverse post-order is one, for the flow graph and for the graph turned
around. -/

/-- The reverse post-order from a root serves the iteration, if every edge is listed among the
predecessors. -/
theorem Digraph.numbering_reversePostOrder {α : Type} [DecidableEq α] (d : Digraph α) (root : α)
    {preds : α → List α} (hpreds : ∀ {p n}, d.Edge p n → p ∈ preds n) :
    Dominance.Numbering (d.reversePostOrder root) preds root := by
  have horder := d.isReversePostOrder root
  refine ⟨horder.nodup, horder.head, fun n hn hne => ?_⟩
  obtain ⟨p, hp, hedge, hlt⟩ := horder.after_pred n hn hne
  exact ⟨p, hpreds hedge, hp, hlt⟩

namespace FlowGraph

variable {f : Function} {g : FlowGraph}

/-- The reverse post-order from the entry. -/
theorem numbering (h : ofFunction f = .ok g) (hf : (f.blocks.map Block.id).Nodup) :
    Dominance.Numbering g.reversePostOrder g.preds g.entry :=
  g.graph.numbering_reversePostOrder g.entry fun hedge => (mem_preds_iff h hf).2 hedge

theorem mem_exitGraph_succs {p b : String} (h : b ∈ g.exitGraph.succs p) :
    b ∈ if p = virtualExit then g.exits else g.preds p := by
  have hmem := Digraph.mem_adj_of_succs_ne_nil (List.ne_nil_of_mem h)
  obtain ⟨k, -, hk⟩ := List.mem_map.1 hmem
  obtain ⟨rfl, hsuccs⟩ := Prod.mk.inj hk
  rw [hsuccs]
  exact h

/-- An edge of the graph turned around leads to a block from which control can come. -/
theorem mem_succsOrExit (h : ofFunction f = .ok g) (hf : (f.blocks.map Block.id).Nodup)
    {p b : String} (hp : b ∈ g.exitGraph.succs p) : p ∈ g.succsOrExit b := by
  have hb := mem_exitGraph_succs hp
  unfold succsOrExit
  by_cases hexit : p = virtualExit
  · rw [if_pos hexit] at hb
    rw [if_pos hb, hexit]
    exact List.mem_append_right _ (List.mem_singleton_self _)
  · rw [if_neg hexit] at hb
    have hsucc := (mem_preds_iff h hf).1 hb
    split
    · exact List.mem_append_left _ hsucc
    · exact hsucc

/-- The same for the graph turned around, from the virtual exit. -/
theorem numbering_exitGraph (h : ofFunction f = .ok g) (hf : (f.blocks.map Block.id).Nodup) :
    Dominance.Numbering (g.exitGraph.reversePostOrder virtualExit) g.succsOrExit virtualExit :=
  g.exitGraph.numbering_reversePostOrder virtualExit fun hedge => mem_succsOrExit h hf hedge

/-- The tree from the virtual exit is grown. -/
theorem exists_postDominance (h : ofFunction f = .ok g) (hf : (f.blocks.map Block.id).Nodup) :
    ∃ t, g.postDominance = .ok t := by
  obtain ⟨t, ht, -⟩ := Dominance.exists_grow (numbering_exitGraph h hf)
  exact ⟨t, by rw [postDominance, ht]⟩

/-! ## Paths as ways

The paths of the flow graph are the ways of the iteration read from their end. What is known of the
tree of the iteration can then be said of paths. -/

/-- Some path leads to the block. -/
def Reached (g : FlowGraph) (b : String) : Prop := ∃ path, g.IsPath (path ++ [b])

/-- Both blocks can be reached, and every path to `b` leads through `a`. -/
def Dominates (g : FlowGraph) (a b : String) : Prop :=
  g.Reached a ∧ g.Reached b ∧ ∀ path, g.IsPath (path ++ [b]) → a ∈ path ++ [b]

/-- The block `d` is a strict dominator of `b`, and every other strict dominator of `b` dominates
it. -/
def IsNearest (g : FlowGraph) (d b : String) : Prop :=
  (d ≠ b ∧ g.Dominates d b) ∧ ∀ a, a ≠ b → g.Dominates a b → a ≠ d → g.Dominates a d

/-- A path shows that its last block is reached. -/
theorem reaches_of_isPath {path : List String} {b : String} (h : g.IsPath (path ++ [b])) :
    g.graph.Reaches g.entry b := by
  induction path using List.reverseRecOn generalizing b with
  | nil =>
    rw [← Option.some.inj h.1]
    exact Digraph.Reaches.refl _ _
  | append_singleton path a ih =>
    obtain ⟨ha, hab⟩ := isPath_concat.1 h
    exact Relation.ReflTransGen.tail (ih ha) hab

/-- A path, read from its end, is a way of the iteration. -/
theorem exists_way_of_isPath (h : ofFunction f = .ok g) (hf : (f.blocks.map Block.id).Nodup)
    {path : List String} {b : String} (hpath : g.IsPath (path ++ [b])) :
    ∃ k, Dominance.Way g.reversePostOrder g.preds g.entry (path ++ [b]).reverse b k := by
  induction path using List.reverseRecOn generalizing b with
  | nil =>
    have hb : b = g.entry := Option.some.inj hpath.1
    rw [hb]
    exact ⟨0, .start⟩
  | append_singleton path a ih =>
    have hmem := mem_reversePostOrder_iff_reaches.2 (reaches_of_isPath hpath)
    obtain ⟨ha, hab⟩ := isPath_concat.1 hpath
    obtain ⟨k, hway⟩ := ih ha
    rw [List.reverse_concat]
    exact ⟨_, hway.step ((mem_preds_iff h hf).2 hab) hmem⟩

/-- A way of the iteration, read from its end, is a path. -/
theorem isPath_of_way (h : ofFunction f = .ok g) (hf : (f.blocks.map Block.id).Nodup)
    {way : List String} {b : String} {k : Nat}
    (hway : Dominance.Way g.reversePostOrder g.preds g.entry way b k) :
    ∃ path, way = (path ++ [b]).reverse ∧ g.IsPath (path ++ [b]) := by
  induction hway with
  | start => exact ⟨[], rfl, rfl, List.isChain_singleton _⟩
  | @step way a b k _ ha _ ih =>
    obtain ⟨path, hway, hpath⟩ := ih
    refine ⟨path ++ [a], ?_, isPath_concat.2 ⟨hpath, (mem_preds_iff h hf).1 ha⟩⟩
    rw [List.reverse_concat, ← hway]

/-- The order has the blocks that a path leads to. -/
theorem reached_iff (h : ofFunction f = .ok g) (hf : (f.blocks.map Block.id).Nodup) {b : String} :
    g.Reached b ↔ b ∈ g.reversePostOrder := by
  constructor
  · rintro ⟨path, hpath⟩
    exact mem_reversePostOrder_iff_reaches.2 (reaches_of_isPath hpath)
  · intro hmem
    obtain ⟨way, hway⟩ := Dominance.Way.exists_zero (numbering h hf) b hmem
    obtain ⟨path, -, hpath⟩ := isPath_of_way h hf hway
    exact ⟨path, hpath⟩

/-- Dominance as a statement about the ways of the iteration. -/
theorem dominates_iff (h : ofFunction f = .ok g) (hf : (f.blocks.map Block.id).Nodup)
    {a b : String} :
    g.Dominates a b ↔ b ∈ g.reversePostOrder ∧
      Dominance.OnEveryWay g.reversePostOrder g.preds g.entry a b := by
  have hn := numbering h hf
  constructor
  · rintro ⟨-, hb, hall⟩
    refine ⟨(reached_iff h hf).1 hb, fun way k hway => ?_⟩
    obtain ⟨path, rfl, hpath⟩ := isPath_of_way h hf hway
    exact List.mem_reverse.2 (hall path hpath)
  · rintro ⟨hb, hall⟩
    -- a block on every way to a listed one is listed itself
    obtain ⟨way, hway⟩ := Dominance.Way.exists_zero hn b hb
    have ha := hway.path_subset hn a (hall way 0 hway)
    refine ⟨(reached_iff h hf).2 ha, (reached_iff h hf).2 hb, fun path hpath => ?_⟩
    obtain ⟨k, hway⟩ := exists_way_of_isPath h hf hpath
    exact List.mem_reverse.1 (hall _ k hway)

/-- What the dominance tree of a flow graph says of its blocks and paths. -/
structure IsDominance (g : FlowGraph) (t : Dominance String) : Prop where
  nodes : ∀ b, b ∈ t.nodes ↔ g.Reached b
  dominators : ∀ a b, a ∈ t.dominators b ↔ g.Dominates a b
  immediate : ∀ b, g.Reached b → b ≠ g.entry →
    ∃ d, t.immediate? b = some d ∧ g.IsNearest d b ∧ ∀ d', g.IsNearest d' b → d' = d

/-- **The dominance tree is grown, and it is exact.** -/
theorem exists_dominance (h : ofFunction f = .ok g) (hf : (f.blocks.map Block.id).Nodup) :
    ∃ t, g.dominance = .ok t ∧ g.IsDominance t := by
  obtain ⟨t, ht, hdesc⟩ := Dominance.exists_grow (numbering h hf)
  refine ⟨t, by rw [dominance, ht], fun b => ?_, fun a b => ?_, fun b hb hne => ?_⟩
  · rw [hdesc.nodes b, reached_iff h hf]
  · rw [hdesc.dominators a b, dominates_iff h hf]
  · have hbmem := (reached_iff h hf).1 hb
    obtain ⟨d, hdmem, hd, hdb, hdom, hleast⟩ := hdesc.exists_immediate hbmem hne
    have hddom : g.Dominates d b := (dominates_iff h hf).2 ⟨hbmem, hdom⟩
    have hothers : ∀ a, a ≠ b → g.Dominates a b → g.Dominates a d := fun a hab ha =>
      (dominates_iff h hf).2 ⟨hdmem, hleast a hab ((dominates_iff h hf).1 ha).2⟩
    refine ⟨d, hd, ⟨⟨hdb, hddom⟩, fun a hab ha _ => hothers a hab ha⟩, fun d' hd' => ?_⟩
    -- two nearest dominators would dominate each other
    by_contra hne'
    obtain ⟨⟨hd'b, hd'dom⟩, hd'least⟩ := hd'
    have hdd' := hd'least d hdb hddom (Ne.symm hne')
    have hd'd := hothers d' hd'b hd'dom
    rw [dominates_iff h hf] at hdd' hd'd
    exact hne' (hdesc.onEveryWay_antisymm hdd'.1 hd'd.1 hd'd.2 hdd'.2)

/-- With the dominance tree the loops are found. -/
theorem exists_loops (h : ofFunction f = .ok g) (hf : (f.blocks.map Block.id).Nodup) :
    ∃ loops, g.loops = .ok loops := by
  obtain ⟨t, ht, -⟩ := exists_dominance h hf
  exact ⟨_, by rw [loops, ht]⟩

/-! ## Functions of a well-formed module

The main statement, with a function that has a circle of two entrances and a block that no path
leads to. -/

/-- A function with a loop that is entered at two blocks, an edge back to its first block, and a
block that leads into the loop but is never reached. -/
def weave : Function :=
  ⟨"weave",
    [⟨"top", [⟨.branch, ["n"], none, ["left", "right"], none, none⟩]⟩,
      ⟨"left", [⟨.branch, ["n"], none, ["right", "out"], none, none⟩]⟩,
      ⟨"dead", [⟨.jump, [], none, ["left"], none, none⟩]⟩,
      ⟨"right", [⟨.branch, ["n"], none, ["left", "top"], none, none⟩]⟩,
      ⟨"out", [⟨.ret, [], none, [], none, none⟩]⟩],
    [⟨"n", .pub⟩], none, []⟩

def weaving : Module := ⟨"weaving", [weave], []⟩

theorem validate_weaving : weaving.validate = .ok () := rfl

theorem weave_mem_weaving : weave ∈ weaving.functions := List.mem_singleton.2 rfl

/-- **The dominance tree of a function is exact.** It is found; its nodes are the reachable blocks;
a block dominates another just if every path to the latter leads through it; and the nearest
dominator of a block other than the entry is the one strict dominator that all others dominate. -/
theorem exists_dominance_forall_path {m : Module} (hm : m.validate = .ok ()) {f : Function}
    (hf : f ∈ m.functions) :
    ∃ g t, ofFunction f = .ok g ∧ g.dominance = .ok t ∧
      (∀ b, b ∈ t.nodes ↔ g.Reached b) ∧
      (∀ a b, t.dominates a b = true ↔ g.Dominates a b) ∧
      (∀ a b, a ∈ t.dominators b ↔ g.Dominates a b) ∧
      ∀ b, g.Reached b → b ≠ g.entry →
        ∃ d, t.immediate? b = some d ∧ g.IsNearest d b ∧ ∀ d', g.IsNearest d' b → d' = d := by
  have hwf := Module.wellFormed_of_validate hm
  obtain ⟨g, hg, -⟩ := hwf.flow f hf
  obtain ⟨t, ht, hdom⟩ := exists_dominance hg (hwf.function f hf).blocks
  refine ⟨g, t, hg, ht, hdom.nodes, fun a b => ?_, hdom.dominators, hdom.immediate⟩
  rw [Dominance.dominates, decide_eq_true_iff]
  exact hdom.dominators a b

theorem exists_dominance_weaving : weaving.validate = .ok () ∧ weave ∈ weaving.functions ∧
    ∃ g t, ofFunction weave = .ok g ∧ g.dominance = .ok t ∧
      (∀ b, b ∈ t.nodes ↔ g.Reached b) ∧
      (∀ a b, t.dominates a b = true ↔ g.Dominates a b) ∧
      (∀ a b, a ∈ t.dominators b ↔ g.Dominates a b) ∧
      ∀ b, g.Reached b → b ≠ g.entry →
        ∃ d, t.immediate? b = some d ∧ g.IsNearest d b ∧ ∀ d', g.IsNearest d' b → d' = d :=
  ⟨validate_weaving, weave_mem_weaving,
    exists_dominance_forall_path validate_weaving weave_mem_weaving⟩

end FlowGraph

end ConstantTime
