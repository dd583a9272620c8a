/-
The post-dominators of a block are the blocks on every way out of it.

A way out leads along the edges of the flow graph to an exit, from any block, whether a path leads
to that block or not. The tree from the virtual exit is grown by the same iteration as the
dominance tree, on the graph turned around, and two functions that do not know of each other tell
it the edges: `exitGraph` gives the order, `succsOrExit` the predecessors. They agree if no block
shares the name of the virtual exit. Then a way of the iteration is a way out with the virtual exit
behind it, read in the direction in which control goes, and only the root of the tree is not a
block.
-/
import ConstantTime.Proofs.Dominators

set_option autoImplicit false

namespace ConstantTime.FlowGraph

variable {f : Function} {g : FlowGraph} {shared : List Location}

/-! ## Ways out

The notions that callers see. None of them mentions the virtual exit. -/

/-- The list leads from the block along the edges to an exit. -/
inductive WayOut (g : FlowGraph) : String → List String → Prop
  | leave {b : String} : b ∈ g.exits → WayOut g b [b]
  | step {b c : String} {path : List String} :
    c ∈ g.succs b → WayOut g c path → WayOut g b (b :: path)

/-- Some exit can be reached from the block. -/
def LeadsOut (g : FlowGraph) (b : String) : Prop := ∃ path, g.WayOut b path

/-- Both blocks lead out, and every way out of `b` leads through `a`. -/
def PostDominates (g : FlowGraph) (a b : String) : Prop :=
  g.LeadsOut a ∧ g.LeadsOut b ∧ ∀ path, g.WayOut b path → a ∈ path

/-- The block `d` is a strict post-dominator of `b`, and every other strict post-dominator of `b`
post-dominates it. -/
def IsNearestPost (g : FlowGraph) (d b : String) : Prop :=
  (d ≠ b ∧ g.PostDominates d b) ∧ ∀ a, a ≠ b → g.PostDominates a b → a ≠ d → g.PostDominates a d

/-- What the tree from the virtual exit says of the blocks and the ways out of them. -/
structure IsPostDominance (g : FlowGraph) (t : Dominance String) : Prop where
  nodes : ∀ n, n ∈ t.nodes ↔ n = virtualExit ∨ g.LeadsOut n
  dominators : ∀ a b, a ≠ virtualExit → (a ∈ t.dominators b ↔ g.PostDominates a b)
  immediate : ∀ b, g.LeadsOut b → ∃ d, t.immediate? b = some d ∧
    (d = virtualExit ↔ ∀ a, a ≠ b → ¬ g.PostDominates a b) ∧
    (d ≠ virtualExit → g.IsNearestPost d b ∧ ∀ d', g.IsNearestPost d' b → d' = d)

theorem WayOut.mem_path {b : String} {path : List String} (h : g.WayOut b path) : b ∈ path := by
  cases h <;> exact List.mem_cons_self

/-- A way out starts at a block. -/
theorem WayOut.mem_blocks (h : ofFunction f = .ok g)
    (hf : (f.blocks.map Block.id).Nodup) {b : String} {path : List String}
    (hout : g.WayOut b path) : b ∈ g.blocks := by
  cases hout with
  | leave hexit =>
    obtain ⟨blk, hblk, rfl, -⟩ := (mem_exits_iff h hf).1 hexit
    rw [blocks_eq h]
    exact List.mem_map_of_mem hblk
  | step hsucc _ => exact Digraph.Edge.mem_nodes hsucc

/-! ## The graph turned around

The edges of `exitGraph` are those of the flow graph turned around, with one from the virtual exit
to each exit. -/

/-- A block that control can leave to, or that leads somewhere, is listed in the graph turned
around. -/
theorem mem_exitGraph_succs_iff {p b : String} (hp : p = virtualExit ∨ p ∈ g.graph.everyNode) :
    b ∈ g.exitGraph.succs p ↔ b ∈ if p = virtualExit then g.exits else g.preds p := by
  have hlisted : p ∈ distinct (virtualExit :: g.graph.everyNode) := by
    rw [mem_distinct, List.mem_cons]
    exact hp
  rw [Digraph.succs, exitGraph, Assoc.find?_map, if_pos hlisted, Option.getD_some]

/-- An exit is entered from the virtual exit. -/
theorem edge_exitGraph_of_mem_exits {b : String} (hb : b ∈ g.exits) :
    g.exitGraph.Edge virtualExit b := by
  apply (mem_exitGraph_succs_iff (.inl rfl)).2
  rw [if_pos rfl]
  exact hb

/-- All other edges are those of the flow graph. -/
theorem edge_exitGraph_of_mem_succs (h : ofFunction f = .ok g) (hf : (f.blocks.map Block.id).Nodup)
    {b c : String} (hc : c ∈ g.succs b) (hne : c ≠ virtualExit) : g.exitGraph.Edge c b := by
  have hlisted : c ∈ g.graph.everyNode := by
    have hline := Digraph.mem_adj_of_succs_ne_nil (List.ne_nil_of_mem hc)
    rw [Digraph.everyNode, mem_distinct, List.mem_append, List.mem_flatMap]
    exact .inr ⟨_, hline, hc⟩
  apply (mem_exitGraph_succs_iff (.inr hlisted)).2
  rw [if_neg hne]
  exact (mem_preds_iff h hf).2 hc

/-- Control goes to a node other than the virtual exit along an edge. -/
theorem mem_succs_of_mem_succsOrExit {b c : String} (hc : c ∈ g.succsOrExit b)
    (hne : c ≠ virtualExit) :
    c ∈ g.succs b := by
  rw [succsOrExit] at hc
  split at hc
  · rcases List.mem_append.1 hc with hc | hc
    · exact hc
    · exact absurd (List.mem_singleton.1 hc) hne
  · exact hc

/-- Only the virtual exit is on every way to itself. -/
theorem eq_virtualExit_of_onEveryWay {order : List String} {a : String}
    (hall : Dominance.OnEveryWay order g.succsOrExit virtualExit a virtualExit) : a = virtualExit :=
  List.mem_singleton.1 (hall _ 0 .start)

/-! ## Ways out as ways of the iteration

What follows is about a function without a block of the virtual exit's name. -/

section Unshared

variable (h : ofFunction f = .ok g) (hf : f.WellFormed shared) (hname : virtualExit ∉ g.blocks)

include h hf hname

/-- Ways out lead through blocks only. -/
theorem WayOut.ne_virtualExit {b : String} {path : List String} (hout : g.WayOut b path) :
    b ≠ virtualExit := by
  rintro rfl
  exact hname (hout.mem_blocks h hf.blocks)

theorem ne_virtualExit_of_mem_succs {b c : String} (hc : c ∈ g.succs b) : c ≠ virtualExit := by
  rintro rfl
  exact hname (succs_subset h hf hc)

/-- Control goes to the virtual exit from the exits. -/
theorem virtualExit_mem_succsOrExit {b : String} (hb : virtualExit ∈ g.succsOrExit b) :
    b ∈ g.exits := by
  by_contra hexit
  rw [succsOrExit, if_neg hexit] at hb
  exact ne_virtualExit_of_mem_succs h hf hname hb rfl

/-- Nothing follows the virtual exit. -/
theorem succsOrExit_virtualExit : g.succsOrExit virtualExit = [] := by
  have hexit : virtualExit ∉ g.exits := fun he => (WayOut.leave he).ne_virtualExit h hf hname rfl
  rw [succsOrExit, if_neg hexit]
  by_contra hne
  obtain ⟨c, hc⟩ := List.exists_mem_of_ne_nil _ hne
  exact hname (Digraph.Edge.mem_nodes hc)

/-- A block with a way out is met on the graph turned around. -/
theorem WayOut.mem_order {b : String} {path : List String} (hout : g.WayOut b path) :
    b ∈ g.exitGraph.reversePostOrder virtualExit := by
  have hreaches : g.exitGraph.Reaches virtualExit b := by
    induction hout with
    | leave hb =>
      exact Digraph.Reaches.head (edge_exitGraph_of_mem_exits hb) (Digraph.Reaches.refl _ _)
    | step hc _ ih =>
      have hne := ne_virtualExit_of_mem_succs h hf hname hc
      exact Relation.ReflTransGen.tail ih (edge_exitGraph_of_mem_succs h hf.blocks hc hne)
  exact (Digraph.mem_reversePostOrder_iff _ _ b).2 hreaches

/-- A way out, with the virtual exit behind it, is a way of the iteration. -/
theorem WayOut.exists_way {b : String} {path : List String} (hout : g.WayOut b path) :
    ∃ k, Dominance.Way (g.exitGraph.reversePostOrder virtualExit) g.succsOrExit virtualExit
      (path ++ [virtualExit]) b k := by
  induction hout with
  | @leave b hb =>
    have hlast : virtualExit ∈ g.succsOrExit b := by
      rw [succsOrExit, if_pos hb]
      exact List.mem_append_right _ (List.mem_singleton_self _)
    exact ⟨_, Dominance.Way.start.step hlast ((WayOut.leave hb).mem_order h hf hname)⟩
  | @step b c path hc hout ih =>
    obtain ⟨k, hway⟩ := ih
    have hnext : c ∈ g.succsOrExit b := by
      rw [succsOrExit]
      split
      · exact List.mem_append_left _ hc
      · exact hc
    exact ⟨_, hway.step hnext ((WayOut.step hc hout).mem_order h hf hname)⟩

/-- A way of the iteration to a block is a way out, with the virtual exit behind it. -/
theorem exists_wayOut_of_way {order way : List String} {b : String} {k : Nat}
    (hway : Dominance.Way order g.succsOrExit virtualExit way b k) (hne : b ≠ virtualExit) :
    ∃ path, way = path ++ [virtualExit] ∧ g.WayOut b path := by
  induction hway with
  | start => exact absurd rfl hne
  | @step way p n k hway hp _ ih =>
    by_cases hroot : p = virtualExit
    · subst hroot
      -- the way so far is the root alone, for nothing follows the virtual exit
      have hstart : way = [virtualExit] := by
        cases hway with
        | start => rfl
        | step _ hq _ =>
          rw [succsOrExit_virtualExit h hf hname] at hq
          exact absurd hq List.not_mem_nil
      rw [hstart]
      exact ⟨[n], rfl, .leave (virtualExit_mem_succsOrExit h hf hname hp)⟩
    · obtain ⟨path, hpath, hout⟩ := ih hroot
      rw [hpath]
      exact ⟨n :: path, rfl, .step (mem_succs_of_mem_succsOrExit hp hroot) hout⟩

/-! ## The tree against the ways out

Being on every way of the iteration is being on every way out. The results on the dominance tree
then apply. -/

/-- The order of the iteration has the blocks with a way out, and the virtual exit. -/
theorem leadsOut_iff {b : String} :
    g.LeadsOut b ↔ b ∈ g.exitGraph.reversePostOrder virtualExit ∧ b ≠ virtualExit := by
  constructor
  · rintro ⟨path, hout⟩
    exact ⟨hout.mem_order h hf hname, hout.ne_virtualExit h hf hname⟩
  · rintro ⟨hmem, hne⟩
    obtain ⟨way, hway⟩ := Dominance.Way.exists_zero (numbering_exitGraph h hf.blocks) b hmem
    obtain ⟨path, -, hout⟩ := exists_wayOut_of_way h hf hname hway hne
    exact ⟨path, hout⟩

/-- To be on every way of the iteration to a block is to be on every way out of it. -/
theorem onEveryWay_iff {a b : String} (ha : a ≠ virtualExit) (hb : b ≠ virtualExit) :
    Dominance.OnEveryWay (g.exitGraph.reversePostOrder virtualExit) g.succsOrExit virtualExit a b ↔
      ∀ path, g.WayOut b path → a ∈ path := by
  constructor
  · intro hall path hout
    obtain ⟨k, hway⟩ := hout.exists_way h hf hname
    rcases List.mem_append.1 (hall _ k hway) with hmem | hmem
    · exact hmem
    · exact absurd (List.mem_singleton.1 hmem) ha
  · intro hall way k hway
    obtain ⟨path, rfl, hout⟩ := exists_wayOut_of_way h hf hname hway hb
    exact List.mem_append_left _ (hall path hout)

/-- Post-dominance as a statement about the ways of the iteration. -/
theorem postDominates_iff {a b : String} (ha : a ≠ virtualExit) :
    g.PostDominates a b ↔ b ∈ g.exitGraph.reversePostOrder virtualExit ∧
      Dominance.OnEveryWay (g.exitGraph.reversePostOrder virtualExit) g.succsOrExit
        virtualExit a b := by
  constructor
  · rintro ⟨-, hb, hall⟩
    obtain ⟨hmem, hne⟩ := (leadsOut_iff h hf hname).1 hb
    exact ⟨hmem, (onEveryWay_iff h hf hname ha hne).2 hall⟩
  · rintro ⟨hmem, hall⟩
    have hne : b ≠ virtualExit := by
      rintro rfl
      exact ha (eq_virtualExit_of_onEveryWay hall)
    -- a block on every way to a listed one is listed itself
    have hn := numbering_exitGraph h hf.blocks
    obtain ⟨way, hway⟩ := Dominance.Way.exists_zero hn b hmem
    have hamem := hway.path_subset hn a (hall way 0 hway)
    refine ⟨(leadsOut_iff h hf hname).2 ⟨hamem, ha⟩, (leadsOut_iff h hf hname).2 ⟨hmem, hne⟩, ?_⟩
    exact (onEveryWay_iff h hf hname ha hne).1 hall

/-- **The tree from the virtual exit is exact.** -/
theorem exists_isPostDominance : ∃ t, g.postDominance = .ok t ∧ g.IsPostDominance t := by
  obtain ⟨t, ht, hdesc⟩ := Dominance.exists_grow (numbering_exitGraph h hf.blocks)
  have hroot : virtualExit ∈ g.exitGraph.reversePostOrder virtualExit :=
    (numbering_exitGraph h hf.blocks).root_mem
  refine ⟨t, by rw [postDominance, ht], ⟨fun n => ?_, fun a b ha => ?_, fun b hb => ?_⟩⟩
  · rw [hdesc.nodes n, leadsOut_iff h hf hname]
    by_cases hn : n = virtualExit
    · simp [hn, hroot]
    · simp [hn]
  · rw [hdesc.dominators a b, postDominates_iff h hf hname ha]
  · obtain ⟨hbmem, hbne⟩ := (leadsOut_iff h hf hname).1 hb
    obtain ⟨d, hdmem, hd, hdb, hdom, hleast⟩ := hdesc.exists_immediate hbmem hbne
    -- whatever post-dominates the block strictly is above its parent
    have habove : ∀ a, a ≠ b → g.PostDominates a b → a ≠ virtualExit ∧
        Dominance.OnEveryWay (g.exitGraph.reversePostOrder virtualExit) g.succsOrExit
          virtualExit a d := by
      intro a hab ha
      have hane := ((leadsOut_iff h hf hname).1 ha.1).2
      exact ⟨hane, hleast a hab ((postDominates_iff h hf hname hane).1 ha).2⟩
    refine ⟨d, hd, ⟨?_, ?_⟩, fun hdne => ?_⟩
    · rintro rfl a hab ha
      obtain ⟨hane, hall⟩ := habove a hab ha
      exact hane (eq_virtualExit_of_onEveryWay hall)
    · intro hnone
      by_contra hdne
      exact hnone d hdb ((postDominates_iff h hf hname hdne).2 ⟨hbmem, hdom⟩)
    · have hddom : g.PostDominates d b := (postDominates_iff h hf hname hdne).2 ⟨hbmem, hdom⟩
      have hothers : ∀ a, a ≠ b → g.PostDominates a b → g.PostDominates a d := by
        intro a hab ha
        obtain ⟨hane, hall⟩ := habove a hab ha
        exact (postDominates_iff h hf hname hane).2 ⟨hdmem, hall⟩
      refine ⟨⟨⟨hdb, hddom⟩, fun a hab ha _ => hothers a hab ha⟩, fun d' hd' => ?_⟩
      -- two nearest post-dominators would post-dominate each other
      obtain ⟨⟨hd'b, hd'dom⟩, hd'least⟩ := hd'
      by_contra hne
      have hdd' := hd'least d hdb hddom (Ne.symm hne)
      have hd'd := hothers d' hd'b hd'dom
      have hd'ne := ((leadsOut_iff h hf hname).1 hd'dom.1).2
      rw [postDominates_iff h hf hname hdne] at hdd'
      rw [postDominates_iff h hf hname hd'ne] at hd'd
      exact hne (hdesc.onEveryWay_antisymm hdd'.1 hd'd.1 hd'd.2 hdd'.2)

end Unshared

/-! ## Functions of a well-formed module

A function whose blocks do not use the name of the virtual exit. The sample has a block with no way
out. -/

/-- A function with two exits, a loop that no exit can be reached from, and a block that leads to
both exits but is never reached. -/
def scatter : Function :=
  ⟨"scatter",
    [⟨"top", [⟨.branch, ["n"], none, ["spin", "fork"], none, none⟩]⟩,
      ⟨"spin", [⟨.jump, [], none, ["spin"], none, none⟩]⟩,
      ⟨"dead", [⟨.jump, [], none, ["fork"], none, none⟩]⟩,
      ⟨"fork", [⟨.branch, ["n"], none, ["back", "away"], none, none⟩]⟩,
      ⟨"back", [⟨.ret, [], none, [], none, none⟩]⟩,
      ⟨"away", [⟨.indirectBranch, ["n"], none, [], none, none⟩]⟩],
    [⟨"n", .pub⟩], none, []⟩

def scattering : Module := ⟨"scattering", [scatter], []⟩

theorem validate_scattering : scattering.validate = .ok () := rfl

theorem scatter_mem_scattering : scatter ∈ scattering.functions := List.mem_singleton.2 rfl

/-- Its flow graph. -/
def scatterGraph : FlowGraph :=
  ⟨"top", ⟨[("top", ["spin", "fork"]), ("spin", ["spin"]), ("dead", ["fork"]),
    ("fork", ["back", "away"]), ("back", []), ("away", [])]⟩, ["back", "away"]⟩

theorem ofFunction_scatter : ofFunction scatter = .ok scatterGraph := by rfl

/-- **The post-dominance tree of a function is exact**, if no block shares the name of the virtual
exit. It is found; its nodes are the virtual exit and the blocks that lead out; of two such blocks
one post-dominates the other just if it is on every way out of it; and the node above a block is
its nearest strict post-dominator, or the virtual exit just if it has none. -/
theorem exists_postDominance_forall_wayOut {m : Module} (hm : m.validate = .ok ()) {f : Function}
    (hf : f ∈ m.functions) (hname : virtualExit ∉ f.blocks.map Block.id) :
    ∃ g t, ofFunction f = .ok g ∧ g.postDominance = .ok t ∧
      (∀ n, n ∈ t.nodes ↔ n = virtualExit ∨ n ∈ g.blocks ∧ g.LeadsOut n) ∧
      (∀ a b, g.LeadsOut a → g.LeadsOut b →
        (t.dominates a b = true ↔ ∀ path, g.WayOut b path → a ∈ path)) ∧
      ∀ b, g.LeadsOut b → ∃ d, t.immediate? b = some d ∧
        (d = virtualExit ↔ ∀ a, a ≠ b → ¬ g.PostDominates a b) ∧
        (d ≠ virtualExit → g.IsNearestPost d b ∧ ∀ d', g.IsNearestPost d' b → d' = d) := by
  have hwf := Module.wellFormed_of_validate hm
  obtain ⟨g, hg, -⟩ := hwf.flow f hf
  rw [← blocks_eq hg] at hname
  obtain ⟨t, ht, hpost⟩ := exists_isPostDominance hg (hwf.function f hf) hname
  have hblock : ∀ n, g.LeadsOut n → n ∈ g.blocks := by
    rintro n ⟨path, hout⟩
    exact hout.mem_blocks hg (hwf.function f hf).blocks
  refine ⟨g, t, hg, ht, fun n => ?_, fun a b ha hb => ?_, hpost.immediate⟩
  · rw [hpost.nodes n, and_iff_right_of_imp (hblock n)]
  · have hane := ((leadsOut_iff hg (hwf.function f hf) hname).1 ha).2
    rw [Dominance.dominates, decide_eq_true_iff, hpost.dominators a b hane]
    exact ⟨fun hab => hab.2.2, fun hall => ⟨ha, hb, hall⟩⟩

/-- The block that is never reached leads out, and the fork post-dominates it. -/
theorem exists_postDominance_scattering :
    scattering.validate = .ok () ∧ scatter ∈ scattering.functions ∧
    virtualExit ∉ scatter.blocks.map Block.id ∧
    ∃ g t, ofFunction scatter = .ok g ∧ g.postDominance = .ok t ∧ "dead" ∈ t.nodes ∧
      t.dominates "fork" "dead" = true ∧
      ∃ d, t.immediate? "dead" = some d ∧
        (d = virtualExit ↔ ∀ a, a ≠ "dead" → ¬ g.PostDominates a "dead") := by
  have hname : virtualExit ∉ scatter.blocks.map Block.id := by decide
  refine ⟨validate_scattering, scatter_mem_scattering, hname, ?_⟩
  obtain ⟨g, t, hg, ht, hnodes, hdominates, himmediate⟩ :=
    exists_postDominance_forall_wayOut validate_scattering scatter_mem_scattering hname
  cases hg.symm.trans ofFunction_scatter
  have hfork : scatterGraph.WayOut "fork" ["fork", "back"] := .step (by decide) (.leave (by decide))
  have hdead : scatterGraph.WayOut "dead" ["dead", "fork", "back"] := .step (by decide) hfork
  have hall : ∀ path, scatterGraph.WayOut "dead" path → "fork" ∈ path := by
    intro path hout
    cases hout with
    | leave hexit => exact absurd hexit (by decide)
    | @step _ c path hc hrest =>
      have hnext : scatterGraph.succs "dead" = ["fork"] := by decide
      rw [hnext, List.mem_singleton] at hc
      subst hc
      exact List.mem_cons_of_mem _ hrest.mem_path
  refine ⟨_, t, hg, ht, (hnodes "dead").2 (.inr ⟨by decide, _, hdead⟩), ?_, ?_⟩
  · exact (hdominates "fork" "dead" ⟨_, hfork⟩ ⟨_, hdead⟩).2 hall
  · obtain ⟨d, hd, hvirtual, -⟩ := himmediate "dead" ⟨_, hdead⟩
    exact ⟨d, hd, hvirtual⟩

end ConstantTime.FlowGraph
