/-
What a flow graph says does not depend on how it is listed.

Two flow graphs have the same flow if they have the same entry, blocks, edges and exits. Then they
have the same paths and ways out, and so the same dominators and post-dominators, each of which is
unique. The loops of one are those of the other, although their blocks and latches may be listed in
another order.
-/
import ConstantTime.Check.SecretPath
import ConstantTime.Proofs.AvoidingSearch
import ConstantTime.Proofs.PathRuns
import ConstantTime.Proofs.PostDominators

set_option autoImplicit false

namespace ConstantTime

namespace FlowGraph

/-- The entry, the blocks, the edges and the exits are the same, in whatever order they are
listed. -/
structure SameFlow (g g' : FlowGraph) : Prop where
  entry : g'.entry = g.entry
  blocks : g'.blocks.Perm g.blocks
  succs : ∀ b, (g'.succs b).Perm (g.succs b)
  exits : ∀ b, b ∈ g'.exits ↔ b ∈ g.exits

namespace SameFlow

variable {g g' : FlowGraph}

theorem symm (h : g.SameFlow g') : g'.SameFlow g :=
  ⟨h.entry.symm, h.blocks.symm, fun b => (h.succs b).symm, fun b => (h.exits b).symm⟩

variable (h : g.SameFlow g')

include h

theorem sameEdges : g.graph.SameEdges g'.graph := fun a _ => (h.succs a).mem_iff

/-- Predecessors are read off the edges, too. -/
theorem mem_preds_iff (hn : g.blocks.Nodup) {p b : String} : p ∈ g'.preds b ↔ p ∈ g.preds b := by
  have hn' : g'.blocks.Nodup := h.blocks.nodup_iff.2 hn
  exact (Digraph.mem_preds_iff hn').trans ((h.sameEdges p b).trans (Digraph.mem_preds_iff hn).symm)

/-! ## Paths and ways out

All these are defined by the edges, so they are the same. The order in which edges are listed plays
no part. -/

/-- The same paths lead from the entry. -/
theorem isPath_iff {path : List String} : g'.IsPath path ↔ g.IsPath path := by
  have hsuccs : ∀ a b, b ∈ g'.succs a ↔ b ∈ g.succs a := fun a b => (h.succs a).mem_iff
  rw [IsPath, IsPath, h.entry]
  simp only [hsuccs]

theorem reached_iff {b : String} : g'.Reached b ↔ g.Reached b := exists_congr fun _ => h.isPath_iff

theorem mem_reachable_iff {b : String} : b ∈ g'.reachable ↔ b ∈ g.reachable := by
  rw [FlowGraph.mem_reachable_iff, FlowGraph.mem_reachable_iff, h.reached_iff]

/-- Searches that avoid some blocks find the same. -/
theorem mem_reachableFrom_iff {starts avoid : List String} {b : String} :
    b ∈ g'.reachableFrom starts avoid ↔ b ∈ g.reachableFrom starts avoid :=
  h.sameEdges.mem_reachAvoiding_iff fun _ => Iff.rfl

/-- A dominator is on every path, and the paths are the same. -/
theorem dominates_iff {a b : String} : g'.Dominates a b ↔ g.Dominates a b := by
  simp only [Dominates, h.reached_iff, h.isPath_iff]

/-- A way out of the one graph is one of the other. -/
theorem wayOut {b : String} {path : List String} (hout : g.WayOut b path) : g'.WayOut b path := by
  induction hout with
  | leave hb => exact .leave ((h.exits _).2 hb)
  | step hc _ ih => exact .step ((h.succs _).mem_iff.2 hc) ih

theorem wayOut_iff {b : String} {path : List String} : g'.WayOut b path ↔ g.WayOut b path :=
  ⟨h.symm.wayOut, h.wayOut⟩

theorem leadsOut_iff {b : String} :
    g'.LeadsOut b ↔ g.LeadsOut b := exists_congr fun _ => h.wayOut_iff

/-- So post-dominators are the same. -/
theorem postDominates_iff {a b : String} : g'.PostDominates a b ↔ g.PostDominates a b := by
  simp only [PostDominates, h.leadsOut_iff, h.wayOut_iff]

/-- And so are the nearest ones. -/
theorem isNearestPost_iff {d b : String} : g'.IsNearestPost d b ↔ g.IsNearestPost d b := by
  simp only [IsNearestPost, h.postDominates_iff]

/-! ## Where the arms of a branch meet

Post-dominators are the same, and the nearest of them is unique. So the two trees give the same
block. -/

omit h in
/-- A block that is not in the tree has no parent. -/
theorem immediate?_eq_none {t : Dominance String} {b : String} (hb : b ∉ t.nodes) :
    t.immediate? b = none := by
  rw [Dominance.immediate?, Assoc.find?_eq_none_iff.2 hb]

/-- **The arms of a branch meet at the same block**, since a nearest post-dominator is unique. -/
theorem joinBlock?_eq {t t' : Dominance String} (ht : g.IsPostDominance t)
    (ht' : g'.IsPostDominance t') {b : String} (hb : b ≠ virtualExit) :
    Context.joinBlock? t' b = Context.joinBlock? t b := by
  have himmediate : t'.immediate? b = t.immediate? b := by
    by_cases hout : g.LeadsOut b
    · obtain ⟨d, hd, hnone, hnear⟩ := ht.immediate b hout
      obtain ⟨d', hd', hnone', hnear'⟩ := ht'.immediate b (h.leadsOut_iff.2 hout)
      have hexit : d' = virtualExit ↔ d = virtualExit := by
        rw [hnone, hnone']
        simp only [h.postDominates_iff]
      rw [hd, hd']
      by_cases hd₁ : d = virtualExit
      · rw [hd₁, hexit.2 hd₁]
      · have hsame := (hnear' (mt hexit.1 hd₁)).1
        rw [(hnear hd₁).2 d' (h.isNearestPost_iff.1 hsame)]
    · have hnot : b ∉ t.nodes := by
        rw [ht.nodes]
        exact not_or.2 ⟨hb, hout⟩
      have hnot' : b ∉ t'.nodes := by
        rw [ht'.nodes, h.leadsOut_iff]
        exact not_or.2 ⟨hb, hout⟩
      rw [immediate?_eq_none hnot, immediate?_eq_none hnot']
  rw [Context.joinBlock?, Context.joinBlock?, himmediate]

end SameFlow

/-! ## Loops

A loop is known by its header. Its latches and blocks are the same sets in both graphs. -/

variable {f : Function} {g g' : FlowGraph} {loops loops' : List Loop}

/-- What a loop is made of. -/
structure IsLoop (g : FlowGraph) (l : Loop) : Prop where
  header : l.header ∈ g.blocks
  latches : ∀ b, b ∈ l.latches ↔ g.Reached b ∧ l.header ∈ g.succs b ∧ g.Dominates l.header b
  latched : l.latches ≠ []
  body : l.body = g.loopBody g.reachable l.header l.latches

/-- The loops are those of the blocks that a block they dominate leads back to. -/
theorem loops_spec (hg : ofFunction f = .ok g) (hf : (f.blocks.map Block.id).Nodup)
    (hloops : g.loops = .ok loops) :
    (∀ l ∈ loops, g.IsLoop l) ∧ ∀ header latch, header ∈ g.blocks → g.Reached latch →
      header ∈ g.succs latch →
      g.Dominates header latch → ∃ l ∈ loops, l.header = header := by
  obtain ⟨dom, hdom, hexact⟩ := exists_dominance hg hf
  have hlatch : ∀ header b, b ∈ g.reversePostOrder.filter (fun b =>
      decide (header ∈ g.succs b) && dom.dominates header b) ↔
        g.Reached b ∧ header ∈ g.succs b ∧ g.Dominates header b := by
    intro header b
    rw [List.mem_filter, Bool.and_eq_true, decide_eq_true_iff, Dominance.dominates,
      decide_eq_true_iff, hexact.dominators, reached_iff hg hf]
  simp only [FlowGraph.loops, hdom, Except.ok.injEq] at hloops
  subst hloops
  constructor
  · intro l hl
    obtain ⟨header, hheader, hsome⟩ := List.mem_filterMap.1 hl
    obtain ⟨hne, heq⟩ := Option.ite_none_left_eq_some.1 hsome
    cases heq
    exact ⟨hheader, hlatch header, fun hnil => hne (List.isEmpty_iff.2 hnil), rfl⟩
  · intro header latch hheader hreached hedge hdominates
    refine ⟨⟨header, _, _⟩, List.mem_filterMap.2 ⟨header, hheader, if_neg fun hnil => ?_⟩, rfl⟩
    have hmem := (hlatch header latch).2 ⟨hreached, hedge, hdominates⟩
    rw [List.isEmpty_iff.1 hnil] at hmem
    cases hmem

/-- A loop has the same blocks if it has the same latches. -/
theorem SameFlow.mem_loopBody_iff (h : g.SameFlow g') (hn : g.blocks.Nodup)
    {latches latches' : List String} (hlatches : ∀ b, b ∈ latches' ↔ b ∈ latches)
    {header b : String} :
    b ∈ g'.loopBody g'.reachable header latches' ↔ b ∈ g.loopBody g.reachable header latches := by
  have hback : Digraph.SameEdges
      ⟨g.graph.flip.adj.map fun e => (e.1, e.2.filter fun b => decide (b ∈ g.reachable))⟩
      ⟨g'.graph.flip.adj.map fun e => (e.1, e.2.filter fun b => decide (b ∈ g'.reachable))⟩ := by
    intro a b
    rw [Digraph.edge_filter_iff, Digraph.edge_filter_iff, h.mem_reachable_iff,
      h.sameEdges.flip hn (h.blocks.nodup_iff.2 hn) a b]
  rw [loopBody, loopBody, List.mem_cons, List.mem_cons, hback.mem_reachAvoiding_iff hlatches]

/-- **Graphs with the same flow have the same loops.** -/
theorem SameFlow.exists_loop (h : g.SameFlow g') (hg : ofFunction f = .ok g)
    (hf : (f.blocks.map Block.id).Nodup) {f' : Function} (hg' : ofFunction f' = .ok g')
    (hf' : (f'.blocks.map Block.id).Nodup) (hloops : g.loops = .ok loops)
    (hloops' : g'.loops = .ok loops') {l : Loop} (hl : l ∈ loops) :
    ∃ l' ∈ loops', l'.header = l.header ∧ ∀ b, b ∈ l'.exiting g' ↔ b ∈ l.exiting g := by
  have hloop := (loops_spec hg hf hloops).1 l hl
  obtain ⟨latch, hlatch⟩ := List.exists_mem_of_ne_nil _ hloop.latched
  obtain ⟨hreached, hedge, hdominates⟩ := (hloop.latches latch).1 hlatch
  obtain ⟨l', hl', hheader⟩ :=
    (loops_spec hg' hf' hloops').2 l.header latch (h.blocks.mem_iff.2 hloop.header)
    (h.reached_iff.2 hreached) ((h.succs latch).mem_iff.2 hedge) (h.dominates_iff.2 hdominates)
  have hloop' := (loops_spec hg' hf' hloops').1 l' hl'
  have hlatches : ∀ b, b ∈ l'.latches ↔ b ∈ l.latches := by
    intro b
    rw [hloop.latches, hloop'.latches, hheader, h.reached_iff, (h.succs b).mem_iff, h.dominates_iff]
  have hbody : ∀ b, b ∈ l'.body ↔ b ∈ l.body := by
    intro b
    rw [hloop.body, hloop'.body, hheader]
    exact h.mem_loopBody_iff (nodes_nodup hg hf) hlatches
  refine ⟨l', hl', hheader, fun b => ?_⟩
  simp only [Loop.exiting, List.mem_filter, Bool.and_eq_true, decide_eq_true_iff,
    List.any_eq_true, hbody, h.blocks.mem_iff, (h.succs b).mem_iff]

end FlowGraph

end ConstantTime
