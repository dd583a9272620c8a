/-
Natural loops, said by ways.

The search for loops tests single edges: an edge is taken for one back to a header if the block
that it leads to dominates the block that it leaves. The body is then collected backwards from the
latches. That the header dominates the whole body is not tested anywhere. It holds because a way
from the entry around the header to a block of the body could go on to a latch, and the header
dominates the latch.

Main statement: there is one loop for every block with a latch, in block order, and its latches and
body are those that the ways describe. A cycle that can be entered at two blocks has no latch and
is no loop.
-/
import ConstantTime.Proofs.SameFlow
import ConstantTime.Proofs.Ways

set_option autoImplicit false

namespace ConstantTime

/-- What is kept of the elements of a list stands in their order, if a key tells which one it was
made of. -/
theorem map_filterMap_sublist {α β : Type} {make : α → Option β} {key : β → α}
    (hkey : ∀ x y, make x = some y → key y = x) (xs : List α) :
    ((xs.filterMap make).map key).Sublist xs := by
  induction xs with
  | nil => exact .slnil
  | cons x xs ih =>
    cases hx : make x with
    | none =>
      rw [List.filterMap_cons_none hx]
      exact ih.cons x
    | some y =>
      rw [List.filterMap_cons_some hx, List.map_cons, hkey x y hx]
      exact ih.cons_cons x

namespace FlowGraph

variable {f : Function} {g : FlowGraph} {loops : List Loop}

/-- A reachable block that leads back to the header and that the header dominates. -/
structure IsLatch (g : FlowGraph) (header latch : String) : Prop where
  reached : g.Reached latch
  back : header ∈ g.succs latch
  dominated : g.Dominates header latch

/-- What a natural loop is. -/
structure IsNaturalLoop (g : FlowGraph) (l : Loop) : Prop where
  latches : ∀ t, t ∈ l.latches ↔ g.IsLatch l.header t
  distinct : l.latches.Nodup
  body : ∀ b, b ∈ l.body ↔
    b = l.header ∨ g.Reached b ∧ ∃ t ∈ l.latches, ∃ path, g.Way b path t ∧ l.header ∉ path
  dominates : ∀ b ∈ l.body, g.Dominates l.header b
  closed : ∀ b ∈ l.body, b ≠ l.header → ∀ p, g.Reached p → b ∈ g.succs p → p ∈ l.body

/-! ## The list of loops

Loops are listed in the order of their headers, and no latch twice. -/

/-- Every header is a block, and headers stand in block order. -/
theorem header_sublist (hloops : g.loops = .ok loops) :
    (loops.map Loop.header).Sublist g.blocks := by
  unfold FlowGraph.loops at hloops
  split at hloops
  · cases hloops
  · cases hloops
    apply map_filterMap_sublist
    intro header l hl
    obtain ⟨-, heq⟩ := Option.ite_none_left_eq_some.1 hl
    cases heq
    rfl

theorem nodup_latches (hloops : g.loops = .ok loops) {l : Loop} (hl : l ∈ loops) :
    l.latches.Nodup := by
  unfold FlowGraph.loops at hloops
  split at hloops
  · cases hloops
  · cases hloops
    obtain ⟨header, -, hsome⟩ := List.mem_filterMap.1 hl
    obtain ⟨-, heq⟩ := Option.ite_none_left_eq_some.1 hsome
    cases heq
    dsimp only
    exact (Digraph.nodup_reversePostOrder g.graph g.entry).filter _

/-! ## The body of a loop

The backward search from the latches around the header, said by ways. -/

/-- The backward search along reachable blocks, around the header, finds the reachable blocks that
lead to a latch. -/
theorem mem_loopBody_iff (hg : ofFunction f = .ok g) (hf : (f.blocks.map Block.id).Nodup)
    {header : String} {latches : List String} (hlatches : ∀ t ∈ latches, g.Reached t) {b : String} :
    b ∈ g.loopBody g.reachable header latches ↔
      b = header ∨ g.Reached b ∧ ∃ t ∈ latches, ∃ path, g.Way b path t ∧ header ∉ path := by
  have hedge : ∀ {a c : String}, (Digraph.without ⟨g.graph.flip.adj.map fun e =>
      (e.1, e.2.filter fun b => decide (b ∈ g.reachable))⟩ [header]).Edge a c ↔
        a ∈ g.succs c ∧ g.Reached c ∧ a ≠ header ∧ c ≠ header := by
    intro a c
    rw [Digraph.edge_without_iff, Digraph.edge_filter_iff,
      Digraph.edge_flip_iff (nodes_nodup hg hf), mem_reachable_iff, List.mem_singleton,
      List.mem_singleton, and_assoc]
    rfl
  rw [loopBody, List.mem_cons, Digraph.mem_reachAvoiding_iff]
  refine or_congr_right ?_
  constructor
  · -- the search goes against the edges, so each of its steps puts a block in front of the way
    rintro ⟨t, ht, hclear, hreaches⟩
    induction hreaches with
    | refl =>
      rw [List.mem_singleton] at hclear
      exact ⟨hlatches t ht, t, ht, [t], .here t, mt List.mem_singleton.1 (Ne.symm hclear)⟩
    | @tail c b _ hcb ih =>
      obtain ⟨hnext, hreached, -, hne⟩ := hedge.1 hcb
      obtain ⟨-, t, ht, path, hway, hnot⟩ := ih
      refine ⟨hreached, t, ht, b :: path, .step hnext hway, fun hmem => ?_⟩
      rcases List.mem_cons.1 hmem with heq | hmem
      · exact hne heq.symm
      · exact hnot hmem
  · rintro ⟨hreached, t, ht, path, hway, hnot⟩
    have hlast : t ∉ [header] := by
      rw [List.mem_singleton]
      rintro rfl
      exact hnot hway.last_mem
    refine ⟨t, ht, hlast, ?_⟩
    -- the bounds on `t` would become part of the induction hypothesis
    clear ht hlast
    induction hway with
    | here => exact Digraph.Reaches.refl _ _
    | @step a c t path hnext hway ih =>
      rw [List.mem_cons, not_or] at hnot
      obtain ⟨hne, hrest⟩ := hnot
      have hc : g.Reached c := hreached.way (.step hnext (.here c))
      have hne' : c ≠ header := fun heq => hrest (heq ▸ hway.head_mem)
      exact Relation.ReflTransGen.tail (ih hc hrest) (hedge.2 ⟨hnext, hreached, hne', Ne.symm hne⟩)

/-- A block that leads around the header to a block that the header dominates is dominated by it as
well. -/
theorem Dominates.of_way_around {header b t : String} (ht : g.Dominates header t) (hb : g.Reached b)
    {path : List String} (hway : g.Way b path t) (hnot : header ∉ path) : g.Dominates header b := by
  apply hb.dominates_iff_way.2
  intro before hbefore
  obtain ⟨whole, hwhole, hsub⟩ := hbefore.append hway
  have hmem := ht.2.1.dominates_iff_way.1 ht whole hwhole
  exact (hsub header hmem).resolve_right hnot

/-- What the search lists as a loop is a natural loop. -/
theorem IsLoop.isNaturalLoop (hg : ofFunction f = .ok g)
    (hf : (f.blocks.map Block.id).Nodup) {l : Loop} (h : g.IsLoop l) (hdistinct : l.latches.Nodup) :
    g.IsNaturalLoop l := by
  have hlatches : ∀ t, t ∈ l.latches ↔ g.IsLatch l.header t := by
    intro t
    rw [h.latches]
    exact ⟨fun ht => ⟨ht.1, ht.2.1, ht.2.2⟩, fun ht => ⟨ht.reached, ht.back, ht.dominated⟩⟩
  have hbody : ∀ b, b ∈ l.body ↔
      b = l.header ∨ g.Reached b ∧ ∃ t ∈ l.latches, ∃ path, g.Way b path t ∧ l.header ∉ path := by
    intro b
    rw [h.body]
    exact mem_loopBody_iff hg hf fun t ht => ((hlatches t).1 ht).reached
  refine ⟨hlatches, hdistinct, hbody, ?_, ?_⟩
  · intro b hb
    rcases (hbody b).1 hb with rfl | ⟨hreached, t, ht, path, hway, hnot⟩
    · obtain ⟨t, ht⟩ := List.exists_mem_of_ne_nil _ h.latched
      exact ((hlatches t).1 ht).dominated.1.dominates_self
    · exact ((hlatches t).1 ht).dominated.of_way_around hreached hway hnot
  · intro b hb hne p hp hnext
    apply (hbody p).2
    by_cases hheader : p = l.header
    · exact .inl hheader
    · obtain ⟨-, t, ht, path, hway, hnot⟩ := ((hbody b).1 hb).resolve_left hne
      refine .inr ⟨hp, t, ht, p :: path, .step hnext hway, ?_⟩
      rw [List.mem_cons, not_or]
      exact ⟨Ne.symm hheader, hnot⟩

/-! ## Functions of a validated module

The statement for callers. In the sample a circle with two entrances is no loop, and the larger
circle around it is one. -/

/-- The flow graph of the function with a loop that is entered at two blocks. -/
def weaveGraph : FlowGraph :=
  ⟨"top", ⟨[("top", ["left", "right"]), ("left", ["right", "out"]), ("dead", ["left"]),
    ("right", ["left", "top"]), ("out", [])]⟩, ["out"]⟩

theorem ofFunction_weave : ofFunction weave = .ok weaveGraph := by rfl

/-- **The loops of a function are exact.** They are found, one for each block that a reachable
block leads back to and that dominates it, in block order. The latches of a loop are these blocks;
its body is the header and the reachable blocks that lead to a latch around the header; the header
dominates the body, and the body is entered at the header alone. -/
theorem exists_loops_forall_way {m : Module} (hm : m.validate = .ok ()) {f : Function}
    (hf : f ∈ m.functions) :
    ∃ g loops, ofFunction f = .ok g ∧ g.loops = .ok loops ∧
      (loops.map Loop.header).Sublist (f.blocks.map Block.id) ∧ (loops.map Loop.header).Nodup ∧
      (∀ header, header ∈ loops.map Loop.header ↔ ∃ t, g.IsLatch header t) ∧
      ∀ l ∈ loops, g.IsNaturalLoop l := by
  have hwf := Module.wellFormed_of_validate hm
  obtain ⟨g, hg, -⟩ := hwf.flow f hf
  have hblocks := (hwf.function f hf).blocks
  obtain ⟨loops, hloops⟩ := exists_loops hg hblocks
  obtain ⟨hsound, hcomplete⟩ := loops_spec hg hblocks hloops
  have hsublist := header_sublist hloops
  rw [blocks_eq hg] at hsublist
  have hexact : ∀ l ∈ loops, g.IsNaturalLoop l := fun l hl =>
    (hsound l hl).isNaturalLoop hg hblocks (nodup_latches hloops hl)
  refine ⟨g, loops, hg, hloops, hsublist, hblocks.sublist hsublist, fun header => ?_, hexact⟩
  constructor
  · intro hmem
    obtain ⟨l, hl, rfl⟩ := List.mem_map.1 hmem
    obtain ⟨t, ht⟩ := List.exists_mem_of_ne_nil _ (hsound l hl).latched
    exact ⟨t, ((hexact l hl).latches t).1 ht⟩
  · rintro ⟨t, ht⟩
    have hblock := succs_subset hg (hwf.function f hf) ht.back
    obtain ⟨l, hl, rfl⟩ := hcomplete header t hblock ht.reached ht.back ht.dominated
    exact List.mem_map_of_mem hl

/-- The one loop is that of the first block. It takes in both blocks of the cycle that is entered
twice, and not the block that is never reached. -/
theorem exists_loops_weaving : weaving.validate = .ok () ∧ weave ∈ weaving.functions ∧
    ∃ g loops, ofFunction weave = .ok g ∧ g.loops = .ok loops ∧ loops.map Loop.header = ["top"] ∧
      ∀ l ∈ loops, g.IsLatch "top" "right" ∧ "left" ∈ l.body ∧ "dead" ∉ l.body ∧
        g.Dominates "top" "left" := by
  refine ⟨validate_weaving, weave_mem_weaving, ?_⟩
  obtain ⟨g, loops, hg, hloops, -, -, -, hexact⟩ :=
    exists_loops_forall_way validate_weaving weave_mem_weaving
  cases hg.symm.trans ofFunction_weave
  have hfound : weaveGraph.loops.map (List.map fun l => (l.header, l.latches)) =
      .ok [("top", ["right"])] := by rfl
  rw [hloops] at hfound
  obtain ⟨l, rfl, hl⟩ := List.map_eq_singleton_iff.1 (Except.ok.inj hfound)
  obtain ⟨hheader, hlatches⟩ := Prod.mk.inj hl
  have hloop := hexact l (List.mem_singleton_self l)
  have hlatch : "right" ∈ l.latches := by
    rw [hlatches]
    exact List.mem_singleton_self _
  have hleft : "left" ∈ l.body := by
    apply (hloop.body "left").2
    rw [hheader]
    have hreached : weaveGraph.Reached "left" := mem_reachable_iff.1 (by decide)
    exact .inr
      ⟨hreached, "right", hlatch, ["left", "right"], .step (by decide) (.here _), by decide⟩
  have hdead : "dead" ∉ l.body := by
    intro hmem
    have hnot : "dead" ∉ weaveGraph.reachable := by decide
    exact hnot (mem_reachable_iff.2 (hloop.dominates "dead" hmem).2.1)
  refine ⟨weaveGraph, [l], hg, hloops, by rw [List.map_singleton, hheader], fun l' hl' => ?_⟩
  rw [List.mem_singleton.1 hl', ← hheader]
  exact ⟨(hloop.latches _).1 hlatch, hleft, hdead, hloop.dominates _ hleft⟩

end FlowGraph

end ConstantTime
