/-
Ways from block to block.

A way lists the blocks that control passes from one block to another along the edges, both ends
included. Ways are put together where one ends and the next begins, and any block of a way starts a
shorter one to the same end. From the entry they are the paths, and to an exit they are the ways
out, so dominators and post-dominators are blocks on ways.

The two searches that avoid some blocks are said by ways as well. What can be reached from some
starts is where a way that keeps clear of these blocks ends, and what can reach some targets is
where one begins. The forward search follows the successors of a block and the backward search its
listed predecessors; both see the same edges, so each search is the other turned around.
-/
import ConstantTime.Proofs.AvoidingSearch
import ConstantTime.Proofs.PathRuns
import ConstantTime.Proofs.PostDominators

set_option autoImplicit false

namespace ConstantTime

/-! ## Searching around some nodes, forwards and backwards

A search in the graph without some nodes is a search that avoids them. Turning the edges around
exchanges starts and targets. -/

namespace Digraph

variable {α : Type} [DecidableEq α] {d : Digraph α} {avoid : List α}

/-- A way around some nodes has both ends outside, or goes nowhere. -/
theorem Reaches.mem_avoid_iff {a b : α} (h : (d.without avoid).Reaches a b) :
    a ∈ avoid ↔ b ∈ avoid := by
  induction h with
  | refl => exact Iff.rfl
  | tail _ hedge ih =>
    obtain ⟨-, hb, hc⟩ := edge_without_iff.1 hedge
    rw [ih]
    exact iff_of_false hb hc

/-- Against the edges and around some nodes, one gets from the end to the start. -/
theorem reaches_flip_without_iff (hd : d.nodes.Nodup) {a b : α} :
    (d.flip.without avoid).Reaches a b ↔ (d.without avoid).Reaches b a := by
  have hedge : (d.flip.without avoid).Edge = Function.swap (d.without avoid).Edge := by
    funext a b
    show (d.flip.without avoid).Edge a b = (d.without avoid).Edge b a
    rw [edge_without_iff, edge_without_iff, edge_flip_iff hd, and_comm (a := a ∉ avoid)]
  rw [Reaches, hedge]
  exact Relation.reflTransGen_swap

end Digraph

namespace FlowGraph

variable {f : Function} {g : FlowGraph} {shared : List Location}

/-! ## Ways

A way is given by its blocks. It is built from its first block, and the lemmas allow it to be taken
apart and put together at any block. -/

/-- The list leads along the edges from the first block to the second, both included. -/
inductive Way (g : FlowGraph) : String → List String → String → Prop
  | here (b : String) : Way g b [b] b
  | step {a b c : String} {path : List String} :
    b ∈ g.succs a → Way g b path c → Way g a (a :: path) c

namespace Way

variable {a b c : String} {path rest : List String}

/-- A way begins with its first block. -/
theorem exists_eq_cons (h : g.Way a path b) : ∃ rest, path = a :: rest := by
  cases h with
  | here => exact ⟨[], rfl⟩
  | step _ _ => exact ⟨_, rfl⟩

theorem head_mem (h : g.Way a path b) : a ∈ path := by
  obtain ⟨rest, rfl⟩ := h.exists_eq_cons
  exact List.mem_cons_self

/-- And it ends with its last one. -/
theorem exists_eq_concat (h : g.Way a path b) : ∃ before, path = before ++ [b] := by
  induction h with
  | here => exact ⟨[], rfl⟩
  | @step a _ _ _ _ _ ih =>
    obtain ⟨before, rfl⟩ := ih
    exact ⟨a :: before, rfl⟩

theorem last_mem (h : g.Way a path b) : b ∈ path := by
  obtain ⟨before, rfl⟩ := h.exists_eq_concat
  exact List.mem_append_right _ (List.mem_singleton_self b)

/-- A way grows at its end by one edge. -/
theorem concat (h : g.Way a path b) (hc : c ∈ g.succs b) : g.Way a (path ++ [c]) c := by
  induction h with
  | here => exact .step hc (.here c)
  | step hedge _ ih => exact .step hedge (ih hc)

/-- Two ways make one that passes the blocks of both. -/
theorem append (h : g.Way a path b) (hrest : g.Way b rest c) :
    ∃ whole, g.Way a whole c ∧ ∀ x ∈ whole, x ∈ path ∨ x ∈ rest := by
  induction h with
  | here => exact ⟨rest, hrest, fun x hx => .inr hx⟩
  | @step a _ _ path hedge _ ih =>
    obtain ⟨whole, hwhole, hsub⟩ := ih hrest
    refine ⟨a :: whole, .step hedge hwhole, fun x hx => ?_⟩
    rcases List.mem_cons.1 hx with rfl | hx
    · exact .inl List.mem_cons_self
    · exact (hsub x hx).imp_left (List.mem_cons_of_mem a)

/-- From each of its blocks a way goes on to its end. -/
theorem exists_from (h : g.Way a path c) (hb : b ∈ path) :
    ∃ rest, g.Way b rest c ∧ rest ⊆ path := by
  induction h with
  | here c =>
    rw [List.mem_singleton.1 hb]
    exact ⟨[c], .here c, List.Subset.refl _⟩
  | @step a _ c path hedge hway ih =>
    rcases List.mem_cons.1 hb with rfl | hb
    · exact ⟨_, .step hedge hway, List.Subset.refl _⟩
    · obtain ⟨rest, hrest, hsub⟩ := ih hb
      exact ⟨rest, hrest, fun x hx => List.mem_cons_of_mem a (hsub hx)⟩

end Way

/-! ## The searches

Each search of the flow graph, said by ways. Whatever uses the searches argues with ways from here
on. -/

/-- A way that avoids some blocks is a way in the graph without them, from a start that is not one
of them. -/
theorem exists_way_iff {avoid : List String} {a b : String} :
    (∃ path, g.Way a path b ∧ ∀ x ∈ path, x ∉ avoid) ↔
      a ∉ avoid ∧ (g.graph.without avoid).Reaches a b := by
  constructor
  · rintro ⟨path, hway, hclear⟩
    refine ⟨hclear a hway.head_mem, ?_⟩
    induction hway with
    | here => exact Digraph.Reaches.refl _ _
    | @step a b _ path hedge hway ih =>
      have hrest : ∀ x ∈ path, x ∉ avoid := fun x hx => hclear x (List.mem_cons_of_mem a hx)
      have hab :=
        Digraph.edge_without_iff.2 ⟨hedge, hclear a List.mem_cons_self, hrest b hway.head_mem⟩
      exact Digraph.Reaches.head hab (ih hrest)
  · rintro ⟨ha, hreaches⟩
    induction hreaches using Relation.ReflTransGen.head_induction_on with
    | refl => exact ⟨[b], .here b, fun x hx => List.mem_singleton.1 hx ▸ ha⟩
    | @head a c hac _ ih =>
      obtain ⟨hedge, -, hc⟩ := Digraph.edge_without_iff.1 hac
      obtain ⟨path, hway, hclear⟩ := ih hc
      exact ⟨a :: path, .step hedge hway, List.forall_mem_cons.2 ⟨ha, hclear⟩⟩

/-- **The forward search is exact.** -/
theorem mem_reachableFrom_iff {starts avoid : List String} {b : String} :
    b ∈ g.reachableFrom starts avoid ↔ ∃ s ∈ starts, ∃ path, g.Way s path b ∧
      ∀ x ∈ path, x ∉ avoid := by
  rw [reachableFrom, Digraph.mem_reachAvoiding_iff]
  simp only [exists_way_iff]

/-- The case that the rules use: one start, and one block to avoid. -/
theorem mem_reachableFrom_singleton_iff {a b s : String} :
    b ∈ g.reachableFrom [a] [s] ↔ ∃ path, g.Way a path b ∧ s ∉ path := by
  rw [mem_reachableFrom_iff]
  simp only [List.mem_singleton, exists_eq_left]
  refine exists_congr fun path => and_congr_right fun _ => ?_
  exact ⟨fun hclear hs => hclear s hs rfl, fun hs x hx heq => hs (heq ▸ hx)⟩

/-- **The backward search is exact.** -/
theorem mem_reaching_iff (hg : ofFunction f = .ok g) (hf : (f.blocks.map Block.id).Nodup)
    {targets avoid : List String} {b : String} :
    b ∈ g.reaching targets avoid ↔ ∃ t ∈ targets, ∃ path, g.Way b path t ∧
      ∀ x ∈ path, x ∉ avoid := by
  rw [reaching, Digraph.mem_reachAvoiding_iff]
  simp only [exists_way_iff, Digraph.reaches_flip_without_iff (nodes_nodup hg hf)]
  refine exists_congr fun t => and_congr_right fun _ => and_congr_left fun hreaches => ?_
  rw [hreaches.mem_avoid_iff]

/-- Searching backwards from some targets finds the blocks from which the forward search meets one
of them. -/
theorem mem_reaching_iff_mem_reachableFrom (hg : ofFunction f = .ok g)
    (hf : (f.blocks.map Block.id).Nodup) {targets avoid : List String} {b : String} :
    b ∈ g.reaching targets avoid ↔ ∃ t ∈ targets, t ∈ g.reachableFrom [b] avoid := by
  rw [mem_reaching_iff hg hf]
  apply exists_congr
  intro t
  rw [mem_reachableFrom_iff]
  simp only [List.mem_singleton, exists_eq_left]

/-! ## Ways from the entry

A path is a way from the entry, so a dominator of a block is on all ways to it from there. -/

/-- Paths are the ways from the entry. -/
theorem isPath_iff_way {path : List String} {b : String} :
    g.IsPath (path ++ [b]) ↔ g.Way g.entry (path ++ [b]) b := by
  constructor
  · intro h
    induction path using List.reverseRecOn generalizing b with
    | nil =>
      rw [← Option.some.inj h.1]
      exact .here b
    | append_singleton path a ih =>
      obtain ⟨ha, hab⟩ := isPath_concat.1 h
      exact (ih ha).concat hab
  · have hchain : ∀ {a path b}, g.Way a path b →
        path.head? = some a ∧ path.IsChain fun x y => y ∈ g.succs x := by
      intro a path b h
      induction h with
      | here => exact ⟨rfl, List.isChain_singleton _⟩
      | step hedge hway ih =>
        obtain ⟨rest, rfl⟩ := hway.exists_eq_cons
        exact ⟨rfl, List.isChain_cons_cons.2 ⟨hedge, ih.2⟩⟩
    exact hchain

/-- So a block is reached if there is such a way. -/
theorem reached_iff_way {b : String} : g.Reached b ↔ ∃ path, g.Way g.entry path b := by
  constructor
  · rintro ⟨path, hpath⟩
    exact ⟨_, isPath_iff_way.1 hpath⟩
  · rintro ⟨path, hway⟩
    obtain ⟨before, rfl⟩ := hway.exists_eq_concat
    exact ⟨before, isPath_iff_way.2 hway⟩

/-- A way that starts at a reachable block ends at one. -/
theorem Reached.way {a b : String} {path : List String} (ha : g.Reached a) (h : g.Way a path b) :
    g.Reached b := by
  obtain ⟨before, hbefore⟩ := reached_iff_way.1 ha
  obtain ⟨whole, hwhole, -⟩ := hbefore.append h
  exact reached_iff_way.2 ⟨whole, hwhole⟩

/-- Of a block that is reached, the dominators are the blocks on every way to it from the entry. -/
theorem Reached.dominates_iff_way {a b : String} (hb : g.Reached b) :
    g.Dominates a b ↔ ∀ path, g.Way g.entry path b → a ∈ path := by
  rw [hb.dominates_iff]
  constructor
  · intro hall path hway
    obtain ⟨before, rfl⟩ := hway.exists_eq_concat
    exact hall before (isPath_iff_way.2 hway)
  · exact fun hall path hpath => hall _ (isPath_iff_way.1 hpath)

/-- A block dominates itself. -/
theorem Reached.dominates_self {b : String} (hb : g.Reached b) : g.Dominates b b := by
  apply hb.dominates_iff_way.2
  intro path hway
  exact hway.last_mem

/-- The entry dominates whatever is reached. -/
theorem Reached.dominates_entry {b : String} (hb : g.Reached b) : g.Dominates g.entry b := by
  apply hb.dominates_iff_way.2
  intro path hway
  exact hway.head_mem

/-- A block leads to those that it dominates. -/
theorem Dominates.exists_way {a b : String} (h : g.Dominates a b) : ∃ path, g.Way a path b := by
  obtain ⟨path, hway⟩ := reached_iff_way.1 h.2.1
  obtain ⟨rest, hrest, -⟩ := hway.exists_from (h.2.1.dominates_iff_way.1 h path hway)
  exact ⟨rest, hrest⟩

/-! ## Ways to an exit

A way out is a way to one of the exits. -/

/-- Ways out are ways to an exit. -/
theorem wayOut_iff_way {b : String} {path : List String} :
    g.WayOut b path ↔ ∃ e ∈ g.exits, g.Way b path e := by
  constructor
  · intro h
    induction h with
    | leave hb => exact ⟨_, hb, .here _⟩
    | step hedge _ ih =>
      obtain ⟨e, he, hway⟩ := ih
      exact ⟨e, he, .step hedge hway⟩
  · rintro ⟨e, he, hway⟩
    induction hway with
    | here => exact .leave he
    | step hedge _ ih => exact .step hedge (ih he)

/-- A way to a block goes on by any way out of it. -/
theorem Way.wayOut {a b : String} {path rest : List String} (h : g.Way a path b)
    (hout : g.WayOut b rest) :
    ∃ whole, g.WayOut a whole ∧ ∀ x ∈ whole, x ∈ path ∨ x ∈ rest := by
  obtain ⟨e, he, hrest⟩ := wayOut_iff_way.1 hout
  obtain ⟨whole, hwhole, hsub⟩ := h.append hrest
  exact ⟨whole, wayOut_iff_way.2 ⟨e, he, hwhole⟩, hsub⟩

/-- A way out goes on from the last time that it passes a block. -/
theorem WayOut.exists_last {a b : String} {path : List String} (h : g.WayOut b path)
    (ha : a ∈ path) :
    ∃ rest, g.WayOut a (a :: rest) ∧ a ∉ rest ∧ a :: rest ⊆ path := by
  induction h with
  | leave hb =>
    obtain rfl := List.mem_singleton.1 ha
    exact ⟨[], .leave hb, List.not_mem_nil, List.Subset.refl _⟩
  | @step b c path hedge hout ih =>
    by_cases hlater : a ∈ path
    · obtain ⟨rest, hrest, hlast, hsub⟩ := ih hlater
      exact ⟨rest, hrest, hlast, fun x hx => List.mem_cons_of_mem b (hsub hx)⟩
    · obtain rfl := (List.mem_cons.1 ha).resolve_right hlater
      exact ⟨path, .step hedge hout, hlater, List.Subset.refl _⟩

/-! ## Functions of a validated module

The two searches together, for the flow graph of a function that passes the checks. -/

/-- **The two searches around some blocks are exact, and one is the other turned around.** The
forward search finds just the blocks at which a way from a start ends that keeps clear of the
avoided blocks. The backward search finds just those at which such a way to a target begins, and
these are the blocks from which the forward search meets a target. -/
theorem exists_searches_forall_way {m : Module} (hm : m.validate = .ok ()) {f : Function}
    (hf : f ∈ m.functions) :
    ∃ g, ofFunction f = .ok g ∧ ∀ starts targets avoid b,
      (b ∈ g.reachableFrom starts avoid ↔ ∃ s ∈ starts, ∃ path, g.Way s path b ∧
        ∀ x ∈ path, x ∉ avoid) ∧
      (b ∈ g.reaching targets avoid ↔ ∃ t ∈ targets, ∃ path, g.Way b path t ∧
        ∀ x ∈ path, x ∉ avoid) ∧
      (b ∈ g.reaching targets avoid ↔ ∃ t ∈ targets, t ∈ g.reachableFrom [b] avoid) := by
  have hwf := Module.wellFormed_of_validate hm
  obtain ⟨g, hg, -⟩ := hwf.flow f hf
  have hblocks := (hwf.function f hf).blocks
  refine ⟨g, hg, ?_⟩
  intro starts targets avoid b
  exact ⟨mem_reachableFrom_iff, mem_reaching_iff hg hblocks,
    mem_reaching_iff_mem_reachableFrom hg hblocks⟩

/-- Every way to the first exit passes the fork, also from the block that is never reached; around
the first block a way still leads from there. -/
theorem exists_searches_scattering : scattering.validate = .ok () ∧ scatter ∈ scattering.functions ∧
    ∃ g, ofFunction scatter = .ok g ∧
      (∀ s ∈ ["top", "dead"], ∀ path, g.Way s path "back" → ∃ x ∈ path, x ∈ ["fork"]) ∧
      (∃ t ∈ ["spin", "back"], ∃ path, g.Way "dead" path t ∧ ∀ x ∈ path, x ∉ ["top"]) ∧
      ∃ t ∈ ["spin", "back"], t ∈ g.reachableFrom ["dead"] ["top"] := by
  refine ⟨validate_scattering, scatter_mem_scattering, ?_⟩
  obtain ⟨g, hg, hsearch⟩ := exists_searches_forall_way validate_scattering scatter_mem_scattering
  cases hg.symm.trans ofFunction_scatter
  have hback : "back" ∉ scatterGraph.reachableFrom ["top", "dead", "top"] ["fork"] := by decide
  have hdead : "dead" ∈ scatterGraph.reaching ["spin", "back"] ["top"] := by decide
  obtain ⟨-, hway, hmeets⟩ := hsearch [] ["spin", "back"] ["top"] "dead"
  refine ⟨_, hg, ?_, hway.1 hdead, hmeets.1 hdead⟩
  intro s hs path hpath
  by_contra hnone
  have hclear : ∀ x ∈ path, x ∉ ["fork"] := fun x hx hfork => hnone ⟨x, hx, hfork⟩
  obtain ⟨hforward, -, -⟩ := hsearch ["top", "dead", "top"] [] ["fork"] "back"
  exact hback (hforward.2 ⟨s, List.mem_append_left ["top"] hs, path, hpath, hclear⟩)

end FlowGraph

end ConstantTime
