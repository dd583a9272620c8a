/-
What runs along a path.

A path is a list of blocks; control runs through each of them from its first instruction to its
last. Cut off behind any of its blocks a path is still a path, and that is what makes statements
about all paths strong: a block that is reached is reached for a first time, and a place on a path
is a place at the end of one.
-/
import ConstantTime.Proofs.Dominators

set_option autoImplicit false

namespace ConstantTime

/-! ## Parts of paths

The first visit to a block is what the arguments about paths take; it exists because a path may be
cut. -/

namespace FlowGraph

variable {g : FlowGraph}

/-- A path can be cut off behind any of its blocks. -/
theorem IsPath.cut {before after : List String} {b : String} (h : g.IsPath (before ++ b :: after)) :
    g.IsPath (before ++ [b]) := by
  obtain ⟨hhead, hchain⟩ := h
  have hsplit : before ++ b :: after = (before ++ [b]) ++ after := by simp
  refine ⟨?_, ?_⟩
  · rw [← hhead]
    cases before <;> rfl
  · rw [hsplit] at hchain
    exact (List.isChain_append.1 hchain).1

/-- Every block of a path is reached. -/
theorem IsPath.reached {path : List String} (h : g.IsPath path) {b : String} (hb : b ∈ path) :
    g.Reached b := by
  obtain ⟨before, after, rfl⟩ := List.append_of_mem hb
  exact ⟨before, h.cut⟩

/-- A block that is reached is reached for the first time. -/
theorem Reached.exists_first {b : String} (h : g.Reached b) :
    ∃ path, g.IsPath (path ++ [b]) ∧ b ∉ path := by
  obtain ⟨path, hpath⟩ := h
  have hmem : b ∈ path ++ [b] := List.mem_append_right _ (List.mem_singleton_self b)
  obtain ⟨before, after, hsplit, hnot⟩ := List.eq_append_cons_of_mem hmem
  rw [hsplit] at hpath
  exact ⟨before, hpath.cut, hnot⟩

/-- Of a block that is reached, the dominators are the blocks on every path to it. -/
theorem Reached.dominates_iff {a b : String} (hb : g.Reached b) :
    g.Dominates a b ↔ ∀ path, g.IsPath (path ++ [b]) → a ∈ path ++ [b] := by
  refine ⟨fun h => h.2.2, fun hall => ?_⟩
  obtain ⟨path, hpath⟩ := hb
  exact ⟨hpath.reached (hall path hpath), ⟨path, hpath⟩, hall⟩

/-- The reachable blocks are those that some path leads to. -/
theorem mem_reachable_iff {b : String} : b ∈ g.reachable ↔ g.Reached b := by
  rw [reachable, Digraph.mem_reach_iff]
  constructor
  · rintro ⟨s, hs, hreaches⟩
    rw [List.mem_singleton.1 hs] at hreaches
    induction hreaches with
    | refl => exact ⟨[], rfl, List.isChain_singleton _⟩
    | @tail a b _ hedge ih =>
      obtain ⟨path, hpath⟩ := ih
      exact ⟨path ++ [a], isPath_concat.2 ⟨hpath, hedge⟩⟩
  · rintro ⟨path, hpath⟩
    exact ⟨g.entry, List.mem_singleton_self _, reaches_of_isPath hpath⟩

end FlowGraph

/-! ## Instructions along a path

What ran before an instruction, at the end of a path: all blocks before, and the instructions above
it. -/

namespace Function

/-- The instructions of the block with the given name. -/
def instrsOf (f : Function) (b : String) : List Instr := ((f.block? b).map Block.instrs).getD []

/-- The instructions that run along a path, one after the other. -/
def executed (f : Function) (path : List String) : List Instr := path.flatMap f.instrsOf

theorem instrsOf_eq {f : Function} (hf : (f.blocks.map Block.id).Nodup) {b : Block}
    (hb : b ∈ f.blocks) :
    f.instrsOf b.id = b.instrs := by
  rw [instrsOf, block?_id hf hb, Option.map_some, Option.getD_some]

theorem executed_concat (f : Function) (path : List String) (b : String) :
    f.executed (path ++ [b]) = f.executed path ++ f.instrsOf b := by
  rw [executed, List.flatMap_append, List.flatMap_singleton, executed]

/-- What runs along a path stands in one of its blocks. -/
theorem exists_of_mem_executed {f : Function} {path : List String} {i : Instr}
    (h : i ∈ f.executed path) :
    ∃ b ∈ f.blocks, b.id ∈ path ∧ i ∈ b.instrs := by
  obtain ⟨name, hname, hi⟩ := List.mem_flatMap.1 h
  unfold instrsOf at hi
  cases hb : f.block? name with
  | none =>
    rw [hb, Option.map_none, Option.getD_none] at hi
    exact absurd hi List.not_mem_nil
  | some b =>
    obtain ⟨hmem, rfl⟩ := mem_of_block?_eq_some hb
    rw [hb, Option.map_some, Option.getD_some] at hi
    exact ⟨b, hmem, hname, hi⟩

/-- An instruction that runs along a path stands at the end of a part of the path, behind what ran
before it. -/
theorem exists_place_of_executed {f : Function} {path : List String}
    {before after : List Instr} {i : Instr} (h : f.executed path = before ++ i :: after) :
    ∃ path₁ b path₂ before' after', path = path₁ ++ b :: path₂ ∧
      f.instrsOf b = before' ++ i :: after' ∧
      before = f.executed path₁ ++ before' := by
  induction path generalizing before with
  | nil => exact absurd h.symm (by simp [executed])
  | cons b rest ih =>
    rw [executed, List.flatMap_cons] at h
    by_cases hrest : ∃ more, before = f.instrsOf b ++ more
    · -- the instruction comes after the first block
      obtain ⟨more, rfl⟩ := hrest
      rw [List.append_assoc] at h
      obtain ⟨path₁, c, path₂, before', after', hpath, hinstrs, hmore⟩ :=
        ih (List.append_cancel_left h)
      refine ⟨b :: path₁, c, path₂, before', after', by rw [hpath, List.cons_append], hinstrs, ?_⟩
      rw [hmore, executed, executed, List.flatMap_cons, List.append_assoc]
    · -- it is one of the first block
      rcases List.append_eq_append_iff.1 h with ⟨more, hbefore, -⟩ | ⟨tail, hinstrs, htail⟩
      · exact absurd ⟨more, hbefore⟩ hrest
      · cases tail with
        | nil => exact absurd ⟨[], by rw [hinstrs, List.append_nil, List.append_nil]⟩ hrest
        | cons j tail =>
          obtain ⟨rfl, -⟩ := List.cons.inj htail
          exact ⟨[], b, rest, before, tail, rfl, hinstrs, rfl⟩

/-- What has run when control comes along a path to a place in the block behind it. -/
def ranBefore (f : Function) (path : List String) (p : Placed) : List Instr :=
  f.executed path ++ p.block.instrs.take p.index

/-- What runs up to the end of a block is split at one of its instructions. -/
theorem executed_eq_ranBefore {f : Function} (hf : (f.blocks.map Block.id).Nodup) {p : Placed}
    (hp : p ∈ f.placed) (path : List String) :
    f.executed (path ++ [p.block.id]) = f.ranBefore path p ++ p.instr :: p.block.instrs.drop
      (p.index + 1) := by
  obtain ⟨hb, hi⟩ := mem_placed_iff.1 hp
  obtain ⟨hlt, hget⟩ := List.getElem?_eq_some_iff.1 hi
  rw [executed_concat, instrsOf_eq hf hb, ranBefore, List.append_assoc, ← hget,
    ← List.drop_eq_getElem_cons hlt, List.take_append_drop]

end Function

end ConstantTime
