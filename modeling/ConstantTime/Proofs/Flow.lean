/-
The flow graph of a function that passes the checks.

Its nodes are the blocks in block order, its edges lead from blocks to blocks, and a block is found
by its name. From the two searches it follows that a round of the taint iteration visits every
block once: the reverse post-order has the reachable blocks, and the others are put behind them.
-/
import Mathlib.Data.List.Forall2
import Mathlib.Data.List.Nodup
import Mathlib.Data.List.Pairwise
import ConstantTime.Taint.Fixpoint
import ConstantTime.Proofs.PostOrder
import ConstantTime.Proofs.Tables
import ConstantTime.Proofs.WellFormed

set_option autoImplicit false

namespace ConstantTime

/-! ## Predecessors

Predecessors are successors, seen from the other side, as long as each node has one line of
edges. -/

namespace Digraph

variable {α : Type} [DecidableEq α] {d : Digraph α}

/-- Where no node has two lines, the line of a node lists its successors. -/
theorem succs_eq_of_mem_adj (hd : d.nodes.Nodup) {n : α} {ss : List α} (h : (n, ss) ∈ d.adj) :
    d.succs n = ss := by
  rw [succs, (Assoc.find?_eq_some_iff hd).2 h, Option.getD_some]

/-- The predecessors of a node are where its edges come from. -/
theorem mem_preds_iff (hd : d.nodes.Nodup) {p n : α} : p ∈ d.preds n ↔ d.Edge p n := by
  constructor
  · intro h
    obtain ⟨⟨k, ss⟩, hmem, rfl⟩ := List.mem_map.1 h
    rw [List.mem_filter, decide_eq_true_eq] at hmem
    rw [Edge, succs_eq_of_mem_adj hd hmem.1]
    exact hmem.2
  · intro h
    have hline := mem_adj_of_succs_ne_nil (List.ne_nil_of_mem h)
    refine List.mem_map.2 ⟨(p, d.succs p), List.mem_filter.2 ⟨hline, ?_⟩, rfl⟩
    exact decide_eq_true h

end Digraph

/-! ## Blocks

What the checks of a module say about its parts is brought into the form in which proofs use it:
for a block, an instruction or a value that is given. -/

/-- The terminator is the last instruction, if that one ends a block. -/
theorem Block.terminator?_eq_some_iff {b : Block} {t : Instr} :
    b.terminator? = some t ↔ b.instrs.getLast? = some t ∧ t.op.isTerminator = true := by
  unfold terminator?
  cases b.instrs.getLast? with
  | none => simp
  | some i =>
    simp only [Option.ite_none_right_eq_some, Option.some.injEq]
    constructor
    · rintro ⟨hop, rfl⟩
      exact ⟨rfl, hop⟩
    · rintro ⟨rfl, hop⟩
      exact ⟨hop, rfl⟩

theorem Block.mem_instrs_of_terminator? {b : Block} {t : Instr} (ht : b.terminator? = some t) :
    t ∈ b.instrs :=
  List.mem_of_getLast? (terminator?_eq_some_iff.1 ht).1

namespace Function

/-- What is found under a name is a block with that name. -/
theorem mem_of_block?_eq_some {f : Function} {name : String} {b : Block}
    (h : f.block? name = some b) :
    b ∈ f.blocks ∧ b.id = name := by
  refine ⟨List.mem_of_find?_eq_some h, ?_⟩
  simpa using List.find?_some h

/-- Where names are distinct, every block is the one found by its name. -/
theorem block?_id {f : Function} (hf : (f.blocks.map Block.id).Nodup) {b : Block}
    (hb : b ∈ f.blocks) :
    f.block? b.id = some b := by
  cases hfound : f.block? b.id with
  | none =>
    have hnone := List.find?_eq_none.1 hfound b hb
    simp at hnone
  | some c =>
    obtain ⟨hc, hid⟩ := mem_of_block?_eq_some hfound
    rw [List.inj_on_of_nodup_map hf hc hb hid]

/-- Every block has the shape that its place in the function asks for. -/
theorem WellFormed.shaped_of_mem {f : Function} {shared : List Location}
    (hf : f.WellFormed shared) {b : Block} (hb : b ∈ f.blocks) :
    ∃ isLast, b.Shaped (f.names shared) isLast := by
  obtain ⟨k, hk, rfl⟩ := List.getElem_of_mem hb
  refine ⟨_, hf.shaped (f.blocks[k], k) ?_⟩
  rw [List.mem_zipIdx_iff_getElem?]
  exact List.getElem?_eq_getElem hk

/-- Every instruction has the operands that it needs. -/
theorem WellFormed.operands {f : Function} {shared : List Location}
    (hf : f.WellFormed shared) {b : Block} (hb : b ∈ f.blocks) {i : Instr} (hi : i ∈ b.instrs) :
    i.Operands (f.names shared) := by
  obtain ⟨isLast, hshaped⟩ := hf.shaped_of_mem hb
  exact hshaped.operands i hi

/-- The instructions with their places. -/
theorem mem_placed_iff {f : Function} {p : Placed} :
    p ∈ f.placed ↔ p.block ∈ f.blocks ∧ p.block.instrs[p.index]? = some p.instr := by
  obtain ⟨block, index, instr⟩ := p
  simp only [placed, List.mem_flatMap, List.mem_map, Prod.exists, List.mem_zipIdx_iff_getElem?,
    Placed.mk.injEq]
  constructor
  · rintro ⟨b, hb, i, k, hk, rfl, rfl, rfl⟩
    exact ⟨hb, hk⟩
  · rintro ⟨hb, hk⟩
    exact ⟨block, hb, instr, index, hk, rfl, rfl, rfl⟩

/-- Every instruction of a block has a place. -/
theorem exists_placed {f : Function} {b : Block} (hb : b ∈ f.blocks) {i : Instr}
    (hi : i ∈ b.instrs) :
    ∃ k, (⟨b, k, i⟩ : Placed) ∈ f.placed := by
  obtain ⟨k, hk, rfl⟩ := List.getElem_of_mem hi
  exact ⟨k, mem_placed_iff.2 ⟨hb, List.getElem?_eq_getElem hk⟩⟩

/-- The output of an instruction is an output of the function. -/
theorem mem_outputs {f : Function} {b : Block} (hb : b ∈ f.blocks) {i : Instr}
    (hi : i ∈ b.instrs) {v : String} (hv : i.output = some v) : (v, b.id) ∈ f.outputs := by
  obtain ⟨k, hk⟩ := exists_placed hb hi
  exact List.mem_filterMap.2 ⟨_, hk, by rw [hv]; rfl⟩

/-- The outputs of a function are those of its instructions, in their order. -/
theorem map_fst_outputs (f : Function) :
    f.outputs.map Prod.fst = f.placed.filterMap fun p => p.instr.output := by
  rw [outputs, List.map_filterMap]
  refine List.filterMap_congr fun p _ => ?_
  cases p.instr.output <;> rfl

/-- Where values have one definition each, an instruction is known by its output. -/
theorem instr_eq_of_output {f : Function} (hf : f.definedValues.Nodup) {b b' : Block}
    (hb : b ∈ f.blocks) (hb' : b' ∈ f.blocks) {i j : Instr} (hi : i ∈ b.instrs)
    (hj : j ∈ b'.instrs) {v : String} (hiv : i.output = some v) (hjv : j.output = some v) :
    i = j := by
  have houtputs := (List.nodup_append.1 hf).2.1
  rw [map_fst_outputs, List.Nodup, List.pairwise_filterMap] at houtputs
  obtain ⟨k, hk⟩ := exists_placed hb hi
  obtain ⟨k', hk'⟩ := exists_placed hb' hj
  by_contra hij
  -- two places with one output would be two definitions
  have hne : (⟨b, k, i⟩ : Placed) ≠ ⟨b', k', j⟩ := fun h => hij (congrArg Placed.instr h)
  have hsymm : Std.Symm fun p q : Placed =>
      ∀ x, p.instr.output = some x → ∀ y, q.instr.output = some y → x ≠ y :=
    ⟨fun p q hpq x hx y hy hxy => hpq y hy x hx hxy.symm⟩
  exact houtputs.forall hk hk' hne v hiv v hjv rfl

/-- Control stays within the blocks. -/
theorem WellFormed.successors_subset {f : Function} {shared : List Location}
    (hf : f.WellFormed shared) {b : Block} (hb : b ∈ f.blocks) {ss : List String}
    (hss : f.successors b.id = .ok ss) :
    ∀ t ∈ ss, t ∈ f.blocks.map Block.id := by
  intro t ht
  obtain ⟨isLast, hshaped⟩ := hf.shaped_of_mem hb
  obtain ⟨term, hterm, -⟩ := hshaped.terminated
  unfold successors at hss
  simp only [block?_id hf.blocks hb, hterm] at hss
  -- the terminator is one of the instructions, so its targets were checked
  have hmem : term ∈ b.instrs := Block.mem_instrs_of_terminator? hterm
  split at hss
  · next hop =>
    cases hss
    exact (hf.operands hb hmem).targets hop t (by simpa [Instr.distinctTargets] using ht)
  · split at hss
    · split at hss
      · next next hnext =>
        cases hss
        rw [List.mem_singleton.1 ht]
        unfold nextBlock? at hnext
        obtain ⟨k, -, hk⟩ := Option.bind_eq_some_iff.1 hnext
        exact List.mem_map_of_mem (List.mem_of_getElem? hk)
      · cases hss
    · cases hss
      cases ht

/-- Where names are distinct, a block is found at its position. -/
theorem blockIndex?_eq_some {f : Function} (hf : (f.blocks.map Block.id).Nodup)
    {k : Nat} {b : Block} (hk : f.blocks[k]? = some b) : f.blockIndex? b.id = some k := by
  obtain ⟨hlt, rfl⟩ := List.getElem?_eq_some_iff.1 hk
  rw [blockIndex?, List.findIdx?_eq_some_iff_getElem]
  refine ⟨hlt, beq_self_eq_true _, fun j hj => ?_⟩
  -- an earlier block of the same name would be the same block
  have hne := List.nodup_iff_getElem?_ne_getElem?.1 hf j k hj (by rwa [List.length_map])
  simpa [hlt, Nat.lt_trans hj hlt] using hne

/-- It is known where control goes after a block. -/
theorem WellFormed.exists_successors {f : Function} {shared : List Location}
    (hf : f.WellFormed shared) {b : Block} (hb : b ∈ f.blocks) :
    ∃ ss, f.successors b.id = .ok ss := by
  obtain ⟨k, hk⟩ := List.mem_iff_getElem?.1 hb
  obtain ⟨t, ht, hlast⟩ := (hf.shaped (b, k) (List.mem_zipIdx_iff_getElem?.2 hk)).terminated
  unfold successors
  simp only [block?_id hf.blocks hb, ht]
  by_cases htargets : t.op.targetsBlocks = true
  · rw [if_pos htargets]
    exact ⟨_, rfl⟩
  by_cases hfall : t.op = .fallthrough
  · -- only the last block has none behind it, and there a fallthrough is refused
    have hlt : k + 1 < f.blocks.length := by
      have hkl := (List.getElem?_eq_some_iff.1 hk).1
      have hne := of_decide_eq_false (hlast hfall)
      omega
    have hnext : f.nextBlock? b.id = some f.blocks[k + 1] := by
      rw [nextBlock?, blockIndex?_eq_some hf.blocks hk, Option.bind_some,
        List.getElem?_eq_getElem hlt]
    rw [if_neg htargets, if_pos hfall, hnext]
    exact ⟨_, rfl⟩
  · rw [if_neg htargets, if_neg hfall]
    exact ⟨_, rfl⟩

end Function

/-! ## Computations that may fail

Computations are taken apart by what they end with. A result tells that all steps went through, an
error that one of them did not. -/

/-- What was changed at the end was there before. -/
theorem exists_of_map_eq_ok {ε α β : Type} {x : Except ε α} {f : α → β} {b : β}
    (h : x.map f = .ok b) :
    ∃ a, x = .ok a ∧ f a = b := by
  cases x with
  | error e => cases h
  | ok a => exact ⟨a, rfl, Except.ok.inj h⟩

/-- A change at the end is not what fails. -/
theorem eq_error_of_map_eq_error {ε α β : Type} {x : Except ε α} {f : α → β} {e : ε}
    (h : x.map f = .error e) :
    x = .error e := by
  cases x with
  | error e' => exact congrArg _ (Except.error.inj h)
  | ok a => cases h

/-- If two steps succeed, the first one did and the second one did on its result. -/
theorem exists_of_bind_eq_ok {ε α β : Type} {x : Except ε α} {f : α → Except ε β} {b : β}
    (h : (x >>= f) = .ok b) :
    ∃ a, x = .ok a ∧ f a = .ok b := by
  cases x with
  | error e => cases h
  | ok a => exact ⟨a, rfl, h⟩

/-- What is done in two steps fails in the first one or in the second. -/
theorem eq_error_or_of_bind_eq_error {ε α β : Type} {x : Except ε α} {f : α → Except ε β} {e : ε}
    (h : (x >>= f) = .error e) : x = .error e ∨ ∃ a, x = .ok a ∧ f a = .error e := by
  cases x with
  | error e' =>
    cases h
    exact .inl rfl
  | ok a => exact .inr ⟨a, rfl, h⟩

/-- A list is not worked through because of one of its elements. -/
theorem exists_of_collect_eq_error {ε α β : Type} {f : α → Except ε β} {xs : List α} {e : ε}
    (h : collect f xs = .error e) : ∃ x ∈ xs, f x = .error e := by
  induction xs with
  | nil => cases h
  | cons x xs ih =>
    unfold collect at h
    split at h
    · next hx =>
      cases h
      exact ⟨x, List.mem_cons_self, hx⟩
    · split at h
      · next hxs =>
        cases h
        obtain ⟨y, hy, hye⟩ := ih hxs
        exact ⟨y, List.mem_cons_of_mem x hy, hye⟩
      · cases h

/-- If nothing fails, the results stand in the order of the elements. -/
theorem forall₂_of_collect_eq_ok {ε α β : Type} {f : α → Except ε β} {xs : List α} {ys : List β}
    (h : collect f xs = .ok ys) : List.Forall₂ (fun x y => f x = .ok y) xs ys := by
  induction xs generalizing ys with
  | nil =>
    cases h
    exact .nil
  | cons x xs ih =>
    unfold collect at h
    split at h
    · cases h
    · next y hy =>
      split at h
      · cases h
      · next ys' hys =>
        cases h
        exact .cons hy (ih hys)

/-- Only the elements of the list matter. -/
theorem collect_congr {ε α β : Type} {f f' : α → Except ε β} {xs : List α}
    (h : ∀ x ∈ xs, f x = f' x) :
    collect f xs = collect f' xs := by
  induction xs with
  | nil => rfl
  | cons x xs ih =>
    rw [collect, collect, h x List.mem_cons_self, ih fun y hy => h y (List.mem_cons_of_mem x hy)]

/-- Where nothing fails on the way, a list is worked through. -/
theorem exists_collect_eq_ok {ε α β : Type} {f : α → Except ε β} {xs : List α}
    (h : ∀ x ∈ xs, ∃ y, f x = .ok y) :
    ∃ ys, collect f xs = .ok ys := by
  induction xs with
  | nil => exact ⟨[], rfl⟩
  | cons x xs ih =>
    obtain ⟨y, hy⟩ := h x List.mem_cons_self
    obtain ⟨ys, hys⟩ := ih fun z hz => h z (List.mem_cons_of_mem _ hz)
    exact ⟨y :: ys, by rw [collect, hy, hys]⟩

/-- In two lists that are related element by element, each element has a partner. -/
theorem exists_of_mem_of_forall₂ {α β : Type} {R : α → β → Prop} {xs : List α} {ys : List β}
    (h : List.Forall₂ R xs ys) {x : α} (hx : x ∈ xs) : ∃ y ∈ ys, R x y := by
  induction h with
  | nil => cases hx
  | cons hR _ ih =>
    rcases List.mem_cons.1 hx with rfl | hx
    · exact ⟨_, List.mem_cons_self, hR⟩
    · obtain ⟨y, hy, hxy⟩ := ih hx
      exact ⟨y, List.mem_cons_of_mem _ hy, hxy⟩

/-! ## The graph

The flow graph holds what the function says about its blocks, and nothing is lost or added. -/

namespace FlowGraph

variable {f : Function} {g : FlowGraph}

/-- What the graph of a function is made of. -/
theorem ofFunction_eq_ok (h : ofFunction f = .ok g) :
    (∃ first rest, f.blocks = first :: rest ∧ g.entry = first.id) ∧
      List.Forall₂ (fun b e => e.1 = b.id ∧ f.successors b.id = .ok e.2) f.blocks g.graph.adj := by
  unfold ofFunction at h
  split at h
  · cases h
  · next first hfirst =>
    split at h
    · cases h
    · next adj hadj =>
      cases h
      refine ⟨?_, (forall₂_of_collect_eq_ok hadj).imp fun b line hline => ?_⟩
      · unfold Function.entry at hfirst
        split at hfirst
        · cases hfirst
        · next b rest hblocks =>
          cases hfirst
          exact ⟨_, rest, hblocks, rfl⟩
      · cases hss : f.successors b.id with
        | error e =>
          rw [hss] at hline
          cases hline
        | ok ss =>
          rw [hss] at hline
          cases hline
          exact ⟨rfl, rfl⟩

/-- A function of the right structure has a flow graph. -/
theorem exists_ofFunction {shared : List Location} (hf : f.WellFormed shared) :
    ∃ g, ofFunction f = .ok g := by
  obtain ⟨first, rest, hblocks⟩ := List.exists_cons_of_ne_nil hf.nonempty
  obtain ⟨adj, hadj⟩ : ∃ adj,
      collect (fun b => (f.successors b.id).map fun ss => (b.id, ss)) f.blocks = .ok adj := by
    refine exists_collect_eq_ok fun b hb => ?_
    obtain ⟨ss, hss⟩ := hf.exists_successors hb
    exact ⟨_, by rw [hss]; rfl⟩
  have hentry : f.entry = .ok first := by rw [Function.entry, hblocks]
  exact ⟨_, by rw [ofFunction, hentry, hadj]⟩

/-- The exits are the blocks at whose end control leaves the function. -/
theorem mem_exits_iff (h : ofFunction f = .ok g) (hf : (f.blocks.map Block.id).Nodup) {e : String} :
    e ∈ g.exits ↔ ∃ b ∈ f.blocks, b.id = e ∧ Function.leavesAt b = true := by
  have hexits : g.exits =
      (f.blocks.map Block.id).filter fun b => ((f.block? b).map Function.leavesAt).getD false := by
    unfold ofFunction at h
    split at h
    · cases h
    · split at h
      · cases h
      · cases h
        rfl
  rw [hexits, List.mem_filter, List.mem_map]
  constructor
  · rintro ⟨⟨b, hb, rfl⟩, hleaves⟩
    rw [Function.block?_id hf hb] at hleaves
    exact ⟨b, hb, rfl, hleaves⟩
  · rintro ⟨b, hb, rfl, hleaves⟩
    rw [Function.block?_id hf hb]
    exact ⟨⟨b, hb, rfl⟩, hleaves⟩

/-- The nodes are the blocks, in block order. -/
theorem blocks_eq (h : ofFunction f = .ok g) : g.blocks = f.blocks.map Block.id := by
  have hadj : List.Forall₂ (· = ·) (f.blocks.map Block.id) g.blocks := by
    rw [blocks, Digraph.nodes, List.forall₂_map_left_iff, List.forall₂_map_right_iff]
    exact (ofFunction_eq_ok h).2.imp fun _ _ hline => hline.1.symm
  rw [List.forall₂_eq_eq_eq] at hadj
  exact hadj.symm

theorem nodes_nodup (h : ofFunction f = .ok g) (hf : (f.blocks.map Block.id).Nodup) :
    g.graph.nodes.Nodup := by
  have hblocks := blocks_eq h
  unfold blocks at hblocks
  rw [hblocks]
  exact hf

/-- A function is entered at one of its blocks. -/
theorem entry_mem_blocks (h : ofFunction f = .ok g) : g.entry ∈ g.blocks := by
  obtain ⟨⟨first, rest, hblocks, hentry⟩, -⟩ := ofFunction_eq_ok h
  rw [blocks_eq h, hblocks, hentry]
  exact List.mem_cons_self

/-- The edges out of a block are where its last instruction leads. -/
theorem successors_eq (h : ofFunction f = .ok g) (hf : (f.blocks.map Block.id).Nodup) {b : Block}
    (hb : b ∈ f.blocks) :
    f.successors b.id = .ok (g.succs b.id) := by
  obtain ⟨⟨name, ss⟩, hmem, hname, hss⟩ := exists_of_mem_of_forall₂ (ofFunction_eq_ok h).2 hb
  change name = b.id at hname
  subst hname
  rw [succs, Digraph.succs_eq_of_mem_adj (nodes_nodup h hf) hmem]
  exact hss

/-- Where control goes after a block, by its last instruction. -/
theorem succs_cases (h : ofFunction f = .ok g) (hf : (f.blocks.map Block.id).Nodup) {b : Block}
    (hb : b ∈ f.blocks) {t : Instr} (ht : b.terminator? = some t) :
    (t.op.targetsBlocks = true ∧ g.succs b.id = t.distinctTargets) ∨
      (t.op = .fallthrough ∧ ∃ next, g.succs b.id = [next]) ∨
        (t.op = .ret ∧ g.succs b.id = []) := by
  have hsuccs := successors_eq h hf hb
  have hlast := (Block.terminator?_eq_some_iff.1 ht).2
  unfold Function.successors at hsuccs
  simp only [Function.block?_id hf hb, ht] at hsuccs
  split at hsuccs
  · next htargets => exact .inl ⟨htargets, (Except.ok.inj hsuccs).symm⟩
  · next htargets =>
    split at hsuccs
    · next hfall =>
      split at hsuccs
      · exact .inr (.inl ⟨hfall, _, (Except.ok.inj hsuccs).symm⟩)
      · cases hsuccs
    · next hfall =>
      -- a return is the one terminator left
      have hret : t.op = .ret := by
        revert hlast htargets hfall
        cases t.op <;> decide
      exact .inr (.inr ⟨hret, (Except.ok.inj hsuccs).symm⟩)

/-- A block that names its targets leads to them. -/
theorem succs_eq_distinctTargets (h : ofFunction f = .ok g)
    (hf : (f.blocks.map Block.id).Nodup) {b : Block} (hb : b ∈ f.blocks) {t : Instr}
    (ht : b.terminator? = some t) (htargets : t.op.targetsBlocks = true) :
    g.succs b.id = t.distinctTargets := by
  rcases succs_cases h hf hb ht with ⟨-, hsuccs⟩ | ⟨hop, -⟩ | ⟨hop, -⟩
  · exact hsuccs
  · rw [hop] at htargets
    cases htargets
  · rw [hop] at htargets
    cases htargets

/-- Control goes nowhere from an exit. -/
theorem succs_eq_nil_of_mem_exits (h : ofFunction f = .ok g)
    (hf : (f.blocks.map Block.id).Nodup) {e : String} (he : e ∈ g.exits) : g.succs e = [] := by
  obtain ⟨b, hb, rfl, hleaves⟩ := (mem_exits_iff h hf).1 he
  unfold Function.leavesAt at hleaves
  split at hleaves
  · next t ht =>
    rw [Bool.or_eq_true, Bool.and_eq_true, decide_eq_true_iff, decide_eq_true_iff, List.isEmpty_iff]
      at hleaves
    rcases succs_cases h hf hb ht with ⟨htargets, hsuccs⟩ | ⟨hop, -⟩ | ⟨-, hsuccs⟩
    · rcases hleaves with hret | ⟨-, hnone⟩
      · rw [hret] at htargets
        cases htargets
      · rw [hsuccs, Instr.distinctTargets, hnone]
        rfl
    · rcases hleaves with hret | ⟨hindirect, -⟩
      · cases hop.symm.trans hret
      · cases hop.symm.trans hindirect
    · exact hsuccs
  · cases hleaves

/-- Predecessors and successors are the same edges. -/
theorem mem_preds_iff (h : ofFunction f = .ok g) (hf : (f.blocks.map Block.id).Nodup)
    {p b : String} :
    p ∈ g.preds b ↔ b ∈ g.succs p :=
  Digraph.mem_preds_iff (nodes_nodup h hf)

theorem preds_subset (h : ofFunction f = .ok g) (hf : (f.blocks.map Block.id).Nodup) {p b : String}
    (hp : p ∈ g.preds b) : p ∈ g.blocks :=
  Digraph.Edge.mem_nodes ((mem_preds_iff h hf).1 hp)

/-- No edge leads out of the blocks. -/
theorem succs_subset {shared : List Location} (h : ofFunction f = .ok g) (hf : f.WellFormed shared)
    {a b : String} (hab : b ∈ g.succs a) : b ∈ g.blocks := by
  have ha : a ∈ g.blocks := Digraph.Edge.mem_nodes hab
  rw [blocks_eq h] at ha ⊢
  obtain ⟨blk, hblk, rfl⟩ := List.mem_map.1 ha
  exact hf.successors_subset hblk (successors_eq h hf.blocks hblk) b hab

/-- What can be reached are blocks. -/
theorem reachable_subset {shared : List Location} (h : ofFunction f = .ok g)
    (hf : f.WellFormed shared) {b : String} (hb : b ∈ g.reachable) : b ∈ g.blocks := by
  obtain ⟨s, hs, hreach⟩ := (Digraph.mem_reach_iff g.graph [g.entry] b).1 hb
  rw [List.mem_singleton.1 hs] at hreach
  exact hreach.mem_of_closed (fun _ _ _ hedge => succs_subset h hf hedge) (entry_mem_blocks h)

/-- **A round visits every block once.** -/
theorem order_perm {shared : List Location} (h : ofFunction f = .ok g) (hf : f.WellFormed shared) :
    (Taints.order g).Perm g.blocks := by
  have hnodup : g.blocks.Nodup := nodes_nodup h hf.blocks
  -- neither list repeats a block, so it is enough that they have the same ones
  refine (List.perm_ext_iff_of_nodup (List.nodup_append.2 ⟨?_, hnodup.filter _, ?_⟩) hnodup).2
    fun b => ?_
  · exact Digraph.nodup_reversePostOrder g.graph g.entry
  · rintro a ha b hb rfl
    rw [List.mem_filter, decide_eq_true_eq] at hb
    exact hb.2 (mem_reversePostOrder_iff_mem_reachable.1 ha)
  · rw [List.mem_append, List.mem_filter, decide_eq_true_eq, mem_reversePostOrder_iff_mem_reachable]
    constructor
    · rintro (hb | hb)
      · exact reachable_subset h hf hb
      · exact hb.1
    · intro hb
      by_cases hr : b ∈ g.reachable
      · exact .inl hr
      · exact .inr ⟨hb, hr⟩

end FlowGraph

end ConstantTime
