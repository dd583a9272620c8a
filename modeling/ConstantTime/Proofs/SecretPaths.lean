/-
The findings at secret branches are exact.

The rule looks at the reachable blocks that branch to several blocks on a tainted value with a
chain. It reports those with some arms that something speaks against and some arms that nothing
speaks against. Main statement: the findings of the rule stand at these branches and nowhere else.
-/
import ConstantTime.Proofs.FindingPlaces
import ConstantTime.Proofs.LiveCalls

set_option autoImplicit false

namespace ConstantTime.Context

variable {c : Context}

/-- A reachable block that branches to several blocks on a tainted value with a chain. -/
structure BranchesOnSecret (c : Context) (b : Block) : Prop where
  block : b ∈ c.function.blocks
  reached : b.id ∈ c.graph.reachable
  condition : ∃ t v, b.terminator? = some t ∧ t.op = .branch ∧ t.inputs.head? = some v ∧
    (c.taints.of (some v)).isTainted = true ∧ (c.taints.of (some v)).hasOrigin = true
  several : 2 ≤ (c.graph.succs b.id).length

/-- Such a block with arms that something speaks against and arms that nothing speaks against. -/
structure SplitsOnSecret (c : Context) (b : Block) : Prop extends BranchesOnSecret c b where
  arms : ∃ i post, c.inspector = .ok i ∧ c.graph.postDominance = .ok post ∧
    (∃ s ∈ c.graph.succs b.id, i.SpeaksAgainst (armBlocks c.graph b.id (joinBlock? post b.id) s)) ∧
    ∃ s ∈ c.graph.succs b.id, ¬ i.SpeaksAgainst (armBlocks c.graph b.id (joinBlock? post b.id) s)

/-! ## The branches

Which branches the rule looks at, said of their terminators and taints. -/

/-- A block is looked at if it ends with a branch on a value. -/
theorem branchCondition?_eq_some_iff {b : Block} {v : String} :
    branchCondition? b = .ok (some (some v)) ↔
      ∃ t, b.terminator? = some t ∧ t.op = .branch ∧ t.inputs.head? = some v := by
  unfold branchCondition?
  cases b.terminator? with
  | none => simp
  | some t =>
    by_cases hop : t.op = .branch
    · simp [hop, Instr.condition]
    · simp [hop]

/-- The rule looks at a block exactly when it branches on a secret. -/
theorem exists_secretBranch?_iff {b : Block} (hb : b ∈ c.function.blocks) :
    (∃ branch, c.secretBranch? c.graph.reachable b = .ok (some branch)) ↔ c.BranchesOnSecret b := by
  constructor
  · rintro ⟨branch, h⟩
    unfold secretBranch? at h
    split at h
    · next hreached =>
      obtain ⟨found, hcondition, hsome⟩ := exists_of_map_eq_ok h
      obtain ⟨condition, rfl, hbranch⟩ := Option.bind_eq_some_iff.1 hsome
      obtain ⟨hsecret, -⟩ := Option.ite_none_right_eq_some.1 hbranch
      rw [Bool.and_eq_true, Bool.and_eq_true, decide_eq_true_iff] at hsecret
      obtain ⟨⟨htainted, horigin⟩, hseveral⟩ := hsecret
      cases condition with
      | none => cases htainted
      | some v =>
        obtain ⟨t, ht, hop, hv⟩ := branchCondition?_eq_some_iff.1 hcondition
        exact ⟨hb, hreached, ⟨t, v, ht, hop, hv, htainted, horigin⟩, hseveral⟩
    · cases h
  · rintro ⟨-, hreached, ⟨t, v, ht, hop, hv, htainted, horigin⟩, hseveral⟩
    have hcondition := branchCondition?_eq_some_iff.2 ⟨t, ht, hop, hv⟩
    refine ⟨(b, some v), ?_⟩
    rw [secretBranch?, if_pos hreached, hcondition]
    simp [Except.map, htainted, horigin, hseveral]

/-! ## The arms

Arms are compared by whether something speaks against them; the number of reasons does not
count. -/

variable {i : Inspector} {post : Dominance String}

/-- The evidence of an arm is what speaks against its blocks. -/
theorem evidence_arm_ne_nil_iff (hblocks : (i.function.blocks.map Block.id).Nodup) {b s : String}
    {join : Option String} {a : Arm} (h : arm i b join s = .ok a) :
    a.evidence ≠ [] ↔ i.SpeaksAgainst (armBlocks i.graph b join s) := by
  obtain ⟨found, hfound, rfl⟩ := exists_of_map_eq_ok h
  exact Inspector.evidence_ne_nil_iff_speaksAgainst hblocks hfound

/-- Some result passes a test exactly when it was given for an element of some kind. -/
theorem any_collect_iff {ε α β : Type} {f : α → Except ε β} {xs : List α} {ys : List β}
    (h : collect f xs = .ok ys) {test : β → Bool} {P : α → Prop}
    (htest : ∀ x y, f x = .ok y → (test y = true ↔ P x)) :
    ys.any test = true ↔ ∃ x ∈ xs, P x := by
  rw [List.any_eq_true]
  constructor
  · rintro ⟨y, hy, hpass⟩
    obtain ⟨x, hx, hxy⟩ := (mem_collect_iff h).1 hy
    exact ⟨x, hx, (htest x y hxy).1 hpass⟩
  · rintro ⟨x, hx, hP⟩
    obtain ⟨y, hy, hxy⟩ := exists_of_mem_of_forall₂ (forall₂_of_collect_eq_ok h) hx
    exact ⟨y, hy, (htest x y hxy).2 hP⟩

/-- A branch is reported exactly when its arms differ. -/
theorem pathFinding?_eq_some_iff (hblocks : (i.function.blocks.map Block.id).Nodup)
    {branch : Block × Option String} {found : Option Finding}
    (h : c.pathFinding? i post branch = .ok found) :
    (∃ x, found = some x) ↔
      (∃ s ∈ i.graph.succs branch.1.id,
        i.SpeaksAgainst (armBlocks i.graph branch.1.id (joinBlock? post branch.1.id) s)) ∧
      ∃ s ∈ i.graph.succs branch.1.id,
        ¬ i.SpeaksAgainst (armBlocks i.graph branch.1.id (joinBlock? post branch.1.id) s) := by
  unfold pathFinding? at h
  dsimp only at h
  split at h
  · cases h
  · next arms harms =>
    have hsome : (arms.any fun a => !a.evidence.isEmpty) = true ↔ ∃ s ∈ i.graph.succs branch.1.id,
        i.SpeaksAgainst (armBlocks i.graph branch.1.id (joinBlock? post branch.1.id) s) := by
      refine any_collect_iff harms fun s a ha => ?_
      rw [← evidence_arm_ne_nil_iff hblocks ha, Bool.not_eq_true', List.isEmpty_eq_false_iff]
    have hnone : (arms.any fun a => a.evidence.isEmpty) = true ↔ ∃ s ∈ i.graph.succs branch.1.id,
        ¬ i.SpeaksAgainst (armBlocks i.graph branch.1.id (joinBlock? post branch.1.id) s) := by
      refine any_collect_iff harms fun s a ha => ?_
      rw [← evidence_arm_ne_nil_iff hblocks ha, not_not, List.isEmpty_iff]
    rw [← hsome, ← hnone, ← Bool.and_eq_true]
    split at h
    · next hdiffer =>
      obtain ⟨x, -, rfl⟩ := exists_of_map_eq_ok h
      exact iff_of_true ⟨x, rfl⟩ hdiffer
    · next hsame =>
      cases h
      exact iff_of_false (fun ⟨x, hx⟩ => absurd hx.symm (Option.some_ne_none x)) hsame

/-! ## The findings

Each branch that splits is found, and each finding stands at one that does. -/

/-- The findings are made branch by branch. -/
theorem mem_secretPaths_iff (hi : c.inspector = .ok i) (hpost : c.graph.postDominance = .ok post)
    {found : List Finding} (hfound : c.secretPaths = .ok found) {x : Finding} :
    x ∈ found ↔ ∃ b ∈ c.function.blocks, ∃ branch, c.secretBranch? c.graph.reachable b =
      .ok (some branch) ∧
      c.pathFinding? i post branch = .ok (some x) := by
  unfold secretPaths at hfound
  split at hfound
  · cases hfound
  · next hbranches =>
    cases hfound
    refine iff_of_false List.not_mem_nil ?_
    rintro ⟨b, hb, branch, hbranch, -⟩
    cases (mem_collectSome_iff hbranches).2 ⟨b, hb, hbranch⟩
  · next branches _ hbranches =>
    rw [pathFindings, hi, hpost] at hfound
    rw [mem_collectSome_iff hfound]
    constructor
    · rintro ⟨branch, hbranch, hx⟩
      obtain ⟨b, hb, hsecret⟩ := (mem_collectSome_iff hbranches).1 hbranch
      exact ⟨b, hb, branch, hsecret, hx⟩
    · rintro ⟨b, hb, branch, hsecret, hx⟩
      exact ⟨branch, (mem_collectSome_iff hbranches).2 ⟨b, hb, hsecret⟩, hx⟩

/-- **The findings of the rule stand at the branches on secrets whose arms differ.** -/
theorem exists_reportsPaths {shared : List Location} (hf : c.function.WellFormed shared)
    (hg : FlowGraph.ofFunction c.function = .ok c.graph) :
    ∃ found, c.secretPaths = .ok found ∧
      (∀ x ∈ found, ∃ b, c.SplitsOnSecret b ∧
        c.IsFindingAt .secretPath (b.id, (b.instrs.length - 1 : Nat)) x) ∧
      ∀ b, c.SplitsOnSecret b →
        ∃ x ∈ found, c.IsFindingAt .secretPath (b.id, (b.instrs.length - 1 : Nat)) x := by
  obtain ⟨found, hfound⟩ := exists_secretPaths hf hg
  obtain ⟨i, hi, hfunction, hgraph⟩ := exists_inspector hf hg
  obtain ⟨post, hpost⟩ := FlowGraph.exists_postDominance hg hf.blocks
  have hblocks : (i.function.blocks.map Block.id).Nodup := hfunction ▸ hf.blocks
  refine ⟨found, hfound, fun x hx => ?_, fun b hsplits => ?_⟩
  · obtain ⟨b, hb, branch, hsecret, hpath⟩ := (mem_secretPaths_iff hi hpost hfound).1 hx
    obtain rfl := eq_of_secretBranch? hsecret
    have hdiffer := (pathFinding?_eq_some_iff hblocks hpath).1 ⟨x, rfl⟩
    rw [hgraph] at hdiffer
    exact ⟨branch.1,
      ⟨(exists_secretBranch?_iff hb).1 ⟨branch, hsecret⟩, i, post, hi, hpost, hdiffer⟩,
      (madeAt_of_pathFinding? hpath).isFindingAt⟩
  · obtain ⟨i', post', hi', hpost', hdiffer⟩ := hsplits.arms
    cases hi.symm.trans hi'
    cases hpost.symm.trans hpost'
    obtain ⟨branch, hsecret⟩ :=
      (exists_secretBranch?_iff hsplits.block).2 hsplits.toBranchesOnSecret
    obtain rfl := eq_of_secretBranch? hsecret
    obtain ⟨found?, hpath⟩ := exists_pathFinding hf hg ⟨hfunction, hgraph⟩ post hsplits.block
    rw [← hgraph] at hdiffer
    obtain ⟨x, rfl⟩ := (pathFinding?_eq_some_iff hblocks hpath).2 hdiffer
    exact ⟨x,
      (mem_secretPaths_iff hi hpost hfound).2 ⟨branch.1, hsplits.block, branch, hsecret, hpath⟩,
      (madeAt_of_pathFinding? hpath).isFindingAt⟩

end ConstantTime.Context
