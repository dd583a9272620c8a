/-
The arms of a branch are the code that the branch decides.

An arm is searched for from one successor of the branch, around the branch itself and around the
block where the arms meet, which is the nearest post-dominator of the branch. The tree from the
virtual exit gives that block, or the virtual exit if the arms do not meet; a branch that no exit
can be reached from is not in the tree. Whatever the case, an arm has the blocks that a way from
the successor leads to before it comes to either of the two.

None of them is executed on every outcome. A strict post-dominator of the branch other than the
nearest comes behind the nearest: an arm that held it would go on from it to an exit without
passing it again, and would have to pass the nearest post-dominator on the way, behind which the
other one comes once more. And an arm that held an exit would leave the function without passing
the nearest post-dominator at all.

Main statement: the arms are exact in this sense, and a branch is reported exactly when it depends
on a secret and something speaks against some of its arms and not against others.
-/
import ConstantTime.Proofs.SameFlow
import ConstantTime.Proofs.SecretPaths
import ConstantTime.Proofs.Ways

set_option autoImplicit false

namespace ConstantTime

namespace FlowGraph

variable {f : Function} {g : FlowGraph} {t : Dominance String}

/-- The blocks are those that a branch at `b` decides by going to `s`. -/
structure IsArm (g : FlowGraph) (b s : String) (arm : List String) : Prop where
  blocks : ∀ x, x ∈ arm ↔ ∃ path, g.Way s path x ∧ b ∉ path ∧ ∀ j, g.IsNearestPost j b → j ∉ path
  decided : ∀ x ∈ arm, ¬ g.PostDominates x b
  inside : ∀ j, g.IsNearestPost j b → ∀ x ∈ arm, x ∉ g.exits

/-! ## Where the arms meet

The tree gives the nearest post-dominator, if there is one besides the virtual exit. -/

/-- The arms of a branch meet at its nearest post-dominator, if it has one. -/
theorem IsPostDominance.joinBlock?_eq_some_iff (ht : g.IsPostDominance t) {b j : String}
    (hb : b ≠ virtualExit) :
    Context.joinBlock? t b = some j ↔ g.IsNearestPost j b := by
  unfold Context.joinBlock?
  by_cases hout : g.LeadsOut b
  · obtain ⟨d, hd, hnone, hnear⟩ := ht.immediate b hout
    rw [hd]
    by_cases hexit : d = virtualExit
    · refine iff_of_false (by simp [hexit]) fun hj => ?_
      exact hnone.1 hexit j hj.1.1 hj.1.2
    · obtain ⟨hnearest, hunique⟩ := hnear hexit
      simp only [if_neg hexit, Option.some.injEq]
      constructor
      · rintro rfl
        exact hnearest
      · intro hj
        exact (hunique j hj).symm
  · have hnot : b ∉ t.nodes := by
      rw [ht.nodes]
      exact not_or.2 ⟨hb, hout⟩
    rw [SameFlow.immediate?_eq_none hnot]
    exact iff_of_false (by simp) fun hj => hout hj.1.2.2.1

/-- A block with a strict post-dominator has a nearest one. -/
theorem IsPostDominance.exists_isNearestPost (ht : g.IsPostDominance t) {a b : String} (hne : a ≠ b)
    (ha : g.PostDominates a b) : ∃ j, g.IsNearestPost j b := by
  obtain ⟨d, -, hnone, hnear⟩ := ht.immediate b ha.2.1
  have hexit : d ≠ virtualExit := fun heq => hnone.1 heq a hne ha
  exact ⟨d, (hnear hexit).1⟩

/-! ## What an arm holds

The search for an arm, said by ways, and the argument that no block of it is executed on every
outcome. -/

/-- An arm holds what can be reached around the branch and its nearest post-dominator. -/
theorem mem_armBlocks_iff (ht : g.IsPostDominance t) {b s x : String} (hb : b ≠ virtualExit) :
    x ∈ Context.armBlocks g b (Context.joinBlock? t b) s ↔
      ∃ path, g.Way s path x ∧ b ∉ path ∧ ∀ j, g.IsNearestPost j b → j ∉ path := by
  rw [Context.armBlocks, mem_reachableFrom_iff]
  simp only [List.mem_singleton, exists_eq_left]
  refine exists_congr fun path => and_congr_right fun _ => ?_
  simp only [← ht.joinBlock?_eq_some_iff hb, List.mem_cons, Option.mem_toList, not_or]
  constructor
  · intro hclear
    exact ⟨fun hmem => (hclear b hmem).1 rfl, fun j hj hmem => (hclear j hmem).2 hj⟩
  · rintro ⟨hbranch, hjoin⟩ x hx
    exact ⟨fun heq => hbranch (heq ▸ hx), fun hj => hjoin x hj hx⟩

/-- No way leads from a branch around its nearest post-dominator to another strict
post-dominator. -/
theorem IsNearestPost.not_postDominates {b j x : String} (hj : g.IsNearestPost j b)
    {path : List String} (hway : g.Way b (b :: path) x) (hbranch : b ∉ path) (hjoin : j ∉ path)
    (hx : x ∈ path) : ¬ g.PostDominates x b := by
  intro hpost
  have hxb : x ≠ b := fun heq => hbranch (heq ▸ hx)
  have hxj : x ≠ j := fun heq => hjoin (heq ▸ hx)
  have hbehind : g.PostDominates x j := hj.2 x hxb hpost hxj
  -- leave from the block without passing it again; the nearest post-dominator is still to come
  obtain ⟨out, hout⟩ := hpost.1
  obtain ⟨rest, hrest, hlast, -⟩ := hout.exists_last hout.mem_path
  obtain ⟨whole, hwhole, hsub⟩ := hway.wayOut hrest
  have hmem : j ∈ rest := by
    rcases hsub j (hj.1.2.2.2 whole hwhole) with hmem | hmem
    · exact absurd ((List.mem_cons.1 hmem).resolve_left hj.1.1) hjoin
    · exact (List.mem_cons.1 hmem).resolve_left (Ne.symm hxj)
  -- and behind that one the block would come once more
  cases hrest with
  | leave _ => exact List.not_mem_nil hmem
  | step _ htail =>
    obtain ⟨last, hlastOut, -, hsub'⟩ := htail.exists_last hmem
    exact hlast (hsub' (hbehind.2.2 _ hlastOut))

/-- No way leads from a branch around its nearest post-dominator to an exit. -/
theorem IsNearestPost.not_mem_exits {b j x : String} (hj : g.IsNearestPost j b) {path : List String}
    (hway : g.Way b (b :: path) x) (hjoin : j ∉ path) : x ∉ g.exits := by
  intro hexit
  have hout : g.WayOut b (b :: path) := wayOut_iff_way.2 ⟨x, hexit, hway⟩
  have hmem := hj.1.2.2.2 _ hout
  exact hjoin ((List.mem_cons.1 hmem).resolve_left hj.1.1)

/-- **An arm is the code that the branch decides.** -/
theorem IsPostDominance.isArm (ht : g.IsPostDominance t) {b s : String} (hb : b ≠ virtualExit)
    (hs : s ∈ g.succs b) :
    g.IsArm b s (Context.armBlocks g b (Context.joinBlock? t b) s) := by
  refine ⟨fun x => mem_armBlocks_iff ht hb, ?_, ?_⟩
  · intro x hx hpost
    obtain ⟨path, hway, hbranch, hjoin⟩ := (mem_armBlocks_iff ht hb).1 hx
    have hne : x ≠ b := fun heq => hbranch (heq ▸ hway.last_mem)
    obtain ⟨j, hj⟩ := ht.exists_isNearestPost hne hpost
    exact hj.not_postDominates (.step hs hway) hbranch (hjoin j hj) hway.last_mem hpost
  · intro j hj x hx
    obtain ⟨path, hway, -, hjoin⟩ := (mem_armBlocks_iff ht hb).1 hx
    exact hj.not_mem_exits (.step hs hway) (hjoin j hj)

end FlowGraph

/-! ## What is reported

The rule compares arms by whether something speaks against them, and this is put in terms of the
exact arms. -/

namespace Context

variable {c : Context} {i : Inspector} {post : Dominance String} {found : List Finding}

/-- A block that ends in a branch is reported exactly when its arms differ on a secret. -/
theorem exists_finding_iff_splits {shared : List Location} (hf : c.function.WellFormed shared)
    (hg : FlowGraph.ofFunction c.function = .ok c.graph)
    (hfound : c.secretPaths = .ok found) {b : Block} (hb : b ∈ c.function.blocks) :
    (∃ x ∈ found, c.IsFindingAt .secretPath (b.id, (b.instrs.length - 1 : Nat)) x) ↔
      c.SplitsOnSecret b := by
  obtain ⟨found', hfound', honly, hall⟩ := exists_reportsPaths hf hg
  cases hfound.symm.trans hfound'
  constructor
  · rintro ⟨x, hx, hat⟩
    obtain ⟨b', hsplits, hat'⟩ := honly x hx
    have hid : b'.id = b.id := congrArg Prod.fst (hat'.place.symm.trans hat.place)
    rwa [List.inj_on_of_nodup_map hf.blocks hb hsplits.block hid.symm]
  · exact hall b

/-- Whether a branch splits on a secret, by the value that it depends on and by its arms. -/
theorem splitsOnSecret_iff (hi : c.inspector = .ok i) (hpost : c.graph.postDominance = .ok post)
    {b : Block} (hb : b ∈ c.function.blocks) {t : Instr} (ht : b.terminator? = some t)
    (hop : t.op = .branch) (hreached : c.graph.Reached b.id)
    (hseveral : 2 ≤ (c.graph.succs b.id).length) :
    c.SplitsOnSecret b ↔ ∃ v, t.inputs.head? = some v ∧ (c.taints.of (some v)).isTainted = true ∧
      (c.taints.of (some v)).chain ≠ [] ∧
      (∃ s ∈ c.graph.succs b.id,
        i.SpeaksAgainst (armBlocks c.graph b.id (joinBlock? post b.id) s)) ∧
      ∃ s ∈ c.graph.succs b.id,
        ¬ i.SpeaksAgainst (armBlocks c.graph b.id (joinBlock? post b.id) s) := by
  constructor
  · intro hsplits
    obtain ⟨t', v, ht', -, hv, htainted, horigin⟩ := hsplits.condition
    cases ht.symm.trans ht'
    obtain ⟨i', post', hi', hpost', hdiffer⟩ := hsplits.arms
    cases hi.symm.trans hi'
    cases hpost.symm.trans hpost'
    exact ⟨v, hv, htainted, Taint.hasOrigin_iff.1 horigin, hdiffer⟩
  · rintro ⟨v, hv, htainted, hchain, hdiffer⟩
    refine ⟨⟨hb, FlowGraph.mem_reachable_iff.2 hreached, ?_, hseveral⟩, i, post, hi, hpost, hdiffer⟩
    exact ⟨t, v, ht, hop, hv, htainted, Taint.hasOrigin_iff.2 hchain⟩

/-! ## Functions of a validated module

The statement for callers, with a function whose two arms do different things. -/

/-- A function that branches on a tag, and in one arm branches on it again. -/
def choose : Function :=
  ⟨"choose",
    [⟨"entry", [⟨.branch, ["tag"], none, ["long", "short"], none, none⟩]⟩,
      ⟨"long", [⟨.branch, ["tag"], none, ["more", "last"], none, none⟩]⟩,
      ⟨"more", [⟨.jump, [], none, ["last"], none, none⟩]⟩,
      ⟨"short", [⟨.jump, [], none, ["last"], none, none⟩]⟩,
      ⟨"last", [⟨.ret, [], none, [], none, none⟩]⟩],
    [⟨"tag", .secret⟩], none, []⟩

def choosing : Module := ⟨"choosing", [choose], []⟩

theorem validate_choosing : choosing.validate = .ok () := rfl

theorem choose_mem_choosing : choose ∈ choosing.functions := List.mem_singleton.2 rfl

/-- Its flow graph. -/
def chooseGraph : FlowGraph :=
  ⟨"entry",
    ⟨[("entry", ["long", "short"]), ("long", ["more", "last"]), ("more", ["last"]),
      ("short", ["last"]), ("last", [])]⟩, ["last"]⟩

theorem ofFunction_choose : FlowGraph.ofFunction choose = .ok chooseGraph := by rfl

theorem loops_choose : chooseGraph.loops = .ok [] := by rfl

/-- Its taints. -/
def chooseTaints : Taints :=
  ⟨Table.ofList [("tag", .source "tag")],
    Table.ofList (["entry", "short", "long", "more", "last"].map fun b => (b, ⟨Table.empty⟩)), [],
    2⟩

theorem taints_choose : Taints.ofFunction choosing choose chooseGraph = .ok chooseTaints := by rfl

/-- **A branch is reported for the code that it decides.** In a function without a block of the
virtual exit's name, the arms of a reachable branch to several blocks are the blocks that the
branch decides by going to each of them, and the branch is reported just if it depends on a tainted
value with a chain and there is evidence in some of its arms and none in others. -/
theorem exists_arms_forall_way {m : Module} (hm : m.validate = .ok ()) {f : Function}
    (hf : f ∈ m.functions) (hname : virtualExit ∉ f.blocks.map Block.id) :
    ∃ g post, FlowGraph.ofFunction f = .ok g ∧ g.postDominance = .ok post ∧
      ∀ c : Context, c.module = m → c.function = f → c.graph = g →
        ∃ i found, c.inspector = .ok i ∧ c.secretPaths = .ok found ∧
          ∀ b ∈ f.blocks, ∀ t, b.terminator? = some t → t.op = .branch → g.Reached b.id →
            2 ≤ t.distinctTargets.length →
            (∀ s ∈ g.succs b.id, g.IsArm b.id s (armBlocks g b.id (joinBlock? post b.id) s) ∧
              ∃ evidence, i.evidence (armBlocks g b.id (joinBlock? post b.id) s) = .ok evidence ∧
                (evidence ≠ [] ↔ i.SpeaksAgainst (armBlocks g b.id (joinBlock? post b.id) s))) ∧
            ((∃ x ∈ found, c.IsFindingAt .secretPath (b.id, (b.instrs.length - 1 : Nat)) x) ↔
              ∃ v, t.inputs.head? = some v ∧ (c.taints.of (some v)).isTainted = true ∧
                (c.taints.of (some v)).chain ≠ [] ∧
                (∃ s ∈ g.succs b.id, i.SpeaksAgainst (armBlocks g b.id (joinBlock? post b.id) s)) ∧
                ∃ s ∈ g.succs b.id,
                  ¬ i.SpeaksAgainst (armBlocks g b.id (joinBlock? post b.id) s)) := by
  have hwf := (Module.wellFormed_of_validate hm).function f hf
  obtain ⟨g, hg, -⟩ := (Module.wellFormed_of_validate hm).flow f hf
  have hname' : virtualExit ∉ g.blocks := by rwa [FlowGraph.blocks_eq hg]
  obtain ⟨post, hpost, hexact⟩ := FlowGraph.exists_isPostDominance hg hwf hname'
  refine ⟨g, post, hg, hpost, ?_⟩
  rintro c rfl rfl rfl
  obtain ⟨i, hi, hfunction, hgraph⟩ := exists_inspector hwf hg
  obtain ⟨found, hfound⟩ := exists_secretPaths hwf hg
  refine ⟨i, found, hi, hfound, ?_⟩
  intro b hb t ht hop hreached hseveral
  have hsuccs := FlowGraph.succs_eq_distinctTargets hg hwf.blocks hb ht (by rw [hop]; rfl)
  have hne : b.id ≠ virtualExit := fun heq => hname (heq ▸ List.mem_map_of_mem hb)
  constructor
  · intro s hs
    refine ⟨hexact.isArm hne hs, ?_⟩
    obtain ⟨evidence, hevidence⟩ :=
      Inspector.exists_evidence (hfunction ▸ hwf) (by rw [hfunction, hgraph]; exact hg)
      (armBlocks c.graph b.id (joinBlock? post b.id) s)
    exact ⟨evidence, hevidence,
      Inspector.evidence_ne_nil_iff_speaksAgainst (hfunction ▸ hwf.blocks) hevidence⟩
  · rw [exists_finding_iff_splits hwf hg hfound hb]
    exact splitsOnSecret_iff hi hpost hb ht hop hreached (by rw [hsuccs]; exact hseveral)

/-- The first block of the function that branches on a tag. -/
def chooseEntry : Block := ⟨"entry", [⟨.branch, ["tag"], none, ["long", "short"], none, none⟩]⟩

/-- The arms of the sample, of two blocks and of one. -/
theorem armBlocks_choose {post : Dominance String} (h : chooseGraph.postDominance = .ok post) :
    armBlocks chooseGraph chooseEntry.id (joinBlock? post chooseEntry.id) "long" =
      ["long", "more"] ∧
      armBlocks chooseGraph chooseEntry.id (joinBlock? post chooseEntry.id) "short" =
        ["short"] := by
  have harms : chooseGraph.postDominance.map (fun post =>
      (armBlocks chooseGraph chooseEntry.id (joinBlock? post chooseEntry.id) "long",
        armBlocks chooseGraph chooseEntry.id (joinBlock? post chooseEntry.id) "short")) =
      .ok (["long", "more"], ["short"]) := by rfl
  rw [h] at harms
  exact Prod.mk.inj (Except.ok.inj harms)

/-- The second branch is in the arm of the first that goes to it, and only there, so the first
branch is reported. -/
theorem exists_arms_choosing : choosing.validate = .ok () ∧ choose ∈ choosing.functions ∧
    virtualExit ∉ choose.blocks.map Block.id ∧
    ∃ g post, FlowGraph.ofFunction choose = .ok g ∧ g.postDominance = .ok post ∧
      ∀ c : Context, c.module = choosing → c.function = choose → c.graph = g →
        Taints.ofFunction choosing choose g = .ok c.taints →
          g.IsArm "entry" "long" ["long", "more"] ∧ g.IsArm "entry" "short" ["short"] ∧
            ∃ found, c.secretPaths = .ok found ∧ ∃ x ∈ found,
              c.IsFindingAt .secretPath ("entry", (0 : Nat)) x := by
  have hname : virtualExit ∉ choose.blocks.map Block.id := by decide
  refine ⟨validate_choosing, choose_mem_choosing, hname, ?_⟩
  obtain ⟨g, post, hg, hpost, hall⟩ :=
    exists_arms_forall_way validate_choosing choose_mem_choosing hname
  cases hg.symm.trans ofFunction_choose
  refine ⟨chooseGraph, post, hg, hpost, ?_⟩
  rintro ⟨m, f, g, taints, regions, policy, isVariableTime⟩ rfl rfl rfl htaints
  cases taints_choose.symm.trans htaints
  obtain ⟨i, found, hi, hfound, hbranches⟩ :=
    hall ⟨choosing, choose, chooseGraph, chooseTaints, regions, policy, isVariableTime⟩ rfl rfl rfl
  have hinspector : i = ⟨choose, chooseGraph, chooseTaints, [], policy, isVariableTime⟩ := by
    simp only [inspector, loops_choose] at hi
    exact (Except.ok.inj hi).symm
  obtain ⟨hexact, hreported⟩ := hbranches chooseEntry (by decide) _ rfl rfl
    (FlowGraph.mem_reachable_iff.1 (by decide)) (by decide)
  obtain ⟨hlong, hshort⟩ := armBlocks_choose hpost
  have harmLong := (hexact "long" (by decide)).1
  obtain ⟨harmShort, silent, hsilent, hspeaks⟩ := hexact "short" (by decide)
  rw [hlong] at harmLong
  rw [hshort] at harmShort
  -- the second branch speaks against its arm, and nothing against the other
  have hagainst : i.SpeaksAgainst ["long", "more"] := by
    rw [hinspector]
    refine .inl
      ⟨_, List.mem_cons_of_mem _ List.mem_cons_self, List.mem_cons_self, _,
        List.mem_singleton_self _, ?_⟩
    exact .inl (.branch rfl rfl rfl)
  have hnone : silent = [] := by
    rw [hshort, hinspector] at hsilent
    exact (Except.ok.inj hsilent).symm
  refine ⟨harmLong, harmShort, found, hfound, ?_⟩
  apply hreported.2
  refine ⟨"tag", rfl, rfl, List.cons_ne_nil _ _, ?_, ?_⟩
  · exact ⟨"long", by decide, by rw [hlong]; exact hagainst⟩
  · exact ⟨"short", by decide, fun h => hspeaks.2 h hnone⟩

end Context

end ConstantTime
