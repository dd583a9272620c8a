/-
A scrub is reported exactly if it does not post-dominate the definition of its value.

Uses follow their definitions, so a scrub that can be reached is dominated by the block that
defines the value, the entry if that is a parameter, and this block is reached as well. The exits
that the rule sees around the scrub are then the ends of the ways out of the definition that keep
clear of the scrub. There is such a way just if the definition leads out at all and the scrub does
not post-dominate it. That the scrub may lead nowhere makes no difference: no way out passes it
then.
-/
import ConstantTime.Proofs.DefinitionOrder
import ConstantTime.Proofs.SkippedScrubs
import ConstantTime.Proofs.Ways

set_option autoImplicit false

namespace ConstantTime

/-! ## The block of a definition

A value is defined by one instruction, or it is a parameter and defined at the entry. Either way
there is one block, and it dominates every use. -/

/-- The block is the one that defines the value: the entry for a parameter, and else the block of
the instruction that computes it. -/
def Function.DefinedIn (f : Function) (g : FlowGraph) (v d : String) : Prop :=
  (v ∈ f.params.map Param.value ∧ d = g.entry) ∨ ∃ q ∈ f.placed, q.instr.output = some v ∧
    q.block.id = d

namespace Function.DefinedIn

variable {f : Function} {g : FlowGraph} {shared : List Location} {v d d' : String}

/-- The definition is in a block of the function. -/
theorem mem_blocks (hg : FlowGraph.ofFunction f = .ok g) (hd : f.DefinedIn g v d) :
    d ∈ g.blocks := by
  rcases hd with ⟨-, rfl⟩ | ⟨q, hq, -, rfl⟩
  · exact FlowGraph.entry_mem_blocks hg
  · rw [FlowGraph.blocks_eq hg]
    exact List.mem_map_of_mem (mem_placed_iff.1 hq).1

/-- No value is defined in two blocks. -/
theorem unique (hf : f.WellFormed shared) (hd : f.DefinedIn g v d) (hd' : f.DefinedIn g v d') :
    d = d' := by
  have hparam : ∀ q ∈ f.placed, q.instr.output = some v → v ∉ f.params.map Param.value := by
    intro q hq hqv hmem
    have hsite := hf.get?_sites_eq_instr_iff.2 ⟨q, hq, hqv, rfl, rfl⟩
    rw [hf.get?_sites_eq_param_iff.2 hmem] at hsite
    cases hsite
  rcases hd with ⟨hmem, rfl⟩ | ⟨q, hq, hqv, rfl⟩ <;>
    rcases hd' with ⟨hmem', rfl⟩ | ⟨q', hq', hqv', rfl⟩
  · rfl
  · exact absurd hmem (hparam q' hq' hqv')
  · exact absurd hmem' (hparam q hq hqv)
  · exact (hf.place_eq_of_output hq hq' hqv hqv').1

/-- A use that can be reached is dominated by the block that defines the value. -/
theorem dominates (hf : f.WellFormed shared) (hg : FlowGraph.ofFunction f = .ok g)
    (horder : f.orderViolation? g = none) (hd : f.DefinedIn g v d) {p : Placed} (hp : p ∈ f.placed)
    (hphi : p.instr.op ≠ .phi) (hv : v ∈ p.instr.inputs) (hreached : g.Reached p.block.id) :
    g.Dominates d p.block.id := by
  rcases hd with ⟨-, rfl⟩ | ⟨q, hq, hqv, rfl⟩
  · exact hreached.dominates_entry
  · have hprecedes := (orderViolation?_eq_none_iff hf hg).1 horder p hp hphi v hv q hq hqv
    by_cases hsame : q.block.id = p.block.id
    · rw [hsame]
      exact hreached.dominates_self
    · exact hprecedes.across hsame hreached

end Function.DefinedIn

namespace Context

variable {c : Context} {shared : List Location}

/-- The rule takes the block that defines the value. -/
theorem definedIn_definitionBlock (hf : c.function.WellFormed shared) {v : String}
    (hv : v ∈ c.function.definedValues) :
    c.function.DefinedIn c.graph v (c.definitionBlock c.function.sites v) := by
  obtain ⟨site, hsite⟩ := hf.exists_site hv
  rw [definitionBlock, hsite]
  cases site with
  | param => exact .inl ⟨hf.get?_sites_eq_param_iff.1 hsite, rfl⟩
  | instr b k =>
    obtain ⟨q, hq, hqv, rfl, -⟩ := hf.get?_sites_eq_instr_iff.1 hsite
    exact .inr ⟨q, hq, hqv, rfl⟩

end Context

/-! ## Ways out around a block

The rule searches forwards from the definition and looks for exits; post-dominance speaks of ways
out. Both ask for a way that keeps clear of a block. -/

namespace FlowGraph

variable {g : FlowGraph} {t : Dominance String}

/-- What the search finds of the exits are the ends of the ways out. -/
theorem Reached.exists_exit_iff {d s : String} (hd : g.Reached d) :
    (∃ e ∈ g.exits, e ∈ g.reachable ∧ e ∈ g.reachableFrom [d] [s]) ↔ ∃ path, g.WayOut d path ∧
      s ∉ path := by
  simp only [mem_reachableFrom_singleton_iff, wayOut_iff_way]
  constructor
  · rintro ⟨e, he, -, path, hway, hs⟩
    exact ⟨path, ⟨e, he, hway⟩, hs⟩
  · rintro ⟨path, ⟨e, he, hway⟩, hs⟩
    exact ⟨e, he, mem_reachable_iff.2 (hd.way hway), path, hway, hs⟩

/-- There is a way out around a block unless it post-dominates, or there is no way out at all. -/
theorem IsPostDominance.exists_wayOut_iff (ht : g.IsPostDominance t) {a b : String}
    (ha : a ≠ virtualExit) (hb : b ≠ virtualExit) :
    (∃ path, g.WayOut b path ∧ a ∉ path) ↔ b ∈ t.nodes ∧ t.dominates a b = false := by
  rw [ht.nodes, or_iff_right hb, Dominance.dominates, decide_eq_false_iff_not, ht.dominators a b ha]
  constructor
  · rintro ⟨path, hout, hnot⟩
    exact ⟨⟨path, hout⟩, fun hpost => hnot (hpost.2.2 path hout)⟩
  · rintro ⟨⟨path, hout⟩, hnot⟩
    by_contra hall
    push Not at hall
    -- the block is on a way out, so it leads out itself
    obtain ⟨rest, hrest, -⟩ := hout.exists_last (hall path hout)
    exact hnot ⟨⟨_, hrest⟩, ⟨path, hout⟩, hall⟩

end FlowGraph

/-! ## What is reported

A finding of the rule is an instruction that scrubs a value with a chain and that can be missed on
a way out of the definition. -/

namespace Context

variable {c : Context} {shared : List Location} {found : List Finding}

/-- A scrub that can be reached of a tainted value with a chain that another block defines. -/
structure ScrubsSecret (c : Context) (p : Placed) (v d : String) : Prop where
  reached : c.graph.Reached p.block.id
  apart : d ≠ p.block.id
  tainted : (c.taints.of (some v)).isTainted = true
  chain : (c.taints.of (some v)).chain ≠ []

/-- A scrub of a secret can be skipped if there is a way out of the definition around it. -/
theorem skipsScrub_iff (hf : c.function.WellFormed shared)
    (hg : FlowGraph.ofFunction c.function = .ok c.graph)
    (horder : c.function.orderViolation? c.graph = none) {p : Placed} (hp : p ∈ c.function.placed)
    (hop : p.instr.op = .scrub) {v d : String} (hv : p.instr.inputs.head? = some v)
    (hd : c.function.DefinedIn c.graph v d) :
    c.SkipsScrub p v ↔ c.ScrubsSecret p v d ∧ ∃ path, c.graph.WayOut d path ∧
      p.block.id ∉ path := by
  have hmem : v ∈ p.instr.inputs := List.mem_of_head? hv
  have hblock :=
    (definedIn_definitionBlock hf ((hf.operands_of_mem_placed hp).defined v hmem)).unique hf hd
  have hdominates := hd.dominates hf hg horder hp (by rw [hop]; decide) hmem
  constructor
  · intro h
    have hreached := FlowGraph.mem_reachable_iff.1 h.reached
    have hdefined := (hdominates hreached).1
    refine ⟨⟨hreached, hblock ▸ h.apart, h.tainted, Taint.hasOrigin_iff.1 h.origin⟩, ?_⟩
    rw [← hdefined.exists_exit_iff, ← hblock]
    exact h.around
  · rintro ⟨h, haround⟩
    have hdefined := (hdominates h.reached).1
    refine ⟨hp, hop, FlowGraph.mem_reachable_iff.2 h.reached, hv, h.tainted,
      Taint.hasOrigin_iff.2 h.chain, ?_, ?_, ?_⟩
    · rw [hblock]
      exact h.apart
    · rw [hblock]
      exact FlowGraph.mem_reachable_iff.2 hdefined
    · rw [hblock, hdefined.exists_exit_iff]
      exact haround

/-- A scrub has a value, and the value one block that defines it. -/
theorem exists_definedIn (hf : c.function.WellFormed shared) {p : Placed}
    (hp : p ∈ c.function.placed) (hop : p.instr.op = .scrub) :
    ∃ v d, p.instr.inputs.head? = some v ∧ ∀ d', c.function.DefinedIn c.graph v d' ↔ d' = d := by
  have hoperands := hf.operands_of_mem_placed hp
  have hinput : p.instr.inputs ≠ [] := hoperands.input (by rw [hop]; rfl)
  have hmem : p.instr.inputs.head hinput ∈ p.instr.inputs := List.head_mem hinput
  have hdefined := definedIn_definitionBlock hf (hoperands.defined _ hmem)
  refine ⟨_, _, List.head?_eq_some_head hinput, fun d' => ⟨fun hd' => hd'.unique hf hdefined, ?_⟩⟩
  rintro rfl
  exact hdefined

/-- A finding stands at a scrub exactly if the scrub can be skipped. -/
theorem exists_finding_iff_skips (hf : c.function.WellFormed shared)
    (hfound : c.conditionalScrubs = .ok found) {p : Placed} (hp : p ∈ c.function.placed) :
    (∃ x ∈ found, c.IsFindingAt .conditionalScrub p.place x) ↔ ∃ v, c.SkipsScrub p v := by
  obtain ⟨found', hfound', honly, hall⟩ := exists_reportsScrubs hf
  cases hfound.symm.trans hfound'
  constructor
  · rintro ⟨x, hx, hat⟩
    obtain ⟨q, v, hskips, hat'⟩ := honly x hx
    have hplace : p.place = q.place := hat.place.symm.trans hat'.place
    rw [Function.eq_of_place_eq hf.blocks hp hskips.placed hplace]
    exact ⟨v, hskips⟩
  · rintro ⟨v, hskips⟩
    exact hall p v hskips

/-! ## Functions of a validated module

The statement for callers. In the sample one scrub is on every way out and the other one is not. -/

/-- A function that derives a key from a seed, scrubs the key in a loop and the seed behind it. -/
def wipe : Function :=
  ⟨"wipe",
    [⟨"entry",
      [⟨.compute, ["seed"], some "key", [], none, none⟩, ⟨.jump, [], none, ["head"], none, none⟩]⟩,
      ⟨"head", [⟨.branch, ["n"], none, ["body", "out"], none, none⟩]⟩,
      ⟨"body", [⟨.scrub, ["key"], none, [], none, none⟩, ⟨.jump, [], none, ["head"], none, none⟩]⟩,
      ⟨"out", [⟨.scrub, ["seed"], none, [], none, none⟩, ⟨.ret, [], none, [], none, none⟩]⟩],
    [⟨"seed", .secret⟩, ⟨"n", .pub⟩], none, []⟩

def wiping : Module := ⟨"wiping", [wipe], []⟩

theorem validate_wiping : wiping.validate = .ok () := rfl

theorem wipe_mem_wiping : wipe ∈ wiping.functions := List.mem_singleton.2 rfl

/-- The scrub of the key. -/
def keyScrub : Placed :=
  ⟨⟨"body", [⟨.scrub, ["key"], none, [], none, none⟩, ⟨.jump, [], none, ["head"], none, none⟩]⟩, 0,
    ⟨.scrub, ["key"], none, [], none, none⟩⟩

/-- The scrub of the seed. -/
def seedScrub : Placed :=
  ⟨⟨"out", [⟨.scrub, ["seed"], none, [], none, none⟩, ⟨.ret, [], none, [], none, none⟩]⟩, 0,
    ⟨.scrub, ["seed"], none, [], none, none⟩⟩

theorem keyScrub_mem : keyScrub ∈ wipe.placed := Function.mem_placed_iff.2 (by decide)

theorem seedScrub_mem : seedScrub ∈ wipe.placed := Function.mem_placed_iff.2 (by decide)

/-- Its flow graph. -/
def wipeGraph : FlowGraph :=
  ⟨"entry", ⟨[("entry", ["head"]), ("head", ["body", "out"]), ("body", ["head"]), ("out", [])]⟩,
    ["out"]⟩

theorem ofFunction_wipe : FlowGraph.ofFunction wipe = .ok wipeGraph := by rfl

/-- All blocks of the sample are reached. -/
theorem reached_wipe : ∀ b ∈ wipe.blocks, wipeGraph.Reached b.id := by
  simp only [← FlowGraph.mem_reachable_iff]
  decide

theorem definedIn_key : wipe.DefinedIn wipeGraph "key" "entry" :=
  .inr ⟨⟨_, 0, _⟩, Function.mem_placed_iff.2 ⟨List.mem_cons_self, rfl⟩, rfl, rfl⟩

/-- Its taints. -/
def wipeTaints : Taints :=
  ⟨Table.ofList [("seed", .source "seed"), ("n", .pub), ("key", ⟨.secret, ["seed", "key"]⟩)],
    Table.ofList (["entry", "head", "out", "body"].map fun b => (b, ⟨Table.empty⟩)), [], 2⟩

theorem taints_wipe : Taints.ofFunction wiping wipe wipeGraph = .ok wipeTaints := by rfl

/-- **A scrub is reported if it does not post-dominate the definition.** In a function without a
block of the virtual exit's name, a scrub that can be reached, of a tainted value with a chain that
another block defines, is reported just if some way out of that block does not pass the scrub,
which is to say that the block is in the tree from the virtual exit and the block of the scrub is
not above it. Nothing is reported at other scrubs or elsewhere. -/
theorem exists_scrubs_forall_way {m : Module} (hm : m.validate = .ok ()) {f : Function}
    (hf : f ∈ m.functions) (hname : virtualExit ∉ f.blocks.map Block.id) :
    ∃ g post, FlowGraph.ofFunction f = .ok g ∧ g.postDominance = .ok post ∧
      ∀ c : Context, c.module = m → c.function = f → c.graph = g →
        ∃ found, c.conditionalScrubs = .ok found ∧
          (∀ x ∈ found, ∃ p ∈ f.placed, p.instr.op = .scrub ∧
            c.IsFindingAt .conditionalScrub p.place x) ∧
          ∀ p ∈ f.placed, p.instr.op = .scrub →
            ∃ v d, p.instr.inputs.head? = some v ∧ (∀ d', f.DefinedIn g v d' ↔ d' = d) ∧
              (c.ScrubsSecret p v d →
                ((∃ x ∈ found, c.IsFindingAt .conditionalScrub p.place x) ↔
                  ∃ path, g.WayOut d path ∧ p.block.id ∉ path) ∧
                ((∃ path, g.WayOut d path ∧ p.block.id ∉ path) ↔
                  d ∈ post.nodes ∧ post.dominates p.block.id d = false)) ∧
              (¬ c.ScrubsSecret p v d →
                ∀ x ∈ found, ¬ c.IsFindingAt .conditionalScrub p.place x) := by
  have hwf := (Module.wellFormed_of_validate hm).function f hf
  obtain ⟨g, hg, horder⟩ := (Module.wellFormed_of_validate hm).flow f hf
  rw [← FlowGraph.blocks_eq hg] at hname
  obtain ⟨post, hpost, hexact⟩ := FlowGraph.exists_isPostDominance hg hwf hname
  refine ⟨g, post, hg, hpost, ?_⟩
  rintro c rfl rfl rfl
  obtain ⟨found, hfound, honly, -⟩ := exists_reportsScrubs hwf
  refine ⟨found, hfound, ?_, ?_⟩
  · intro x hx
    obtain ⟨p, v, hskips, hat⟩ := honly x hx
    exact ⟨p, hskips.placed, hskips.op, hat⟩
  · intro p hp hop
    obtain ⟨v, d, hv, hd⟩ := exists_definedIn hwf hp hop
    have hdefined := (hd d).2 rfl
    -- a finding at the scrub needs both: the value has a chain, and some way out misses the scrub
    have hreported : (∃ x ∈ found, c.IsFindingAt .conditionalScrub p.place x) ↔
        c.ScrubsSecret p v d ∧ ∃ path, c.graph.WayOut d path ∧ p.block.id ∉ path := by
      rw [exists_finding_iff_skips hwf hfound hp, ← skipsScrub_iff hwf hg horder hp hop hv hdefined]
      constructor
      · rintro ⟨w, hskips⟩
        rwa [Option.some.inj (hv.symm.trans hskips.input)]
      · exact fun hskips => ⟨v, hskips⟩
    refine ⟨v, d, hv, hd, ?_, ?_⟩
    · intro hsecret
      rw [hreported, and_iff_right hsecret]
      refine ⟨Iff.rfl, hexact.exists_wayOut_iff ?_ ?_⟩
      · rintro heq
        rw [← heq, FlowGraph.blocks_eq hg] at hname
        exact hname (List.mem_map_of_mem (Function.mem_placed_iff.1 hp).1)
      · rintro rfl
        exact hname (hdefined.mem_blocks hg)
    · intro hsecret x hx hat
      exact hsecret (hreported.1 ⟨x, hx, hat⟩).1

/-- One of its scrubs post-dominates the entry, where both values are defined, and one does not. -/
theorem dominates_wipe {post : Dominance String} (h : wipeGraph.postDominance = .ok post) :
    "entry" ∈ post.nodes ∧ post.dominates "body" "entry" = false ∧
      post.dominates "out" "entry" = true := by
  have htree : wipeGraph.postDominance.map (fun post => (decide ("entry" ∈ post.nodes),
      post.dominates "body" "entry", post.dominates "out" "entry")) =
        .ok (true, false, true) := by rfl
  rw [h] at htree
  have hparts := Except.ok.inj htree
  rw [Prod.mk.injEq, Prod.mk.injEq, decide_eq_true_iff] at hparts
  exact hparts

/-- The loop may be left before the key is scrubbed, but the seed is scrubbed whatever happens. -/
theorem exists_scrubs_wiping : wiping.validate = .ok () ∧ wipe ∈ wiping.functions ∧
    virtualExit ∉ wipe.blocks.map Block.id ∧
    ∃ g post, FlowGraph.ofFunction wipe = .ok g ∧ g.postDominance = .ok post ∧
      ∀ c : Context, c.module = wiping → c.function = wipe → c.graph = g →
        Taints.ofFunction wiping wipe g = .ok c.taints →
          ∃ found, c.conditionalScrubs = .ok found ∧
            (∃ path, g.WayOut "entry" path ∧ "body" ∉ path) ∧
            (∃ x ∈ found, c.IsFindingAt .conditionalScrub ("body", (0 : Nat)) x) ∧
            (¬ ∃ path, g.WayOut "entry" path ∧ "out" ∉ path) ∧
            ¬ ∃ x ∈ found, c.IsFindingAt .conditionalScrub ("out", (0 : Nat)) x := by
  have hname : virtualExit ∉ wipe.blocks.map Block.id := by decide
  refine ⟨validate_wiping, wipe_mem_wiping, hname, ?_⟩
  obtain ⟨g, post, hg, hpost, hall⟩ :=
    exists_scrubs_forall_way validate_wiping wipe_mem_wiping hname
  cases hg.symm.trans ofFunction_wipe
  refine ⟨wipeGraph, post, hg, hpost, ?_⟩
  rintro ⟨m, f, g, taints, regions, policy, isVariableTime⟩ rfl rfl rfl htaints
  cases taints_wipe.symm.trans htaints
  obtain ⟨found, hfound, -, hscrubs⟩ :=
    hall ⟨wiping, wipe, wipeGraph, wipeTaints, regions, policy, isVariableTime⟩ rfl rfl rfl
  obtain ⟨hnode, hbody, hout⟩ := dominates_wipe hpost
  obtain ⟨v, d, hv, hdefined, hkey, -⟩ := hscrubs keyScrub keyScrub_mem rfl
  cases hv
  obtain rfl := (hdefined "entry").1 definedIn_key
  obtain ⟨v, d, hv, hdefined, hseed, -⟩ := hscrubs seedScrub seedScrub_mem rfl
  cases hv
  obtain rfl := (hdefined "entry").1 (.inl ⟨List.mem_cons_self, rfl⟩)
  obtain ⟨hiffKey, htreeKey⟩ :=
    hkey ⟨reached_wipe _ (by decide), by decide, rfl, List.cons_ne_nil _ _⟩
  obtain ⟨hiffSeed, htreeSeed⟩ :=
    hseed ⟨reached_wipe _ (by decide), by decide, rfl, List.cons_ne_nil _ _⟩
  have hway := htreeKey.2 ⟨hnode, hbody⟩
  have hnone := mt htreeSeed.1 fun h => Bool.noConfusion (hout.symm.trans h.2)
  exact ⟨found, hfound, hway, hiffKey.2 hway, hnone, mt hiffSeed.1 hnone⟩

end Context

end ConstantTime
