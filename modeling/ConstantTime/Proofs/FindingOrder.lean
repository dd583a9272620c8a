/-
The order of the findings of a result.

A rule reports instructions of a kind of its own and each of them at most once, so the findings in
a function stand at different instructions. They are sorted by function, block and instruction
first, where blocks count by their position in the function. Main statement: the findings of a
result are strictly ascending in this order, and each points at an instruction of the module of the
kind that its rule reports.
-/
import ConstantTime.Proofs.Filters
import ConstantTime.Proofs.GlobalStores
import ConstantTime.Proofs.OpenRegions
import ConstantTime.Proofs.RunHistories
import ConstantTime.Proofs.SecretPaths
import ConstantTime.Proofs.SkippedScrubs

set_option autoImplicit false

namespace ConstantTime

/-! ## Where findings point

Two notions of place: the names that a finding gives, and the numbers by which findings are sorted.
For findings that point at an instruction the second determines the first. -/

/-- The instructions of a function that a rule may report. -/
def Rule.IsAbout (m : Module) (f : Function) (i : Instr) : Rule → Prop
  | .secretPath => i.op = .branch
  | .indirectBranch => i.op = .indirectBranch ∨ i.op = .indirectCall
  | .conditionalScrub => i.op = .scrub
  | .globalStorage => i.op = .store ∧ ∃ l, i.location.bind (m.locationsFor f).get? = some l ∧
    l.storage = .global

/-- No instruction is reported by two rules. -/
theorem Rule.IsAbout.eq {m : Module} {f : Function} {i : Instr} {rule rule' : Rule}
    (h : rule.IsAbout m f i) (h' : rule'.IsAbout m f i) : rule = rule' := by
  cases rule <;> cases rule' <;> simp_all [IsAbout]

namespace Finding

/-- The names of the function and the block, and the position of the instruction in the block. -/
def location (x : Finding) : String × String × ℤ := (x.function, x.instrPlace)

/-- What findings are ordered by, apart from the rule. -/
def position (x : Finding) : String ×ₗ ℤ ×ₗ ℤ := toLex (x.function, toLex (x.blockIndex, x.index))

/-- A finding at an instruction of a function of a module, with the position of the block and the
position of the instruction in it. -/
structure PointsAt (m : Module) (f : Function) (p : Placed) (x : Finding) : Prop where
  inModule : f ∈ m.functions
  function : x.function = f.id
  block : x.block = p.block.id
  blockIndex : ∃ k : Nat, f.blocks[k]? = some p.block ∧ x.blockIndex = k
  index : x.index = p.index
  instr : p.block.instrs[p.index]? = some p.instr
  about : x.rule.IsAbout m f p.instr

variable {m : Module} {x y : Finding}

/-- In a module whose functions have names of their own, a position belongs to one location. -/
theorem PointsAt.location_eq (hm : m.WellFormed) {f f' : Function} {p p' : Placed}
    (hx : x.PointsAt m f p) (hy : y.PointsAt m f' p') (h : x.position = y.position) :
    x.location = y.location := by
  simp only [position, EmbeddingLike.apply_eq_iff_eq, Prod.mk.injEq] at h
  obtain ⟨hfunction, hblock, hindex⟩ := h
  obtain ⟨k, hk, hxk⟩ := hx.blockIndex
  obtain ⟨k', hk', hyk⟩ := hy.blockIndex
  have hf : f = f' := by
    apply List.inj_on_of_nodup_map hm.functions hx.inModule hy.inModule
    rw [← hx.function, ← hy.function, hfunction]
  have hpos : k = k' := by omega
  subst hf hpos
  have hsame : p.block = p'.block := Option.some.inj (hk.symm.trans hk')
  rw [location, location, instrPlace, instrPlace, hfunction, hindex, hx.block, hy.block, hsame]

/-- The order of findings compares positions first. -/
theorem position_le_of_le (h : x.le y = true) : x.position ≤ y.position := by
  rw [le_iff_key_le] at h
  simp only [key, position, Prod.Lex.toLex_le_toLex] at h ⊢
  grind

end Finding

/-- Findings in strictly ascending order of their positions, no two at one location, and each at an
instruction that its rule may report. -/
structure Module.Locates (m : Module) (xs : List Finding) : Prop where
  ascending : (xs.map Finding.position).Pairwise (· < ·)
  apart : (xs.map Finding.location).Nodup
  pointed : ∀ x ∈ xs, ∃ f p, x.PointsAt m f p

theorem Module.locates_nil (m : Module) : m.Locates [] where
  ascending := .nil
  apart := .nil
  pointed := by simp

/-- Sorting orders findings strictly, if no two are at one location. -/
theorem Module.WellFormed.locates_sortFindings {m : Module} (hm : m.WellFormed) {xs : List Finding}
    (hapart : (xs.map Finding.location).Nodup) (hpointed : ∀ x ∈ xs, ∃ f p, x.PointsAt m f p) :
    m.Locates (sortFindings xs) := by
  have hpointed' : ∀ x ∈ sortFindings xs, ∃ f p, x.PointsAt m f p := by
    intro x hx
    exact hpointed x (mem_sortBy.1 hx)
  have hapart' : ((sortFindings xs).map Finding.location).Nodup :=
    ((sortBy_perm Finding.le xs).map Finding.location).nodup_iff.2 hapart
  refine ⟨?_, hapart', hpointed'⟩
  rw [List.pairwise_map]
  have hsorted : (sortFindings xs).Pairwise fun x y => x.le y = true :=
    pairwise_sortBy Finding.le_total Finding.le_trans xs
  refine (hsorted.and (List.pairwise_map.1 hapart')).imp_of_mem ?_
  rintro x y hx hy ⟨hle, hne⟩
  obtain ⟨f, p, hx⟩ := hpointed' x hx
  obtain ⟨f', p', hy⟩ := hpointed' y hy
  apply lt_of_le_of_ne (Finding.position_le_of_le hle)
  intro heq
  exact hne (hx.location_eq hm hy heq)

/-! ## The findings in a function

Each rule is about one kind of instruction. So findings of different rules stand at different
instructions, and those of one rule do by the way it goes through the function. -/

namespace Context

variable {c : Context} {found : List Finding}

/-- A block that branches on a secret ends in a branch. -/
theorem BranchesOnSecret.exists_placed {b : Block} (h : c.BranchesOnSecret b) :
    ∃ t, (⟨b, b.instrs.length - 1, t⟩ : Placed) ∈ c.function.placed ∧ t.op = .branch := by
  obtain ⟨t, v, hlast, hop, -⟩ := h.condition
  refine ⟨t, Function.mem_placed_iff.2 ⟨h.block, ?_⟩, hop⟩
  rw [← List.getLast?_eq_getElem?]
  exact (Block.terminator?_eq_some_iff.1 hlast).1

/-- A rule reports instructions that it is about. -/
theorem Proper.exists_placed_of_mem_check (hc : c.Proper) {rule : Rule}
    (h : c.check rule = .ok found) {x : Finding} (hx : x ∈ found) :
    ∃ p ∈ c.function.placed, x.instrPlace = p.place ∧ rule.IsAbout c.module c.function p.instr := by
  cases rule with
  | secretPath =>
    obtain ⟨found', hfound', honly, -⟩ := exists_reportsPaths hc.wellFormed hc.graph
    cases hfound'.symm.trans h
    obtain ⟨b, hsplits, hat⟩ := honly x hx
    obtain ⟨t, hp, hop⟩ := hsplits.exists_placed
    exact ⟨_, hp, hat.place, hop⟩
  | indirectBranch =>
    obtain ⟨p, hp, hdynamic, -, hat⟩ := exists_of_mem_indirectBranches hc h hx
    refine ⟨p, hp, hat.place, ?_⟩
    have hindirect := hdynamic.indirect
    cases hop : p.instr.op <;> simp_all [Rule.IsAbout, Opcode.isIndirect]
  | conditionalScrub =>
    obtain ⟨found', hfound', honly, -⟩ := exists_reportsScrubs hc.wellFormed
    cases hfound'.symm.trans h
    obtain ⟨p, v, hskips, hat⟩ := honly x hx
    exact ⟨p, hskips.placed, hat.place, hskips.op⟩
  | globalStorage =>
    obtain ⟨p, hp, hstores, hat⟩ := storesSecret_of_mem_globalStores h hx
    exact ⟨p, hp, hat.place, hstores.op, hstores.location⟩

/-- No block has two findings, because it ends in one branch. -/
theorem nodup_places_of_secretPaths (hf : (c.function.blocks.map Block.id).Nodup)
    (h : c.secretPaths = .ok found) :
    (found.map Finding.instrPlace).Nodup := by
  have hblocks : (found.map Finding.block).Sublist (c.function.blocks.map Block.id) := by
    unfold secretPaths at h
    split at h
    · cases h
    · cases h
      exact List.nil_sublist _
    · next branches _ hbranches =>
      have hbranching : (branches.map fun branch => branch.1.id).Sublist
          (c.function.blocks.map Block.id) :=
        map_sublist_of_collectSome _ _ hbranches fun b _ branch hb => by rw [eq_of_secretBranch? hb]
      unfold pathFindings at h
      split at h
      · cases h
      · cases h
      · refine (map_sublist_of_collectSome _ _ h fun branch _ x hx => ?_).trans hbranching
        exact congrArg Prod.fst (madeAt_of_pathFinding? hx).isFindingAt.place
  apply List.Nodup.of_map Prod.fst
  rw [List.map_map]
  exact hf.sublist hblocks

/-- No place has two findings, because no two scrubs share a place. -/
theorem nodup_places_of_conditionalScrubs (hf : (c.function.blocks.map Block.id).Nodup)
    (h : c.conditionalScrubs = .ok found) : (found.map Finding.instrPlace).Nodup := by
  rw [conditionalScrubs_eq] at h
  have hsublist := map_sublist_of_collectSome Placed.place Finding.instrPlace h fun p _ x hx =>
    (madeAt_of_scrubbedFinding? hx).isFindingAt.place
  exact ((Function.nodup_places hf).sublist (List.filter_sublist.map _)).sublist hsublist

/-- A rule reports an instruction once. -/
theorem Proper.nodup_places_of_check (hc : c.Proper) {rule : Rule} (h : c.check rule = .ok found) :
    (found.map Finding.instrPlace).Nodup := by
  have hf := hc.wellFormed.blocks
  cases rule with
  | secretPath => exact nodup_places_of_secretPaths hf h
  | indirectBranch => exact nodup_places_of_indirectBranches hc h
  | conditionalScrub => exact nodup_places_of_conditionalScrubs hf h
  | globalStorage => exact nodup_places_of_globalStores hf h

/-- Different rules report different instructions, so all of them together report an instruction
once. -/
theorem Proper.nodup_places_of_checkAll (hc : c.Proper) {rules : List Rule} (hrules : rules.Nodup)
    (h : c.checkAll rules = .ok found) : (found.map Finding.instrPlace).Nodup := by
  induction rules generalizing found with
  | nil =>
    cases h
    exact .nil
  | cons rule rest ih =>
    obtain ⟨first, others, hfirst, hothers, rfl⟩ := checkAll_cons_eq_ok_iff.1 h
    rw [List.nodup_cons] at hrules
    rw [List.map_append]
    refine (hc.nodup_places_of_check hfirst).append (ih hrules.2 hothers) ?_
    rw [List.disjoint_left]
    intro place hplace hplace'
    obtain ⟨x, hx, rfl⟩ := List.mem_map.1 hplace
    obtain ⟨y, hy, heq⟩ := List.mem_map.1 hplace'
    obtain ⟨rule', hrule', ofRule, hofRule, hy⟩ := (mem_checkAll_iff hothers).1 hy
    -- two findings at one place are about one instruction, and so of one rule
    obtain ⟨p, hp, hat, habout⟩ := hc.exists_placed_of_mem_check hfirst hx
    obtain ⟨q, hq, hat', habout'⟩ := hc.exists_placed_of_mem_check hofRule hy
    have hpq : p = q :=
      Function.eq_of_place_eq hc.wellFormed.blocks hp hq (hat.symm.trans (heq.symm.trans hat'))
    subst hpq
    obtain rfl := habout.eq habout'
    exact hrules.1 hrule'

/-- A finding has the position of the block that it names. -/
theorem MadeAt.blockIndex {rule : Rule} {block : String} {index : Nat} {x : Finding}
    (h : c.MadeAt rule block index x) :
    ∃ k : Nat, c.function.blockIndex? block = some k ∧ x.blockIndex = k := by
  obtain ⟨_, _, _, h⟩ := h
  unfold finding at h
  split at h
  · cases h
  · next k hk =>
    cases h
    exact ⟨k, hk, rfl⟩

/-- A finding of a function points at one of its instructions. -/
theorem Proper.exists_pointsAt (hc : c.Proper) {rules : List Rule}
    (h : c.checkAll rules = .ok found) {x : Finding} (hx : x ∈ found) :
    ∃ p, x.PointsAt c.module c.function p := by
  obtain ⟨rule, -, ofRule, hcheck, hx⟩ := (mem_checkAll_iff h).1 hx
  obtain ⟨block, index, hmade⟩ := exists_madeAt_of_mem_check hcheck hx
  obtain ⟨p, hp, hat, habout⟩ := hc.exists_placed_of_mem_check hcheck hx
  obtain ⟨hblock, hinstr⟩ := Function.mem_placed_iff.1 hp
  have hname : x.block = p.block.id := congrArg Prod.fst hat
  have hfinding := hmade.isFindingAt
  -- the block that the finding was made at is the one it names, and names are looked up by position
  obtain ⟨k, hk, hposition⟩ := hmade.blockIndex
  have hblockName : block = p.block.id := (congrArg Prod.fst hfinding.place).symm.trans hname
  obtain ⟨k', hk'⟩ := List.mem_iff_getElem?.1 hblock
  rw [hblockName, Function.blockIndex?_eq_some hc.wellFormed.blocks hk'] at hk
  cases hk
  refine ⟨p, hc.function, hfinding.function, hname, ⟨k, hk', hposition⟩,
    congrArg Prod.snd hat, hinstr, ?_⟩
  rw [hfinding.rule]
  exact habout

end Context

/-! ## The findings of a report

A report takes each function once, so findings at one place come from one function. -/

namespace Analysis

variable {τ : Type} {c : Config} {s : Schedule} {m : Module} {late : Nat → Bool}
    {o : Except RunError Result}

/-- No rule is checked twice. -/
theorem nodup_checkedRules (c : Config) : c.checkedRules.Nodup := by
  have hall : Rule.all.Nodup := by decide
  rw [Config.checkedRules, Rule.ordered]
  exact hall.filter _

/-- A report on different functions orders its findings strictly. -/
theorem Known.Complete.locates_report {k : Known} (hk : k.Complete) {checked : List Function}
    (hchecked : checked.Sublist k.module.sortedFunctions) (r : Result) :
    k.module.Locates (k.report c checked r).findings := by
  have hmem : ∀ f ∈ checked, f ∈ k.module.functions :=
    fun f hf => Module.mem_sortedFunctions.1 (hchecked.subset hf)
  have hnames : (checked.map Function.id).Nodup :=
    hk.full.module.nodup_sortedFunctions.sublist (hchecked.map _)
  apply hk.full.module.locates_sortFindings
  · rw [List.map_flatMap, List.nodup_flatMap]
    constructor
    · intro f hf
      obtain ⟨ctx, hproper, -, -, -, hcheck⟩ := hk.exists_context (hmem f hf)
      obtain ⟨found, hfound⟩ := hproper.exists_checkAll c.checkedRules
      have hplaces := hproper.nodup_places_of_checkAll (nodup_checkedRules c) hfound
      rw [Known.found, (hcheck _ _).2 hfound]
      apply List.Nodup.of_map Prod.snd
      rw [List.map_map]
      exact hplaces.sublist (List.filter_sublist.map _)
    · -- findings in different functions differ in the name of the function
      have hne : checked.Pairwise fun f f' => f.id ≠ f'.id := List.pairwise_map.1 hnames
      refine hne.imp_of_mem fun {f f'} hf hf' hff' place hplace hplace' => hff' ?_
      obtain ⟨x, hx, rfl⟩ := List.mem_map.1 hplace
      obtain ⟨y, hy, heq⟩ := List.mem_map.1 hplace'
      rw [← hk.function_of_mem_found (hmem f hf) (List.mem_filter.1 hx).1,
        ← hk.function_of_mem_found (hmem f' hf') (List.mem_filter.1 hy).1]
      exact (congrArg Prod.fst heq).symm
  · intro x hx
    obtain ⟨f, hf, hx⟩ := List.mem_flatMap.1 hx
    obtain ⟨ctx, hproper, hmodule, rfl, -, hcheck⟩ := hk.exists_context (hmem f hf)
    obtain ⟨found, hfound⟩ := hproper.exists_checkAll c.checkedRules
    rw [Known.found, (hcheck _ _).2 hfound] at hx
    obtain ⟨p, hp⟩ := hproper.exists_pointsAt hfound (List.mem_filter.1 hx).1
    exact ⟨ctx.function, p, hmodule ▸ hp⟩

/-- A run that is not rejected has no findings, or those of a report on some of the functions. -/
theorem Yields.locates (h : Yields c s m late o) {r : Result} (ho : o = .ok r)
    (hr : r.state ≠ .failed) :
    m.Locates r.findings := by
  -- only a run whose first two phases were in time has findings
  cases hfirst : Phase.struck late 0 m.sortedFunctions with
  | true =>
    cases ho.symm.trans (h.stopped hfirst)
    exact m.locates_nil
  | false =>
    have hclassifies := h.classifies hfirst
    have hran : ∀ f ∈ Phase.ran s late m.sortedFunctions.length m.sortedFunctions,
        ¬ f.HasMalformedRegions := by
      intro f hf hbad
      obtain ⟨r', ho', hfailed⟩ := hclassifies.rejected ⟨f, hf, hbad⟩
      cases ho.symm.trans ho'
      exact hr hfailed
    cases hsecond : Phase.struck late m.sortedFunctions.length m.sortedFunctions with
    | true =>
      cases ho.symm.trans (hclassifies.stopped hran hsecond)
      exact m.locates_nil
    | false =>
      have hgood : ¬ m.HasMalformedRegions := by
        rintro ⟨f, hf, hbad⟩
        refine hran f ?_ hbad
        rw [Phase.ran_eq_of_struck_eq_false s hsecond]
        exact Module.mem_sortedFunctions.2 hf
      have hchecks := hclassifies.checks hgood hsecond
      cases hp : policy c with
      | error e => cases ho.symm.trans (hchecks.unusable e hp)
      | ok p =>
        obtain ⟨k, hk, rfl, -, ho'⟩ := hchecks.checked p hp
        cases ho.symm.trans ho'
        exact hk.locates_report (Phase.ran_sublist ..) _

/-- Readings are late or not, by any clock. -/
theorem exists_reads (deadline : Deadline τ) (clock : Nat → τ) (n : Nat) :
    ∃ late, deadline.Reads clock late n 0 := by
  cases deadline with
  | none => exact ⟨fun _ => false, fun _ => rfl⟩
  | some past =>
    refine ⟨fun k => past (clock (n + k)), fun i => ?_⟩
    rw [Nat.zero_add]

/-- What a run that is not rejected has found, by any clock. -/
theorem locates_run (arrival : Stage → Arrival) (deadline : Deadline τ) (clock : Nat → τ)
    (n : Nat) {r : Result} (hr : ((run c arrival deadline m).answer clock n).1 = .ok r)
    (hok : r.state ≠ .failed) : m.Locates r.findings := by
  cases hm : m.violation? with
  | some e =>
    obtain ⟨r', hr', hfailed⟩ := failed_run_of_violation (c := c) hm arrival deadline
    rw [hr'] at hr
    cases hr
    exact absurd hfailed hok
  | none =>
    obtain ⟨late, hreads⟩ := exists_reads deadline clock n
    exact (yields_run hm arrival hreads).locates hr hok

end Analysis

/-! ## The analyzer

The statement holds of everything the analyzer answers, for any clock and order of arrival. -/

namespace Analyzer

variable {τ : Type}

/-- What a step has found, from the run that it concludes from. -/
theorem Concludes.locates {a : Analyzer} {arrival : Stage → Arrival}
    {deadline : Deadline τ} {m : Module} {clock : Nat → τ} {n : Nat} {step : Step}
    (h : Concludes a ((Analysis.run a.config arrival deadline m).answer clock n).1 step)
    {r : Result} (hr : step.1 = .ok r) : m.Locates r.findings := by
  by_cases hfailed : r.state = .failed
  · have hsound :=
      (h.completes (Analysis.closes_run a.config deadline m arrival clock n)).result r hr
    rw [(hsound.failed hfailed).1]
    exact m.locates_nil
  · obtain ⟨run, duration, hrun, hok, rfl⟩ := h.exists_of_ok hr hfailed
    have hlocated := Analysis.locates_run arrival deadline clock n hrun hok
    exact hlocated

/-- **Findings are uniquely located and strictly ordered**, for every module and all settings, by
any clock: they are strictly ascending in function, position of the block and position of the
instruction, no two point at one instruction, and each points at an instruction of the module that
its rule is about. -/
theorem locates_findings (timing : Timing τ) (a : Analyzer) (arrival : Stage → Arrival) (m : Module)
    (clock : Nat → τ) (n : Nat) {r : Result}
    (hr : ((a.analyzeBy timing arrival m).answer clock n).1.1 = .ok r) :
    m.Locates r.findings := by
  by_cases hready : a.isReady = true
  · rcases concludes_analyzeBy timing hready arrival m clock n
      with hstep | ⟨deadline, n', hconcludes⟩
    · rw [hstep] at hr
      cases hr
    · exact hconcludes.locates hr
  · rw [analyzeBy, if_neg hready] at hr
    cases hr

/-- A scrub in the second block and a store in the third are found, in this order. -/
theorem locates_findings_discarding :
    (discarding .secret).validate = .ok () ∧ ∀ arrival clock n, ∃ r,
      (((ofConfig Config.default).analyzeBy .seconds arrival (discarding .secret)).answer clock
        n).1.1 = .ok r ∧
        r.findings.map (fun x => (x.rule, x.blockIndex, x.index)) =
          [(.conditionalScrub, 1, 0), (.globalStorage, 2, 0)] ∧
        (discarding .secret).Locates r.findings := by
  refine ⟨by rfl, fun arrival clock n => ?_⟩
  have hcomputed :
      (((ofConfig Config.default).analyzeBy .seconds arrival (discarding .secret)).answer
        clock n).1.1.map
        (fun r => r.findings.map fun x => (x.rule, x.blockIndex, x.index)) =
      .ok [(.conditionalScrub, 1, 0), (.globalStorage, 2, 0)] := by rfl
  obtain ⟨r, hr, heq⟩ := exists_of_map_eq_ok hcomputed
  exact ⟨r, hr, heq, locates_findings .seconds _ arrival _ clock n hr⟩

end Analyzer

end ConstantTime
