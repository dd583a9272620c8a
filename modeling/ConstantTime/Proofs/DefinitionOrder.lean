/-
A use follows its definition exactly if it does so along every path.

The check compares places. A use in the block of the definition has to stand behind it, and a use
in another block has to be dominated by the block of the definition; in a block that is never
reached only the first half is asked. Along a path a value is there once an instruction with that
output has run. The two agree because values have one definition each: if the value is there on a
first visit to the block of its use, its definition stood earlier in that block or in a block
before, and on every path that is the same block. Loops make no difference. What a later visit
finds defined by an earlier one is not there on the first visit.
-/
import ConstantTime.Proofs.Faultless
import ConstantTime.Proofs.PathRuns

set_option autoImplicit false

namespace ConstantTime

/-! ## Sites

A value has one site, since values are defined once. Looking it up is finding its definition. -/

namespace Function

variable {f : Function} {shared : List Location}

/-- Parameters are those values whose site is the head of the function. -/
theorem WellFormed.get?_sites_eq_param_iff (hf : f.WellFormed shared) {v : String} :
    f.sites.get? v = some .param ↔ v ∈ f.params.map Param.value := by
  rw [Table.get?_eq_some_iff, entries_sites hf.values, List.mem_append, List.mem_map,
    List.mem_filterMap, List.mem_map]
  simp

/-- The site of a value is the place of the instruction that defines it. -/
theorem WellFormed.get?_sites_eq_instr_iff (hf : f.WellFormed shared) {v b : String} {k : Nat} :
    f.sites.get? v = some (.instr b k) ↔ ∃ q ∈ f.placed, q.instr.output = some v ∧ q.block.id = b ∧
      q.index = k := by
  rw [Table.get?_eq_some_iff, entries_sites hf.values, List.mem_append, List.mem_map,
    List.mem_filterMap]
  simp

/-- Two places that define one value are the same. -/
theorem WellFormed.place_eq_of_output (hf : f.WellFormed shared) {p q : Placed} (hp : p ∈ f.placed)
    (hq : q ∈ f.placed) {v : String} (hpv : p.instr.output = some v)
    (hqv : q.instr.output = some v) :
    p.block.id = q.block.id ∧ p.index = q.index := by
  have hp' := hf.get?_sites_eq_instr_iff.2 ⟨p, hp, hpv, rfl, rfl⟩
  have hq' := hf.get?_sites_eq_instr_iff.2 ⟨q, hq, hqv, rfl, rfl⟩
  rw [hp'] at hq'
  simpa using hq'

end Function

/-! ## Places in order

The check, said of places: `Precedes` holds of a definition and a use that the check lets pass. -/

/-- What stands at `q` comes before what stands at `p`: within a block by its position, and across
blocks because its block dominates the other, where that is reached at all. -/
structure Placed.Precedes (g : FlowGraph) (q p : Placed) : Prop where
  within : q.block.id = p.block.id → q.index < p.index
  across : q.block.id ≠ p.block.id → g.Reached p.block.id → g.Dominates q.block.id p.block.id

namespace Function

variable {f : Function} {g : FlowGraph} {shared : List Location}

/-- A use passes exactly if the definition of the value precedes it. -/
theorem useViolation?_eq_none_iff (hf : f.WellFormed shared) {dom : Dominance String}
    (hdom : g.IsDominance dom) {p : Placed} {v : String} (hv : v ∈ f.definedValues) :
    f.useViolation? dom g.reachable f.sites p v = none ↔
      ∀ q ∈ f.placed, q.instr.output = some v → q.Precedes g p := by
  obtain ⟨s, hs⟩ := hf.exists_site hv
  rw [useViolation?, hs]
  cases s with
  | param =>
    refine ⟨fun _ q hq hqv => ?_, fun _ => rfl⟩
    -- a parameter is not defined again
    rw [hf.get?_sites_eq_instr_iff.2 ⟨q, hq, hqv, rfl, rfl⟩] at hs
    cases hs
  | instr b k =>
    obtain ⟨q, hq, hqv, rfl, rfl⟩ := hf.get?_sites_eq_instr_iff.1 hs
    have hall : (∀ q' ∈ f.placed, q'.instr.output = some v → q'.Precedes g p) ↔ q.Precedes g p := by
      refine ⟨fun h => h q hq hqv, fun h q' hq' hq'v => ?_⟩
      obtain ⟨hblock, hindex⟩ := hf.place_eq_of_output hq' hq hq'v hqv
      exact ⟨by rw [hblock, hindex]; exact h.within, by rw [hblock]; exact h.across⟩
    rw [hall]
    dsimp only
    by_cases hsame : q.block.id = p.block.id
    · rw [if_pos hsame]
      by_cases hle : p.index ≤ q.index
      · rw [if_pos hle]
        constructor
        · intro h
          cases h
        · intro h
          have hlt := h.within hsame
          omega
      · rw [if_neg hle]
        exact ⟨fun _ => ⟨fun _ => by omega, fun hne => absurd hsame hne⟩, fun _ => rfl⟩
    · have hbad : p.block.id ∈ g.reachable ∧ ¬ dom.dominates q.block.id p.block.id = true ↔
          ¬ (g.Reached p.block.id → g.Dominates q.block.id p.block.id) := by
        rw [FlowGraph.mem_reachable_iff, Dominance.dominates, decide_eq_true_iff, hdom.dominators,
          Classical.not_imp]
      rw [if_neg hsame, ite_eq_right_iff, hbad]
      constructor
      · intro h
        refine ⟨fun heq => absurd heq hsame, fun _ => ?_⟩
        by_contra hnot
        cases h hnot
      · exact fun h hnot => absurd (h.across hsame) hnot

/-- **What the check asks.** Every definition precedes the uses of its value, those by a phi
aside. -/
theorem orderViolation?_eq_none_iff (hf : f.WellFormed shared)
    (hg : FlowGraph.ofFunction f = .ok g) :
    f.orderViolation? g = none ↔ ∀ p ∈ f.placed, p.instr.op ≠ .phi → ∀ v ∈ p.instr.inputs,
      ∀ q ∈ f.placed, q.instr.output = some v → q.Precedes g p := by
  obtain ⟨dom, hdom, hexact⟩ := FlowGraph.exists_dominance hg hf.blocks
  rw [orderViolation?, hdom]
  dsimp only
  rw [List.findSome?_eq_none_iff]
  refine forall₂_congr fun p hp => ?_
  by_cases hphi : p.instr.op = .phi
  · simp [hphi]
  · rw [if_neg hphi, List.findSome?_eq_none_iff, imp_iff_right hphi]
    refine forall₂_congr fun v hv => ?_
    exact useViolation?_eq_none_iff hf hexact ((hf.operands_of_mem_placed hp).defined v hv)

/-! ## Definitions along paths

Both directions of the main statement. From places to paths a dominating block was passed; from
paths to places the first visit is taken. -/

/-- Along every path each value is used only after an instruction that defines it has run, unless
it is a parameter or the use is one by a phi. -/
def DefinedOnPaths (f : Function) (g : FlowGraph) : Prop :=
  ∀ path, g.IsPath path → ∀ (before : List Instr) (i : Instr) (after : List Instr),
    f.executed path = before ++ i :: after → i.op ≠ .phi →
      ∀ v ∈ i.inputs, v ∈ f.params.map Param.value ∨ ∃ j ∈ before, j.output = some v

/-- In a block that is never reached no value is used where or before it is defined in that block,
uses by a phi aside. -/
def OrderedWhereDead (f : Function) (g : FlowGraph) : Prop :=
  ∀ p ∈ f.placed, ¬ g.Reached p.block.id → p.instr.op ≠ .phi → ∀ v ∈ p.instr.inputs,
    ∀ q ∈ f.placed, q.block = p.block → q.instr.output = some v → q.index < p.index

/-- What precedes a place has run before it, whatever path leads there. -/
theorem mem_ranBefore_of_precedes (hf : (f.blocks.map Block.id).Nodup) {p q : Placed}
    (hp : p ∈ f.placed) (hq : q ∈ f.placed) (h : q.Precedes g p) {path : List String}
    (hpath : g.IsPath (path ++ [p.block.id])) :
    q.instr ∈ f.ranBefore path p := by
  obtain ⟨hqb, hqi⟩ := mem_placed_iff.1 hq
  obtain ⟨hpb, -⟩ := mem_placed_iff.1 hp
  rw [ranBefore, List.mem_append]
  by_cases hsame : q.block.id = p.block.id
  · have hblock : q.block = p.block := List.inj_on_of_nodup_map hf hqb hpb hsame
    right
    rw [← hblock]
    apply List.mem_of_getElem? (i := q.index)
    rw [List.getElem?_take_of_lt (h.within hsame), hqi]
  · -- the block of the definition is on the path, and it is not the last one
    have hdom := h.across hsame ⟨path, hpath⟩
    rcases List.mem_append.1 (hdom.2.2 path hpath) with hmem | hmem
    · left
      rw [executed, List.mem_flatMap]
      exact ⟨_, hmem, by rw [instrsOf_eq hf hqb]; exact List.mem_of_getElem? hqi⟩
    · exact absurd (List.mem_singleton.1 hmem) hsame

/-- If a value has been defined when control comes to a place, then by an instruction of an earlier
block of the path, or of an earlier position in the same block. -/
theorem WellFormed.mem_path_or_lt_of_ranBefore (hf : f.WellFormed shared) {p q : Placed}
    (hp : p ∈ f.placed) (hq : q ∈ f.placed) {v : String} (hqv : q.instr.output = some v)
    {path : List String} {j : Instr} (hj : j ∈ f.ranBefore path p) (hjv : j.output = some v) :
    q.block.id ∈ path ∨ q.block.id = p.block.id ∧ q.index < p.index := by
  obtain ⟨hpb, -⟩ := mem_placed_iff.1 hp
  rcases List.mem_append.1 hj with hj | hj
  · obtain ⟨b, hb, hmem, hjb⟩ := exists_of_mem_executed hj
    obtain ⟨k, hk⟩ := exists_placed hb hjb
    have hsame := (hf.place_eq_of_output hq hk hqv hjv).1
    rw [hsame]
    exact .inl hmem
  · obtain ⟨k, hk, hget⟩ := List.mem_iff_getElem.1 hj
    rw [List.getElem_take] at hget
    rw [List.length_take] at hk
    have hplace : (⟨p.block, k, j⟩ : Placed) ∈ f.placed := by
      apply mem_placed_iff.2
      refine ⟨hpb, ?_⟩
      rw [← hget]
      exact List.getElem?_eq_getElem _
    obtain ⟨hblock, hindex⟩ := hf.place_eq_of_output hq hplace hqv hjv
    refine .inr ⟨hblock, ?_⟩
    rw [hindex]
    show k < p.index
    omega

/-- If a value has been defined whenever control comes to a place, then its definition precedes the
place. -/
theorem WellFormed.precedes_of_ranBefore (hf : f.WellFormed shared) {p q : Placed}
    (hp : p ∈ f.placed) (hq : q ∈ f.placed) {v : String} (hqv : q.instr.output = some v)
    (hreached : g.Reached p.block.id)
    (h : ∀ path, g.IsPath (path ++ [p.block.id]) → ∃ j ∈ f.ranBefore path p, j.output = some v) :
    q.Precedes g p := by
  constructor
  · intro hsame
    -- on the first visit to the block nothing of it has run before
    obtain ⟨path, hpath, hnot⟩ := hreached.exists_first
    obtain ⟨j, hj, hjv⟩ := h path hpath
    rcases hf.mem_path_or_lt_of_ranBefore hp hq hqv hj hjv with hmem | ⟨-, hlt⟩
    · rw [hsame] at hmem
      exact absurd hmem hnot
    · exact hlt
  · intro hne _
    apply hreached.dominates_iff.2
    intro path hpath
    obtain ⟨j, hj, hjv⟩ := h path hpath
    rcases hf.mem_path_or_lt_of_ranBefore hp hq hqv hj hjv with hmem | ⟨hsame, -⟩
    · exact List.mem_append_left _ hmem
    · exact absurd hsame hne

/-- A definition that precedes all its uses is there on every path. -/
theorem definedOnPaths_of_precedes (hf : f.WellFormed shared)
    (h : ∀ p ∈ f.placed, p.instr.op ≠ .phi → ∀ v ∈ p.instr.inputs,
      ∀ q ∈ f.placed, q.instr.output = some v → q.Precedes g p) : f.DefinedOnPaths g := by
  intro path hpath before i after hrun hphi v hv
  obtain ⟨path₁, name, path₂, before', after', rfl, hinstrs, rfl⟩ := exists_place_of_executed hrun
  have hi : i ∈ f.executed [name] := by
    rw [executed, List.flatMap_singleton, hinstrs]
    exact List.mem_append_right _ List.mem_cons_self
  obtain ⟨b, hb, hname, -⟩ := exists_of_mem_executed hi
  obtain rfl := List.mem_singleton.1 hname
  rw [instrsOf_eq hf.blocks hb] at hinstrs
  have hp : (⟨b, before'.length, i⟩ : Placed) ∈ f.placed := by
    apply mem_placed_iff.2
    refine ⟨hb, ?_⟩
    rw [hinstrs]
    simp
  have hdefined := (hf.operands_of_mem_placed hp).defined v hv
  rcases List.mem_append.1 hdefined with hparam | houtput
  · exact .inl hparam
  · rw [map_fst_outputs, List.mem_filterMap] at houtput
    obtain ⟨q, hq, hqv⟩ := houtput
    have hran := mem_ranBefore_of_precedes hf.blocks hp hq (h _ hp hphi v hv q hq hqv) hpath.cut
    rw [ranBefore, hinstrs, List.take_left] at hran
    exact .inr ⟨q.instr, hran, hqv⟩

/-- A definition that is there on every path precedes all its uses. -/
theorem precedes_of_definedOnPaths (hf : f.WellFormed shared) (hpaths : f.DefinedOnPaths g)
    (hdead : f.OrderedWhereDead g) {p : Placed} (hp : p ∈ f.placed)
    (hphi : p.instr.op ≠ .phi) {v : String} (hv : v ∈ p.instr.inputs) {q : Placed}
    (hq : q ∈ f.placed) (hqv : q.instr.output = some v) : q.Precedes g p := by
  by_cases hreached : g.Reached p.block.id
  · apply hf.precedes_of_ranBefore hp hq hqv hreached
    intro path hpath
    apply (hpaths _ hpath _ _ _ (executed_eq_ranBefore hf.blocks hp path) hphi v hv).resolve_left
    -- a value with a definition is not a parameter
    intro hparam
    have hsite := hf.get?_sites_eq_instr_iff.2 ⟨q, hq, hqv, rfl, rfl⟩
    rw [hf.get?_sites_eq_param_iff.2 hparam] at hsite
    cases hsite
  · refine ⟨fun hsame => ?_, fun _ h => absurd h hreached⟩
    have hblock : q.block = p.block :=
      List.inj_on_of_nodup_map hf.blocks (mem_placed_iff.1 hq).1 (mem_placed_iff.1 hp).1 hsame
    exact hdead p hp hreached hphi v hv q hq hblock hqv

/-! ## Functions of the right structure -/

/-- A loop with a phi that uses a value defined further down, and a block that is never reached and
uses a value that need not be there. -/
def count : Function :=
  ⟨"count",
    [⟨"entry",
      [⟨.compute, ["n"], some "zero", [], none, none⟩, ⟨.jump, [], none, ["head"], none, none⟩]⟩,
      ⟨"head", [⟨.phi, ["zero", "next"], some "i", [], none, none⟩,
        ⟨.branch, ["n"], none, ["body", "out"], none, none⟩]⟩,
      ⟨"body",
        [⟨.compute, ["i"], some "next", [], none, none⟩, ⟨.jump, [], none, ["head"], none, none⟩]⟩,
      ⟨"dead",
        [⟨.compute, ["next"], some "t", [], none, none⟩,
          ⟨.compute, ["t"], some "u", [], none, none⟩, ⟨.jump, [], none, ["out"], none, none⟩]⟩,
      ⟨"out", [⟨.ret, ["i"], none, [], none, none⟩]⟩],
    [⟨"n", .pub⟩], none, []⟩

/-- **The order check is exact.** A function of the right structure passes it just if on every path
each value is defined before it is used, and in blocks that are never reached no value is used
before its definition there. -/
theorem violation?_eq_none_iff_definedOnPaths {f : Function} {shared : List Location}
    (h : f.structureViolation? shared = none) :
    ∃ g, FlowGraph.ofFunction f = .ok g ∧
      (f.violation? shared = none ↔ f.DefinedOnPaths g ∧ f.OrderedWhereDead g) := by
  have hf := wellFormed_of_structureViolation?_eq_none h
  obtain ⟨g, hg⟩ := FlowGraph.exists_ofFunction hf
  refine ⟨g, hg, ?_⟩
  rw [violation?, h, hg]
  dsimp only
  rw [orderViolation?_eq_none_iff hf hg]
  constructor
  · intro hprecedes
    refine ⟨definedOnPaths_of_precedes hf hprecedes, fun p hp _ hphi v hv q hq hblock hqv => ?_⟩
    exact (hprecedes p hp hphi v hv q hq hqv).within (by rw [hblock])
  · rintro ⟨hpaths, hdead⟩ p hp hphi v hv q hq hqv
    exact precedes_of_definedOnPaths hf hpaths hdead hp hphi hv hq hqv

theorem violation?_eq_none_iff_definedOnPaths_count : count.structureViolation? [] = none ∧
    ∃ g, FlowGraph.ofFunction count = .ok g ∧ count.DefinedOnPaths g ∧
      count.OrderedWhereDead g := by
  have hstructure : count.structureViolation? [] = none := by rfl
  have hpasses : count.violation? [] = none := by rfl
  obtain ⟨g, hg, hiff⟩ := violation?_eq_none_iff_definedOnPaths hstructure
  exact ⟨hstructure, g, hg, hiff.1 hpasses⟩

end Function

end ConstantTime
