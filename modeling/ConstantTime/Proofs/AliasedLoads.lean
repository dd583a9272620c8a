/-
What a load may read.

A load names one location but may read others: those that may be the same memory. Whether one of
them holds a secret shows in two ways. Something may have been stored there, which is what the
memory state says, or its contents may be declared secret. The memory state at a load is the one
recorded at the entry of the block, carried through the instructions before the load, and a load is
tainted if it is tainted at any location that may be the one named. A declaration counts at the
named location only. So a load is tainted exactly if the named location is declared secret, a cell
that may be the same memory is tainted, or an operand of the address is, and a location that is
declared secret and read under another name gives a public value as long as nothing secret was
stored.
-/
import ConstantTime.Proofs.DefinitionOrder

set_option autoImplicit false

namespace ConstantTime

/-! ## Locations in sight

A function sees the locations of its module and its own, and their names differ. -/

/-- A function sees the locations of its module and its own, each under its name. -/
theorem Module.get?_locationsFor_eq_some_iff {m : Module} (hm : m.WellFormed) {f : Function}
    (hf : f ∈ m.functions) {name : String} {l : Location} :
    (m.locationsFor f).get? name = some l ↔ l ∈ m.locations ++ f.locations ∧ l.id = name := by
  rw [Table.get?_eq_some_iff, entries_locationsFor hm hf, List.mem_map]
  constructor
  · rintro ⟨l', hl', heq⟩
    cases heq
    exact ⟨hl', rfl⟩
  · rintro ⟨hl, rfl⟩
    exact ⟨l, hl, rfl⟩

theorem Location.mayAlias_self (l : Location) : l.mayAlias l = true := by
  rw [mayAlias, beq_self_eq_true, Bool.true_or]

/-! ## One load

The equation of a load, taken apart into what can taint its output. -/

namespace Rank

/-- Another cell is seen as tainted just if it is: its rank is cut, but not below unknown. -/
theorem exists_unknown_le_aliases_iff {s : Scope} {memory : Ranks} {l : Location} :
    (∃ r ∈ aliases s memory l, .unknown ≤ r) ↔
      ∃ name other, s.locations.get? name = some other ∧ name ≠ l.id ∧ other.mayAlias l = true ∧
        .unknown ≤ memory name := by
  constructor
  · rintro ⟨r, hr, hle⟩
    obtain ⟨⟨name, other⟩, hother, hsome⟩ := List.mem_filterMap.1 hr
    split at hsome
    · next hcond =>
      cases hsome
      exact ⟨name, other, Table.get?_eq_some_iff.2 hother, hcond.1, hcond.2,
        le_trans hle (min_le_left _ _)⟩
    · cases hsome
  · rintro ⟨name, other, hother, hname, halias, hle⟩
    refine ⟨min (memory name) .traced,
      List.mem_filterMap.2 ⟨(name, other), Table.get?_eq_some_iff.1 hother, ?_⟩, ?_⟩
    · rw [if_pos ⟨hname, halias⟩]
    · exact le_min hle (by decide)

end Rank

namespace Instr

variable {m : Module} {f : Function} {i : Instr} {l : Location}

/-- **What makes a load tainted**: the declaration of the location it names, a cell that may be the
same memory, or an operand of the address. -/
theorem exists_loadRank (hm : m.WellFormed) (hf : f ∈ m.functions) (hop : i.op = .load)
    (hl : i.location.bind (m.locationsFor f).get? = some l) (values memory : Ranks) :
    ∃ r, i.outputRank (Scope.ofFunction m f) values memory = some r ∧
      (.unknown ≤ r ↔ l.secret = true ∨
        (∃ other ∈ m.locations ++ f.locations, other.mayAlias l = true ∧
          .unknown ≤ memory other.id) ∨
          ∃ u ∈ i.inputs, .unknown ≤ values u) := by
  -- the named location is itself one that a function sees
  obtain ⟨name, -, hget⟩ := Option.bind_eq_some_iff.1 hl
  have hvisible := ((Module.get?_locationsFor_eq_some_iff hm hf).1 hget).1
  have hdeclared : (∃ r ∈ if l.secret then [Rank.secret] else [], Rank.unknown ≤ r) ↔
      l.secret = true := by
    cases l.secret <;> simp
  have haliased :
    (.unknown ≤ memory l.id ∨ ∃ r ∈ Rank.aliases (Scope.ofFunction m f) memory l, .unknown ≤ r) ↔
      ∃ other ∈ m.locations ++ f.locations, other.mayAlias l = true ∧
        .unknown ≤ memory other.id := by
    rw [Rank.exists_unknown_le_aliases_iff]
    constructor
    · rintro (hle | ⟨name, other, hother, -, halias, hle⟩)
      · exact ⟨l, hvisible, l.mayAlias_self, hle⟩
      · obtain ⟨hmem, rfl⟩ := (Module.get?_locationsFor_eq_some_iff hm hf).1 hother
        exact ⟨other, hmem, halias, hle⟩
    · rintro ⟨other, hmem, halias, hle⟩
      by_cases hsame : other.id = l.id
      · rw [hsame] at hle
        exact .inl hle
      · exact .inr
          ⟨other.id, other, (Module.get?_locationsFor_eq_some_iff hm hf).2 ⟨hmem, rfl⟩,
            hsame, halias, hle⟩
  have hrank : i.outputRank (Scope.ofFunction m f) values memory = some (.joinAll
      ((if l.secret then [.secret] else []) ++ memory l.id :: i.inputs.map values ++
        Rank.aliases (Scope.ofFunction m f) memory l)) := by
    unfold outputRank
    rw [hop]
    dsimp only [Scope.ofFunction]
    rw [hl, Option.map_some]
  refine ⟨_, hrank, ?_⟩
  rw [Rank.le_joinAll_iff (by decide), ← haliased]
  simp only [List.append_assoc, List.cons_append, List.mem_append, List.mem_cons, List.mem_map,
    or_and_right, exists_or, exists_eq_left, exists_exists_and_eq_and, hdeclared]
  rw [or_assoc]
  exact or_congr_right (or_congr_right or_comm)

end Instr

/-! ## The loads of a function

At a fixed point the rank of an output is what its instruction says, no more. So the equation of
one load describes the taints that are reported. -/

namespace Taints

variable {m : Module} {f : Function} {g : FlowGraph} {t : Taints}

/-- The memory state that reaches an instruction: the one at the entry of its block, carried
through the instructions before it. -/
def memoryAt (m : Module) (f : Function) (t : Taints) (p : Placed) : Memory :=
  (p.block.instrs.take p.index).foldl
    (fun mem i => (i.transfer (Scope.ofFunction m f) t.values mem).memory)
    ((t.memoryIn.get? p.block.id).getD .empty)

/-- The memory state at an instruction, as ranks. -/
theorem ranks_memoryAt (m : Module) (f : Function) (t : Taints) (p : Placed) :
    (t.memoryAt m f p).ranks = t.assignment.memoryAt p.block (p.block.instrs.take p.index) := by
  have hrun : ∀ (instrs : List Instr) (mem : Memory),
      (instrs.foldl (fun mem i => (i.transfer (Scope.ofFunction m f) t.values mem).memory)
        mem).ranks =
        memoryAfter t.values.ranks mem.ranks instrs := by
    intro instrs
    induction instrs with
    | nil => exact fun mem => rfl
    | cons i rest ih =>
      intro mem
      rw [List.foldl_cons, ih, Instr.ranks_transfer]
      rfl
  exact hrun _ _

/-- What stands before an instruction in its block. -/
theorem prefix_take_concat {p : Placed} (hp : p ∈ f.placed) :
    p.block.instrs.take p.index ++ [p.instr] <+: p.block.instrs := by
  obtain ⟨hlt, hget⟩ := List.getElem?_eq_some_iff.1 (Function.mem_placed_iff.1 hp).2
  rw [← hget, List.take_append_getElem]
  exact List.take_prefix _ _

/-- A defined value ranks exactly as the effect of its instruction says. -/
theorem Least.value_eq (h : t.Least m f g) (hf : f.WellFormed m.locations) {p : Placed}
    (hp : p ∈ f.placed) {v : String} (hv : p.instr.output = some v) {r : Rank}
    (hr : p.instr.outputRank (Scope.ofFunction m f) t.values.ranks (t.memoryAt m f p).ranks =
      some r) :
    t.values.ranks v = r := by
  obtain ⟨hb, hi⟩ := Function.mem_placed_iff.1 hp
  rw [ranks_memoryAt] at hr
  have hdefined : p.instr.definedRank (Scope.ofFunction m f) t.assignment.value
      (t.assignment.memoryAt p.block (p.block.instrs.take p.index)) = some (v, r) := by
    rw [Instr.definedRank, hv, Option.bind_some]
    change Option.map _ (p.instr.outputRank (Scope.ofFunction m f) t.values.ranks _) = _
    rw [hr, Option.map_some]
  refine le_antisymm ?_ (h.bounds.outputs p.block hb _ p.instr (prefix_take_concat hp) v r hdefined)
  refine Assignment.value_le_of_forall_definedRank h.bounds h.least (fun q hq hqv => ?_) ?_
  · -- it is no parameter
    have hout : v ∈ f.outputs.map Prod.fst :=
      List.mem_map.2 ⟨_, Function.mem_outputs hb (List.mem_of_getElem? hi) hv, rfl⟩
    exact absurd hqv ((List.nodup_append.1 hf.values).2.2 q.value (List.mem_map_of_mem hq) v hout)
  · -- what gives it a rank stands at the same place
    intro b hb' before j hj r' hr'
    have hjget : b.instrs[before.length]? = some j := by
      obtain ⟨after, hinstrs⟩ := hj
      rw [← hinstrs, List.append_assoc, List.getElem?_append_right (le_refl _), Nat.sub_self]
      rfl
    have hq : (⟨b, before.length, j⟩ : Placed) ∈ f.placed := Function.mem_placed_iff.2 ⟨hb', hjget⟩
    obtain ⟨hblock, hindex⟩ := hf.place_eq_of_output hp hq hv (Instr.output_of_definedRank hr')
    have hsame : p.block = b := List.inj_on_of_nodup_map hf.blocks hb hb' hblock
    have hbefore : p.block.instrs.take p.index = before := by
      rw [hindex, hsame]
      exact (List.prefix_iff_eq_take.1 ((List.prefix_append before [j]).trans hj)).symm
    have hinstr : p.instr = j := by
      rw [hindex, hsame, hjget] at hi
      exact (Option.some.inj hi).symm
    rw [hbefore, hsame, hinstr] at hdefined
    rw [hdefined] at hr'
    cases hr'
    exact le_refl _

/-- A key is stored in one field of a context. Loads read another field of it, a field of another
context, and through a pointer with an unknown base. -/
def spill : Function :=
  ⟨"spill",
    [⟨"entry",
      [⟨.store, ["key"], none, [], some "low", none⟩,
        ⟨.load, [], some "near", [], some "high", none⟩,
      ⟨.load, [], some "far", [], some "other", none⟩,
      ⟨.load, ["n"], some "any", [], some "pointer", none⟩,
      ⟨.ret, [], none, [], none, none⟩]⟩],
    [⟨"key", .secret⟩, ⟨"n", .pub⟩], none,
    [⟨"low", .heap, some "context", false⟩, ⟨"high", .heap, some "context", false⟩,
      ⟨"other", .heap, some "elsewhere", false⟩, ⟨"pointer", .heap, none, false⟩]⟩

def spilling : Module := ⟨"spilling", [spill], []⟩

/-- Its flow graph. -/
def spillGraph : FlowGraph := ⟨"entry", ⟨[("entry", [])]⟩, ["entry"]⟩

/-- Its taints. -/
def spillTaints : Taints :=
  ⟨Table.ofList
    [("key", .source "key"), ("n", .pub), ("near", ⟨.unknown, ["key", "near"]⟩), ("far", .pub),
    ("any", ⟨.unknown, ["key", "any"]⟩)], Table.ofList [("entry", ⟨Table.empty⟩)], [], 2⟩

theorem taints_spill : ofFunction spilling spill spillGraph = .ok spillTaints := by rfl

/-- **A load is tainted exactly when it has a reason to be.** It finds its location, has an output,
and the output is unknown or secret just if the contents of the location are declared secret, the
memory state that reaches the load holds something unknown or secret at a location that may be the
same, or an operand of the address is unknown or secret. -/
theorem exists_forall_load_label_iff {m : Module} (hm : m.validate = .ok ()) {f : Function}
    (hf : f ∈ m.functions) :
    ∃ g t, FlowGraph.ofFunction f = .ok g ∧ ofFunction m f g = .ok t ∧
      ∀ p ∈ f.placed, p.instr.op = .load →
        ∃ l ∈ m.locations ++ f.locations, ∃ v, p.instr.location = some l.id ∧
          p.instr.output = some v ∧
          (.unknown ≤ (t.of (some v)).label ↔ l.secret = true ∨
            (∃ other ∈ m.locations ++ f.locations, other.mayAlias l = true ∧
              .unknown ≤ ((t.memoryAt m f p).read other.id).label) ∨
            ∃ u ∈ p.instr.inputs, .unknown ≤ (t.of (some u)).label) := by
  have hwf := Module.wellFormed_of_validate hm
  have hff := hwf.function f hf
  obtain ⟨g, t, hg, ht, hleast, -⟩ := exists_least hwf hf
  refine ⟨g, t, hg, ht, fun p hp hop => ?_⟩
  obtain ⟨hb, hi⟩ := Function.mem_placed_iff.1 hp
  have hoperands := hff.operands hb (List.mem_of_getElem? hi)
  obtain ⟨l, hl⟩ := exists_location hwf hf hoperands (by rw [hop]; rfl)
  obtain ⟨v, hv⟩ := Option.ne_none_iff_exists'.1 (hoperands.output (by rw [hop]; rfl))
  obtain ⟨name, hname, hget⟩ := Option.bind_eq_some_iff.1 hl
  obtain ⟨hvisible, rfl⟩ := (Module.get?_locationsFor_eq_some_iff hwf hf).1 hget
  refine ⟨l, hvisible, v, hname, hv, ?_⟩
  obtain ⟨r, hr, hiff⟩ :=
    Instr.exists_loadRank hwf hf hop hl t.values.ranks (t.memoryAt m f p).ranks
  have hvalue := hleast.value_eq hff hp hv hr
  rw [← hvalue] at hiff
  -- ranks and labels agree on what is tainted
  simp only [Rank.unknown_le_iff, Memory.ranks_eq, Table.ranks, Taint.label_rank] at hiff
  exact hiff

/-- The key shows in the other field of the context and behind the pointer, but not in the other
context. -/
theorem load_label_spilling : spilling.validate = .ok () ∧ spill ∈ spilling.functions ∧
    ∃ g t, FlowGraph.ofFunction spill = .ok g ∧ ofFunction spilling spill g = .ok t ∧
      .unknown ≤ (t.of (some "near")).label ∧ ¬ .unknown ≤ (t.of (some "far")).label ∧
        .unknown ≤ (t.of (some "any")).label := by
  obtain ⟨g, t, hg, ht, hloads⟩ :=
    @exists_forall_load_label_iff spilling rfl spill (List.mem_singleton.2 rfl)
  obtain rfl : spillGraph = g := Except.ok.inj hg
  cases taints_spill.symm.trans ht
  refine ⟨rfl, List.mem_singleton.2 rfl, spillGraph, spillTaints, hg, ht, ?_, ?_, ?_⟩
  · obtain ⟨l, hl, v, hname, hv, hiff⟩ :=
      hloads ⟨spill.blocks[0], 1, spill.blocks[0].instrs[1]⟩
        (Function.mem_placed_iff.2 (by decide)) rfl
    cases hv
    have hlow : ∀ l ∈ spill.locations, some "high" = some l.id →
        spill.locations[0].mayAlias l = true := by decide
    exact hiff.2 (.inr (.inl ⟨spill.locations[0], by decide, hlow l hl hname, by decide⟩))
  · obtain ⟨l, hl, v, hname, hv, hiff⟩ :=
      hloads ⟨spill.blocks[0], 2, spill.blocks[0].instrs[2]⟩
        (Function.mem_placed_iff.2 (by decide)) rfl
    cases hv
    have hnone : ∀ l ∈ spill.locations, some "other" = some l.id → ¬ (l.secret = true ∨
        (∃ other ∈ spill.locations, other.mayAlias l = true ∧
          Label.unknown ≤ ((spillTaints.memoryAt spilling spill
          ⟨spill.blocks[0], 2, spill.blocks[0].instrs[2]⟩).read other.id).label) ∨
            ∃ u ∈ spill.blocks[0].instrs[2].inputs,
            Label.unknown ≤ (spillTaints.of (some u)).label) := by decide
    exact mt hiff.1 (hnone l hl hname)
  · obtain ⟨l, hl, v, hname, hv, hiff⟩ :=
      hloads ⟨spill.blocks[0], 3, spill.blocks[0].instrs[3]⟩
        (Function.mem_placed_iff.2 (by decide)) rfl
    cases hv
    have hlow : ∀ l ∈ spill.locations, some "pointer" = some l.id →
        spill.locations[0].mayAlias l = true := by decide
    exact hiff.2 (.inr (.inl ⟨spill.locations[0], by decide, hlow l hl hname, by decide⟩))

/-- A context whose key is declared secret, and a load from another field of it. -/
def peek : Function :=
  ⟨"peek",
    [⟨"entry", [⟨.load, [], some "v", [], some "flag", none⟩, ⟨.ret, [], none, [], none, none⟩]⟩],
    [], none,
    [⟨"key", .heap, some "context", true⟩, ⟨"flag", .heap, some "context", false⟩]⟩

def peeking : Module := ⟨"peeking", [peek], []⟩

/-- A location that is declared secret gives a public value when it is read under another name. -/
theorem load_label_peeking : peeking.validate = .ok () ∧ peek ∈ peeking.functions ∧
    ∃ g t, FlowGraph.ofFunction peek = .ok g ∧ ofFunction peeking peek g = .ok t ∧
      ∃ p ∈ peek.placed, p.instr.op = .load ∧ ∃ l ∈ peek.locations, ∃ other ∈ peek.locations,
        p.instr.location = some l.id ∧ other.mayAlias l = true ∧ other.secret = true ∧
          p.instr.output = some "v" ∧ (t.of (some "v")).label = .pub :=
  ⟨rfl, List.mem_singleton.2 rfl, _, _, rfl, rfl, _, List.mem_cons_self, rfl,
    ⟨"flag", .heap, some "context",
      false⟩, by decide, ⟨"key", .heap, some "context", true⟩, by decide, rfl, rfl, rfl, rfl, rfl⟩

end Taints

end ConstantTime
