/-
What a module that passes the checks is known to satisfy.

`Module.validate` searches for the first rule that a module breaks. The structures below say the
same rules as facts: the operands of an instruction, the shape of a block, the names of a function
and those of a module. Each comes with the lemma that takes a check without result apart into these
facts, so that nothing later has to look into the order of the checks.
-/
import Mathlib.Data.List.Basic
import ConstantTime.Program.Validity

set_option autoImplicit false

namespace ConstantTime

/-! ## Repetitions -/

/-- No element is found twice exactly when the keys are distinct and none of them was there
before. -/
theorem firstRepeat_eq_none_iff {α β : Type} [DecidableEq α] (key : β → α) (seen : List α)
    (xs : List β) :
    firstRepeat key seen xs = none ↔ (xs.map key).Nodup ∧ ∀ x ∈ xs, key x ∉ seen := by
  induction xs generalizing seen with
  | nil => simp [firstRepeat]
  | cons x xs ih =>
    by_cases hx : key x ∈ seen
    · simp [firstRepeat, hx]
    · simp only [firstRepeat, if_neg hx, ih, List.map_cons, List.nodup_cons, List.mem_map,
        List.mem_cons]
      constructor
      · rintro ⟨hnodup, hfresh⟩
        refine ⟨⟨?_, hnodup⟩, ?_⟩
        · rintro ⟨y, hy, hyx⟩
          exact hfresh y hy (.inl hyx)
        · rintro y (rfl | hy)
          · exact hx
          · exact fun hseen => hfresh y hy (.inr hseen)
      · rintro ⟨⟨hnot, hnodup⟩, hfresh⟩
        refine ⟨hnodup, fun y hy => ?_⟩
        rintro (hyx | hseen)
        · exact hnot ⟨y, hy, hyx⟩
        · exact hfresh y (.inr hy) hseen

/-! ## Instructions

Each opcode has its own demands on operands. They are stated as implications from the opcode, so
that a proof can use the ones it needs. -/

/-- The operands of an instruction are there and refer to what exists. -/
structure Instr.Operands (s : Instr.Names) (i : Instr) : Prop where
  output : i.op.needsOutput → i.output ≠ none
  input : i.op.needsInput → i.inputs ≠ []
  defined : ∀ v ∈ i.inputs, v ∈ s.values
  self : ∀ v ∈ i.inputs, i.output = some v → i.op = .phi
  location : i.op.needsLocation → i.location ≠ none
  known : ∀ l, i.location = some l → l ∈ s.locations
  callee : i.op = .call → i.callee ≠ none ∧ i.callee ≠ some ""
  branch : i.op = .branch → 2 ≤ i.targets.length
  jump : i.op = .jump → i.targets.length = 1
  targets : i.op.targetsBlocks → ∀ t ∈ i.targets, t ∈ s.blocks

/-- An instruction passes exactly when its operands are right. -/
theorem Instr.violation?_eq_none_iff (s : Instr.Names) (i : Instr) :
    i.violation? s = none ↔ i.Operands s := by
  unfold Instr.violation?
  simp only [Option.orElse_eq_orElse, Option.orElse_eq_or, Option.or_eq_none_iff, ite_eq_right_iff,
    reduceCtorEq, imp_false, List.findSome?_eq_none_iff]
  constructor
  · rintro ⟨houtput, hinput, hvalues, hlocation, hcallee, hbranch, hjump, htargets⟩
    refine ⟨fun hop h => houtput ⟨hop, h⟩, fun hop h => hinput ⟨hop, h⟩, fun v hv => ?_,
      fun v hv ho => ?_, fun hop h => ?_, fun l hl => ?_, fun hop => ?_, fun hop => ?_,
      fun hop => ?_, fun hop t ht => ?_⟩
    · by_contra h
      simpa [h] using hvalues v hv
    · -- the check of an input asks first whether it is defined, then whether it is the output
      -- itself
      by_contra h
      have hdefined := hvalues v hv
      by_cases hmem : v ∈ s.values <;> simp [hmem, ho, h] at hdefined
    · simp [h, hop] at hlocation
    · by_contra h
      simp [hl, h] at hlocation
    · exact not_or.1 fun h => hcallee ⟨hop, h⟩
    · exact Nat.le_of_not_lt fun h => hbranch ⟨hop, h⟩
    · by_contra h
      exact hjump ⟨hop, h⟩
    · exact not_not.1 (htargets hop t ht)
  · intro h
    refine ⟨fun hc => h.output hc.1 hc.2, fun hc => h.input hc.1 hc.2, fun v hv => ?_, ?_,
      fun hc => not_or.2 (h.callee hc.1) hc.2, fun hc => Nat.not_lt.2 (h.branch hc.1) hc.2,
      fun hc => hc.2 (h.jump hc.1), fun hop t ht => not_not.2 (h.targets hop t ht)⟩
    · rw [if_neg (not_not.2 (h.defined v hv)), if_neg fun hc => hc.2 (h.self v hv hc.1)]
    · split
      · next hl => rw [if_neg fun hop => h.location hop hl]
      · next l hl => rw [if_neg (not_not.2 (h.known l hl))]

/-! ## Blocks

A block has one terminator, at its end, and its other instructions are none. -/

/-- A block ends in its only terminator, and its instructions have their operands. -/
structure Block.Shaped (s : Instr.Names) (isLast : Bool) (b : Block) : Prop where
  terminated : ∃ t, b.terminator? = some t ∧ (t.op = .fallthrough → isLast = false)
  early : ∀ p ∈ b.instrs.zipIdx, p.1.op.isTerminator → p.2 = b.instrs.length - 1
  operands : ∀ i ∈ b.instrs, i.Operands s

/-- The checks of a block leave it in shape. -/
theorem Block.shaped_of_violation?_eq_none {s : Instr.Names} {isLast : Bool} {b : Block}
    (h : b.violation? s isLast = none) : b.Shaped s isLast := by
  unfold Block.violation? at h
  split at h
  · cases h
  · cases ht : b.terminator? with
    | none => simp [ht] at h
    | some t =>
      simp only [ht, Option.orElse_eq_orElse, Option.orElse_eq_or, Option.or_eq_none_iff,
        List.findSome?_eq_none_iff, ite_eq_right_iff, reduceCtorEq, imp_false] at h
      obtain ⟨hinstrs, hlast⟩ := h
      -- each instruction passed two checks, one about its place and one about its operands
      have hinstr : ∀ p ∈ b.instrs.zipIdx,
          (p.1.op.isTerminator → p.2 = b.instrs.length - 1) ∧ p.1.violation? s = none := by
        intro p hp
        have hpass := hinstrs p hp
        by_cases hc : p.1.op.isTerminator ∧ p.2 ≠ b.instrs.length - 1
        · rw [if_pos hc] at hpass
          cases hpass
        · rw [if_neg hc] at hpass
          exact ⟨fun hop => not_not.1 fun hne => hc ⟨hop, hne⟩, hpass⟩
      refine ⟨⟨t, ht, fun hop => ?_⟩, fun p hp => (hinstr p hp).1, fun i hi => ?_⟩
      · exact Bool.eq_false_iff.2 fun hl => hlast ⟨hop, hl⟩
      · obtain ⟨k, hk, rfl⟩ := List.getElem_of_mem hi
        have hp : (b.instrs[k], k) ∈ b.instrs.zipIdx := by
          rw [List.mem_zipIdx_iff_getElem?]
          exact List.getElem?_eq_getElem hk
        exact (Instr.violation?_eq_none_iff s _).1 (hinstr _ hp).2

/-- And a block in shape passes them. -/
theorem Block.violation?_eq_none_of_shaped {s : Instr.Names} {isLast : Bool} {b : Block}
    (h : b.Shaped s isLast) :
    b.violation? s isLast = none := by
  obtain ⟨t, ht, hlast⟩ := h.terminated
  have hinstrs : b.instrs ≠ [] := by
    intro hnil
    rw [Block.terminator?, hnil] at ht
    cases ht
  rw [Block.violation?, if_neg hinstrs, ht]
  simp only [Option.orElse_eq_orElse, Option.orElse_eq_or, Option.or_eq_none_iff,
    List.findSome?_eq_none_iff, ite_eq_right_iff, reduceCtorEq, imp_false]
  refine ⟨fun p hp => ?_, fun hc => ?_⟩
  · rw [if_neg fun hc => hc.2 (h.early p hp hc.1)]
    exact (Instr.violation?_eq_none_iff s p.1).2 (h.operands p.1 (List.fst_mem_of_mem_zipIdx hp))
  · rw [hlast hc.1] at hc
    exact Bool.false_ne_true hc.2

/-! ## Functions

The names of a function are what its instructions may refer to: its values, its blocks, and the
locations of the function and the module. -/

/-- The names that the instructions of a function may refer to. -/
def Function.names (f : Function) (shared : List Location) : Instr.Names :=
  ⟨f.definedValues, f.blocks.map Block.id, f.locations.map Location.id ++ shared.map Location.id⟩

/-- The names of a function are distinct, and its blocks are shaped. -/
structure Function.WellFormed (f : Function) (shared : List Location) : Prop where
  nonempty : f.blocks ≠ []
  blocks : (f.blocks.map Block.id).Nodup
  locations : (f.locations.map Location.id).Nodup
  values : f.definedValues.Nodup
  shaped : ∀ p ∈ f.blocks.zipIdx, p.1.Shaped (f.names shared) (decide (p.2 = f.blocks.length - 1))

/-- The checks of a function leave it well formed. -/
theorem Function.wellFormed_of_structureViolation?_eq_none {f : Function} {shared : List Location}
    (h : f.structureViolation? shared = none) : f.WellFormed shared := by
  unfold Function.structureViolation? at h
  simp only [Option.orElse_eq_orElse, Option.orElse_eq_or, Option.or_eq_none_iff, ite_eq_right_iff,
    reduceCtorEq, imp_false, Option.map_eq_none_iff, firstRepeat_eq_none_iff,
    List.findSome?_eq_none_iff] at h
  obtain ⟨hnonempty, ⟨hblocks, -⟩, ⟨hlocations, -⟩, ⟨hparams, -⟩, ⟨houtputs, hfresh⟩, hshaped⟩ := h
  refine ⟨hnonempty, hblocks, hlocations, ?_,
    fun p hp => Block.shaped_of_violation?_eq_none (hshaped p hp)⟩
  refine List.nodup_append.2 ⟨hparams, houtputs, fun a ha b hb hab => ?_⟩
  subst hab
  obtain ⟨o, ho, rfl⟩ := List.mem_map.1 hb
  exact hfresh o ho ha

/-- And a well-formed function passes them. -/
theorem Function.structureViolation?_eq_none_of_wellFormed {f : Function} {shared : List Location}
    (h : f.WellFormed shared) : f.structureViolation? shared = none := by
  obtain ⟨hparams, houtputs, hfresh⟩ := List.nodup_append.1 h.values
  unfold Function.structureViolation?
  simp only [Option.orElse_eq_orElse, Option.orElse_eq_or, Option.or_eq_none_iff, ite_eq_right_iff,
    reduceCtorEq, imp_false, Option.map_eq_none_iff, firstRepeat_eq_none_iff,
    List.findSome?_eq_none_iff]
  refine ⟨h.nonempty, ⟨h.blocks, fun _ _ => List.not_mem_nil⟩,
    ⟨h.locations, fun _ _ => List.not_mem_nil⟩, ⟨hparams, fun _ _ => List.not_mem_nil⟩,
    ⟨houtputs, fun o ho hseen => ?_⟩, fun p hp => ?_⟩
  · exact hfresh _ hseen _ (List.mem_map.2 ⟨o, ho, rfl⟩) rfl
  · exact Block.violation?_eq_none_of_shaped (h.shaped p hp)

/-! ## Modules

Besides the form of its functions, a module needs a flow graph for each of them, along which values
are defined before they are used. -/

/-- The names of a module are distinct, and so are the locations that a function can name. -/
structure Module.WellFormed (m : Module) : Prop where
  functions : (m.functions.map Function.id).Nodup
  locations : (m.locations.map Location.id).Nodup
  apart : ∀ f ∈ m.functions, ∀ l ∈ f.locations, l.id ∉ m.locations.map Location.id
  function : ∀ f ∈ m.functions, f.WellFormed m.locations
  flow : ∀ f ∈ m.functions, ∃ g, FlowGraph.ofFunction f = .ok g ∧ f.orderViolation? g = none

theorem Module.violation?_eq_none_of_validate {m : Module} (h : m.validate = .ok ()) :
    m.violation? = none := by
  unfold Module.validate at h
  split at h
  · cases h
  · next hv => exact hv

/-- **What validation establishes.** -/
theorem Module.wellFormed_of_validate {m : Module} (h : m.validate = .ok ()) : m.WellFormed := by
  have hv := Module.violation?_eq_none_of_validate h
  unfold Module.violation? at hv
  simp only [Option.orElse_eq_orElse, Option.orElse_eq_or, Option.or_eq_none_iff,
    Option.map_eq_none_iff, firstRepeat_eq_none_iff, List.findSome?_eq_none_iff, ite_eq_right_iff,
    reduceCtorEq, imp_false] at hv
  obtain ⟨⟨hfunctions, -⟩, ⟨hlocations, -⟩, hfunction⟩ := hv
  have hpass : ∀ f ∈ m.functions, f.structureViolation? m.locations = none ∧
      ∃ g, FlowGraph.ofFunction f = .ok g ∧ f.orderViolation? g = none := by
    intro f hf
    have hnone := (hfunction f hf).2
    unfold Function.violation? at hnone
    split at hnone
    · cases hnone
    · next hstructure =>
      split at hnone
      · cases hnone
      · next g hg => exact ⟨hstructure, g, hg, hnone⟩
  exact ⟨hfunctions, hlocations, fun f hf => (hfunction f hf).1,
    fun f hf => Function.wellFormed_of_structureViolation?_eq_none (hpass f hf).1,
    fun f hf => (hpass f hf).2⟩

/-- A well-formed module passes. -/
theorem Module.violation?_eq_none_of_wellFormed {m : Module} (h : m.WellFormed) :
    m.violation? = none := by
  unfold Module.violation?
  simp only [Option.orElse_eq_orElse, Option.orElse_eq_or, Option.or_eq_none_iff,
    Option.map_eq_none_iff, firstRepeat_eq_none_iff, List.findSome?_eq_none_iff, ite_eq_right_iff,
    reduceCtorEq, imp_false]
  refine ⟨⟨h.functions, fun _ _ => List.not_mem_nil⟩, ⟨h.locations, fun _ _ => List.not_mem_nil⟩,
    fun f hf => ?_⟩
  obtain ⟨g, hg, horder⟩ := h.flow f hf
  refine ⟨h.apart f hf, ?_⟩
  rw [Function.violation?, Function.structureViolation?_eq_none_of_wellFormed (h.function f hf), hg]
  exact horder

end ConstantTime
