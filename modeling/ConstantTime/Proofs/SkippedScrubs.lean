/-
Where a skipped scrub is reported.

A finding of the rule stands at a scrub, and whether there is one depends on the taint of the
scrubbed value, on the block that defines it and on the ways around the scrub alone. What else a
finding says is collected without fail. So the findings stand exactly at the scrubs that
`Context.SkipsScrub` describes.
-/
import ConstantTime.Proofs.FindingPlaces

set_option autoImplicit false

namespace ConstantTime.Context

variable {c : Context}

/-- A scrub that can be reached of a tainted value with a chain, where control can get from the
block that defines the value to an exit around the scrub. -/
structure SkipsScrub (c : Context) (p : Placed) (v : String) : Prop where
  placed : p ∈ c.function.placed
  op : p.instr.op = .scrub
  reached : p.block.id ∈ c.graph.reachable
  input : p.instr.inputs.head? = some v
  tainted : (c.taints.of (some v)).isTainted = true
  origin : (c.taints.of (some v)).hasOrigin = true
  apart : c.definitionBlock c.function.sites v ≠ p.block.id
  defined : c.definitionBlock c.function.sites v ∈ c.graph.reachable
  around : ∃ e ∈ c.graph.exits, e ∈ c.graph.reachable ∧
    e ∈ c.graph.reachableFrom [c.definitionBlock c.function.sites v] [p.block.id]

/-- The scrubs that the rule looks at. -/
def scrubs (c : Context) : List Placed :=
  c.function.placed.filter fun p => decide (p.instr.op = .scrub) &&
    decide (p.block.id ∈ c.graph.reachable)

/-- What the rule finds at a scrub. -/
def scrubResult (c : Context) (p : Placed) : Except Fault (Option Finding) :=
  c.scrubbedFinding? c.graph.reachable
    (c.graph.exits.filter fun e => decide (e ∈ c.graph.reachable)) c.function.sites p

theorem conditionalScrubs_eq (c : Context) :
    c.conditionalScrubs = collectSome c.scrubResult c.scrubs := rfl

theorem mem_scrubs_iff {p : Placed} :
    p ∈ c.scrubs ↔ p ∈ c.function.placed ∧ p.instr.op = .scrub ∧
      p.block.id ∈ c.graph.reachable := by
  rw [scrubs, List.mem_filter, Bool.and_eq_true, decide_eq_true_iff, decide_eq_true_iff]

/-- A scrub is reported exactly when it can be skipped. -/
theorem scrubResult_eq_some_iff {p : Placed} (hp : p ∈ c.scrubs) {found : Option Finding}
    (h : c.scrubResult p = .ok found) : (∃ x, found = some x) ↔ ∃ v, c.SkipsScrub p v := by
  obtain ⟨hplaced, hop, hreached⟩ := mem_scrubs_iff.1 hp
  unfold scrubResult scrubbedFinding? at h
  split at h
  · cases h
  · next v rest hinputs =>
    have hinput : p.instr.inputs.head? = some v := by rw [hinputs, List.head?_cons]
    -- the scrubbed value is the first input, so no other one is in question
    have hsame : ∀ w, c.SkipsScrub p w → w = v :=
      fun w hw => Option.some.inj (hw.input.symm.trans hinput)
    unfold scrubFinding? at h
    dsimp only at h
    split at h
    · next hcond =>
      cases h
      refine ⟨fun ⟨x, hx⟩ => absurd hx.symm (Option.some_ne_none x), fun ⟨w, hw⟩ => ?_⟩
      cases hsame w hw
      rcases hcond with hclean | hhere | hdead
      · exact absurd ⟨hw.tainted, hw.origin⟩ hclean
      · exact absurd hhere hw.apart
      · exact absurd hw.defined hdead
    · next hcond =>
      simp only [not_or, not_not] at hcond
      obtain ⟨⟨htainted, horigin⟩, hapart, hdefined⟩ := hcond
      split at h
      · next hnone =>
        cases h
        refine ⟨fun ⟨x, hx⟩ => absurd hx.symm (Option.some_ne_none x), fun ⟨w, hw⟩ => ?_⟩
        cases hsame w hw
        obtain ⟨e, hexit, hreach, haround⟩ := hw.around
        have hout := List.all_eq_true.1 hnone e (List.mem_filter.2 ⟨hexit, decide_eq_true hreach⟩)
        exact absurd haround (of_decide_eq_true hout)
      · next hsome =>
        split at h
        · cases h
        · obtain ⟨x, -, rfl⟩ := exists_of_map_eq_ok h
          refine ⟨fun _ =>
            ⟨v, hplaced, hop, hreached, hinput, htainted, horigin, hapart, hdefined, ?_⟩,
            fun _ => ⟨x, rfl⟩⟩
          simp only [List.all_eq_true, List.mem_filter, decide_eq_true_iff, not_forall, not_not]
            at hsome
          obtain ⟨e, ⟨hexit, hreach⟩, haround⟩ := hsome
          exact ⟨e, hexit, hreach, haround⟩

/-- **The findings of the rule stand at the scrubs that can be skipped.** -/
theorem exists_reportsScrubs {shared : List Location} (hf : c.function.WellFormed shared) :
    ∃ found, c.conditionalScrubs = .ok found ∧
      (∀ x ∈ found, ∃ p v, c.SkipsScrub p v ∧ c.IsFindingAt .conditionalScrub p.place x) ∧
      ∀ p v, c.SkipsScrub p v → ∃ x ∈ found, c.IsFindingAt .conditionalScrub p.place x := by
  obtain ⟨found, hfound⟩ := exists_conditionalScrubs hf
  rw [conditionalScrubs_eq] at hfound
  refine ⟨found, hfound, fun x hx => ?_, fun p v hskips => ?_⟩
  · obtain ⟨p, hp, hresult⟩ := (mem_collectSome_iff hfound).1 hx
    obtain ⟨v, hskips⟩ := (scrubResult_eq_some_iff hp hresult).1 ⟨x, rfl⟩
    exact ⟨p, v, hskips, (madeAt_of_scrubbedFinding? hresult).isFindingAt⟩
  · have hp := mem_scrubs_iff.2 ⟨hskips.placed, hskips.op, hskips.reached⟩
    obtain ⟨found?, hresult⟩ := exists_of_collectSome_eq_ok hfound hp
    obtain ⟨x, rfl⟩ := (scrubResult_eq_some_iff hp hresult).2 ⟨v, hskips⟩
    exact ⟨x, (mem_collectSome_iff hfound).2 ⟨p, hp, hresult⟩,
      (madeAt_of_scrubbedFinding? hresult).isFindingAt⟩

end ConstantTime.Context
