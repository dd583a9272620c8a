/-
Calls that can happen, and what speaks against code by itself.

A call is live if it stands in a block that control can reach. `Module.LiveChain` follows live
calls from function to function. What speaks against a function by itself, calls into the module
aside, is said in `Function.Varies` without reference to how it is collected; the evidence found in
the body of a function is then shown to be there exactly when the function varies by itself or has
a live call to a function that was found variable-time.
-/
import ConstantTime.Proofs.Judging

set_option autoImplicit false

namespace ConstantTime

/-! ## Calls

A live call is a call in a reachable block to a function of the module. The call graph has more
calls, since it does not ask whether blocks can be reached. -/

/-- An instruction may call the function with the given name, directly or as one of the targets of
an indirect call. -/
def Instr.MayCall (i : Instr) (c : String) : Prop :=
  (i.op = .call ∧ i.callee = some c) ∨ (i.op = .indirectCall ∧ c ∈ i.targets)

namespace Module

variable {m : Module}

/-- A function of the module may call another one from a block that can be reached. -/
structure LiveCall (m : Module) (f c : Function) : Prop where
  caller : f ∈ m.functions
  callee : c ∈ m.functions
  site : ∃ g, FlowGraph.ofFunction f = .ok g ∧ ∃ b ∈ f.blocks, g.graph.Reaches g.entry b.id ∧
    ∃ i ∈ b.instrs, i.MayCall c.id

/-- A chain of so many live calls leads from one function to another. -/
inductive LiveChain (m : Module) : Nat → Function → Function → Prop
  | here (f : Function) : LiveChain m 0 f f
  | call {f c last : Function} {k : Nat} (hcall : m.LiveCall f c) (hrest : LiveChain m k c last) :
    LiveChain m (k + 1) f last

/-- Chains stay within the module. -/
theorem LiveChain.mem_functions {k : Nat} {f last : Function} (h : m.LiveChain k f last)
    (hf : f ∈ m.functions) :
    last ∈ m.functions := by
  induction h with
  | here => exact hf
  | call hcall _ ih => exact ih hcall.callee

/-- The call graph has the names of all functions. -/
theorem mem_functions_ofModule {name : String} :
    name ∈ (CallGraph.ofModule m).functions ↔ ∃ f ∈ m.functions, f.id = name := by
  rw [CallGraph.ofModule, mem_distinct, List.mem_map]

/-- Every function that an instruction may call has a call site there. -/
theorem exists_callSite {f : Function} {b : Block} (hb : b ∈ f.blocks) {i : Instr}
    (hi : i ∈ b.instrs) {c : String} (hc : i.MayCall c) :
    ∃ site ∈ f.callSites, site.caller = f.id ∧ site.callee = c := by
  obtain ⟨k, hk, rfl⟩ := List.getElem_of_mem hi
  have hplaced : (⟨b, k, b.instrs[k]⟩ : Placed) ∈ f.placed :=
    Function.mem_placed_iff.2 ⟨hb, List.getElem?_eq_getElem hk⟩
  rcases hc with ⟨hop, hcallee⟩ | ⟨hop, htarget⟩
  · refine ⟨⟨f.id, c, b.id, k, false⟩, List.mem_flatMap.2 ⟨_, hplaced, ?_⟩, rfl, rfl⟩
    simp only [hop, hcallee]
    exact List.mem_singleton.2 rfl
  · refine ⟨⟨f.id, c, b.id, k, true⟩, List.mem_flatMap.2 ⟨_, hplaced, ?_⟩, rfl, rfl⟩
    simp only [hop]
    exact List.mem_map_of_mem (mem_distinct.2 htarget)

/-- A live call is a call of the call graph. -/
theorem LiveCall.calls {f c : Function} (h : m.LiveCall f c) :
    (CallGraph.ofModule m).Calls f.id c.id := by
  obtain ⟨g, -, b, hb, -, i, hi, hmay⟩ := h.site
  refine ⟨mem_functions_ofModule.2 ⟨f, h.caller, rfl⟩, ?_⟩
  rw [CallGraph.callees, mem_sortNames, mem_distinct, List.mem_filter, decide_eq_true_iff]
  refine ⟨?_, mem_functions_ofModule.2 ⟨c, h.callee, rfl⟩⟩
  obtain ⟨site, hsite, hcaller, hcallee⟩ := exists_callSite hb hi hmay
  refine List.mem_map.2 ⟨site, List.mem_filter.2 ⟨?_, decide_eq_true hcaller⟩, hcallee⟩
  exact List.mem_flatMap.2 ⟨f, h.caller, hsite⟩

end Module

/-! ## What speaks against code by itself

The definition of what varies. It mentions no table of the analysis, except for taints and the flow
graph, which are given by the function. -/

/-- An instruction depends on a tainted value or calls something that is not to be trusted. -/
inductive Instr.Varies (p : Policy) (t : Taints) (i : Instr) : Prop
  /-- It branches on a tainted value. -/
  | branch {v : String} (hop : i.op = .branch) (hv : i.inputs.head? = some v)
    (htainted : (t.of (some v)).isTainted = true)
  /-- It goes to one of several blocks by a tainted value. -/
  | indirectBranch {v : String} (hop : i.op = .indirectBranch)
    (htargets : 1 < i.distinctTargets.length)
    (hv : i.inputs.head? = some v) (htainted : (t.of (some v)).isTainted = true)
  /-- It may call a routine that is known to be variable-time. -/
  | routine {c : String} (hcall : i.MayCall c) (hroutine : c ∈ p.variableTimeRoutines)
  /-- It may call anything, where that counts. -/
  | unresolved (hop : i.op = .indirectCall) (htargets : i.targets = [])
    (hcounts : p.unresolvedIsVariableTime = true)

/-- Control can leave a loop at a block that branches on a tainted value. -/
def Loop.LeavesTainted (f : Function) (g : FlowGraph) (t : Taints) (l : Loop) : Prop :=
  ∃ b ∈ f.blocks, b.id ∈ l.exiting g ∧ ∃ last, b.terminator? = some last ∧
    (last.op = .branch ∨ last.op = .indirectBranch) ∧
    ∃ v, last.inputs.head? = some v ∧ (t.of (some v)).isTainted = true

/-- An instruction in a block that can be reached, or a loop that can be reached, speaks against a
function with the given flow graph and taints. -/
def Function.VariesUnder (p : Policy) (g : FlowGraph) (t : Taints) (f : Function) : Prop :=
  (∃ b ∈ f.blocks, g.graph.Reaches g.entry b.id ∧ ∃ i ∈ b.instrs, i.Varies p t) ∨
    ∃ loops, g.loops = .ok loops ∧ ∃ l ∈ loops, g.graph.Reaches g.entry l.header ∧
      l.LeavesTainted f g t

/-- Something in a function of a module speaks against it, calls into the module aside. -/
def Function.Varies (m : Module) (p : Policy) (f : Function) : Prop :=
  ∃ g t, FlowGraph.ofFunction f = .ok g ∧ Taints.ofFunction m f g = .ok t ∧ f.VariesUnder p g t

/-- Of the indirect opcodes only one ends a block. -/
theorem Opcode.eq_indirectBranch {op : Opcode} (hlast : op.isTerminator = true)
    (hindirect : op.isIndirect = true) :
    op = .indirectBranch := by
  revert hlast hindirect
  cases op <;> decide

/-- A function that is found has the name that was asked for. -/
theorem Module.mem_of_function?_eq_some {m : Module} {name : String} {f : Function}
    (h : m.function? name = some f) :
    f ∈ m.functions ∧ f.id = name :=
  ⟨List.mem_reverse.1 (List.mem_of_find?_eq_some h), by simpa using List.find?_some h⟩

/-- Where names are distinct, every function is the one found by its name. -/
theorem Module.function?_id {m : Module} (hm : (m.functions.map Function.id).Nodup) {f : Function}
    (hf : f ∈ m.functions) : m.function? f.id = some f := by
  cases hfound : m.function? f.id with
  | none =>
    have hnone := List.find?_eq_none.1 hfound f (List.mem_reverse.2 hf)
    simp at hnone
  | some c =>
    obtain ⟨hc, hid⟩ := mem_of_function?_eq_some hfound
    rw [List.inj_on_of_nodup_map hm hc hf hid]

/-! ## The evidence in blocks

Evidence is a list, and only whether it is empty matters. For one instruction it is nonempty
exactly if the instruction varies or may call what varies. -/

namespace Inspector

variable {i : Inspector}

/-- Only a value can be tainted. -/
theorem exists_of_isTainted {o : Option String} (h : i.isTainted o = true) :
    ∃ v, o = some v ∧ (i.taints.of (some v)).isTainted = true := by
  cases o with
  | none => cases h
  | some v => exact ⟨v, rfl, h⟩

/-- A call gives evidence if one of its callees is known to vary, by the settings or by the
analysis. -/
theorem callEvidence_ne_nil_iff {b : String} {callees : List String} :
    i.callEvidence b callees ≠ [] ↔
      ∃ c ∈ callees, c ∈ i.policy.variableTimeRoutines ∨ i.isVariableTime c = true := by
  rw [callEvidence, Ne, List.filterMap_eq_nil_iff]
  simp only [not_forall]
  refine exists_congr fun c => ?_
  rw [exists_prop]
  refine and_congr_right fun _ => ?_
  by_cases hroutine : c ∈ i.policy.variableTimeRoutines
  · simp [hroutine]
  · by_cases hvariable : i.isVariableTime c = true
    · simp [hroutine, hvariable]
    · simp [hroutine, hvariable]

/-- The evidence in an instruction that calls. -/
theorem instrEvidence_of_mayCall {b : String} {instr : Instr} {c : String} (h : instr.MayCall c) :
    ∃ callees, i.instrEvidence b instr = i.callEvidence b callees ∧ ∀ c, c ∈ callees ↔
      instr.MayCall c := by
  unfold instrEvidence
  rcases h with ⟨hop, hcallee⟩ | ⟨hop, htarget⟩
  · refine ⟨instr.callee.toList, by rw [hop], fun c => ?_⟩
    simp [Instr.MayCall, hop]
  · refine ⟨instr.distinctTargets, ?_, fun c => ?_⟩
    · simp only [hop]
      rw [if_neg (List.ne_nil_of_mem htarget)]
    · simp [Instr.MayCall, hop, Instr.distinctTargets, mem_distinct]

/-- So does any instruction that may make such a call. -/
theorem instrEvidence_ne_nil_of_mayCall {b : String} {instr : Instr} {c : String}
    (h : instr.MayCall c) (hc : c ∈ i.policy.variableTimeRoutines ∨ i.isVariableTime c = true) :
    i.instrEvidence b instr ≠ [] := by
  obtain ⟨callees, heq, hcallees⟩ := instrEvidence_of_mayCall (i := i) (b := b) h
  rw [heq, callEvidence_ne_nil_iff]
  exact ⟨c, (hcallees c).2 h, hc⟩

/-- Evidence in an instruction that calls nothing is against the instruction itself. -/
theorem varies_of_instrEvidence_ne_nil {b : String} {instr : Instr}
    (hcalls : ∀ c, ¬ instr.MayCall c) (h : i.instrEvidence b instr ≠ []) :
    instr.Varies i.policy i.taints := by
  -- calls to named functions are excluded, which leaves branches and calls without targets
  unfold instrEvidence at h
  split at h
  · next hop =>
    by_cases htainted : i.isTainted instr.condition = true
    · obtain ⟨v, hv, ht⟩ := exists_of_isTainted htainted
      rw [Instr.condition, if_pos hop] at hv
      exact .branch hop hv ht
    · rw [if_neg htainted] at h
      exact absurd rfl h
  · next hop =>
    by_cases htainted : 1 < instr.distinctTargets.length ∧ i.isTainted instr.indirectTarget = true
    · obtain ⟨v, hv, ht⟩ := exists_of_isTainted htainted.2
      rw [Instr.indirectTarget, if_pos (by rw [hop]; rfl)] at hv
      exact .indirectBranch hop htainted.1 hv ht
    · rw [if_neg htainted] at h
      exact absurd rfl h
  · next hop =>
    obtain ⟨c, hc, -⟩ := callEvidence_ne_nil_iff.1 h
    exact absurd (.inl ⟨hop, Option.mem_toList.1 hc⟩) (hcalls c)
  · next hop =>
    by_cases htargets : instr.targets = []
    · rw [if_pos htargets] at h
      by_cases hcounts : i.policy.unresolvedIsVariableTime = true
      · exact .unresolved hop htargets hcounts
      · rw [if_neg hcounts] at h
        exact absurd rfl h
    · rw [if_neg htargets] at h
      obtain ⟨c, hc, -⟩ := callEvidence_ne_nil_iff.1 h
      exact absurd (.inr ⟨hop, mem_distinct.1 hc⟩) (hcalls c)
  · exact absurd rfl h

/-- There is evidence in an instruction exactly when it varies by itself or may call a
variable-time function. -/
theorem instrEvidence_ne_nil_iff {b : String} {instr : Instr} :
    i.instrEvidence b instr ≠ [] ↔
      instr.Varies i.policy i.taints ∨ ∃ c, instr.MayCall c ∧ i.isVariableTime c = true := by
  constructor
  · intro h
    by_cases hcalls : ∃ c, instr.MayCall c
    · obtain ⟨_, hcall⟩ := hcalls
      obtain ⟨callees, heq, hcallees⟩ := instrEvidence_of_mayCall (i := i) (b := b) hcall
      rw [heq, callEvidence_ne_nil_iff] at h
      obtain ⟨c, hc, hroutine | hvariable⟩ := h
      · exact .inl (.routine ((hcallees c).1 hc) hroutine)
      · exact .inr ⟨c, (hcallees c).1 hc, hvariable⟩
    · exact .inl (varies_of_instrEvidence_ne_nil (not_exists.1 hcalls) h)
  · rintro (hvaries | ⟨c, hcall, hvariable⟩)
    · cases hvaries with
      | branch hop hv htainted =>
        simp [instrEvidence, hop, Instr.condition, hv, isTainted, htainted]
      | indirectBranch hop htargets hv htainted =>
        simp [instrEvidence, hop, htargets, Instr.indirectTarget, Opcode.isIndirect, hv,
          isTainted, htainted]
      | routine hcall hroutine => exact instrEvidence_ne_nil_of_mayCall hcall (.inl hroutine)
      | unresolved hop htargets hcounts => simp [instrEvidence, hop, htargets, hcounts]
    · exact instrEvidence_ne_nil_of_mayCall hcall (.inr hvariable)

/-! ## The evidence in loops and in whole functions

A loop gives evidence if one of the blocks where it is left asks for a tainted value. -/

/-- The value on which control leaves a block is the one that its branch depends on. -/
theorem exitValue?_eq_some_iff (hblocks : (i.function.blocks.map Block.id).Nodup) {b v : String} :
    i.exitValue? b = .ok (some v) ↔ ∃ blk ∈ i.function.blocks, blk.id = b ∧
      ∃ last, blk.terminator? = some last ∧
      (last.op = .branch ∨ last.op = .indirectBranch) ∧ last.inputs.head? = some v := by
  unfold exitValue?
  constructor
  · intro h
    split at h
    · cases h
    · next last hlast =>
      obtain ⟨blk, hblk, hterm⟩ := Option.bind_eq_some_iff.1 hlast
      obtain ⟨hmem, hid⟩ := Function.mem_of_block?_eq_some hblk
      refine ⟨blk, hmem, hid, last, hterm, ?_⟩
      have hv := Except.ok.inj h
      by_cases hbranch : last.op = .branch
      · rw [if_pos hbranch, Instr.condition, if_pos hbranch] at hv
        exact ⟨.inl hbranch, hv⟩
      · rw [if_neg hbranch, Instr.indirectTarget, Option.ite_none_right_eq_some] at hv
        exact ⟨.inr (Opcode.eq_indirectBranch (Block.terminator?_eq_some_iff.1 hterm).2 hv.1), hv.2⟩
  · rintro ⟨blk, hblk, rfl, last, hterm, hop, hv⟩
    rw [Function.block?_id hblocks hblk, Option.bind_some, hterm]
    rcases hop with hop | hop
    · simp [hop, Instr.condition, hv]
    · simp [hop, Instr.indirectTarget, Opcode.isIndirect, hv]

/-- There is evidence in leaving a loop exactly when it is left on a tainted value somewhere. -/
theorem exitEvidence?_eq_some_iff {header : String} {bs : List String} {found : Option Evidence}
    (h : i.exitEvidence? header bs = .ok found) :
    (∃ e, found = some e) ↔ ∃ b ∈ bs, ∃ v, i.exitValue? b = .ok (some v) ∧
      (i.taints.of (some v)).isTainted = true := by
  induction bs with
  | nil =>
    cases h
    simp
  | cons b rest ih =>
    rw [exitEvidence?] at h
    simp only [List.mem_cons, exists_eq_or_imp]
    split at h
    · cases h
    · next hb =>
      rw [ih h]
      simp [hb]
    · next v hb =>
      split at h
      · next htainted =>
        cases h
        simp only [Option.some.injEq, exists_eq', true_iff]
        exact .inl ⟨v, hb, htainted⟩
      · next htainted =>
        rw [ih h]
        simp only [isTainted] at htainted
        simp [hb, htainted]

/-- There is evidence in a loop exactly when it is left on a tainted value. -/
theorem loopEvidence?_eq_some_iff (hblocks : (i.function.blocks.map Block.id).Nodup) {l : Loop}
    {found : Option Evidence} (h : i.loopEvidence? l = .ok found) :
    (∃ e, found = some e) ↔ l.LeavesTainted i.function i.graph i.taints := by
  rw [exitEvidence?_eq_some_iff h]
  simp only [exitValue?_eq_some_iff hblocks]
  constructor
  · rintro ⟨_, hexit, v, ⟨b, hb, rfl, last, hlast, hop, hv⟩, htainted⟩
    exact ⟨b, hb, hexit, last, hlast, hop, v, hv, htainted⟩
  · rintro ⟨b, hb, hexit, last, hlast, hop, v, hv, htainted⟩
    exact ⟨b.id, hexit, v, ⟨b, hb, rfl, last, hlast, hop, hv⟩, htainted⟩

/-- There is evidence in the loops that some blocks head exactly when one of these is left on a
tainted value. -/
theorem loopsEvidence_ne_nil_iff (hblocks : (i.function.blocks.map Block.id).Nodup)
    {loops : List Loop} {found : List Evidence}
    (h : collectSome i.loopEvidence? loops = .ok found) :
    found ≠ [] ↔ ∃ l ∈ loops, l.LeavesTainted i.function i.graph i.taints := by
  constructor
  · intro hne
    obtain ⟨e, he⟩ := List.exists_mem_of_ne_nil found hne
    obtain ⟨l, hl, hevidence⟩ := (mem_collectSome_iff h).1 he
    exact ⟨l, hl, (loopEvidence?_eq_some_iff hblocks hevidence).1 ⟨e, rfl⟩⟩
  · rintro ⟨l, hl, hleaves⟩
    obtain ⟨e?, hevidence⟩ := exists_of_collectSome_eq_ok h hl
    obtain ⟨e, rfl⟩ := (loopEvidence?_eq_some_iff hblocks hevidence).2 hleaves
    exact List.ne_nil_of_mem ((mem_collectSome_iff h).2 ⟨l, hl, hevidence⟩)

/-- Something speaks against some blocks: an instruction in one of them, or a loop that one of them
heads. -/
def SpeaksAgainst (i : Inspector) (blocks : List String) : Prop :=
  (∃ b ∈ i.function.blocks, b.id ∈ blocks ∧ ∃ instr ∈ b.instrs,
    instr.Varies i.policy i.taints ∨ ∃ c, instr.MayCall c ∧ i.isVariableTime c = true) ∨
    ∃ l ∈ i.loops, l.header ∈ blocks ∧ l.LeavesTainted i.function i.graph i.taints

/-- **There is evidence in some blocks exactly when something speaks against them.** -/
theorem evidence_ne_nil_iff_speaksAgainst (hblocks : (i.function.blocks.map Block.id).Nodup)
    {blocks : List String} {found : List Evidence} (h : i.evidence blocks = .ok found) :
    found ≠ [] ↔ i.SpeaksAgainst blocks := by
  unfold evidence at h
  split at h
  · cases h
  · next inLoops hinLoops =>
    cases h
    have hinstrs : ((i.function.blocks.filter fun b => decide (b.id ∈ blocks)).flatMap fun b =>
        b.instrs.flatMap (i.instrEvidence b.id)) ≠ [] ↔
        ∃ b ∈ i.function.blocks, b.id ∈ blocks ∧ ∃ instr ∈ b.instrs,
          (instr.Varies i.policy i.taints ∨ ∃ c, instr.MayCall c ∧ i.isVariableTime c = true) := by
      rw [Ne, List.flatMap_eq_nil_iff]
      simp only [List.flatMap_eq_nil_iff, not_forall, exists_prop, List.mem_filter,
        decide_eq_true_iff, ← Ne.eq_def, instrEvidence_ne_nil_iff, and_assoc]
    have hleaves : inLoops ≠ [] ↔
        ∃ l ∈ i.loops, l.header ∈ blocks ∧ l.LeavesTainted i.function i.graph i.taints := by
      rw [loopsEvidence_ne_nil_iff hblocks hinLoops]
      simp only [List.mem_filter, decide_eq_true_iff, and_assoc]
    rw [Ne, List.append_eq_nil_iff, not_and_or, ← Ne, ← Ne, hinstrs, hleaves, SpeaksAgainst]

/-- There is evidence in the blocks that can be reached exactly when the function varies by itself
or calls a variable-time function there. -/
theorem evidence_ne_nil_iff (hblocks : (i.function.blocks.map Block.id).Nodup)
    (hloops : i.graph.loops = .ok i.loops) {found : List Evidence}
    (h : i.evidence i.graph.reachable = .ok found) :
    found ≠ [] ↔ i.function.VariesUnder i.policy i.graph i.taints ∨
      ∃ b ∈ i.function.blocks, i.graph.graph.Reaches i.graph.entry b.id ∧
        ∃ instr ∈ b.instrs, ∃ c, instr.MayCall c ∧ i.isVariableTime c = true := by
  rw [evidence_ne_nil_iff_speaksAgainst hblocks h, SpeaksAgainst, Function.VariesUnder, hloops]
  -- what is said of an instruction is split, so that the loops stand beside the first half
  simp only [FlowGraph.mem_reachable_iff_reaches, Except.ok.injEq, exists_eq_left',
    and_or_left, exists_or]
  rw [or_right_comm]

end Inspector

/-! ## The evidence in functions of a module

The inspector is applied to all reachable blocks of a function. -/

namespace Shapes

/-- The table holds the taints of all functions of the module. -/
def HasTaints (m : Module) (ts : Table Taints) : Prop :=
  ∀ f ∈ m.functions, ∃ g t, FlowGraph.ofFunction f = .ok g ∧ Taints.ofFunction m f g = .ok t ∧
    ts.get? f.id = some t

variable {facts : Facts} {s : Shapes}

/-- There is evidence in the body of a function exactly when it varies by itself or has a live call
to a function that was found variable-time. -/
theorem bodyEvidence_ne_nil_iff (hm : facts.module.WellFormed)
    (hgs : HasGraphs facts.module facts.graphs) (hts : HasTaints facts.module facts.taints)
    (hknown : s.KnownIn (CallGraph.ofModule facts.module).functions) {f : Function}
    (hf : f ∈ facts.module.functions) {body : List Evidence}
    (h : bodyEvidence facts s f.id = .ok body) :
    body ≠ [] ↔ f.Varies facts.module facts.policy ∨
      ∃ c, facts.module.LiveCall f c ∧ s.isVariableTime c.id = true := by
  obtain ⟨g, hg, hflow⟩ := hgs f hf
  obtain ⟨g', t, hflow', ht, hget⟩ := hts f hf
  cases hflow.symm.trans hflow'
  have hwf := hm.function f hf
  obtain ⟨loops, hloops⟩ := FlowGraph.exists_loops hflow hwf.blocks
  simp only [bodyEvidence, Module.function?_id hm.functions hf, hget, inspector, hg, hloops] at h
  rw [Inspector.evidence_ne_nil_iff (i := ⟨f, g, t, loops, facts.policy, s.isVariableTime⟩)
    hwf.blocks hloops h]
  constructor
  · rintro (hvaries | ⟨b, hb, hreach, instr, hinstr, c, hcall, hvariable⟩)
    · exact .inl ⟨g, t, hflow, ht, hvaries⟩
    · -- what was found variable-time was judged, so it is a function of the module
      obtain ⟨shape, hshape, -⟩ := isVariableTime_iff.1 hvariable
      obtain ⟨callee, hcallee, rfl⟩ := Module.mem_functions_ofModule.1 (hknown.table c shape hshape)
      exact .inr ⟨callee, ⟨hf, hcallee, g, hflow, b, hb, hreach, instr, hinstr, hcall⟩, hvariable⟩
  · rintro (⟨g', t', hflow', ht', hvaries⟩ | ⟨c, hcall, hvariable⟩)
    · cases hflow.symm.trans hflow'
      cases ht.symm.trans ht'
      exact .inl hvaries
    · obtain ⟨g', hflow', b, hb, hreach, instr, hinstr, hmay⟩ := hcall.site
      cases hflow.symm.trans hflow'
      exact .inr ⟨b, hb, hreach, instr, hinstr, c.id, hmay, hvariable⟩

end Shapes

end ConstantTime
