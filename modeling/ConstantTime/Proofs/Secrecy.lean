/-
Secrets stay secret through the instructions that define values.

An instruction that computes, selects, loads or calls gives its output a taint that is a join over
its inputs, so a secret among them makes the output secret. Two things release a secret: a
declassification, which is there for that purpose, and a call of a function that declares that it
returns something public.

The other instructions give no taint to anything. A store, a scrub, a region marker or the last
instruction of a block may carry the name of an output all the same, and the checks then count that
name as a defined value, which may be used. It has no taint, so it is public, whatever the
instruction was given. The main result says for every instruction with an output which of the two
it is.
-/
import ConstantTime.Proofs.Convergence

set_option autoImplicit false

namespace ConstantTime

/-- The instructions that give their output a taint. -/
def Opcode.taintsOutput : Opcode → Bool
  | .compute | .phi | .load | .call | .indirectCall | .declassify => true
  | _ => false

/-- The instruction may release what it was given: it is a declassification, or it may call a
function that declares that it returns something public. -/
def Instr.Releases (m : Module) (i : Instr) : Prop :=
  i.op = .declassify ∨ (i.op = .call ∧ m.returned? i.callee = some .pub) ∨
    (i.op = .indirectCall ∧ ∃ c ∈ i.targets, m.returned? (some c) = some .pub)

instance (m : Module) (i : Instr) : Decidable (i.Releases m) := inferInstanceAs (Decidable (_ ∨ _))

/-! ## One instruction

A join with a secret is secret. The two exceptions are the cases of the equations that do not
join. -/

namespace Rank

theorem joinAll_eq_secret {rs : List Rank} (h : .secret ∈ rs) : joinAll rs = .secret :=
  le_antisymm (le_secret _) (le_joinAll h)

/-- A call passes on a secret argument, unless the function called declares that it returns
something public. -/
theorem ofCall_eq_secret {m : Module} {callee : Option String}
    (hcallee : m.returned? callee ≠ some .pub) {args : List Rank} (h : .secret ∈ args) :
    ofCall m callee args = .secret := by
  unfold ofCall
  split
  · exact joinAll_eq_secret h
  · rfl
  · exact joinAll_eq_secret (List.mem_cons_of_mem _ h)
  · next hpub => exact absurd hpub hcallee

end Rank

namespace Instr

variable {s : Scope} {values memory : Ranks} {i : Instr}

/-- An instruction that taints its output and releases nothing passes on a secret input. -/
theorem outputRank_eq_secret (hop : i.op.taintsOutput) (hrel : ¬ i.Releases s.module)
    (hload : i.op = .load → ∃ l, i.location.bind s.locations.get? = some l) {u : String}
    (hu : u ∈ i.inputs) (hsecret : values u = .secret) :
    i.outputRank s values memory = some .secret := by
  have hmem : ∀ vs : List String, u ∈ vs → .secret ∈ vs.map values := fun vs hvs =>
    hsecret ▸ List.mem_map_of_mem hvs
  rw [Releases, not_or, not_or, not_and, not_and, not_exists] at hrel
  obtain ⟨hdeclassify, hcall, hindirect⟩ := hrel
  unfold outputRank
  cases hi : i.op with
  | compute => exact congrArg some (Rank.joinAll_eq_secret (hmem _ hu))
  | phi => exact congrArg some (Rank.joinAll_eq_secret (hmem _ hu))
  | load =>
    obtain ⟨l, hl⟩ := hload hi
    simp only [hl, Option.map_some, Option.some.injEq]
    refine Rank.joinAll_eq_secret (List.mem_append_left _ (List.mem_append_right _ ?_))
    exact List.mem_cons_of_mem _ (hmem _ hu)
  | call =>
    have hargs : u ∈ i.arguments := by
      unfold arguments
      rw [hi]
      exact hu
    exact congrArg some (Rank.ofCall_eq_secret (hcall hi) (hmem _ hargs))
  | indirectCall =>
    refine congrArg some (Rank.joinAll_eq_secret (List.mem_append.2 ?_))
    obtain ⟨pointer, rest, hinputs⟩ := List.exists_cons_of_ne_nil (List.ne_nil_of_mem hu)
    have hargs : i.arguments = rest := by
      unfold arguments
      rw [hi, hinputs]
      rfl
    have hpointer : i.indirectTarget = some pointer := by
      unfold indirectTarget
      rw [hi, hinputs]
      rfl
    rw [hinputs] at hu
    rcases List.mem_cons.1 hu with rfl | hu
    · -- the pointer itself is secret
      right
      rw [hpointer, Option.map_some, Option.getD_some, hsecret]
      exact List.mem_singleton.2 rfl
    · -- an argument is: each function that may be called passes it on
      left
      rw [← hargs] at hu
      cases htargets : i.distinctTargets with
      | nil =>
        exact List.mem_singleton.2
          (Rank.joinAll_eq_secret (List.mem_cons_of_mem _ (hmem _ hu))).symm
      | cons c cs =>
        have hc : c ∈ i.targets :=
          mem_distinct.1 (htargets ▸ List.mem_cons_self : c ∈ i.distinctTargets)
        have hpub : s.module.returned? (some c) ≠ some .pub := fun h => hindirect hi c ⟨hc, h⟩
        exact List.mem_cons.2 (.inl (Rank.ofCall_eq_secret hpub (hmem _ hu)).symm)
  | declassify => exact absurd hi hdeclassify
  | _ =>
    rw [hi] at hop
    cases hop

/-- The other instructions define nothing. -/
theorem outputRank_eq_none (hop : ¬ i.op.taintsOutput) : i.outputRank s values memory = none := by
  unfold outputRank
  cases hi : i.op with
  | compute | phi | load | call | indirectCall | declassify =>
    rw [hi] at hop
    exact absurd rfl hop
  | _ => rfl

end Instr

/-! ## Functions

The equations hold of the taints in the end, so what is true of one instruction is true of every
output. -/

namespace Taints

variable {m : Module} {f : Function} {g : FlowGraph} {t : Taints}

/-- Instructions that taint their output and release nothing pass on a secret input. -/
theorem Least.label_eq_secret (h : t.Least m f g) (hm : m.WellFormed)
    (hf : f ∈ m.functions) {b : Block} (hb : b ∈ f.blocks) {i : Instr} (hi : i ∈ b.instrs)
    {v : String} (hv : i.output = some v) (hop : i.op.taintsOutput) (hrel : ¬ i.Releases m)
    {u : String} (hu : u ∈ i.inputs) (hsecret : (t.of (some u)).label = .secret) :
    (t.of (some v)).label = .secret := by
  obtain ⟨before, after, hinstrs⟩ := List.append_of_mem hi
  have hbefore : before ++ [i] <+: b.instrs := ⟨after, by rw [hinstrs, List.append_assoc]; rfl⟩
  have hrank : t.assignment.value u = .secret := Taint.rank_eq_secret_iff.2 hsecret
  have hdefined : i.definedRank (Scope.ofFunction m f) t.assignment.value
      (t.assignment.memoryAt b before) =
      some (v, .secret) := by
    have hload : i.op = .load → ∃ l, i.location.bind (m.locationsFor f).get? = some l :=
      fun hload =>
        exists_location hm hf ((hm.function f hf).operands hb hi) (by rw [hload]; rfl)
    rw [Instr.definedRank, hv, Option.bind_some, Instr.outputRank_eq_secret hop hrel hload hu hrank]
    rfl
  have hle := h.bounds.outputs b hb before i hbefore v .secret hdefined
  exact Taint.rank_eq_secret_iff.1 (Rank.secret_le_iff.1 hle)

/-- The output of any other instruction is public, since nothing else defines it. -/
theorem Least.label_eq_pub (h : t.Least m f g) (hf : f.definedValues.Nodup) {b : Block}
    (hb : b ∈ f.blocks) {i : Instr} (hi : i ∈ b.instrs) {v : String} (hv : i.output = some v)
    (hop : ¬ i.op.taintsOutput) :
    (t.of (some v)).label = .pub := by
  have hout : v ∈ f.outputs.map Prod.fst := List.mem_map.2 ⟨_, Function.mem_outputs hb hi hv, rfl⟩
  have hle : t.assignment.value v ≤ .pub := by
    refine Assignment.value_le_of_least h.bounds h.least (fun p hp hpv => ?_) ?_
    · -- it is no parameter
      exact absurd hpv ((List.nodup_append.1 hf).2.2 p.value (List.mem_map_of_mem hp) v hout)
    · -- an instruction that gave it a rank would be this one
      intro b' hb' j hj r values memory hr
      have hij := Function.instr_eq_of_output hf hb hb' hi hj hv (Instr.output_of_definedRank hr)
      rw [← hij, Instr.definedRank, hv, Option.bind_some, Instr.outputRank_eq_none hop] at hr
      cases hr
  exact Taint.rank_eq_pub_iff.1 (le_antisymm hle (Rank.pub_le _))

/-- **What becomes of a secret input.** Where an instruction releases nothing and one of its inputs
is secret, its output is secret if it computes, selects, loads or calls; the output of a store, of
a scrub, of a region marker or of the last instruction of a block is public. -/
theorem exists_forall_output_label {m : Module} (hm : m.validate = .ok ()) {f : Function}
    (hf : f ∈ m.functions) :
    ∃ g t, FlowGraph.ofFunction f = .ok g ∧ ofFunction m f g = .ok t ∧
      ∀ b ∈ f.blocks, ∀ i ∈ b.instrs, ∀ v, i.output = some v → ¬ i.Releases m →
        (∃ u ∈ i.inputs, (t.of (some u)).label = .secret) →
          (t.of (some v)).label = if i.op.taintsOutput then .secret else .pub := by
  have hwf := Module.wellFormed_of_validate hm
  obtain ⟨g, t, hg, ht, hleast, -⟩ := exists_least hwf hf
  refine ⟨g, t, hg, ht, fun b hb i hi v hv hrel hin => ?_⟩
  obtain ⟨u, hu, hsecret⟩ := hin
  by_cases hop : i.op.taintsOutput
  · rw [if_pos hop]
    exact hleast.label_eq_secret hwf hf hb hi hv hop hrel hu hsecret
  · rw [if_neg hop]
    exact hleast.label_eq_pub (hwf.function f hf).values hb hi hv hop

theorem exists_output_label_mixing : mixing.validate = .ok () ∧ mix ∈ mixing.functions ∧
    ∃ g t, FlowGraph.ofFunction mix = .ok g ∧ ofFunction mixing mix g = .ok t ∧
      (t.of (some "key")).label = .secret ∧ (t.of (some "acc1")).label = .secret := by
  obtain ⟨g, t, hg, ht, houtputs⟩ := exists_forall_output_label validate_mixing mix_mem_mixing
  have hkey : (t.of (some "key")).label = .secret := by
    cases hg
    cases ht
    rfl
  refine ⟨validate_mixing, mix_mem_mixing, g, t, hg, ht, hkey, ?_⟩
  exact houtputs mix.blocks[2] (by decide) mix.blocks[2].instrs[0]
    (by decide) "acc1" rfl (by decide)
    ⟨"key", by decide, hkey⟩

/-- A store that names an output. -/
def stash : Function :=
  ⟨"f", [⟨"e", [⟨.store, ["k"], some "x", [], some "b", none⟩, ⟨.ret, [], none, [], none, none⟩]⟩],
    [⟨"k", .secret⟩], none, [⟨"b", .stack, some "b", false⟩]⟩

def stashing : Module := ⟨"m", [stash], []⟩

/-- A secret that is stored is not passed on to the output of the store: that is public, although
the checks accept it as a defined value and nothing was declassified. -/
theorem store_output_label_stashing : stashing.validate = .ok () ∧ stash ∈ stashing.functions ∧
    ∃ g t, FlowGraph.ofFunction stash = .ok g ∧ ofFunction stashing stash g = .ok t ∧
      ∃ b ∈ stash.blocks, ∃ i ∈ b.instrs, i.output = some "x" ∧ ¬ i.Releases stashing ∧
        "k" ∈ i.inputs ∧
        (t.of (some "k")).label = .secret ∧ (t.of (some "x")).label = .pub :=
  ⟨rfl, List.mem_singleton.2 rfl, _, _, rfl, rfl, _, List.mem_singleton.2 rfl, _,
    List.mem_cons_self, rfl, by decide, List.mem_cons_self, rfl, rfl⟩

end Taints

end ConstantTime
