/-
Chains of calls that are too long.

The depth of a function is at least the length of every chain of calls below it, unless a circle of
calls is among them. So a chain that is longer than allowed leads to a function which is on a
circle or at which the chains become too long, and that function is variable-time. Whether the
functions above it are depends on how it is called: depths count the calls in dead blocks too,
while evidence travels along live calls only. Where the deep callees of functions are also called
from blocks that can be reached, everything above is variable-time.
-/
import ConstantTime.Proofs.VariableTime

set_option autoImplicit false

namespace ConstantTime.Shapes

variable {facts : Facts} {calls : CallGraph} {s : Shapes}

/-! ## Depths

A call outside a circle leads to a function of smaller depth. So either the limit is exceeded at a
function itself or below it. -/

/-- A chain of calls longer than `n` is recorded below the function. -/
def DeeperThan (s : Shapes) (n : Int) (f : String) : Prop :=
  ∃ d : Nat, s.depths.get? f = some d ∧ n < d

/-- A chain through a callee is longer than the chains below the callee. -/
theorem lt_chainLength {component : List String} {recursive : Bool} {depths : List Nat} {d : Nat}
    (hd : d ∈ depths) :
    d < chainLength component recursive depths := by
  have hcons : (0 :: depths.map fun d => d + 1).max? =
      some ((depths.map fun d => d + 1).foldl max 0) := List.max?_cons'
  have hmax := (List.max?_eq_some_iff.1 hcons).2
  have hle := hmax (d + 1) (List.mem_cons_of_mem _ (List.mem_map_of_mem hd))
  unfold chainLength
  dsimp only
  split <;> omega

section Judged

variable (hs : ofModule facts calls = .ok s)

include hs

/-- A function off all cycles is deeper than what it calls. -/
theorem exists_depth_lt_of_calls {f c : String} (hcall : calls.Calls f c)
    (hcycle : ¬ calls.OnCycle f) :
    ∃ d d', s.depths.get? f = some d ∧ s.depths.get? c = some d' ∧ d' < d := by
  obtain ⟨component, hcomponent, hmem, recursive, depths, hverdict⟩ := exists_verdict hs hcall.1
  have hout : c ∉ component :=
    fun hc => hcycle (CallGraph.onCycle_of_calls hcomponent hmem hcall hc)
  have houtside : c ∈ outside calls component := mem_outside_iff.2 ⟨⟨f, hmem, hcall.2⟩, hout⟩
  obtain ⟨d', hd', hdepth⟩ :=
    exists_of_mem_of_forall₂ (forall₂_of_collect_eq_ok hverdict.below) houtside
  exact ⟨_, d', hverdict.depth f hmem, depth_eq_ok_iff.1 hdepth, lt_chainLength hd'⟩

/-- **Chains become too long somewhere**: a deep function off all cycles calls another deep one, or
chains become too long at it. -/
theorem tooDeep_or_calls_deeper {n : Int} (hn : facts.policy.maxDepth = .int n) {f : String}
    (hf : f ∈ calls.functions) (hcycle : ¬ calls.OnCycle f) (hdeep : s.DeeperThan n f) :
    TooDeep facts.policy calls s f ∨ ∃ c, calls.Calls f c ∧ s.DeeperThan n c := by
  obtain ⟨component, hcomponent, hmem, recursive, depths, hverdict⟩ := exists_verdict hs hf
  obtain ⟨d, hd, hlt⟩ := hdeep
  cases hd.symm.trans (hverdict.depth f hmem)
  by_cases hall : ∀ d ∈ depths, (d : Int) ≤ n
  · refine .inl
      ⟨component, hcomponent, hmem, recursive, depths, hverdict.circle, hverdict.below, ?_⟩
    simp only [exceeds, hn, Quantity.below, Bool.and_eq_true, decide_eq_true_iff, List.all_eq_true,
      Bool.not_eq_true', decide_eq_false_iff_not, not_lt]
    exact ⟨hlt, hall⟩
  · simp only [not_forall, not_le] at hall
    obtain ⟨d', hd', hlt'⟩ := hall
    obtain ⟨c, hc, hdepth⟩ := (mem_collect_iff hverdict.below).1 hd'
    obtain ⟨⟨g, hg, hcallee⟩, -⟩ := mem_outside_iff.1 hc
    -- off all cycles, the function is alone in its component
    have halone : f = g := by
      by_contra hne
      exact hcycle (CallGraph.onCycle_of_ne hcomponent hmem hg hne)
    rw [← halone] at hcallee
    exact .inr ⟨c, ⟨hf, hcallee⟩, d', depth_eq_ok_iff.1 hdepth, hlt'⟩

end Judged

/-! ## Going down

A chain of calls is followed to the point where the trouble is: a circle, or the function at which
the chains become too long. That function is recorded, whatever the calls above it. -/

section Down

variable (hs : ofModule facts (CallGraph.ofModule facts.module) = .ok s)

include hs

/-- Below a deep function, chains become too long at a function or close a circle. One can go there
along any kind of calls `R` that leads from a function with deep callees to one of them. -/
theorem exists_tooDeep_below {R : Function → Function → Prop}
    (hR : ∀ f c, R f c → c ∈ facts.module.functions ∧
      (CallGraph.ofModule facts.module).Calls f.id c.id) {n : Int}
    (hn : facts.policy.maxDepth = .int n) {f : Function} (hf : f ∈ facts.module.functions)
    (hdown : ∀ h, Relation.ReflTransGen R f h →
      (∃ c, (CallGraph.ofModule facts.module).Calls h.id c ∧ s.DeeperThan n c) →
        ∃ c, R h c ∧ s.DeeperThan n c.id)
    (hdeep : s.DeeperThan n f.id) :
    ∃ h, Relation.ReflTransGen R f h ∧ ((CallGraph.ofModule facts.module).OnCycle h.id ∨
      TooDeep facts.policy (CallGraph.ofModule facts.module) s h.id) := by
  obtain ⟨d, hd, hlt⟩ := hdeep
  -- off all cycles a callee is less deep, so the way down ends
  induction d using Nat.strong_induction_on generalizing f with
  | _ d ih =>
    by_cases hcycle : (CallGraph.ofModule facts.module).OnCycle f.id
    · exact ⟨f, .refl, .inl hcycle⟩
    rcases tooDeep_or_calls_deeper hs hn (Module.mem_functions_ofModule.2 ⟨f, hf, rfl⟩) hcycle
      ⟨d, hd, hlt⟩ with
      hhere | hcalls
    · exact ⟨f, .refl, .inr hhere⟩
    · obtain ⟨c, hstep, d', hd', hlt'⟩ := hdown f .refl hcalls
      obtain ⟨hc, hcall⟩ := hR f c hstep
      obtain ⟨e, e', he, he', hless⟩ := exists_depth_lt_of_calls hs hcall hcycle
      cases hd.symm.trans he
      cases hd'.symm.trans he'
      obtain ⟨h, hreach, htrouble⟩ := ih d' hless hc (fun h hh => hdown h (.head hstep hh)) hd' hlt'
      exact ⟨h, .head hstep hreach, htrouble⟩

/-- A function is at least as deep as a chain of live calls from it is long, unless a circle is
among them. -/
theorem exists_onCycle_or_le_depth {k : Nat} {f last : Function} (hf : f ∈ facts.module.functions)
    (hchain : facts.module.LiveChain k f last) :
    (∃ j h, facts.module.LiveChain j f h ∧ (CallGraph.ofModule facts.module).OnCycle h.id) ∨
      ∃ d, s.depths.get? f.id = some d ∧ k ≤ d := by
  induction hchain with
  | here f =>
    obtain ⟨_, -, hmem, _, _, hverdict⟩ :=
      exists_verdict hs (Module.mem_functions_ofModule.2 ⟨f, hf, rfl⟩)
    exact .inr ⟨_, hverdict.depth f.id hmem, Nat.zero_le _⟩
  | @call f c last k hcall _ ih =>
    by_cases hcycle : (CallGraph.ofModule facts.module).OnCycle f.id
    · exact .inl ⟨0, f, .here f, hcycle⟩
    rcases ih hcall.callee with ⟨j, h, hchain, htrouble⟩ | ⟨d', hd', hle⟩
    · exact .inl ⟨j + 1, h, .call hcall hchain, htrouble⟩
    · obtain ⟨e, e', he, he', hless⟩ := exists_depth_lt_of_calls hs hcall.calls hcycle
      cases hd'.symm.trans he'
      exact .inr ⟨e, he, by omega⟩

end Down

/-- Live calls in a row are a chain of some length. -/
theorem exists_liveChain_of_reflTransGen {m : Module} {f h : Function}
    (hreach : Relation.ReflTransGen m.LiveCall f h) :
    ∃ k, m.LiveChain k f h := by
  induction hreach using Relation.ReflTransGen.head_induction_on with
  | refl => exact ⟨0, .here h⟩
  | head hcall _ ih =>
    obtain ⟨k, hchain⟩ := ih
    exact ⟨k + 1, .call hcall hchain⟩

/-- Live calls are calls. -/
theorem callsThrough_of_liveChain {m : Module} {k : Nat} {f h : Function}
    (hchain : m.LiveChain k f h) :
    (CallGraph.ofModule m).CallsThrough f.id h.id := by
  induction hchain with
  | here => exact .refl
  | call hcall _ ih => exact .head hcall.calls ih

section Bound

variable (hm : facts.module.WellFormed) (hgs : HasGraphs facts.module facts.graphs)
  (hts : HasTaints facts.module facts.taints)
  (hs : ofModule facts (CallGraph.ofModule facts.module) = .ok s)

include hm hgs hts hs

/-- Being on a circle or too deep speaks against a function. -/
theorem isVariableTime_of_onCycle_or_tooDeep {h : Function} (hh : h ∈ facts.module.functions)
    (htrouble : (CallGraph.ofModule facts.module).OnCycle h.id ∨
      TooDeep facts.policy (CallGraph.ofModule facts.module) s h.id) : s.isVariableTime h.id =
        true := by
  refine (isVariableTime_iff_offends_or_call hm hgs hts hs hh).2 (.inl ?_)
  exact htrouble.imp_right .inl

/-- A chain that is too long is recorded: a function below its first one is on a circle or marked
for its depth, and is variable-time. -/
theorem exists_recorded_of_liveChain {n : Int} (hn : facts.policy.maxDepth = .int n) {k : Nat}
    {f last : Function} (hf : f ∈ facts.module.functions) (hchain : facts.module.LiveChain k f last)
    (hk : n < k) :
    ∃ h ∈ facts.module.functions, (CallGraph.ofModule facts.module).CallsThrough f.id h.id ∧
      s.isVariableTime h.id = true ∧
      ((CallGraph.ofModule facts.module).OnCycle h.id ∨ s.HasDepthEvidence h.id) := by
  rcases exists_onCycle_or_le_depth hs hf hchain with ⟨j, h, hway, hcycle⟩ | ⟨d, hd, hle⟩
  · have hh := hway.mem_functions hf
    exact ⟨h, hh, callsThrough_of_liveChain hway,
      isVariableTime_of_onCycle_or_tooDeep hm hgs hts hs hh (.inl hcycle), .inl hcycle⟩
  · obtain ⟨h, hway, htrouble⟩ := exists_tooDeep_below hs
      (R := fun f c => c ∈ facts.module.functions ∧
        (CallGraph.ofModule facts.module).Calls f.id c.id)
      (fun _ _ hstep => hstep) hn hf (fun h _ ⟨c, hcall, hdeep⟩ => by
        obtain ⟨callee, hcallee, rfl⟩ := Module.mem_functions_ofModule.1 hcall.mem_functions
        exact ⟨callee, ⟨hcallee, hcall⟩, hdeep⟩) ⟨d, hd, by omega⟩
    have hh : h ∈ facts.module.functions := by
      rcases hway.cases_tail with rfl | ⟨_, -, hstep⟩
      · exact hf
      · exact hstep.1
    refine ⟨h, hh, hway.lift Function.id fun _ _ hstep => hstep.2,
      isVariableTime_of_onCycle_or_tooDeep hm hgs hts hs hh htrouble, ?_⟩
    exact htrouble.imp_right fun hdeep => hdeep.hasDepthEvidence hs

/-- The first function of a chain that is too long is variable-time, if on the way down live calls
lead to deep functions wherever calls do. -/
theorem isVariableTime_of_long_liveChain {n : Int} (hn : facts.policy.maxDepth = .int n) {k : Nat}
    {f last : Function} (hf : f ∈ facts.module.functions) (hchain : facts.module.LiveChain k f last)
    (hk : n < k) (hlive : ∀ j h, facts.module.LiveChain j f h →
      (∃ c, (CallGraph.ofModule facts.module).Calls h.id c ∧ s.DeeperThan n c) →
      ∃ c, facts.module.LiveCall h c ∧ s.DeeperThan n c.id) : s.isVariableTime f.id = true := by
  have htop : ∃ j h, facts.module.LiveChain j f h ∧
      ((CallGraph.ofModule facts.module).OnCycle h.id ∨
      TooDeep facts.policy (CallGraph.ofModule facts.module) s h.id) := by
    rcases exists_onCycle_or_le_depth hs hf hchain with ⟨j, h, hway, hcycle⟩ | ⟨d, hd, hle⟩
    · exact ⟨j, h, hway, .inl hcycle⟩
    · obtain ⟨h, hway, htrouble⟩ := exists_tooDeep_below hs (R := facts.module.LiveCall)
        (fun _ _ hcall => ⟨hcall.callee, hcall.calls⟩) hn hf (fun h hway hcalls => by
          obtain ⟨j, hchain⟩ := exists_liveChain_of_reflTransGen hway
          exact hlive j h hchain hcalls) ⟨d, hd, by omega⟩
      obtain ⟨j, hchain⟩ := exists_liveChain_of_reflTransGen hway
      exact ⟨j, h, hchain, htrouble⟩
  obtain ⟨j, h, hway, htrouble⟩ := htop
  exact isVariableTime_of_liveChain hm hgs hts hs hf hway
    (isVariableTime_of_onCycle_or_tooDeep hm hgs hts hs (hway.mem_functions hf) htrouble)

end Bound

/-- **Chains of live calls beyond the bound.** Below the first function of such a chain, a
variable-time function is on a circle of calls or marked for its depth. The first function itself
is variable-time if on the way down live calls lead to functions deeper than the bound wherever
calls do. -/
theorem exists_long_liveChain_recorded (hm : facts.module.validate = .ok ())
    (hgs : HasGraphs facts.module facts.graphs) (hts : HasTaints facts.module facts.taints)
    {n : Int} (hn : facts.policy.maxDepth = .int n) :
    ∃ s, ofModule facts (CallGraph.ofModule facts.module) = .ok s ∧
      ∀ f ∈ facts.module.functions, ∀ k last, facts.module.LiveChain k f last → n < k →
        (∃ h ∈ facts.module.functions, (CallGraph.ofModule facts.module).CallsThrough f.id h.id ∧
          s.isVariableTime h.id = true ∧
          ((CallGraph.ofModule facts.module).OnCycle h.id ∨ s.HasDepthEvidence h.id)) ∧
        ((∀ j h, facts.module.LiveChain j f h →
          (∃ c, (CallGraph.ofModule facts.module).Calls h.id c ∧ s.DeeperThan n c) →
          ∃ c, facts.module.LiveCall h c ∧ s.DeeperThan n c.id) →
            s.isVariableTime f.id = true) := by
  have hwf := Module.wellFormed_of_validate hm
  obtain ⟨s, hs⟩ := exists_ofModule hwf hgs (CallGraph.ofModule facts.module)
  refine ⟨s, hs, fun f hf k last hchain hk => ⟨?_, fun hlive => ?_⟩⟩
  · exact exists_recorded_of_liveChain hwf hgs hts hs hn hf hchain hk
  · exact isVariableTime_of_long_liveChain hwf hgs hts hs hn hf hchain hk hlive

/-! ## Two modules with a long chain

In the first all calls of the chain are live and everything above is variable-time. In the second
the chains become too long at a function that is called from a dead block only. Nothing is then
recorded for its caller, although a live chain from there is too long as well. -/

def wipe : Function := ⟨"wipe", [⟨"entry", [⟨.ret, [], none, [], none, none⟩]⟩], [], none, []⟩

def flush : Function := relayTo "flush" "wipe"

def sync : Function := relayTo "sync" "flush"

def commit : Function := relayTo "commit" "sync"

/-- A function that flushes, and would sync in a block that no way leads to. -/
def save : Function :=
  ⟨"save",
    [⟨"entry", [⟨.call, [], none, [], none, some "flush"⟩, ⟨.ret, [], none, [], none, none⟩]⟩,
      ⟨"dead", [⟨.call, [], none, [], none, some "sync"⟩, ⟨.ret, [], none, [], none, none⟩]⟩],
      [], none, []⟩

def committing : Module := ⟨"committing", [commit, sync, flush, wipe], []⟩

def saving : Module := ⟨"saving", [save, sync, flush, wipe], []⟩

/-- No chain of more than one call is followed. -/
def strict : Policy := ⟨.int 1, [], false⟩

theorem validate_committing : committing.validate = .ok () := rfl

theorem validate_saving : saving.validate = .ok () := rfl

theorem liveChain_commit_wipe : committing.LiveChain 3 commit wipe := by
  have hfirst : committing.LiveCall commit sync :=
    liveCall_relayTo (by simp [committing, commit]) (by simp [committing]) rfl
  have hsecond : committing.LiveCall sync flush :=
    liveCall_relayTo (by simp [committing, sync]) (by simp [committing]) rfl
  have hthird : committing.LiveCall flush wipe :=
    liveCall_relayTo (by simp [committing, flush]) (by simp [committing]) rfl
  exact .call hfirst (.call hsecond (.call hthird (.here wipe)))

/-- Chains become too long at the second function, and the first one calls it from its entry. -/
theorem exists_long_liveChain_recorded_committing :
    committing.validate = .ok () ∧ HasGraphs committing (Facts.ofModule committing strict).graphs ∧
      HasTaints committing (Facts.ofModule committing strict).taints ∧
        committing.LiveChain 3 commit wipe ∧
      ∃ s, ofModule (Facts.ofModule committing strict) (CallGraph.ofModule committing) = .ok s ∧
        s.isVariableTime commit.id = true := by
  obtain ⟨hgs, hts⟩ := hasGraphs_ofModule (Module.wellFormed_of_validate validate_committing) strict
  obtain ⟨s, hs, hlong⟩ := @exists_long_liveChain_recorded (Facts.ofModule committing strict)
    validate_committing hgs hts 1 rfl
  change ofModule (Facts.ofModule committing strict) (CallGraph.ofModule committing) = .ok s at hs
  refine ⟨validate_committing, hgs, hts, liveChain_commit_wipe, s, hs, ?_⟩
  refine (hlong commit (by simp [Facts.ofModule, committing]) 3 wipe liveChain_commit_wipe
    (by decide)).2 ?_
  have hcomputed : (ofModule (Facts.ofModule committing strict) (CallGraph.ofModule committing)).map
      (fun s => s.depths.entries) =
        .ok [("wipe", 0), ("flush", 1), ("sync", 2), ("commit", 3)] := by rfl
  rw [hs] at hcomputed
  have hdepth : ∀ c,
      s.depths.get? c = Assoc.find? c [("wipe", 0), ("flush", 1), ("sync", 2), ("commit", 3)] :=
    fun c => congrArg (Assoc.find? c) (Except.ok.inj hcomputed)
  rintro j h hchain ⟨c, ⟨-, hcallee⟩, d, hd, hlt⟩
  rw [hdepth] at hd
  have hh : h ∈ committing.functions := hchain.mem_functions (by simp [Facts.ofModule, committing])
  simp only [committing, List.mem_cons, List.not_mem_nil, or_false] at hh
  -- only the call from `commit` leads to a function deeper than the bound
  rcases hh with rfl | rfl | rfl | rfl
  · have hcall : committing.LiveCall commit sync :=
      liveCall_relayTo (by simp [committing, commit]) (by simp [committing]) rfl
    exact ⟨sync, hcall, 2, hdepth "sync", by decide⟩
  · cases List.mem_singleton.1 (show c ∈ ["flush"] from hcallee)
    cases hd
    exact absurd hlt (by decide)
  · cases List.mem_singleton.1 (show c ∈ ["wipe"] from hcallee)
    cases hd
    exact absurd hlt (by decide)
  · exact absurd (show c ∈ [] from hcallee) List.not_mem_nil

theorem liveChain_save_wipe : saving.LiveChain 2 save wipe := by
  have hfirst : saving.LiveCall save flush :=
    ⟨by simp [saving], by simp [saving], ⟨"entry", ⟨[("entry", []), ("dead", [])]⟩,
      ["entry", "dead"]⟩, rfl, _, List.mem_cons_self, .refl _ _, _, List.mem_cons_self,
      .inl ⟨rfl, rfl⟩⟩
  have hsecond : saving.LiveCall flush wipe :=
    liveCall_relayTo (by simp [saving, flush]) (by simp [saving]) rfl
  exact .call hfirst (.call hsecond (.here wipe))

/-- **A chain of calls beyond the bound can stay without consequence for its first function.**
Saving is deep through a call that cannot happen. So chains become too long at that callee already,
which nothing tells the one that saves. -/
theorem isVariableTime_save_eq_false :
    saving.validate = .ok () ∧ HasGraphs saving (Facts.ofModule saving strict).graphs ∧
      HasTaints saving (Facts.ofModule saving strict).taints ∧ strict.maxDepth = .int 1 ∧
      saving.LiveChain 2 save wipe ∧
      ∃ s, ofModule (Facts.ofModule saving strict) (CallGraph.ofModule saving) = .ok s ∧
        s.isVariableTime save.id = false := by
  obtain ⟨hgs, hts⟩ := hasGraphs_ofModule (Module.wellFormed_of_validate validate_saving) strict
  refine ⟨validate_saving, hgs, hts, rfl, liveChain_save_wipe, ?_⟩
  have hcomputed : (ofModule (Facts.ofModule saving strict) (CallGraph.ofModule saving)).map
      (fun s => s.isVariableTime save.id) = .ok false := by rfl
  exact exists_of_map_eq_ok hcomputed

end ConstantTime.Shapes
