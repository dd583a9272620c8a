/-
Which functions are variable-time.

The tables that judging leaves behind satisfy one equation: a function is variable-time exactly
when something speaks against it alone, or when it has a live call to a variable-time function. A
function speaks against itself when it is on a circle of calls, when chains of calls become too
long at it, or when it varies by itself. Unfolding the equation along the components gives the main
statement: the variable-time functions are those from which a chain of live calls leads to a
function with something against it.
-/
import ConstantTime.Proofs.LiveCalls
import ConstantTime.Proofs.Phases

set_option autoImplicit false

namespace ConstantTime

namespace CallGraph

/-- A chain of calls leads from the function back to it. -/
def OnCycle (calls : CallGraph) (f : String) : Prop := ∃ c, calls.Calls f c ∧ calls.CallsThrough c f

variable {calls : CallGraph}

/-- A call within a component closes a cycle. -/
theorem onCycle_of_calls {component : List String} (hcomponent : component ∈ calls.components)
    {f c : String} (hf : f ∈ component) (hcall : calls.Calls f c) (hc : c ∈ component) :
    calls.OnCycle f :=
  ⟨c, hcall, ((mem_component_iff hcomponent hf).1 hc).2⟩

/-- So does another member of the component. -/
theorem onCycle_of_ne {component : List String} (hcomponent : component ∈ calls.components)
    {f g : String} (hf : f ∈ component) (hg : g ∈ component) (hne : f ≠ g) : calls.OnCycle f := by
  obtain ⟨hthere, hback⟩ := (mem_component_iff hcomponent hf).1 hg
  rcases Relation.ReflTransGen.cases_head hthere with heq | ⟨c, hcall, hrest⟩
  · exact absurd heq hne
  · exact ⟨c, hcall, hrest.trans hback⟩

end CallGraph

namespace Shapes

variable {facts : Facts} {calls : CallGraph} {s : Shapes}

/-- A component is a circle exactly when its members are on a cycle. -/
theorem isCircle_iff {component : List String} (hcomponent : component ∈ calls.components)
    {recursive : Bool} (h : isCircle calls component = .ok recursive) {f : String}
    (hf : f ∈ component) :
    recursive = true ↔ calls.OnCycle f := by
  -- one function is on a circle only if it calls itself; several are linked with each other
  match component, h with
  | [_], h =>
    cases List.mem_singleton.1 hf
    cases h
    rw [CallGraph.isSelfRecursive, decide_eq_true_iff]
    constructor
    · intro hself
      exact CallGraph.onCycle_of_calls hcomponent hf
        ⟨CallGraph.mem_functions_of_mem_component hcomponent hf, hself⟩ hf
    · rintro ⟨c, hcall, hback⟩
      have hc := (CallGraph.mem_component_iff hcomponent hf).2 ⟨.single hcall, hback⟩
      cases List.mem_singleton.1 hc
      exact hcall.2
  | first :: second :: rest, h =>
    cases h
    refine ⟨fun _ => ?_, fun _ => rfl⟩
    have hne : first ≠ second := by
      have hnodup := (List.nodup_flatten.1 calls.nodup_flatten_components).1 _ hcomponent
      intro heq
      rw [heq] at hnodup
      simp at hnodup
    by_cases hfirst : f = first
    · exact CallGraph.onCycle_of_ne hcomponent hf (by simp) (fun heq => hne (hfirst.symm.trans heq))
    · exact CallGraph.onCycle_of_ne hcomponent hf List.mem_cons_self hfirst

/-! ## The equation

The last table is compared with itself: a function is variable-time by what it does alone or by a
live call to a function that the same table calls variable-time. Calls within a component are no
exception, since such a component is a circle and speaks against all its functions. -/

/-- Chains of calls become too long at a function: that below its component is, and none of those
below the functions that the component calls outside. -/
def TooDeep (p : Policy) (calls : CallGraph) (s : Shapes) (f : String) : Prop :=
  ∃ component ∈ calls.components, f ∈ component ∧ ∃ recursive depths, isCircle calls component =
    .ok recursive ∧
    collect s.depth (outside calls component) = .ok depths ∧
    exceeds p (chainLength component recursive depths) depths = true

/-- The limit on chains of calls is among what was said against a function. -/
def HasDepthEvidence (s : Shapes) (f : String) : Prop :=
  ∃ shape, s.table.get? f = some shape ∧ ∃ e ∈ shape.evidence, e.reason = .depthLimit

/-- Something speaks against a function, whatever it calls. -/
def Offends (facts : Facts) (s : Shapes) (f : Function) : Prop :=
  (CallGraph.ofModule facts.module).OnCycle f.id ∨
    TooDeep facts.policy (CallGraph.ofModule facts.module) s f.id ∨
    f.Varies facts.module facts.policy

/-- A component has evidence for all its functions if it is recursive or too deep. -/
theorem sharedEvidence_ne_nil_iff {p : Policy} {component : List String} {recursive exceeded : Bool}
    {depth : Nat} :
    sharedEvidence p component recursive exceeded depth ≠ [] ↔
      recursive = true ∨ exceeded = true := by
  cases recursive <;> cases exceeded <;> simp [sharedEvidence]

/-- Depth leaves evidence of its own kind. -/
theorem exists_depthLimit_mem_sharedEvidence (p : Policy) (component : List String)
    (recursive : Bool) (depth : Nat) :
    ∃ e ∈ sharedEvidence p component recursive true depth, e.reason = .depthLimit :=
  ⟨_, List.mem_append_right _ (List.mem_singleton.2 rfl), rfl⟩

section Judged

variable (hs : ofModule facts calls = .ok s)

include hs

/-- Every function of the graph was judged with its component. -/
theorem exists_verdict {f : String} (hf : f ∈ calls.functions) :
    ∃ component ∈ calls.components, f ∈ component ∧ ∃ recursive depths,
      Verdict facts calls s component recursive depths := by
  obtain ⟨component, hcomponent, hmem⟩ := List.mem_flatten.1 (calls.mem_flatten_components_iff.2 hf)
  exact ⟨component, hcomponent, hmem, (settles_of_ofModule hs).1 component hcomponent⟩

/-- The limit on chains of calls is recorded where they become too long. -/
theorem TooDeep.hasDepthEvidence {f : String} (h : TooDeep facts.policy calls s f) :
    s.HasDepthEvidence f := by
  obtain ⟨component, hcomponent, hf, recursive, depths, hcircle, hbelow, hexceeds⟩ := h
  obtain ⟨recursive', depths', hverdict⟩ := (settles_of_ofModule hs).1 component hcomponent
  cases hcircle.symm.trans hverdict.circle
  cases hbelow.symm.trans hverdict.below
  obtain ⟨_, body, -, -, -, hshape⟩ := hverdict.shape f hf
  rw [hexceeds] at hshape
  obtain ⟨e, he, hreason⟩ := exists_depthLimit_mem_sharedEvidence facts.policy component recursive
    (chainLength component recursive depths)
  exact ⟨_, hshape, e, List.mem_append_left body he, hreason⟩

end Judged

/-- What the verdict on its component says of a function. -/
theorem isVariableTime_iff_of_shape {component : List String} {recursive : Bool}
    {depths : List Nat} {f : String} {body : List Evidence}
    (hshape : s.table.get? f =
      some ⟨f, sharedEvidence facts.policy component recursive
        (exceeds facts.policy (chainLength component recursive depths) depths)
        (chainLength component recursive depths) ++ body⟩) :
    s.isVariableTime f = true ↔ recursive = true ∨
      exceeds facts.policy (chainLength component recursive depths) depths = true ∨ body ≠ [] := by
  rw [isVariableTime_iff, hshape]
  simp only [Option.some.injEq, exists_eq_left']
  rw [Ne, List.append_eq_nil_iff, not_and_or, ← Ne, sharedEvidence_ne_nil_iff, or_assoc]

/-- A component exceeds the limit exactly if each of its functions does. -/
theorem Verdict.exceeds_iff {component : List String} {recursive : Bool} {depths : List Nat}
    (h : Verdict facts calls s component recursive depths)
    (hcomponent : component ∈ calls.components) {f : String} (hf : f ∈ component) :
    exceeds facts.policy (chainLength component recursive depths) depths = true ↔
      TooDeep facts.policy calls s f := by
  constructor
  · exact fun hexceeds =>
      ⟨component, hcomponent, hf, recursive, depths, h.circle, h.below, hexceeds⟩
  · rintro ⟨component', hcomponent', hf', recursive', depths', hcircle, hbelow, hexceeds⟩
    cases CallGraph.eq_of_mem_components hcomponent hcomponent' hf hf'
    cases h.circle.symm.trans hcircle
    cases h.below.symm.trans hbelow
    exact hexceeds

section Equation

variable (hm : facts.module.WellFormed) (hgs : HasGraphs facts.module facts.graphs)
  (hts : HasTaints facts.module facts.taints)
  (hs : ofModule facts (CallGraph.ofModule facts.module) = .ok s)

include hm hgs hts hs

/-- **A function is variable-time exactly when something speaks against it alone, or when it has a
live call to a variable-time function.** -/
theorem isVariableTime_iff_offends_or_call {f : Function} (hf : f ∈ facts.module.functions) :
    s.isVariableTime f.id = true ↔
      Offends facts s f ∨ ∃ c, facts.module.LiveCall f c ∧ s.isVariableTime c.id = true := by
  obtain ⟨component, hcomponent, hmem, recursive, depths, hverdict⟩ :=
    exists_verdict hs (Module.mem_functions_ofModule.2 ⟨f, hf, rfl⟩)
  obtain ⟨between, body, hbetween, houtside, hbody, hshape⟩ := hverdict.shape f.id hmem
  have hknown : between.KnownIn (CallGraph.ofModule facts.module).functions :=
    ⟨fun g shape hg => (settles_of_ofModule hs).2.table g shape (hbetween.table g shape hg),
      fun g d hg => (settles_of_ofModule hs).2.depths g d (hbetween.depths g d hg)⟩
  have hcircle := isCircle_iff hcomponent hverdict.circle hmem
  rw [isVariableTime_iff_of_shape hshape, hcircle, hverdict.exceeds_iff hcomponent hmem,
    bodyEvidence_ne_nil_iff hm hgs hts hknown hf hbody, Offends, or_assoc, or_assoc]
  constructor
  · rintro (hcycle | hdeep | hvaries | ⟨c, hcall, hvariable⟩)
    · exact .inl hcycle
    · exact .inr (.inl hdeep)
    · exact .inr (.inr (.inl hvaries))
    · exact .inr (.inr (.inr ⟨c, hcall, hbetween.isVariableTime hvariable⟩))
  · rintro (hcycle | hdeep | hvaries | ⟨c, hcall, hvariable⟩)
    · exact .inl hcycle
    · exact .inr (.inl hdeep)
    · exact .inr (.inr (.inl hvaries))
    · -- a callee in the same component closes a cycle, any other was known when the body was
      -- inspected
      by_cases hc : c.id ∈ component
      · exact .inl (CallGraph.onCycle_of_calls hcomponent hmem hcall.calls hc)
      · obtain ⟨shape, hget⟩ := houtside c.id (mem_outside_iff.2 ⟨⟨f.id, hmem, hcall.calls.2⟩, hc⟩)
        obtain ⟨shape', hget', hne⟩ := isVariableTime_iff.1 hvariable
        cases (hbetween.table c.id shape hget).symm.trans hget'
        exact .inr (.inr (.inr ⟨c, hcall, isVariableTime_iff.2 ⟨shape, hget, hne⟩⟩))

/-- What lies above a variable-time function on a chain of live calls is variable-time. -/
theorem isVariableTime_of_liveChain {k : Nat} {f last : Function} (hf : f ∈ facts.module.functions)
    (hchain : facts.module.LiveChain k f last) (hlast : s.isVariableTime last.id = true) :
    s.isVariableTime f.id = true := by
  induction hchain with
  | here => exact hlast
  | call hcall _ ih =>
    exact (isVariableTime_iff_offends_or_call hm hgs hts hs hf).2
      (.inr ⟨_, hcall, ih hcall.callee hlast⟩)

/-- Below a variable-time function, a chain of live calls leads to one with something against it. -/
theorem exists_liveChain_of_isVariableTime {f : Function} (hf : f ∈ facts.module.functions)
    (h : s.isVariableTime f.id = true) :
    ∃ k last, facts.module.LiveChain k f last ∧ Offends facts s last := by
  refine CallGraph.components_induction
    (P := fun name => ∀ f ∈ facts.module.functions, f.id = name → s.isVariableTime f.id = true →
      ∃ k last, facts.module.LiveChain k f last ∧ Offends facts s last)
    ?_ (Module.mem_functions_ofModule.2 ⟨f, hf, rfl⟩) f hf rfl h
  intro component hcomponent ih name hmem f hf hname hvariable
  cases hname
  rcases (isVariableTime_iff_offends_or_call hm hgs hts hs hf).1 hvariable
    with hoffends | ⟨c, hcall, hc⟩
  · exact ⟨0, f, .here f, hoffends⟩
  · by_cases hin : c.id ∈ component
    · exact ⟨0, f, .here f, .inl (CallGraph.onCycle_of_calls hcomponent hmem hcall.calls hin)⟩
    · obtain ⟨k, last, hchain, hoffends⟩ := ih f.id hmem c.id hcall.calls hin c hcall.callee rfl hc
      exact ⟨k + 1, last, .call hcall hchain, hoffends⟩

end Equation

/-- **The variable-time functions are those from which a chain of live calls leads to trouble**: to
a function on a cycle of calls, to one that is marked for chains of calls that are too long, or to
one that varies by itself. -/
theorem exists_isVariableTime_iff_liveChain (hm : facts.module.validate = .ok ())
    (hgs : HasGraphs facts.module facts.graphs) (hts : HasTaints facts.module facts.taints) :
    ∃ s, ofModule facts (CallGraph.ofModule facts.module) = .ok s ∧ ∀ f ∈ facts.module.functions,
      s.isVariableTime f.id = true ↔ ∃ k last, facts.module.LiveChain k f last ∧
        ((CallGraph.ofModule facts.module).OnCycle last.id ∨ s.HasDepthEvidence last.id ∨
          last.Varies facts.module facts.policy) := by
  have hwf := Module.wellFormed_of_validate hm
  obtain ⟨s, hs⟩ := exists_ofModule hwf hgs (CallGraph.ofModule facts.module)
  refine ⟨s, hs, fun f hf => ⟨fun hvariable => ?_, fun ⟨k, last, hchain, htrouble⟩ => ?_⟩⟩
  · obtain ⟨k, last, hchain, hcycle | hdeep | hvaries⟩ :=
      exists_liveChain_of_isVariableTime hwf hgs hts hs hf hvariable
    · exact ⟨k, last, hchain, .inl hcycle⟩
    · exact ⟨k, last, hchain, .inr (.inl (hdeep.hasDepthEvidence hs))⟩
    · exact ⟨k, last, hchain, .inr (.inr hvaries)⟩
  · refine isVariableTime_of_liveChain hwf hgs hts hs hf hchain ?_
    have hequation := isVariableTime_iff_offends_or_call hwf hgs hts hs (hchain.mem_functions hf)
    rcases htrouble with hcycle | ⟨shape, hshape, e, he, -⟩ | hvaries
    · exact hequation.2 (.inl (.inl hcycle))
    · exact isVariableTime_iff.2 ⟨shape, hshape, List.ne_nil_of_mem he⟩
    · exact hequation.2 (.inl (.inr (.inr hvaries)))

/-! ## A module at work

Facts for a module with all its flow graphs and taints, and a small module on which the statement
can be followed: a function that branches on a secret, two callers in a row, and a function whose
call is dead. -/

/-- What is known of a module once all flow graphs and taints were computed. -/
def Facts.ofModule (m : Module) (p : Policy) : Facts where
  module := m
  graphs :=
    .ofList (m.functions.filterMap fun f => (FlowGraph.ofFunction f).toOption.map fun g =>
      (f.id, g))
  taints := .ofList (m.functions.filterMap fun f =>
    ((FlowGraph.ofFunction f).toOption.bind fun g => (Taints.ofFunction m f g).toOption).map
      fun t => (f.id, t))
  policy := p

/-- A table made for all functions has the entry of each. -/
theorem get?_ofList_filterMap {α : Type} {m : Module} (hm : (m.functions.map Function.id).Nodup)
    {made : Function → Option α} {f : Function} (hf : f ∈ m.functions) {a : α}
    (ha : made f = some a) :
    (Table.ofList (m.functions.filterMap fun f => (made f).map fun a => (f.id, a))).get? f.id =
      some a := by
  have hmem : (f.id, a) ∈ m.functions.filterMap fun f => (made f).map fun a => (f.id, a) :=
    List.mem_filterMap.2 ⟨f, hf, by rw [ha]; rfl⟩
  obtain ⟨a', ha'⟩ := Table.exists_get?_ofList (List.mem_map_of_mem (f := Prod.fst) hmem)
  obtain ⟨f', hf', hmade⟩ := List.mem_filterMap.1 (Table.mem_of_get?_ofList ha')
  obtain ⟨a'', ha'', hpair⟩ := Option.map_eq_some_iff.1 hmade
  obtain ⟨hid, rfl⟩ := Prod.mk.inj hpair
  rw [List.inj_on_of_nodup_map hm hf' hf hid, ha] at ha''
  rw [ha', ha'']

/-- In a well-formed module every function has a flow graph and taints. -/
theorem hasGraphs_ofModule {m : Module} (hm : m.WellFormed) (p : Policy) :
    HasGraphs m (Facts.ofModule m p).graphs ∧ HasTaints m (Facts.ofModule m p).taints := by
  constructor
  · intro f hf
    obtain ⟨g, hg, -⟩ := hm.flow f hf
    exact ⟨g, get?_ofList_filterMap hm.functions hf (by rw [hg]; rfl), hg⟩
  · intro f hf
    obtain ⟨g, t, hg, ht, -⟩ := Taints.exists_least hm hf
    exact ⟨g, t, hg, ht,
      get?_ofList_filterMap hm.functions hf (by rw [hg]; exact congrArg Except.toOption ht)⟩

/-- A function that looks for a key. -/
def scan : Function :=
  ⟨"scan",
    [⟨"entry", [⟨.branch, ["key"], none, ["hit", "miss"], none, none⟩]⟩,
      ⟨"hit", [⟨.ret, [], none, [], none, none⟩]⟩, ⟨"miss", [⟨.ret, [], none, [], none, none⟩]⟩],
    [⟨"key", .secret⟩], none, []⟩

/-- A function that calls what it is told to. -/
def poll : Function :=
  ⟨"poll",
    [⟨"entry",
      [⟨.indirectCall, ["hook"], none, ["log", "scan"], none, none⟩,
        ⟨.ret, [], none, [], none, none⟩]⟩],
    [⟨"hook", .pub⟩], none, []⟩

/-- A function that does nothing but call another one. -/
def relayTo (name callee : String) : Function :=
  ⟨name, [⟨"entry", [⟨.call, [], none, [], none, some callee⟩, ⟨.ret, [], none, [], none, none⟩]⟩],
    [], none, []⟩

/-- A function that does nothing but call another one has a live call to it. -/
theorem liveCall_relayTo {m : Module} {name callee : String}
    (hf : relayTo name callee ∈ m.functions) {c : Function} (hc : c ∈ m.functions)
    (hid : c.id = callee) : m.LiveCall (relayTo name callee) c :=
  ⟨hf, hc, ⟨"entry", ⟨[("entry", [])]⟩, ["entry"]⟩, rfl, _, List.mem_cons_self, .refl _ _, _,
    List.mem_cons_self, .inl ⟨rfl, congrArg some hid.symm⟩⟩

def watch : Function := relayTo "watch" "poll"

/-- A function that would poll in a block that no way leads to. -/
def idle : Function :=
  ⟨"idle",
    [⟨"entry", [⟨.ret, [], none, [], none, none⟩]⟩,
      ⟨"dead", [⟨.call, [], none, [], none, some "poll"⟩, ⟨.ret, [], none, [], none, none⟩]⟩],
      [], none, []⟩

def watching : Module := ⟨"watching", [watch, idle, poll, scan], []⟩

/-- Eight calls below each other are followed, and nothing outside the module is known to be
variable-time. -/
def lenient : Policy := ⟨.int 8, [], false⟩

theorem validate_watching : watching.validate = .ok () := rfl

theorem liveCall_watch_poll : watching.LiveCall watch poll :=
  liveCall_relayTo (by simp [watching, watch]) (by simp [watching]) rfl

theorem liveCall_poll_scan : watching.LiveCall poll scan :=
  ⟨by simp [watching], by simp [watching], ⟨"entry", ⟨[("entry", [])]⟩,
    ["entry"]⟩, rfl, _, List.mem_cons_self, .refl _ _, _, List.mem_cons_self, .inr ⟨rfl, by decide⟩⟩

/-- The branch on a secret speaks against the function by itself. -/
theorem varies_scan : scan.Varies watching lenient :=
  ⟨⟨"entry", ⟨[("entry", ["hit", "miss"]), ("hit", []), ("miss", [])]⟩, ["hit", "miss"]⟩, _, rfl,
    rfl, .inl ⟨_, List.mem_cons_self, .refl _ _, _, List.mem_cons_self, .branch rfl rfl rfl⟩⟩

/-- Watching leads to the branch on the key, and nothing that is idle does. -/
theorem exists_isVariableTime_iff_liveChain_watching :
    watching.validate = .ok () ∧ HasGraphs watching (Facts.ofModule watching lenient).graphs ∧
      HasTaints watching (Facts.ofModule watching lenient).taints ∧
      ∃ s, ofModule (Facts.ofModule watching lenient) (CallGraph.ofModule watching) = .ok s ∧
        s.isVariableTime watch.id = true ∧
        ¬ ∃ k last, watching.LiveChain k idle last ∧
          ((CallGraph.ofModule watching).OnCycle last.id ∨ s.HasDepthEvidence last.id ∨
            last.Varies watching lenient) := by
  obtain ⟨hgs, hts⟩ := hasGraphs_ofModule (Module.wellFormed_of_validate validate_watching) lenient
  obtain ⟨s, hs, hiff⟩ := @exists_isVariableTime_iff_liveChain (Facts.ofModule watching lenient)
    validate_watching hgs hts
  change ofModule (Facts.ofModule watching lenient) (CallGraph.ofModule watching) = .ok s at hs
  refine ⟨validate_watching, hgs, hts, s, hs, ?_, ?_⟩
  · exact (hiff watch (by simp [Facts.ofModule, watching])).2
      ⟨2, scan, .call liveCall_watch_poll (.call liveCall_poll_scan (.here scan)),
        .inr (.inr varies_scan)⟩
  · intro hchain
    have hidle := (hiff idle (by simp [Facts.ofModule, watching])).2 hchain
    have hcomputed : (ofModule (Facts.ofModule watching lenient) (CallGraph.ofModule watching)).map
        (fun s => s.isVariableTime idle.id) = .ok false := by rfl
    rw [hs] at hcomputed
    exact Bool.noConfusion (hidle.symm.trans (Except.ok.inj hcomputed))

end Shapes

end ConstantTime
