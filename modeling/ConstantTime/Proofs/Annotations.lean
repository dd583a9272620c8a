/-
Stronger annotations.

`Module.Raised` says that one module declares at least what another one does, and is the same
otherwise: parameters and returned values may be more sensitive, and more memory may be secret.
Code does not look at annotations, so flow graphs, regions and calls stay what they were. The
equations behind the taint iteration ask for more: what bounds them after annotations were raised
also bounds them before. Their least solutions are ordered accordingly, and so no value loses rank.
-/
import ConstantTime.Proofs.Convergence
import ConstantTime.CallGraph
import ConstantTime.Region

set_option autoImplicit false

namespace ConstantTime

/-! ## Raised annotations

One relation for each thing that can be annotated. Names, kinds and code must be equal; a function
that declared nothing about its result may declare anything but public. -/

/-- The same parameter, declared at least as sensitive. -/
structure Param.Raised (p p' : Param) : Prop where
  value : p'.value = p.value
  sensitivity : Label.ofSensitivity p.sensitivity ≤ Label.ofSensitivity p'.sensitivity

/-- The same memory, declared secret if it was before. -/
structure Location.Raised (l l' : Location) : Prop where
  id : l'.id = l.id
  storage : l'.storage = l.storage
  base : l'.base = l.base
  secret : l.secret = true → l'.secret = true

/-- What is declared of a returned value is raised. Declaring nothing is below unknown, but not
below public: the value is then as sensitive as the arguments. -/
inductive Function.ReturnsRaised : Option Sensitivity → Option Sensitivity → Prop
  | same (declared : Option Sensitivity) : ReturnsRaised declared declared
  | unknown {declared : Option Sensitivity} (h : declared ≠ some .secret) :
    ReturnsRaised declared (some .unknown)
  | secret (declared : Option Sensitivity) : ReturnsRaised declared (some .secret)

/-- The same function with raised annotations. -/
structure Function.Raised (f f' : Function) : Prop where
  id : f'.id = f.id
  blocks : f'.blocks = f.blocks
  params : List.Forall₂ Param.Raised f.params f'.params
  returns : ReturnsRaised f.returns f'.returns
  locations : List.Forall₂ Location.Raised f.locations f'.locations

/-- The same module with raised annotations. -/
structure Module.Raised (m m' : Module) : Prop where
  functions : List.Forall₂ Function.Raised m.functions m'.functions
  locations : List.Forall₂ Location.Raised m.locations m'.locations

/-! ## The same code

A raised function is the function with other parameters, result and locations. Whatever is computed
from the blocks is therefore equal, not just related. -/

/-- Related lists agree on what the relation preserves. -/
theorem map_eq_map_of_forall₂ {α β : Type} {R : α → α → Prop} {key : α → β} {xs ys : List α}
    (h : List.Forall₂ R xs ys) (hkey : ∀ x y, R x y → key y = key x) : ys.map key = xs.map key := by
  induction h with
  | nil => rfl
  | cons hxy _ ih => rw [List.map_cons, List.map_cons, hkey _ _ hxy, ih]

/-- A search by something that the relation preserves finds related items, or nothing in both. -/
theorem rel_find? {α : Type} {R : α → α → Prop} {p : α → Bool} {xs ys : List α}
    (h : List.Forall₂ R xs ys) (hp : ∀ x y, R x y → p y = p x) :
    Option.Rel R (xs.find? p) (ys.find? p) := by
  induction h with
  | nil => exact .none
  | cons hxy _ ih =>
    rw [List.find?_cons, List.find?_cons, hp _ _ hxy]
    split
    · exact .some hxy
    · exact ih

theorem exists_of_rel_some {α : Type} {R : α → α → Prop} {x : α} {o : Option α}
    (h : Option.Rel R (some x) o) :
    ∃ y, o = some y ∧ R x y := by
  cases h with
  | some hxy => exact ⟨_, rfl, hxy⟩

/-- Memory is told apart as before. -/
theorem Location.Raised.mayAlias_eq {a a' b b' : Location} (ha : a.Raised a') (hb : b.Raised b') :
    a'.mayAlias b' = a.mayAlias b := by
  rw [mayAlias, mayAlias, ha.id, hb.id, ha.base, hb.base]

namespace Function

/-- The function with the code of `f` and other annotations. -/
def annotated (f : Function) (params : List Param) (returns : Option Sensitivity)
    (locations : List Location) :
    Function := { f with params := params, returns := returns, locations := locations }

/-- Growing regions does not look at annotations. -/
theorem growRegions_annotated (f : Function) (params : List Param) (returns : Option Sensitivity)
    (locations : List Location) (g : FlowGraph) (reachable starts : List String)
    (done : List Region) (entries : List String) :
    (f.annotated params returns locations).growRegions g reachable starts done entries =
      f.growRegions g reachable starts done entries := by
  induction entries generalizing done with
  | nil => rfl
  | cons entry rest ih =>
    have hgrow : (f.annotated params returns locations).growRegion g reachable starts entry =
        f.growRegion g reachable starts entry := rfl
    rw [growRegions, growRegions, hgrow]
    simp only [ih]
    rfl

/-- Regions do not depend on annotations. -/
theorem regions_annotated (f : Function) (params : List Param) (returns : Option Sensitivity)
    (locations : List Location) (g : FlowGraph) :
    RegionMap.ofFunction (f.annotated params returns locations) g = RegionMap.ofFunction f g := by
  have hregions : (f.annotated params returns locations).regions g = f.regions g := by
    unfold regions
    simp only [growRegions_annotated]
    rfl
  rw [RegionMap.ofFunction, RegionMap.ofFunction, hregions]
  rfl

variable {f f' : Function} (h : f.Raised f')

include h

/-- A raised function differs in its annotations only. -/
theorem Raised.eq_annotated : f' = f.annotated f'.params f'.returns f'.locations := by
  obtain ⟨id', blocks', params', returns', locations'⟩ := f'
  cases h.id
  cases h.blocks
  rfl

/-- So it has the same flow graph. -/
theorem Raised.flow_eq : FlowGraph.ofFunction f' = FlowGraph.ofFunction f := by
  rw [h.eq_annotated]
  rfl

/-- And the same regions. -/
theorem Raised.regions_eq (g : FlowGraph) :
    RegionMap.ofFunction f' g = RegionMap.ofFunction f g := by
  rw [h.eq_annotated]
  exact regions_annotated f _ _ _ g

theorem Raised.placed_eq : f'.placed = f.placed := by
  rw [placed, placed, h.blocks]

theorem Raised.callSites_eq : f'.callSites = f.callSites := by
  rw [callSites, callSites, h.placed_eq, h.id]

/-- Values are defined where they were. -/
theorem Raised.sites_eq : f'.sites = f.sites := by
  have hvalues : f'.params.map Param.value = f.params.map Param.value :=
    map_eq_map_of_forall₂ h.params fun _ _ hp => hp.value
  have hparams : ∀ ps : List Param,
      ps.foldl (fun t p => t.set p.value .param) (Table.empty : Table Site) =
      (ps.map Param.value).foldl (fun t v => t.set v .param) Table.empty := by
    intro ps
    rw [List.foldl_map]
  rw [sites, sites, h.placed_eq, hparams, hparams, hvalues]

end Function

namespace Module

variable {m m' : Module} (h : m.Raised m')

include h

/-- Functions keep their names. -/
theorem Raised.ids_eq : m'.functions.map Function.id = m.functions.map Function.id :=
  map_eq_map_of_forall₂ h.functions fun _ _ hf => hf.id

/-- Functions call what they did. -/
theorem Raised.calls_eq : CallGraph.ofModule m' = CallGraph.ofModule m := by
  rw [CallGraph.ofModule, CallGraph.ofModule, h.ids_eq, List.flatMap_def, List.flatMap_def,
    map_eq_map_of_forall₂ h.functions fun _ _ hf => hf.callSites_eq]

/-- The function that is found by a name is the same, with raised annotations. -/
theorem Raised.function? (name : String) :
    Option.Rel Function.Raised (m.function? name) (m'.function? name) :=
  rel_find? (List.forall₂_reverse_iff.2 h.functions) fun f f' hf => by rw [hf.id]

/-- What functions declare of returned values is raised. -/
theorem Raised.returned? (callee : Option String) :
    Function.ReturnsRaised (m.returned? callee) (m'.returned? callee) := by
  unfold Module.returned?
  cases callee with
  | none => exact .same none
  | some c =>
    dsimp only
    split
    · exact .same none
    · have hfound := h.function? c
      generalize m.function? c = found, m'.function? c = found' at hfound
      cases hfound with
      | none => exact .same none
      | some hf => exact hf.returns

/-- A function names the same memory, with raised annotations. -/
theorem Raised.locationsFor {f f' : Function} (hf : f.Raised f') (name : String) :
    Option.Rel Location.Raised ((m.locationsFor f).get? name) ((m'.locationsFor f').get? name) := by
  have hall : List.Forall₂ Location.Raised (m.locations ++ f.locations)
      (m'.locations ++ f'.locations) :=
    List.rel_append h.locations hf.locations
  have hfold : ∀ t t' : Table Location,
      (∀ name, Option.Rel Location.Raised (t.get? name) (t'.get? name)) →
      ∀ name, Option.Rel Location.Raised
        (((m.locations ++ f.locations).foldl (fun t l => t.set l.id l) t).get? name)
        (((m'.locations ++ f'.locations).foldl (fun t l => t.set l.id l) t').get? name) := by
    generalize m.locations ++ f.locations = ls, m'.locations ++ f'.locations = ls' at hall
    induction hall with
    | nil => exact fun _ _ ht => ht
    | cons hl _ ih =>
      intro t t' ht
      refine ih _ _ fun name => ?_
      rw [Table.get?_set, Table.get?_set, hl.id]
      split
      · exact .some hl
      · exact ht name
  exact hfold Table.empty Table.empty (fun _ => .none) name

end Module

/-! ## Ranks

Each equation asks for at least as much after the annotations were raised, for the same ranks of
its operands. -/

/-- Instructions in one scope refer to what they refer to in the other, with raised annotations. -/
structure Scope.Raised (s s' : Scope) : Prop where
  returned : ∀ callee, Function.ReturnsRaised (s.module.returned? callee)
    (s'.module.returned? callee)
  locations : ∀ name, Option.Rel Location.Raised (s.locations.get? name) (s'.locations.get? name)

namespace Rank

/-- A more sensitive annotation ranks higher. -/
theorem ofSensitivity_mono {a b : Sensitivity} (h : Label.ofSensitivity a ≤ Label.ofSensitivity b) :
    ofSensitivity a ≤ ofSensitivity b := by
  revert h
  cases a <;> cases b <;> decide

variable {s s' : Scope} (h : s.Raised s')

include h

/-- A call returns at least as much. -/
theorem ofCall_raised (callee : Option String) (args : List Rank) :
    ofCall s.module callee args ≤ ofCall s'.module callee args := by
  unfold ofCall
  have hreturned := h.returned callee
  generalize s.module.returned? callee = declared, s'.module.returned? callee =
    declared' at hreturned
  cases hreturned with
  | same => exact le_refl _
  | secret => exact le_secret _
  | unknown hne =>
    match declared, hne with
    | none, _ => exact le_max_right _ _
    | some .pub, _ => exact pub_le _
    | some .unknown, _ => exact le_refl _

/-- Locations that may be the same memory still may, so a load sees at least as much. -/
theorem aliases_raised {l l' : Location} (hl : l.Raised l') (memory : Ranks) :
    joinAll (aliases s memory l) ≤ joinAll (aliases s' memory l') := by
  rw [joinAll_le_iff]
  intro r hr
  obtain ⟨⟨name, other⟩, hother, hsome⟩ := List.mem_filterMap.1 hr
  split at hsome
  · next hcond =>
    cases hsome
    have hfound := h.locations name
    rw [Table.get?_eq_some_iff.2 hother] at hfound
    obtain ⟨other', hother', hraised⟩ := exists_of_rel_some hfound
    refine le_joinAll
      (List.mem_filterMap.2 ⟨(name, other'), Table.get?_eq_some_iff.1 hother', if_pos ?_⟩)
    rw [hl.id, hraised.mayAlias_eq hl]
    exact hcond
  · cases hsome

end Rank

namespace Instr

variable {s s' : Scope}

/-- An output ranks at least as high under raised annotations. -/
theorem outputRank_raised (h : s.Raised s') {values memory : Ranks} {i : Instr} {r : Rank}
    (hr : i.outputRank s values memory = some r) :
    ∃ r', i.outputRank s' values memory = some r' ∧ r ≤ r' := by
  unfold outputRank at hr ⊢
  cases hop : i.op with
  | load =>
    simp only [hop, Option.map_eq_some_iff] at hr ⊢
    obtain ⟨l, hl, rfl⟩ := hr
    obtain ⟨name, hname, hget⟩ := Option.bind_eq_some_iff.1 hl
    have hfound := h.locations name
    rw [hget] at hfound
    obtain ⟨l', hget', hraised⟩ := exists_of_rel_some hfound
    refine ⟨_, ⟨l', by rw [hname, Option.bind_some, hget'], rfl⟩, ?_⟩
    simp only [Rank.joinAll_append, Rank.joinAll_cons, hraised.id]
    have hsecret : Rank.joinAll (if l.secret then [Rank.secret] else []) ≤
        Rank.joinAll (if l'.secret then [Rank.secret] else []) := by
      by_cases hl : l.secret = true
      · rw [if_pos hl, if_pos (hraised.secret hl)]
      · rw [if_neg hl]
        exact Rank.pub_le _
    exact max_le_max (max_le_max hsecret (le_refl _)) (Rank.aliases_raised h hraised memory)
  | call =>
    simp only [hop, Option.some.injEq] at hr ⊢
    exact ⟨_, rfl, hr ▸ Rank.ofCall_raised h _ _⟩
  | indirectCall =>
    simp only [hop, Option.some.injEq] at hr ⊢
    refine ⟨_, rfl, hr ▸ ?_⟩
    rw [Rank.joinAll_append, Rank.joinAll_append]
    refine max_le_max ?_ (le_refl _)
    cases i.distinctTargets with
    | nil => exact le_refl _
    | cons c cs => exact Rank.joinAll_map_mono fun callee _ => Rank.ofCall_raised h _ _
  | _ =>
    simp only [hop] at hr ⊢
    exact ⟨r, hr, le_refl r⟩

/-- An output that has a rank has one afterwards, and no lower one. -/
theorem definedRank_raised (h : s.Raised s') {values memory : Ranks} {i : Instr}
    {v : String} {r : Rank} (hr : i.definedRank s values memory = some (v, r)) :
    ∃ r', i.definedRank s' values memory = some (v, r') ∧ r ≤ r' := by
  obtain ⟨w, ho, hr⟩ := Option.bind_eq_some_iff.1 hr
  obtain ⟨x, hx, heq⟩ := Option.map_eq_some_iff.1 hr
  cases heq
  obtain ⟨r', hr', hle⟩ := outputRank_raised h hx
  refine ⟨r', ?_, hle⟩
  rw [definedRank, ho, Option.bind_some, hr', Option.map_some]

end Instr

section Least

variable {m m' : Module} (hm : m.Raised m') {f f' : Function} (hf : f.Raised f')

include hm hf

/-- A function sees a raised scope. -/
theorem Module.Raised.scope : (Scope.ofFunction m f).Raised (Scope.ofFunction m' f') :=
  ⟨hm.returned?, hm.locationsFor hf⟩

/-- What bounds the equations under raised annotations also bounds them before. -/
theorem Assignment.Bounds.of_raised {g : FlowGraph} {a : Assignment} (ha : a.Bounds m' f' g) :
    a.Bounds m f g := by
  have hleaving : ∀ b, a.leaving f' b = a.leaving f b := by
    intro b
    rw [leaving, leaving, Function.block?, Function.block?, hf.blocks]
  -- parameters and outputs rank lower before, and memory meets at blocks in the same way
  refine ⟨fun p hp => ?_, fun b hb before i hi v r hr => ?_, fun b hb => ?_⟩
  · obtain ⟨p', hp', hraised⟩ := exists_of_mem_of_forall₂ hf.params hp
    rw [← hraised.value]
    exact le_trans (Rank.ofSensitivity_mono hraised.sensitivity) (ha.params p' hp')
  · obtain ⟨r', hr', hle⟩ := Instr.definedRank_raised (hm.scope hf) hr
    exact le_trans hle (ha.outputs b (hf.blocks ▸ hb) before i hi v r' hr')
  · have hmeeting : a.meeting f' g b.id = a.meeting f g b.id := by
      funext l
      simp only [Assignment.meeting, hleaving]
    rw [← hmeeting]
    exact ha.entries b (hf.blocks ▸ hb)

/-- **Raised annotations lower no rank.** -/
theorem Taints.Least.rank_le_of_raised {g : FlowGraph} {t t' : Taints} (ht : t.Least m f g)
    (ht' : t'.Least m' f' g) (v : Option String) : (t.of v).rank ≤ (t'.of v).rank := by
  cases v with
  | none => exact le_refl _
  | some v => exact (ht.least t'.assignment (ht'.bounds.of_raised hm hf)).1 v

end Least

end ConstantTime
