/-
The components of a call graph.

What was shown of the search for components is stated here in terms of calls. Calls stay within the
functions of the graph, so the components hold exactly these. Main statement: they are a partition
of the functions into the groups that can call each other, and a function calls into earlier groups
or its own.
-/
import ConstantTime.CallGraph
import ConstantTime.Proofs.Components
import Mathlib.Data.List.Pairwise

set_option autoImplicit false

namespace ConstantTime

@[simp] theorem mem_sortNames {name : String} {names : List String} :
    name ∈ sortNames names ↔ name ∈ names :=
  mem_sortBy

namespace CallGraph

variable {calls : CallGraph}

/-! ## Calls as edges

The graph that is searched has the functions as nodes and the calls among them as edges. -/

/-- A function of the graph may call another one. -/
def Calls (calls : CallGraph) (f c : String) : Prop := f ∈ calls.functions ∧ c ∈ calls.callees f

/-- A chain of calls leads from one function to another, possibly without any. -/
def CallsThrough (calls : CallGraph) : String → String → Prop := Relation.ReflTransGen calls.Calls

/-- Calls lead to functions of the graph. -/
theorem callees_subset (calls : CallGraph) (f : String) :
    ∀ c ∈ calls.callees f, c ∈ calls.functions := by
  intro c hc
  rw [callees, mem_sortNames, mem_distinct, List.mem_filter, decide_eq_true_iff] at hc
  exact hc.2

theorem mem_nodes_graph (calls : CallGraph) {f : String} :
    f ∈ calls.graph.nodes ↔ f ∈ calls.functions := by
  rw [graph, Digraph.nodes, List.map_map]
  simp

/-- An edge is a call. -/
theorem edge_graph_iff (calls : CallGraph) {f c : String} :
    calls.graph.Edge f c ↔ calls.Calls f c := by
  rw [Digraph.Edge, Digraph.succs, graph, Assoc.find?_map, Calls]
  by_cases hf : f ∈ calls.functions
  · rw [if_pos (mem_sortNames.2 hf), Option.getD_some, and_iff_right hf]
  · rw [if_neg fun h => hf (mem_sortNames.1 h), Option.getD_none]
    simp [hf]

/-- And a way is a chain of calls. -/
theorem reaches_graph_iff (calls : CallGraph) {f c : String} :
    calls.graph.Reaches f c ↔ calls.CallsThrough f c := by
  have hedge : calls.graph.Edge = calls.Calls := by
    funext f c
    exact propext calls.edge_graph_iff
  rw [Digraph.Reaches, hedge, CallsThrough]

/-- No call leads out of the functions. -/
theorem Calls.mem_functions {f c : String} (h : calls.Calls f c) :
    c ∈ calls.functions := calls.callees_subset f c h.2

/-- Chains of calls stay within the functions. -/
theorem CallsThrough.mem_functions {f c : String} (h : calls.CallsThrough f c)
    (hf : f ∈ calls.functions) :
    c ∈ calls.functions := by
  induction h with
  | refl => exact hf
  | tail _ hcall _ => exact hcall.mem_functions

/-! ## Components

The search gives its components in the order in which they are found; the call graph sorts the
names within each. Membership is therefore what the search guarantees, and the order of components
is kept. -/

/-- A component is one of the graph with its names in order. -/
theorem exists_component_of_split {before : List (List String)} {component : List String}
    {after : List (List String)} (hsplit : calls.components = before ++ component :: after) :
    ∃ before' component' after', calls.graph.components = before' ++ component' :: after' ∧
      before = before'.map sortNames ∧ component = sortNames component' := by
  rw [components, List.map_eq_append_iff] at hsplit
  obtain ⟨before', rest, hcomponents, hbefore, hrest⟩ := hsplit
  obtain ⟨component', after', rfl, hcomponent, -⟩ := List.map_eq_cons_iff.1 hrest
  exact ⟨before', component', after', hcomponents, hbefore.symm, hcomponent.symm⟩

/-- Sorting the names keeps what a component has. -/
theorem flatten_components_perm (calls : CallGraph) :
    calls.components.flatten.Perm calls.graph.components.flatten := by
  rw [components]
  induction calls.graph.components with
  | nil => exact .refl _
  | cons c rest ih =>
    rw [List.map_cons, List.flatten_cons, List.flatten_cons]
    exact (sortBy_perm _ c).append ih

/-- No function is in two components, or twice in one. -/
theorem nodup_flatten_components (calls : CallGraph) : calls.components.flatten.Nodup :=
  calls.flatten_components_perm.nodup_iff.2 calls.graph.nodup_flatten_components

/-- The components hold the functions. -/
theorem mem_flatten_components_iff (calls : CallGraph) {f : String} :
    f ∈ calls.components.flatten ↔ f ∈ calls.functions := by
  rw [calls.flatten_components_perm.mem_iff, Digraph.mem_flatten_components_iff]
  constructor
  · rintro ⟨r, hr, hreach⟩
    exact (calls.reaches_graph_iff.1 hreach).mem_functions (calls.mem_nodes_graph.1 hr)
  · exact fun hf => ⟨f, calls.mem_nodes_graph.2 hf, .refl calls.graph f⟩

/-- Functions share a component exactly when each can call the other. -/
theorem exists_mem_components_iff (calls : CallGraph) {f g : String} :
    (∃ c ∈ calls.components, f ∈ c ∧ g ∈ c) ↔
      (f ∈ calls.functions ∧ g ∈ calls.functions) ∧ calls.CallsThrough f g ∧
        calls.CallsThrough g f := by
  have hshared : (∃ c ∈ calls.components, f ∈ c ∧ g ∈ c) ↔
      ∃ c ∈ calls.graph.components, f ∈ c ∧ g ∈ c := by
    rw [components]
    simp
  have hmem : ∀ {f}, f ∈ calls.graph.components.flatten ↔ f ∈ calls.functions := fun {f} => by
    rw [← calls.flatten_components_perm.mem_iff, mem_flatten_components_iff]
  have hlinked :=
    fun hf hg => calls.graph.ordered_components.exists_mem_iff calls.graph.nodup_flatten_components
    (x := f) (y := g) (hmem.2 hf) (hmem.2 hg)
  rw [hshared, ← reaches_graph_iff, ← reaches_graph_iff]
  constructor
  · rintro ⟨c, hc, hf, hg⟩
    have hfunctions : f ∈ calls.functions ∧ g ∈ calls.functions :=
      ⟨hmem.1 (List.mem_flatten.2 ⟨c, hc, hf⟩), hmem.1 (List.mem_flatten.2 ⟨c, hc, hg⟩)⟩
    exact ⟨hfunctions, (hlinked hfunctions.1 hfunctions.2).1 ⟨c, hc, hf, hg⟩⟩
  · rintro ⟨⟨hf, hg⟩, hreach⟩
    exact (hlinked hf hg).2 hreach

theorem mem_functions_of_mem_component {component : List String}
    (hcomponent : component ∈ calls.components) {f : String} (hf : f ∈ component) :
    f ∈ calls.functions :=
  calls.mem_flatten_components_iff.1 (List.mem_flatten.2 ⟨component, hcomponent, hf⟩)

section Split

variable {before : List (List String)} {component : List String} {after : List (List String)}
  (hsplit : calls.components = before ++ component :: after)

include hsplit

/-- Components have functions. -/
theorem component_ne_nil : component ≠ [] := by
  obtain ⟨before', component', after', hsplit', -, rfl⟩ := exists_component_of_split hsplit
  obtain ⟨f, hf⟩ := List.exists_mem_of_ne_nil _ (calls.graph.ordered_components _ _ _ hsplit').1
  exact List.ne_nil_of_mem (mem_sortNames.2 hf)

/-- A call out of a component leads to an earlier one. -/
theorem exists_earlier_of_callee {f c : String} (hf : f ∈ component) (hc : c ∈ calls.callees f)
    (hout : c ∉ component) : ∃ earlier ∈ before, c ∈ earlier := by
  have hcomponent : component ∈ calls.components := by
    rw [hsplit]
    exact List.mem_append_right before List.mem_cons_self
  have hcall : calls.Calls f c := ⟨mem_functions_of_mem_component hcomponent hf, hc⟩
  obtain ⟨before', component', after', hsplit', rfl, rfl⟩ := exists_component_of_split hsplit
  rw [mem_sortNames] at hf hout
  have hedge :=
    (calls.graph.ordered_components _ _ _ hsplit').2.2 f hf c (calls.edge_graph_iff.2 hcall)
  obtain ⟨earlier, hearlier, hmem⟩ := List.mem_flatten.1 (hedge.resolve_left hout)
  exact ⟨sortNames earlier, List.mem_map_of_mem hearlier, mem_sortNames.2 hmem⟩

end Split

/-- A function is in one component only. -/
theorem eq_of_mem_components {component other : List String}
    (hcomponent : component ∈ calls.components) (hother : other ∈ calls.components) {f : String}
    (hf : f ∈ component) (hf' : f ∈ other) : component = other := by
  have hdisjoint := (List.nodup_flatten.1 calls.nodup_flatten_components).2
  have : Std.Symm (List.Disjoint (α := String)) := ⟨fun _ _ h => List.disjoint_comm.1 h⟩
  by_contra hne
  exact hdisjoint.forall hcomponent hother hne hf hf'

/-- The other members of the component of a function are those that can call it and be called by
it. -/
theorem mem_component_iff {component : List String} (hcomponent : component ∈ calls.components)
    {f g : String} (hf : f ∈ component) :
    g ∈ component ↔ calls.CallsThrough f g ∧ calls.CallsThrough g f := by
  have hfunction := mem_functions_of_mem_component hcomponent hf
  constructor
  · intro hg
    exact (calls.exists_mem_components_iff.1 ⟨component, hcomponent, hf, hg⟩).2
  · intro hlinked
    obtain ⟨other, hother, hf', hg⟩ :=
      calls.exists_mem_components_iff.2 ⟨⟨hfunction, hlinked.1.mem_functions hfunction⟩, hlinked⟩
    rw [eq_of_mem_components hcomponent hother hf hf']
    exact hg

/-- **Induction over the components**: what holds of the members of a component as soon as it holds
of the functions that they call outside holds of all functions. -/
theorem components_induction {P : String → Prop}
    (hstep : ∀ component ∈ calls.components,
      (∀ f ∈ component, ∀ c, calls.Calls f c → c ∉ component → P c) → ∀ f ∈ component, P f)
    {f : String} (hf : f ∈ calls.functions) : P f := by
  have hall : ∀ before after, calls.components = before ++ after →
      ∀ component ∈ before, ∀ f ∈ component, P f := by
    intro before
    induction before using List.reverseRecOn with
    | nil => exact fun _ _ _ hc => absurd hc List.not_mem_nil
    | append_singleton before last ih =>
      intro after hsplit component hcomponent
      rw [List.append_assoc, List.singleton_append] at hsplit
      rcases List.mem_append.1 hcomponent with hbefore | hlast
      · exact ih (last :: after) hsplit component hbefore
      · rw [List.mem_singleton.1 hlast]
        refine hstep last (by rw [hsplit]; simp) fun g hg c hcall hout => ?_
        obtain ⟨earlier, hearlier, hc⟩ := exists_earlier_of_callee hsplit hg hcall.2 hout
        exact ih (last :: after) hsplit earlier hearlier c hc
  obtain ⟨component, hcomponent, hmem⟩ := List.mem_flatten.1 (calls.mem_flatten_components_iff.2 hf)
  exact hall calls.components [] (List.append_nil _).symm component hcomponent f hmem

/-- **The components of a call graph**: a partition of its functions, where functions are together
exactly when each can call the other, and where a call out of a component leads to an earlier
one. -/
theorem components_partition_callees_first (calls : CallGraph) :
    (∀ c ∈ calls.components, c ≠ []) ∧ calls.components.flatten.Nodup ∧
      (∀ f, f ∈ calls.components.flatten ↔ f ∈ calls.functions) ∧
      (∀ f g, (∃ c ∈ calls.components, f ∈ c ∧ g ∈ c) ↔
        (f ∈ calls.functions ∧ g ∈ calls.functions) ∧ calls.CallsThrough f g ∧
          calls.CallsThrough g f) ∧
      ∀ before c after, calls.components = before ++ c :: after →
        ∀ f ∈ c, ∀ g, calls.Calls f g → g ∉ c → ∃ earlier ∈ before, g ∈ earlier := by
  refine ⟨fun c hc => ?_, calls.nodup_flatten_components, fun f => calls.mem_flatten_components_iff,
    fun f g => calls.exists_mem_components_iff, fun before c after hsplit f hf g hcall hout => ?_⟩
  · obtain ⟨before, after, hsplit⟩ := List.append_of_mem hc
    exact component_ne_nil hsplit
  · exact exists_earlier_of_callee hsplit hf hcall.2 hout

/-- Three functions that call each other in a circle, one that starts them, and one that all use in
the end. -/
def relaying : CallGraph :=
  ⟨["boot", "poll", "read", "log", "send"],
    [⟨"boot", "poll", "entry", 0, false⟩, ⟨"boot", "log", "entry", 1, false⟩,
      ⟨"poll", "read", "entry", 0, true⟩, ⟨"read", "send", "entry", 0, false⟩,
      ⟨"read", "memcpy", "entry", 1, false⟩, ⟨"send", "poll", "entry", 0, false⟩,
      ⟨"send", "log", "entry", 1, false⟩]⟩

theorem components_relaying :
    relaying.components = [["log"], ["poll", "read", "send"], ["boot"]] := by rfl

/-- The circle is one component, and what it calls outside comes before it. -/
theorem components_partition_relaying :
    relaying.components = [["log"]] ++ ["poll", "read", "send"] :: [["boot"]] ∧
      (relaying.CallsThrough "poll" "send" ∧ relaying.CallsThrough "send" "poll") ∧
      relaying.Calls "send" "log" ∧ ∃ earlier ∈ [["log"]], "log" ∈ earlier := by
  obtain ⟨-, -, -, htogether, horder⟩ := components_partition_callees_first relaying
  have hcall : relaying.Calls "send" "log" := ⟨by decide, by decide⟩
  refine ⟨components_relaying, ((htogether "poll" "send").1 ?_).2, hcall, ?_⟩
  · rw [components_relaying]
    exact ⟨["poll", "read", "send"], by decide, by decide, by decide⟩
  · exact horder [["log"]] ["poll", "read", "send"] [["boot"]] components_relaying "send"
      (by decide) "log" hcall
      (by decide)

end CallGraph

end ConstantTime
