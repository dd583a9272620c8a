/-
Every chain is a flow from a secret.

A chain is written down in some round, copied through values, memory cells and joins, and stays
where it is until the label rises. That it still says something true at the end follows from an
invariant of the whole state. All values on a chain have a chain themselves by now, and if the
taint is secret all of them are secret by now. Both only get more true, since values never fall in
rank. And they are why a chain never runs in a circle: a value gets a new chain only when its rank
rises, and a chain that it is on already gives it no higher rank.
-/
import Mathlib.Data.List.Chain
import ConstantTime.Proofs.Steps

set_option autoImplicit false

namespace ConstantTime

/-! ## Sources and flows

What a chain may claim, read off the function alone and without the iteration: where secrets come
from, and which value an instruction passes on to which. -/

namespace Function

/-- An instruction of the function. -/
def Has (f : Function) (i : Instr) : Prop := ∃ b ∈ f.blocks, i ∈ b.instrs

/-- The values that are secret by declaration. -/
inductive IsSource (m : Module) (f : Function) (v : String) : Prop
  | param {p : Param} (hp : p ∈ f.params) (hv : p.value = v) (hs : p.sensitivity = .secret)
  | load {i : Instr} {l : Location} (hi : f.Has i) (ho : i.output = some v) (hop : i.op = .load)
    (hl : i.location.bind (m.locationsFor f).get? = some l) (hs : l.secret = true)
  | call {i : Instr} {c : String} {callee : Function} (hi : f.Has i) (ho : i.output = some v)
    (hop : i.op = .call)
    (hc : i.callee = some c) (hm : m.function? c = some callee) (hs : callee.returns = some .secret)
  | indirectCall {i : Instr} {c : String} {callee : Function} (hi : f.Has i)
    (ho : i.output = some v)
    (hop : i.op = .indirectCall) (hc : c ∈ i.targets) (hm : m.function? c = some callee)
    (hs : callee.returns = some .secret)

/-- Some store puts the value `x` into the memory location with the given name. -/
def StoresIn (f : Function) (x name : String) : Prop :=
  ∃ i, f.Has i ∧ i.op = .store ∧ i.inputs.head? = some x ∧ i.location = some name

/-- The value `x` goes into `y`: as an input, or through memory that may be the same. -/
inductive Flows (m : Module) (f : Function) (x y : String) : Prop
  | input {i : Instr} (hi : f.Has i) (ho : i.output = some y) (hx : x ∈ i.inputs)
  | memory {i : Instr} {l : Location} {name : String} (hi : f.Has i) (ho : i.output = some y)
    (hop : i.op = .load)
    (hl : i.location.bind (m.locationsFor f).get? = some l) (hstore : f.StoresIn x name)
    (hsame : name = l.id ∨ ∃ other, (m.locationsFor f).get? name = some other ∧
      other.mayAlias l = true)

end Function

/-! ## Chains

`TracedTo` is the invariant for a taint at its place; it says of the last value of the chain what
the place asks for. `Feeds` is what an instruction has at hand before it appends its output, and
`Feeds.extended` turns the one into the other. -/

namespace Taint

variable {m : Module} {f : Function} {ranks ranks' : Ranks} {Q : String → Prop}

/-- The chain of a taint, if there is one, comes from a source along flows and ends in a value with
the property `Q`. All values on it rank as values with a chain, and as secrets if the taint is
one. -/
structure TracedTo (m : Module) (f : Function) (ranks : Ranks) (Q : String → Prop) (t : Taint) :
    Prop where
  nodup : t.chain.Nodup
  source : ∀ x, t.chain.head? = some x → f.IsSource m x
  flows : t.chain.IsChain (f.Flows m)
  last : ∀ x, t.chain.getLast? = some x → Q x
  traced : ∀ x ∈ t.chain, .traced ≤ ranks x
  secret : t.label = .secret → ∀ x ∈ t.chain, ranks x = .secret

/-- Without a chain there is nothing to say. -/
theorem tracedTo_of_chain_eq_nil {t : Taint} (h : t.chain = []) : t.TracedTo m f ranks Q := by
  constructor <;> simp [h]

/-- What is said of a taint is said of its chain, and of its label only if that is secret. -/
theorem TracedTo.of_chain_eq {t t' : Taint} (h : t.TracedTo m f ranks Q)
    (hchain : t'.chain = t.chain) (hlabel : t'.label = .secret → t.label = .secret) :
    t'.TracedTo m f ranks Q := by
  obtain ⟨hnodup, hsource, hflows, hlast, htraced, hsecret⟩ := h
  rw [← hchain] at hnodup hsource hflows hlast htraced hsecret
  exact ⟨hnodup, hsource, hflows, hlast, htraced, fun hs => hsecret (hlabel hs)⟩

/-- What is asked of the last value may be weakened. -/
theorem TracedTo.imp {t : Taint} {Q' : String → Prop} (h : t.TracedTo m f ranks Q)
    (hQ : ∀ x, Q x → Q' x) :
    t.TracedTo m f ranks Q' :=
  ⟨h.nodup, h.source, h.flows, fun x hx => hQ x (h.last x hx), h.traced, h.secret⟩

/-- When values rise in rank, chains stay right. -/
theorem TracedTo.mono {t : Taint} (h : t.TracedTo m f ranks Q) (hle : ranks ≤ ranks') :
    t.TracedTo m f ranks' Q := by
  refine ⟨h.nodup, h.source, h.flows, h.last, fun x hx => le_trans (h.traced x hx) (hle x),
    fun hs x hx => ?_⟩
  have hsecret := hle x
  rw [h.secret hs x hx, Rank.secret_le_iff] at hsecret
  exact hsecret

/-- The chain of a join is that of one of the joined taints, and of a secret one if the join is
secret. -/
theorem chain_joinAll_cases {ts : List Taint} (hts : ∀ t ∈ ts, t.Coherent) :
    (joinAll ts).chain = [] ∨
      ∃ t ∈ ts, (joinAll ts).chain = t.chain ∧
        ((joinAll ts).label = .secret → t.label = .secret) := by
  have hfirst : ∀ {us : List Taint} {chain : List String}, firstChain us = some chain →
      ∃ t ∈ us, chain = t.chain := by
    intro us chain h
    obtain ⟨t, ht, rfl⟩ := Option.map_eq_some_iff.1 h
    exact ⟨t, List.mem_of_find?_eq_some ht, rfl⟩
  change (firstChain (ts.filter fun t => decide (t.label = highest ts)) <|> firstChain ts).getD [] =
    [] ∨
    ∃ t ∈ ts, (firstChain (ts.filter fun t => decide (t.label = highest ts)) <|> firstChain ts).getD
      [] = t.chain ∧
      (highest ts = .secret → t.label = .secret)
  cases hbest : firstChain (ts.filter fun t => decide (t.label = highest ts)) with
  | some chain =>
    obtain ⟨t, ht, rfl⟩ := hfirst hbest
    rw [List.mem_filter, decide_eq_true_iff] at ht
    exact .inr ⟨t, ht.1, rfl, fun hs => ht.2.trans hs⟩
  | none =>
    cases hany : firstChain ts with
    | none => exact .inl rfl
    | some chain =>
      obtain ⟨t, ht, rfl⟩ := hfirst hany
      refine .inr ⟨t, ht, rfl, fun hs => ?_⟩
      -- a join that is secret has a secret taint in it, and that has a chain
      obtain ⟨u, hu, hle⟩ := (le_highest_iff (l := .secret) nofun).1 (Label.secret_le_iff.2 hs)
      have hlabel := Label.secret_le_iff.1 hle
      have hempty :=
        firstChain_eq_none_iff.1 hbest u
          (List.mem_filter.2 ⟨hu, decide_eq_true (hlabel.trans hs.symm)⟩)
      exact absurd hempty ((hts u hu).secret hlabel)

/-- A join has the chain of one of its taints, and if the join is secret then so is that one. -/
theorem tracedTo_joinAll {ts : List Taint} (hts : ∀ t ∈ ts, t.Coherent)
    (h : ∀ t ∈ ts, t.TracedTo m f ranks Q) :
    (joinAll ts).TracedTo m f ranks Q := by
  rcases chain_joinAll_cases hts with hnil | ⟨t, ht, hchain, hlabel⟩
  · exact tracedTo_of_chain_eq_nil hnil
  · exact (h t ht).of_chain_eq hchain hlabel

/-- What goes into the value `v`: a chain that starts there, or one that ends in a value that flows
into it. -/
def Feeds (m : Module) (f : Function) (ranks : Ranks) (v : String) (t : Taint) : Prop :=
  (t.chain = [v] ∧ f.IsSource m v) ∨ t.TracedTo m f ranks fun x => f.Flows m x v

theorem feeds_of_chain_eq_nil {t : Taint} {v : String} (h : t.chain = []) : t.Feeds m f ranks v :=
  .inr (tracedTo_of_chain_eq_nil h)

/-- A source has itself as its chain. -/
theorem feeds_source {v : String} (h : f.IsSource m v) :
    (source v).Feeds m f ranks v := .inl ⟨rfl, h⟩

/-- If all taints that are joined feed a value, their join does. -/
theorem feeds_joinAll {ts : List Taint} {v : String} (hts : ∀ t ∈ ts, t.Coherent)
    (h : ∀ t ∈ ts, t.Feeds m f ranks v) : (joinAll ts).Feeds m f ranks v := by
  rcases chain_joinAll_cases hts with hnil | ⟨t, ht, hchain, hlabel⟩
  · exact feeds_of_chain_eq_nil hnil
  · rcases h t ht with ⟨hown, hsource⟩ | htraced
    · exact .inl ⟨hchain.trans hown, hsource⟩
    · exact .inr (htraced.of_chain_eq hchain hlabel)

/-- Below secret no rank is higher than that of a value with a chain. -/
theorem rank_le_traced {t : Taint} (h : t.label ≠ .secret) : t.rank ≤ .traced := by
  obtain ⟨label, chain⟩ := t
  cases label with
  | pub => exact Rank.pub_le _
  | unknown => by_cases hc : chain = [] <;> simp only [rank, hc, if_true, if_false] <;> decide
  | secret => exact absurd rfl h

/-- A value is not on a chain that would raise its rank. -/
theorem TracedTo.not_mem_of_lt {t : Taint} (h : t.TracedTo m f ranks Q) {v : String}
    (hlt : ranks v < t.rank) :
    v ∉ t.chain := by
  intro hv
  by_cases hs : t.label = .secret
  · rw [h.secret hs v hv] at hlt
    exact absurd (Rank.le_secret t.rank) (not_le.2 hlt)
  · exact absurd (le_trans (rank_le_traced hs) (h.traced v hv)) (not_le.2 hlt)

/-- A chain that starts and ends at a source. -/
theorem tracedTo_of_chain_eq_singleton {t : Taint} {v : String} (hchain : t.chain = [v])
    (hsource : f.IsSource m v) (htraced : .traced ≤ ranks v)
    (hsecret : t.label = .secret → ranks v = .secret) :
    t.TracedTo m f ranks (v = ·) := by
  refine ⟨?_, fun x hx => ?_, ?_, fun x hx => ?_, fun x hx => ?_, fun hs x hx => ?_⟩ <;>
    rw [hchain] at *
  · exact List.nodup_singleton v
  · cases hx
    exact hsource
  · exact List.isChain_singleton v
  · cases hx
    rfl
  · rw [List.mem_singleton.1 hx]
    exact htraced
  · rw [List.mem_singleton.1 hx]
    exact hsecret hs

/-- A chain goes on to a value that its end flows into. -/
theorem TracedTo.concat {t : Taint} {v : String} (h : t.TracedTo m f ranks fun x => f.Flows m x v)
    (hnil : t.chain ≠ []) (hout : v ∉ t.chain) (htraced : .traced ≤ ranks v)
    (hsecret : t.label = .secret → ranks v = .secret) :
    TracedTo m f ranks (v = ·) ⟨t.label, t.chain ++ [v]⟩ := by
  refine ⟨?_, fun x hx => ?_, ?_, fun x hx => ?_, fun x hx => ?_, fun hs x hx => ?_⟩
  · refine List.nodup_append.2 ⟨h.nodup, List.nodup_singleton v, ?_⟩
    rintro x hx y hy rfl
    rw [List.mem_singleton.1 hy] at hx
    exact hout hx
  · rw [List.head?_append_of_ne_nil _ hnil] at hx
    exact h.source x hx
  · refine h.flows.append (.singleton v) fun x hx y hy => ?_
    cases hy
    exact h.last x hx
  · rw [List.getLast?_concat] at hx
    exact Option.some.inj hx
  · rcases List.mem_append.1 hx with hx | hx
    · exact h.traced x hx
    · rw [List.mem_singleton.1 hx]
      exact htraced
  · rcases List.mem_append.1 hx with hx | hx
    · exact h.secret hs x hx
    · rw [List.mem_singleton.1 hx]
      exact hsecret hs

/-- **A chain that raises the rank of a value leads to it.** -/
theorem Feeds.extended {t : Taint} {v : String} (h : t.Feeds m f ranks v) (ht : t.Coherent)
    (hlt : t.chain ≠ [] → ranks v < t.rank) (hle : ranks ≤ ranks') (hv : t.rank ≤ ranks' v) :
    (t.extended v).TracedTo m f ranks' (v = ·) := by
  by_cases hnil : t.chain = []
  · exact tracedTo_of_chain_eq_nil ((chain_extended_eq_nil_iff t v).2 hnil)
  -- in the new ranks the value has a chain, and is secret if the taint is
  have htraced : .traced ≤ ranks' v := le_trans ((traced_le_rank_iff ht).2 hnil) hv
  have hsecret : t.label = .secret → ranks' v = .secret := by
    intro hs
    rw [← Rank.secret_le_iff, ← rank_eq_secret_iff.2 hs]
    exact hv
  rcases h with ⟨hown, hsource⟩ | h
  · have hsame : t.extended v = t := by rw [Taint.extended, hown, if_pos (.inr rfl)]
    rw [hsame]
    exact tracedTo_of_chain_eq_singleton hown hsource htraced hsecret
  · have hout := h.not_mem_of_lt (hlt hnil)
    have hlast : t.chain.getLast? ≠ some v := fun hlast => hout (List.mem_of_getLast? hlast)
    have hlonger : t.extended v = ⟨t.label, t.chain ++ [v]⟩ := by
      rw [Taint.extended, if_neg (not_or.2 ⟨hnil, hlast⟩)]
    rw [hlonger]
    exact (h.mono hle).concat hnil hout htraced hsecret

end Taint

/-! ## Values and memory

At a value the chain ends with the value itself, in a cell with a value that is stored there. Both
kinds of tables keep the invariant under the operations of the iteration. -/

/-- The chain of each entry ends in a value that is right for its name. -/
def Table.Traced (m : Module) (f : Function) (ranks : Ranks) (ends : String → String → Prop)
    (table : Table Taint) :
    Prop :=
  ∀ name t, table.get? name = some t → t.Coherent ∧ t.TracedTo m f ranks (ends name)

namespace Table.Traced

variable {m : Module} {f : Function} {ranks ranks' : Ranks} {ends : String → String → Prop}
    {table : Table Taint}

theorem coherent (h : table.Traced m f ranks ends) :
    table.Coherent := fun name t ht => (h name t ht).1

/-- Ranks may rise without a chain becoming false. -/
theorem mono (h : table.Traced m f ranks ends) (hle : ranks ≤ ranks') :
    table.Traced m f ranks' ends :=
  fun name t ht => ⟨(h name t ht).1, (h name t ht).2.mono hle⟩

/-- A value that is looked up is traced, also if it is not there. -/
theorem ofValue (h : table.Traced m f ranks ends) (name : String) :
    (Taint.ofValue table name).TracedTo m f ranks (ends name) := by
  cases ht : table.get? name with
  | none =>
    rw [Taint.ofValue, ht]
    exact Taint.tracedTo_of_chain_eq_nil rfl
  | some t =>
    rw [Taint.ofValue, ht]
    exact (h name t ht).2

/-- A traced taint may be entered at its place. -/
theorem set (h : table.Traced m f ranks ends) {name : String} {t : Taint} (ht : t.Coherent)
    (htraced : t.TracedTo m f ranks (ends name)) : (table.set name t).Traced m f ranks ends := by
  intro other u hu
  rw [get?_set] at hu
  split at hu
  · next heq =>
    cases hu
    subst heq
    exact ⟨ht, htraced⟩
  · exact h other u hu

theorem erase (h : table.Traced m f ranks ends) (name : String) :
    (table.erase name).Traced m f ranks ends := by
  intro other u hu
  rw [get?_erase] at hu
  split at hu
  · cases hu
  · exact h other u hu

end Table.Traced

/-- The chain of each cell ends in a value that is stored in it. -/
def Memory.Traced (m : Module) (f : Function) (ranks : Ranks) (memory : Memory) : Prop :=
  memory.cells.Traced m f ranks fun name x => f.StoresIn x name

namespace Memory.Traced

variable {m : Module} {f : Function} {ranks : Ranks} {memory : Memory}

/-- Joining into a cell keeps it traced: either chain is one of a value stored there. -/
theorem joinCell (h : memory.Traced m f ranks) {cell : String × Taint} (hcell : cell.2.Coherent)
    (htraced : cell.2.TracedTo m f ranks (f.StoresIn · cell.1)) :
    (memory.joinCell cell).Traced m f ranks := by
  unfold Memory.joinCell
  split
  · next t ht =>
    obtain ⟨hcoherent, hold⟩ := h cell.1 t ht
    refine Table.Traced.set h (Taint.coherent_join hcoherent hcell) (Taint.tracedTo_joinAll ?_ ?_)
    · simp [hcoherent, hcell]
    · simp [hold, htraced]
  · exact Table.Traced.set h hcell htraced

/-- Where ways meet, chains come from one of them. -/
theorem join (h : memory.Traced m f ranks) {other : Memory} (hother : other.Traced m f ranks) :
    (memory.join other).Traced m f ranks := by
  have hcells : ∀ cell ∈ other.cells.entries,
      cell.2.Coherent ∧ cell.2.TracedTo m f ranks (f.StoresIn · cell.1) := fun cell hcell =>
    hother cell.1 cell.2 (Table.get?_eq_some_iff.2 hcell)
  rw [Memory.join]
  generalize other.cells.entries = cells at hcells
  induction cells generalizing memory with
  | nil => exact h
  | cons cell rest ih =>
    obtain ⟨hcell, htraced⟩ := hcells cell List.mem_cons_self
    exact ih (h.joinCell hcell htraced) fun c hc => hcells c (List.mem_cons_of_mem _ hc)

end Memory.Traced

/-! ## Instructions

Every taint that an instruction joins feeds its output: its inputs do, the cell it loads from does,
and what a callee or a secret location returns is a source. -/

namespace Instr

variable {m : Module} {f : Function} {i : Instr} {values : Table Taint}
    {memory : Memory} {v : String}

/-- An input of an instruction feeds its output. -/
theorem feeds_ofValue (hv : values.Traced m f values.ranks Eq) (hi : f.Has i)
    (ho : i.output = some v) {x : String} (hx : x ∈ i.inputs) :
    (Taint.ofValue values x).Feeds m f values.ranks v := by
  refine .inr ((hv.ofValue x).imp ?_)
  rintro y rfl
  exact .input hi ho hx

theorem feeds_map_ofValue (hv : values.Traced m f values.ranks Eq) (hi : f.Has i)
    (ho : i.output = some v) {xs : List String} (hxs : ∀ x ∈ xs, x ∈ i.inputs) :
    ∀ t ∈ xs.map (Taint.ofValue values), t.Feeds m f values.ranks v := by
  intro t ht
  obtain ⟨x, hx, rfl⟩ := List.mem_map.1 ht
  exact feeds_ofValue hv hi ho (hxs x hx)

theorem arguments_subset (i : Instr) : ∀ x ∈ i.arguments, x ∈ i.inputs := by
  intro x hx
  unfold arguments at hx
  split at hx
  · exact hx
  · exact List.mem_of_mem_drop hx
  · cases hx

/-- A secret is returned only by a callee that is declared so. -/
theorem exists_of_returned? {c : Option String} (h : m.returned? c = some .secret) :
    ∃ name callee, c = some name ∧ m.function? name = some callee ∧
      callee.returns = some .secret := by
  cases c with
  | none => cases h
  | some name =>
    rw [Module.returned?] at h
    split at h
    · cases h
    · obtain ⟨callee, hcallee, hs⟩ := Option.bind_eq_some_iff.1 h
      exact ⟨name, callee, rfl, hcallee, hs⟩

/-- What a call may return goes into its output. -/
theorem feeds_ofCall {c : Option String} {args : List Taint} (hcoherent : ∀ t ∈ args, t.Coherent)
    (hargs : ∀ t ∈ args, t.Feeds m f values.ranks v)
    (hsource : m.returned? c = some .secret → f.IsSource m v) :
    (Taint.ofCall m c (some v) args).Feeds m f values.ranks v := by
  rw [Taint.ofCall_some]
  cases hreturned : m.returned? c with
  | none => exact Taint.feeds_joinAll hcoherent hargs
  | some sensitivity =>
    cases sensitivity with
    | pub => exact Taint.feeds_of_chain_eq_nil rfl
    | secret => exact Taint.feeds_source (hsource hreturned)
    | unknown =>
      refine Taint.feeds_joinAll (List.forall_mem_cons.2 ⟨Taint.coherent_unknown [], hcoherent⟩) ?_
      exact List.forall_mem_cons.2 ⟨Taint.feeds_of_chain_eq_nil rfl, hargs⟩

/-- A load joins the location, if it is secret, the cell and the inputs. -/
theorem feeds_load (hv : values.Traced m f values.ranks Eq) (hm : memory.Traced m f values.ranks)
    (hi : f.Has i) (ho : i.output = some v) (hop : i.op = .load) {l : Location}
    (hl : i.location.bind (m.locationsFor f).get? = some l) :
    ∀ t ∈ (if l.secret then [Taint.source v] else []) ++ memory.read l.id ::
      i.inputs.map (Taint.ofValue values) ++ Taint.aliases (Scope.ofFunction m f) memory l,
      t.Feeds m f values.ranks v := by
  intro t ht
  simp only [List.append_assoc, List.mem_append, List.cons_append, List.mem_cons] at ht
  rcases ht with ht | rfl | ht | ht
  · split at ht
    · next hs =>
      rw [List.mem_singleton.1 ht]
      exact Taint.feeds_source (.load hi ho hop hl hs)
    · cases ht
  · exact .inr ((Table.Traced.ofValue hm l.id).imp fun x hx => .memory hi ho hop hl hx (.inl rfl))
  · exact feeds_map_ofValue hv hi ho (fun _ hx => hx) t ht
  · -- a cell that may be the same memory keeps its chain, but not its label
    obtain ⟨name, cell, other, hcell, hother, -, -, halias, rfl⟩ := Taint.mem_aliases_iff.1 ht
    have hseen : Taint.TracedTo m f values.ranks (f.StoresIn · name) ⟨.unknown, cell.chain⟩ :=
      (hm name cell hcell).2.of_chain_eq rfl fun hs => absurd hs nofun
    exact .inr (hseen.imp fun x hx => .memory hi ho hop hl hx (.inr ⟨other, hother, halias⟩))

/-- An indirect call hands on what its candidates may return, and the pointer that it goes
through. -/
theorem feeds_indirectCall (hv : values.Traced m f values.ranks Eq) (hi : f.Has i)
    (ho : i.output = some v) (hop : i.op = .indirectCall) (results : List Taint)
    (hresults : results = [Taint.joinAll (.unknown :: i.arguments.map (Taint.ofValue values))] ∨
      results = i.distinctTargets.map fun c =>
        Taint.ofCall m (some c) i.output (i.arguments.map (Taint.ofValue values))) :
    (Taint.joinAll
      (results ++ [(i.indirectTarget.map (Taint.ofValue values)).getD .pub])).Coherent ∧
    (Taint.joinAll
      (results ++ [(i.indirectTarget.map (Taint.ofValue values)).getD .pub])).Feeds m f
        values.ranks v := by
  have hcoherent := coherent_map_ofValue hv.coherent i.arguments
  have hargs := feeds_map_ofValue hv hi ho i.arguments_subset
  have hpointer : ((i.indirectTarget.map (Taint.ofValue values)).getD .pub).Feeds m f
      values.ranks v := by
    rw [indirectTarget, hop]
    cases hinputs : i.inputs with
    | nil => exact Taint.feeds_of_chain_eq_nil rfl
    | cons x rest => exact feeds_ofValue hv hi ho (by rw [hinputs]; exact List.mem_cons_self)
  have hparts : ∀ t ∈ results, t.Coherent ∧ t.Feeds m f values.ranks v := by
    intro t ht
    rcases hresults with rfl | rfl
    · have hunknown : ∀ t ∈ Taint.unknown :: i.arguments.map (Taint.ofValue values), t.Coherent :=
        List.forall_mem_cons.2 ⟨Taint.coherent_unknown [], hcoherent⟩
      rw [List.mem_singleton.1 ht]
      exact ⟨Taint.coherent_joinAll hunknown, Taint.feeds_joinAll hunknown
        (List.forall_mem_cons.2 ⟨Taint.feeds_of_chain_eq_nil rfl, hargs⟩)⟩
    · obtain ⟨c, hc, rfl⟩ := List.mem_map.1 ht
      rw [ho]
      refine ⟨Taint.coherent_ofCall hcoherent, feeds_ofCall hcoherent hargs fun hreturned => ?_⟩
      obtain ⟨name, callee, hname, hcallee, hs⟩ := exists_of_returned? hreturned
      cases hname
      exact .indirectCall hi ho hop (mem_distinct.1 hc) hcallee hs
  have hall : ∀ t ∈ results ++ [(i.indirectTarget.map (Taint.ofValue values)).getD .pub],
      t.Coherent ∧ t.Feeds m f values.ranks v := by
    intro t ht
    rcases List.mem_append.1 ht with ht | ht
    · exact hparts t ht
    · rw [List.mem_singleton.1 ht]
      exact ⟨coherent_pointer hv.coherent i, hpointer⟩
  exact ⟨Taint.coherent_joinAll fun t ht => (hall t ht).1,
    Taint.feeds_joinAll (fun t ht => (hall t ht).1) fun t ht => (hall t ht).2⟩

/-- What goes into the output of an instruction. -/
def Fed (m : Module) (f : Function) (values : Table Taint) (defines : Option (String × Taint)) :
    Prop :=
  ∀ v t, defines = some (v, t) → ∃ u : Taint, t = u.extended v ∧ u.Coherent ∧
    u.Feeds m f values.ranks v

/-- An instruction that defines its output passes on what feeds it. -/
theorem fed_define {u : Taint}
    (hu : ∀ v, i.output = some v → u.Coherent ∧ u.Feeds m f values.ranks v) :
    Fed m f values (Effect.define memory i u).defines := by
  intro v t hd
  obtain ⟨w, hw, heq⟩ := Option.map_eq_some_iff.1 hd
  cases heq
  exact ⟨u, rfl, hu v hw⟩

theorem fed_none : Fed m f values none := fun _ _ hd => absurd hd nofun

/-- **Chains go along flows.** -/
theorem fed_transfer (hv : values.Traced m f values.ranks Eq) (hm : memory.Traced m f values.ranks)
    (hi : f.Has i) :
    Fed m f values (i.transfer (Scope.ofFunction m f) values memory).defines := by
  have hinputs := coherent_map_ofValue hv.coherent i.inputs
  have hargs := coherent_map_ofValue hv.coherent i.arguments
  unfold transfer
  cases hop : i.op with
  | compute =>
    exact fed_define fun v ho =>
      ⟨Taint.coherent_joinAll hinputs,
        Taint.feeds_joinAll hinputs (feeds_map_ofValue hv hi ho fun _ hx => hx)⟩
  | phi =>
    exact fed_define fun v ho =>
      ⟨Taint.coherent_joinAll hinputs,
        Taint.feeds_joinAll hinputs (feeds_map_ofValue hv hi ho fun _ hx => hx)⟩
  | load =>
    cases hl : i.location.bind (Scope.ofFunction m f).locations.get? with
    | none => exact fed_none
    | some l =>
      refine fed_define fun v ho => ?_
      have hparts :=
        coherent_loaded hv.coherent hm.coherent l v i.inputs (s := Scope.ofFunction m f)
      rw [ho]
      exact ⟨Taint.coherent_joinAll hparts,
        Taint.feeds_joinAll hparts (feeds_load hv hm hi ho hop hl)⟩
  | call =>
    refine fed_define fun v ho => ?_
    rw [ho]
    refine ⟨Taint.coherent_ofCall hargs,
      feeds_ofCall hargs (feeds_map_ofValue hv hi ho i.arguments_subset) ?_⟩
    intro hreturned
    obtain ⟨name, callee, hc, hcallee, hs⟩ := exists_of_returned? hreturned
    exact .call hi ho hop hc hcallee hs
  | indirectCall =>
    refine fed_define fun v ho => feeds_indirectCall hv hi ho hop _ ?_
    cases hcandidates : i.distinctTargets with
    | nil => exact .inl rfl
    | cons c cs => exact .inr rfl
  | declassify =>
    intro v t hd
    obtain ⟨w, -, heq⟩ := Option.map_eq_some_iff.1 hd
    cases heq
    exact ⟨.pub, rfl, Taint.coherent_pub, Taint.feeds_of_chain_eq_nil rfl⟩
  | store => cases i.location <;> cases i.inputs <;> exact fed_none
  | scrub => cases i.location <;> exact fed_none
  | _ => exact fed_none

end Instr

namespace Taints

variable {m : Module} {f : Function} {g : FlowGraph}

/-! ## Steps

Defining a value raises its rank or changes nothing. The chains that are there stay true, since
they speak of ranks from below. -/

namespace Point

/-- Chains are right at a point within a block. -/
structure Traced (m : Module) (f : Function) (p : Point) : Prop where
  values : p.values.Traced m f p.values.ranks Eq
  memory : p.memory.Traced m f p.values.ranks

/-- Giving a value a taint keeps the chains of all values right. -/
theorem traced_define {p : Point} (hp : p.values.Traced m f p.values.ranks Eq)
    {v : String} {u : Taint} (hu : u.Coherent) (hfeeds : u.Feeds m f p.values.ranks v) :
    (p.define v (u.extended v)).values.Traced m f (p.define v (u.extended v)).values.ranks Eq := by
  have hranks := ranks_define hp.coherent (hu.extended v) (v := v)
  rw [Taint.rank_extended] at hranks
  have hle : p.values.ranks ≤ (p.define v (u.extended v)).values.ranks := by
    rw [hranks]
    exact le_update_self_iff.2 (le_max_left _ _)
  have hv : u.rank ≤ (p.define v (u.extended v)).values.ranks v := by
    rw [hranks, Function.update_self]
    exact le_max_right _ _
  rcases define_cases p v (u.extended v) with ⟨hnone, h⟩ | ⟨old, hold, himp, h⟩ | ⟨_, _, _, h⟩
  · -- a value without a taint is on no chain
    have htraced := hfeeds.extended hu (fun hchain => ?_) hle hv
    · rw [h] at hle htraced ⊢
      exact (hp.mono hle).set (hu.extended v) htraced
    · rw [Table.ranks_of_get?_eq_none hnone]
      exact lt_of_lt_of_le (by decide) ((Taint.traced_le_rank_iff hu).2 hchain)
  · -- a taint that is improved ranks lower than the new one
    obtain ⟨hcoherent, holdtraced⟩ := hp v old hold
    rw [Taint.improves_iff hcoherent (hu.extended v), Taint.rank_extended,
      ← Table.ranks_of_get?_eq_some hold] at himp
    have htraced := hfeeds.extended hu (fun _ => himp) hle hv
    rw [h] at hle htraced ⊢
    refine (hp.mono hle).set (Taint.coherent_join (hu.extended v) hcoherent)
      (Taint.tracedTo_joinAll ?_ ?_)
    · simp [hu.extended v, hcoherent]
    · simp [htraced, holdtraced.mono hle]
  · rw [h]
    exact hp

/-- Memory after an instruction. -/
theorem traced_transfer_memory {p : Point} (hp : p.Traced m f) {i : Instr} (hi : f.Has i) :
    (i.transfer (Scope.ofFunction m f) p.values p.memory).memory.Traced m f p.values.ranks := by
  unfold Instr.transfer
  cases hop : i.op with
  | store =>
    cases hl : i.location with
    | none => exact hp.memory
    | some l =>
      cases hinputs : i.inputs with
      | nil => exact hp.memory
      | cons x rest =>
        refine Table.Traced.set hp.memory (hp.values.coherent.ofValue x)
          ((hp.values.ofValue x).imp ?_)
        rintro y rfl
        exact ⟨i, hi, hop, by rw [hinputs, List.head?_cons], hl⟩
  | scrub =>
    cases i.location with
    | none => exact hp.memory
    | some l => exact Table.Traced.erase hp.memory l
  | load => cases i.location.bind (Scope.ofFunction m f).locations.get? <;> exact hp.memory
  | _ => exact hp.memory

/-- **A step keeps chains right.** -/
theorem Traced.step {p : Point} (hp : p.Traced m f) {i : Instr} (hi : f.Has i) :
    (p.step (Scope.ofFunction m f) i).Traced m f := by
  have hle := ranks_le_step hp.values.coherent hp.memory.coherent i (s := Scope.ofFunction m f)
  refine ⟨?_, ?_⟩
  · have hfed := Instr.fed_transfer hp.values hp.memory hi
    obtain ⟨q, hvalues, -, -, ⟨-, h⟩ | ⟨v, t, hd, h⟩⟩ := step_cases (Scope.ofFunction m f) p i
    · rw [h, hvalues]
      exact hp.values
    · obtain ⟨u, rfl, hu, hfeeds⟩ := hfed v t hd
      rw [← hvalues] at hfeeds
      rw [h]
      exact traced_define (hvalues ▸ hp.values) hu hfeeds
  · rw [memory_step]
    exact (traced_transfer_memory hp hi).mono hle

/-- The instructions of a block, one after the other. -/
theorem Traced.run {p : Point} (hp : p.Traced m f) {instrs : List Instr}
    (hinstrs : ∀ i ∈ instrs, f.Has i) :
    (instrs.foldl (Point.step (Scope.ofFunction m f)) p).Traced m f := by
  induction instrs generalizing p with
  | nil => exact hp
  | cons i rest ih =>
    exact ih (hp.step (hinstrs i List.mem_cons_self)) fun j hj =>
      hinstrs j (List.mem_cons_of_mem i hj)

end Point

/-! ## Visits

The memory at the entry of a block is joined from the ends of its predecessors, so it is traced if
they are. -/

/-- Chains are right in the values and at the ends of all blocks. -/
structure State.Traced (m : Module) (f : Function) (st : State) : Prop where
  values : st.values.Traced m f st.values.ranks Eq
  memoryOut : ∀ b mem, st.memoryOut.get? b = some mem → mem.Traced m f st.values.ranks

/-- The memory at the entry of a block is traced if the ends of all blocks are. -/
theorem traced_entryMemory {out : Table Memory} {ranks : Ranks}
    (hout : ∀ b mem, out.get? b = some mem → mem.Traced m f ranks) (g : FlowGraph) (b : String) :
    (entryMemory g out b).Traced m f ranks := by
  unfold entryMemory
  induction g.preds b using List.reverseRecOn with
  | nil => exact fun name t ht => absurd ht nofun
  | append_singleton ps p ih =>
    rw [List.foldl_append, List.foldl_cons, List.foldl_nil]
    cases hp : out.get? p with
    | none => exact ih
    | some mem => exact ih.join (hout p mem hp)

theorem State.Traced.reset {st : State} (h : st.Traced m f) :
    State.Traced m f { st with changed := false } :=
  ⟨h.values, h.memoryOut⟩

/-- **A visit keeps chains right**, also those at the ends of other blocks. -/
theorem State.Traced.visit {st : State} (h : st.Traced m f)
    (hf : (f.blocks.map Block.id).Nodup) {b : Block} (hb : b ∈ f.blocks) :
    (st.visit (Scope.ofFunction m f) f g b.id).Traced m f := by
  have hfirst : (st.first g b.id).Traced m f := ⟨h.values, traced_entryMemory h.memoryOut g b.id⟩
  have hlast := hfirst.run fun i hi => ⟨b, hb, hi⟩
  have hle :=
    Point.ranks_le_run hfirst.values.coherent hfirst.memory.coherent b.instrs
      (s := Scope.ofFunction m f)
  rw [← last_eq hf hb] at hlast hle
  -- the visit raises ranks, and what was traced before stays so
  have hends : ∀ c mem, st.memoryOut.get? c = some mem →
      mem.Traced m f (st.last (Scope.ofFunction m f) f g b.id).values.ranks := fun c mem hmem =>
    (h.memoryOut c mem hmem).mono hle
  refine ⟨by rw [values_visit]; exact hlast.values, fun c mem hmem => ?_⟩
  rw [values_visit]
  rcases visit_cases (Scope.ofFunction m f) f g st b.id
    with ⟨_, _, hout⟩ | ⟨old, hold, _, _, hout⟩ | ⟨_, _, _, _, hout⟩
  · rw [hout, Table.get?_set] at hmem
    split at hmem
    · cases hmem
      exact hlast.memory
    · exact hends c mem hmem
  · rw [hout, Table.get?_set] at hmem
    split at hmem
    · cases hmem
      exact (hends b.id old hold).join hlast.memory
    · exact hends c mem hmem
  · rw [hout] at hmem
    exact hends c mem hmem

/-- At the start only secret parameters have a chain. -/
theorem traced_start (hf : (f.params.map Param.value).Nodup) : (start f).Traced m f := by
  refine ⟨fun v t hv => ?_, nofun⟩
  obtain ⟨p, hp, rfl, rfl⟩ := (seeds_get?_eq_some_iff hf).1 hv
  refine ⟨coherent_seed p, ?_⟩
  have hrank : (start f).values.ranks p.value = .ofSensitivity p.sensitivity := ranks_seeds hf hp
  cases hs : p.sensitivity with
  | pub => exact Taint.tracedTo_of_chain_eq_nil (by rw [seed, hs])
  | unknown => exact Taint.tracedTo_of_chain_eq_nil (by rw [seed, hs])
  | secret =>
    rw [hs] at hrank
    have hseed : seed p = .source p.value := by rw [seed, hs]
    rw [hseed]
    refine Taint.tracedTo_of_chain_eq_singleton rfl (.param hp rfl hs) ?_ fun _ => hrank
    rw [hrank]
    exact Rank.le_secret _

/-- So the invariant holds at every state on the way. -/
theorem traced_stateAt (hf : f.WellFormed m.locations) (hg : FlowGraph.ofFunction f = .ok g)
    (n : Nat) {done : List String} (hdone : done <+: order g) : (stateAt m f g n done).Traced m f :=
  stateAt_induction hf hg (traced_start (List.nodup_append.1 hf.values).1) (fun _ hst => hst.reset)
    (fun _ hst _ hb => hst.visit hf.blocks hb) n hdone

/-! ## Functions of a validated module

The invariant at the last state of the rounds, and what it says of a chain once the ranks are
spelled out. -/

/-- **Every chain is a flow from a secret.** It has no repetitions, ends in its value, starts at a
source, and each of its values flows into the next; and all values on the chain of a secret are
secret. -/
theorem exists_forall_chain {m : Module} (hm : m.validate = .ok ()) {f : Function}
    (hf : f ∈ m.functions) :
    ∃ g t, FlowGraph.ofFunction f = .ok g ∧ ofFunction m f g = .ok t ∧
      ∀ v, (t.of (some v)).chain ≠ [] →
        (t.of (some v)).chain.Nodup ∧ (t.of (some v)).chain.getLast? = some v ∧
        (∃ x, (t.of (some v)).chain.head? = some x ∧ f.IsSource m x) ∧
        (t.of (some v)).chain.IsChain (f.Flows m) ∧
        ((t.of (some v)).label = .secret →
          ∀ x ∈ (t.of (some v)).chain, (t.of (some x)).label = .secret) := by
  have hwf := Module.wellFormed_of_validate hm
  obtain ⟨g, t, hg, ht, -, -⟩ := exists_least hwf hf
  refine ⟨g, t, hg, ht, fun v hchain => ?_⟩
  have htraced : t.values.Traced m f t.values.ranks Eq := by
    rw [(eq_stateAt_of_ofFunction ht).1]
    exact (traced_stateAt (hwf.function f hf) hg t.rounds List.nil_prefix).values
  have hv : (t.of (some v)).TracedTo m f t.values.ranks (v = ·) := htraced.ofValue v
  refine ⟨hv.nodup, ?_, ?_, hv.flows, fun hs x hx => ?_⟩
  · have hlast := List.getLast?_eq_some_getLast hchain
    rw [hlast, ← hv.last _ hlast]
  · exact ⟨_, List.head?_eq_some_head hchain, hv.source _ (List.head?_eq_some_head hchain)⟩
  · exact Taint.rank_eq_secret_iff.1 (hv.secret hs x hx)

/-- The flow graph of the loop that mixes a key. -/
def mixGraph : FlowGraph :=
  ⟨"entry", ⟨[("entry", ["head"]), ("head", ["body", "out"]), ("body", ["head"]), ("out", [])]⟩,
    ["out"]⟩

theorem ofFunction_mix : FlowGraph.ofFunction mix = .ok mixGraph := by rfl

/-- The key goes into the accumulator, and through the buffer into the value that is read at the
end. -/
theorem exists_forall_chain_mixing : mixing.validate = .ok () ∧ mix ∈ mixing.functions ∧
    ∃ g t, FlowGraph.ofFunction mix = .ok g ∧ ofFunction mixing mix g = .ok t ∧
      t.of (some "v") = ⟨.secret, ["key", "acc1", "v"]⟩ ∧ mix.IsSource mixing "key" ∧
      mix.Flows mixing "key" "acc1" ∧ mix.Flows mixing "acc1" "v" ∧
        (t.of (some "acc1")).label = .secret := by
  obtain ⟨g, t, hg, ht, hall⟩ := exists_forall_chain validate_mixing mix_mem_mixing
  have hv : t.of (some "v") = ⟨.secret, ["key", "acc1", "v"]⟩ := by
    cases hg.symm.trans ofFunction_mix
    have hvalue : (ofFunction mixing mix mixGraph).map (fun t => t.of (some "v")) =
        .ok ⟨.secret, ["key", "acc1", "v"]⟩ := by rfl
    rw [ht] at hvalue
    exact Except.ok.inj hvalue
  obtain ⟨-, -, ⟨x, hx, hsource⟩, hflows, hsecret⟩ :=
    hall "v" (by rw [hv]; exact List.cons_ne_nil _ _)
  rw [hv] at hx hflows hsecret
  cases hx
  rw [List.isChain_cons_cons, List.isChain_cons_cons] at hflows
  exact ⟨validate_mixing, mix_mem_mixing, g, t, hg, ht, hv, hsource, hflows.1, hflows.2.1,
    hsecret rfl "acc1" (by simp)⟩

end Taints

end ConstantTime
