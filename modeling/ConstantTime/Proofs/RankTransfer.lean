/-
How ranks move through an instruction.

`Instr.definedRank` and `Instr.memoryRanks` say what an instruction does to ranks alone, with
memory as a function from all locations that is public where nothing was stored. The two main
results are that this is what `Instr.transfer` does to the ranks of coherent taints, and that it is
monotone: more secret operands never give a less secret output. A load is where coherence is
needed. It reads a cell that may be the same memory as unknown, with the chain of that cell, and so
would forget a secret that had none.
-/
import ConstantTime.Proofs.MemoryRanks

set_option autoImplicit false

namespace ConstantTime

/-! ## What an instruction does to ranks

The equations of the analysis, one case for each opcode. They are written for ranks in place of
taints, so no chain occurs in them. -/

/-- What a called function declares of its returned value, if the module has it and it declares
anything. -/
def Module.returned? (m : Module) (callee : Option String) : Option Sensitivity :=
  match callee with
  | some c => if c = "" then none else (m.function? c).bind Function.returns
  | none => none

namespace Rank

/-- The rank of what a call may return. -/
def ofCall (m : Module) (callee : Option String) (args : List Rank) : Rank :=
  match m.returned? callee with
  | none => joinAll args
  | some .secret => .secret
  | some .unknown => joinAll (.unknown :: args)
  | some .pub => .pub

/-- The ranks that a load sees of other locations: of each one that may be the same memory, but at
most unknown. -/
def aliases (s : Scope) (memory : Ranks) (l : Location) : List Rank :=
  s.locations.entries.filterMap fun e =>
    if e.1 ≠ l.id ∧ e.2.mayAlias l then some (min (memory e.1) .traced) else none

end Rank

namespace Instr

/-- The rank that an instruction gives to its output; none if instructions of its kind give none. -/
def outputRank (s : Scope) (values memory : Ranks) (i : Instr) : Option Rank :=
  match i.op with
  | .compute | .phi => some (.joinAll (i.inputs.map values))
  | .load =>
    (i.location.bind s.locations.get?).map fun l =>
      .joinAll ((if l.secret then [.secret] else []) ++ memory l.id :: i.inputs.map values ++
        Rank.aliases s memory l)
  | .call => some (.ofCall s.module i.callee (i.arguments.map values))
  | .indirectCall =>
    let args := i.arguments.map values
    let results :=
      match i.distinctTargets with
      | [] => [Rank.joinAll (.unknown :: args)]
      | candidates => candidates.map fun c => Rank.ofCall s.module (some c) args
    some (.joinAll (results ++ [(i.indirectTarget.map values).getD .pub]))
  | .declassify => some .pub
  | .store | .scrub | .regionStart | .regionEnd | .branch | .jump | .fallthrough | .indirectBranch
  | .ret => none

/-- The value that an instruction defines, with its rank. -/
def definedRank (s : Scope) (values memory : Ranks) (i : Instr) : Option (String × Rank) :=
  i.output.bind fun v => (i.outputRank s values memory).map fun r => (v, r)

/-- Only the output of the instruction gets a rank. -/
theorem output_of_definedRank {s : Scope} {values memory : Ranks} {i : Instr}
    {v : String} {r : Rank} (h : i.definedRank s values memory = some (v, r)) :
    i.output = some v := by
  obtain ⟨w, ho, hr⟩ := Option.bind_eq_some_iff.1 h
  obtain ⟨x, -, heq⟩ := Option.map_eq_some_iff.1 hr
  cases heq
  exact ho

/-- The ranks of memory after an instruction. -/
def memoryRanks (values memory : Ranks) (i : Instr) : Ranks :=
  match i.op, i.location, i.inputs with
  | .store, some l, v :: _ => Function.update memory l (values v)
  | .scrub, some l, _ => Function.update memory l .pub
  | _, _, _ => memory

/-- An instruction writes at most the cell it names. -/
theorem memoryRanks_cases (values memory : Ranks) (i : Instr) :
    i.memoryRanks values memory = memory ∨
      ∃ l r, i.location = some l ∧ i.memoryRanks values memory = Function.update memory l r := by
  unfold memoryRanks
  split
  · next l v _ _ hl _ => exact .inr ⟨l, values v, hl, rfl⟩
  · next l _ hl => exact .inr ⟨l, .pub, hl, rfl⟩
  · exact .inl rfl

end Instr

/-! ## Taints move as their ranks do

A load joins cells that may be the same memory. They come in as unknown, so only whether they have
a chain counts. -/

namespace Taint

/-- What a load sees of a tainted cell that may be the same memory. -/
theorem rank_unknown_chain {t : Taint} (ht : t.Coherent) (htainted : t.isTainted) :
    rank ⟨.unknown, t.chain⟩ = min t.rank .traced := by
  obtain ⟨label, chain⟩ := t
  cases label with
  | pub => cases htainted
  | unknown => by_cases hc : chain = [] <;> simp only [rank, hc, if_true, if_false] <;> decide
  | secret =>
    have hc : chain ≠ [] := ht.secret rfl
    simp only [rank, hc, if_false]
    decide

/-- What a load may read besides its own cell. -/
theorem mem_aliases_iff {s : Scope} {memory : Memory} {l : Location} {t : Taint} :
    t ∈ aliases s memory l ↔ ∃ name cell other, memory.cells.get? name = some cell ∧
      s.locations.get? name = some other ∧ name ≠ l.id ∧ cell.isTainted ∧ other.mayAlias l ∧
      t = ⟨.unknown, cell.chain⟩ := by
  rw [aliases, List.mem_filterMap]
  constructor
  · rintro ⟨⟨name, cell⟩, hcell, hsome⟩
    split at hsome
    · cases hsome
    · next hcond =>
      split at hsome
      · next other hother =>
        split at hsome
        · next halias =>
          cases hsome
          obtain ⟨hname, htainted⟩ := not_or.1 hcond
          exact ⟨name, cell, other, Table.get?_eq_some_iff.2 hcell, hother, hname,
            not_not.1 htainted, halias, rfl⟩
        · cases hsome
      · cases hsome
  · rintro ⟨name, cell, other, hcell, hother, hname, htainted, halias, rfl⟩
    refine ⟨(name, cell), Table.get?_eq_some_iff.1 hcell, ?_⟩
    simp [hname, htainted, hother, halias]

/-- What is read from other cells is unknown, hence coherent. -/
theorem coherent_aliases (s : Scope) (memory : Memory) (l : Location) :
    ∀ t ∈ aliases s memory l, t.Coherent := by
  intro t ht
  obtain ⟨-, cell, -, -, -, -, -, -, rfl⟩ := mem_aliases_iff.1 ht
  exact coherent_unknown cell.chain

/-- Both ways of looking for other memory find the same: through the written cells, or through all
locations. -/
theorem joinAll_rank_aliases {s : Scope} {memory : Memory} (hm : memory.Coherent) (l : Location) :
    Rank.joinAll ((aliases s memory l).map rank) =
      Rank.joinAll (Rank.aliases s memory.ranks l) := by
  refine Rank.eq_of_le_iff fun r hr => ?_
  rw [Rank.le_joinAll_iff hr, Rank.le_joinAll_iff hr]
  constructor
  · rintro ⟨x, hx, hrx⟩
    obtain ⟨t, ht, rfl⟩ := List.mem_map.1 hx
    obtain ⟨name, cell, other, hcell, hother, hname, htainted, halias, rfl⟩ := mem_aliases_iff.1 ht
    refine ⟨min (memory.ranks name) .traced, List.mem_filterMap.2 ⟨(name, other), ?_, ?_⟩, ?_⟩
    · exact Table.get?_eq_some_iff.1 hother
    · rw [if_pos ⟨hname, halias⟩]
    · rwa [Memory.ranks, Table.ranks_of_get?_eq_some hcell,
        ← rank_unknown_chain (hm name cell hcell) htainted]
  · rintro ⟨x, hx, hrx⟩
    obtain ⟨⟨name, other⟩, hother, hsome⟩ := List.mem_filterMap.1 hx
    split at hsome
    · next hcond =>
      cases hsome
      cases hcell : memory.cells.get? name with
      | none =>
        -- a cell that was never written is public, and nothing above public is below that
        rw [Memory.ranks, Table.ranks_of_get?_eq_none hcell, min_eq_left (Rank.pub_le _)] at hrx
        exact absurd (le_antisymm hrx (Rank.pub_le r)) hr
      | some cell =>
        rw [Memory.ranks, Table.ranks_of_get?_eq_some hcell] at hrx
        have htainted : cell.isTainted := by
          refine decide_eq_true (Label.unknown_le_iff.2 fun hpub => ?_)
          rw [rank_eq_pub_iff.2 hpub, min_eq_left (Rank.pub_le _)] at hrx
          exact absurd (le_antisymm hrx (Rank.pub_le r)) hr
        refine ⟨_, List.mem_map_of_mem (mem_aliases_iff.2
          ⟨name, cell, other, hcell, ?_, hcond.1, htainted, hcond.2, rfl⟩), ?_⟩
        · exact Table.get?_eq_some_iff.2 hother
        · rwa [rank_unknown_chain (hm name cell hcell) htainted]
    · cases hsome

/-! ### Calls

A callee that declares a public or a secret result overrides the arguments; otherwise the output
joins them. -/

/-- The taint of a returned value, by what the function called declares. -/
def ofReturned (v : String) (args : List Taint) : Option Sensitivity → Taint
  | none => joinAll args
  | some .secret => source v
  | some .unknown => joinAll (unknown :: args)
  | some .pub => pub

/-- A call as a function of what its callee declares. -/
theorem ofCall_some (m : Module) (callee : Option String) (v : String) (args : List Taint) :
    ofCall m callee (some v) args = ofReturned v args (m.returned? callee) := by
  unfold ofCall Module.returned?
  cases callee with
  | none => rfl
  | some c =>
    by_cases hc : c = ""
    · simp only [if_pos hc]
      rfl
    · simp only [if_neg hc]
      cases (m.function? c).bind Function.returns with
      | none => rfl
      | some sensitivity => cases sensitivity <;> rfl

/-- The result of a call is coherent if its arguments are. -/
theorem coherent_ofCall {m : Module} {callee : Option String} {v : String} {args : List Taint}
    (hargs : ∀ t ∈ args, t.Coherent) : (ofCall m callee (some v) args).Coherent := by
  rw [ofCall_some]
  unfold ofReturned
  split
  · exact coherent_joinAll hargs
  · exact coherent_source v
  · exact coherent_joinAll (List.forall_mem_cons.2 ⟨coherent_unknown [], hargs⟩)
  · exact coherent_pub

/-- And its rank is what the equations say. -/
theorem rank_ofCall {m : Module} {callee : Option String} {v : String} {args : List Taint}
    (hargs : ∀ t ∈ args, t.Coherent) :
    (ofCall m callee (some v) args).rank = Rank.ofCall m callee (args.map rank) := by
  rw [ofCall_some, Rank.ofCall]
  cases m.returned? callee with
  | none => exact rank_joinAll hargs
  | some sensitivity =>
    cases sensitivity with
    | pub => rfl
    | secret => rfl
    | unknown => exact rank_joinAll (List.forall_mem_cons.2 ⟨coherent_unknown [], hargs⟩)

end Taint

/-! ### Instructions

`Gives` says that an instruction defines a coherent taint of the rank that the equations ask for,
or nothing if they ask for nothing. Each opcode is shown on its own. -/

namespace Instr

/-- The memory after an instruction, as ranks. -/
theorem ranks_transfer (s : Scope) (values : Table Taint) (memory : Memory) (i : Instr) :
    (i.transfer s values memory).memory.ranks = i.memoryRanks values.ranks memory.ranks := by
  unfold transfer memoryRanks
  cases i.op with
  | store =>
    cases i.location with
    | none => rfl
    | some l =>
      cases i.inputs with
      | nil => rfl
      | cons v rest => exact Memory.ranks_store memory l _
  | scrub =>
    cases i.location with
    | none => rfl
    | some l => exact Memory.ranks_clear memory l
  | load => cases i.location.bind s.locations.get? <;> rfl
  | _ => rfl

/-- Stores and scrubs keep the memory coherent. -/
theorem coherent_transfer_memory {s : Scope} {values : Table Taint} {memory : Memory}
    (hv : values.Coherent) (hm : memory.Coherent) (i : Instr) :
    (i.transfer s values memory).memory.Coherent := by
  unfold transfer
  cases i.op with
  | store =>
    cases i.location with
    | none => exact hm
    | some l =>
      cases i.inputs with
      | nil => exact hm
      | cons v rest => exact hm.store (hv.ofValue v)
  | scrub =>
    cases i.location with
    | none => exact hm
    | some l => exact hm.clear l
  | load => cases i.location.bind s.locations.get? <;> exact hm
  | _ => exact hm

theorem coherent_map_ofValue {values : Table Taint} (hv : values.Coherent) (vs : List String) :
    ∀ t ∈ vs.map (Taint.ofValue values), t.Coherent := by
  intro t ht
  obtain ⟨v, -, rfl⟩ := List.mem_map.1 ht
  exact hv.ofValue v

/-- The ranks of some inputs are read off the table of values. -/
theorem map_rank_ofValue (values : Table Taint) (vs : List String) :
    (vs.map (Taint.ofValue values)).map Taint.rank = vs.map values.ranks := by
  rw [List.map_map]
  rfl

/-- What an instruction defines has a coherent taint, of the rank given. -/
def Gives (defines : Option (String × Taint)) (given : Option (String × Rank)) : Prop :=
  (defines.map fun d => (d.1, d.2.rank)) = given ∧ ∀ d, defines = some d → d.2.Coherent

/-- Instructions that define nothing when they have no output need a coherent taint only when they
have one. -/
theorem gives_of_define {s : Scope} {values : Table Taint} {memory : Memory} {i : Instr} {t : Taint}
    (hdef : i.transfer s values memory = .define memory i t)
    (hrank : ∀ v, i.output = some v → i.outputRank s values.ranks memory.ranks = some t.rank)
    (ht : ∀ v, i.output = some v → t.Coherent) :
    Gives (i.transfer s values memory).defines (i.definedRank s values.ranks memory.ranks) := by
  rw [hdef, Effect.define, definedRank]
  cases ho : i.output with
  | none => exact ⟨rfl, fun d hd => by cases hd⟩
  | some v =>
    refine ⟨?_, fun d hd => ?_⟩
    · simp only [Option.map_some, Option.bind_some, hrank v ho, Taint.rank_extended]
    · cases hd
      exact (ht v ho).extended v

/-- An opcode without a rule for its output defines nothing. -/
theorem gives_nothing {s : Scope} {values : Table Taint} {memory : Memory} {i : Instr}
    (hdef : (i.transfer s values memory).defines = none)
    (hrank : i.outputRank s values.ranks memory.ranks = none) :
    Gives (i.transfer s values memory).defines (i.definedRank s values.ranks memory.ranks) := by
  rw [hdef, definedRank, hrank]
  exact ⟨by cases i.output <;> rfl, fun d hd => by cases hd⟩

/-- Computations and phis join their inputs. -/
theorem gives_compute {s : Scope} {values : Table Taint} {memory : Memory}
    (hv : values.Coherent) {i : Instr}
    (hdef : i.transfer s values memory =
      .define memory i (.joinAll (i.inputs.map (Taint.ofValue values)))) (hrank :
      i.outputRank s values.ranks memory.ranks = some (.joinAll (i.inputs.map values.ranks))) :
    Gives (i.transfer s values memory).defines (i.definedRank s values.ranks memory.ranks) := by
  have hin := coherent_map_ofValue hv i.inputs
  refine gives_of_define hdef (fun _ _ => ?_) fun _ _ => Taint.coherent_joinAll hin
  rw [hrank, Taint.rank_joinAll hin, map_rank_ofValue]

/-- All that a load may read. -/
theorem coherent_loaded {s : Scope} {values : Table Taint} {memory : Memory} (hv : values.Coherent)
    (hm : memory.Coherent) (l : Location) (v : String) (inputs : List String) :
    ∀ t ∈ (if l.secret then [Taint.source v] else []) ++ memory.read l.id ::
      inputs.map (Taint.ofValue values) ++ Taint.aliases s memory l, t.Coherent := by
  intro t ht
  simp only [List.append_assoc, List.mem_append, List.cons_append, List.mem_cons] at ht
  rcases ht with ht | rfl | ht | ht
  · split at ht
    · rw [List.mem_singleton.1 ht]
      exact Taint.coherent_source v
    · cases ht
  · exact hm.read l.id
  · exact coherent_map_ofValue hv inputs t ht
  · exact Taint.coherent_aliases s memory l t ht

/-- A load joins its location, the cell, what may be the same memory, and its inputs. -/
theorem gives_load {s : Scope} {values : Table Taint} {memory : Memory} (hv : values.Coherent)
    (hm : memory.Coherent) {i : Instr} (hop : i.op = .load) :
    Gives (i.transfer s values memory).defines (i.definedRank s values.ranks memory.ranks) := by
  cases hl : i.location.bind s.locations.get? with
  | none =>
    -- no such location: both sides define nothing
    exact gives_nothing (by simp only [transfer, hop, hl])
      (by simp only [outputRank, hop, hl, Option.map_none])
  | some l =>
    have hdef : ∀ v, i.output = some v → i.transfer s values memory = .define memory i
        (.joinAll ((if l.secret then [.source v] else []) ++ memory.read l.id ::
          i.inputs.map (Taint.ofValue values) ++ Taint.aliases s memory l)) := by
      intro v ho
      simp only [transfer, hop, hl, ho]
    cases ho : i.output with
    | none =>
      simp only [transfer, hop, hl, ho, definedRank, Effect.define]
      exact ⟨rfl, fun d hd => by cases hd⟩
    | some v =>
      have hparts := coherent_loaded hv hm l v i.inputs (s := s)
      refine gives_of_define (hdef v ho) (fun _ _ => ?_) fun _ _ => Taint.coherent_joinAll hparts
      rw [Taint.rank_joinAll hparts]
      simp only [outputRank, hop, hl, Option.map_some, List.map_append, List.map_cons,
        Rank.joinAll_append, Rank.joinAll_cons, map_rank_ofValue, Taint.joinAll_rank_aliases hm,
        Memory.ranks_eq]
      -- what is left is the part that a location declared secret adds
      congr 4
      cases l.secret <;> rfl

/-- A call gives what its callee returns for its arguments. -/
theorem gives_call {s : Scope} {values : Table Taint} {memory : Memory}
    (hv : values.Coherent) {i : Instr} (hop : i.op = .call) :
    Gives (i.transfer s values memory).defines (i.definedRank s values.ranks memory.ranks) := by
  have hargs := coherent_map_ofValue hv i.arguments
  have hdef : i.transfer s values memory = .define memory i
      (.ofCall s.module i.callee i.output (i.arguments.map (Taint.ofValue values))) := by
    simp only [transfer, hop]
  refine gives_of_define hdef (fun v ho => ?_) fun v ho => ?_
  · simp only [outputRank, hop, ho, Taint.rank_ofCall hargs, map_rank_ofValue]
  · rw [ho]
    exact Taint.coherent_ofCall hargs

/-- The value that an indirect call goes through. -/
theorem coherent_pointer {values : Table Taint} (hv : values.Coherent) (i : Instr) :
    ((i.indirectTarget.map (Taint.ofValue values)).getD .pub).Coherent := by
  cases i.indirectTarget with
  | none => exact Taint.coherent_pub
  | some p => exact hv.ofValue p

/-- An indirect call joins what its candidates may return with the pointer. -/
theorem gives_joined {s : Scope} {values : Table Taint} {memory : Memory}
    (hv : values.Coherent) {i : Instr} (results : List Taint)
    (hdef : i.transfer s values memory = .define memory i
      (.joinAll (results ++ [(i.indirectTarget.map (Taint.ofValue values)).getD .pub])))
    (hresults : ∀ v, i.output = some v → (∀ t ∈ results, t.Coherent) ∧
      i.outputRank s values.ranks memory.ranks =
        some (.joinAll
          (results.map Taint.rank ++ [(i.indirectTarget.map values.ranks).getD .pub]))) :
    Gives (i.transfer s values memory).defines (i.definedRank s values.ranks memory.ranks) := by
  have hrank : ((i.indirectTarget.map (Taint.ofValue values)).getD .pub).rank =
      (i.indirectTarget.map values.ranks).getD .pub := by
    cases i.indirectTarget <;> rfl
  have hparts : ∀ v, i.output = some v →
      ∀ t ∈ results ++ [(i.indirectTarget.map (Taint.ofValue values)).getD .pub], t.Coherent := by
    intro v ho t ht
    rcases List.mem_append.1 ht with ht | ht
    · exact (hresults v ho).1 t ht
    · rw [List.mem_singleton.1 ht]
      exact coherent_pointer hv i
  refine gives_of_define hdef (fun v ho => ?_) fun v ho => Taint.coherent_joinAll (hparts v ho)
  rw [(hresults v ho).2, Taint.rank_joinAll (hparts v ho), List.map_append,
    List.map_singleton, hrank]

/-- An indirect call joins what the possible callees give, and the pointer. -/
theorem gives_indirectCall {s : Scope} {values : Table Taint} {memory : Memory}
    (hv : values.Coherent) {i : Instr} (hop : i.op = .indirectCall) :
    Gives (i.transfer s values memory).defines (i.definedRank s values.ranks memory.ranks) := by
  have hargs := coherent_map_ofValue hv i.arguments
  cases hcandidates : i.distinctTargets with
  | nil =>
    -- nothing is known about what is called, so the result is unknown at least
    have hunknown : ∀ t ∈ Taint.unknown :: i.arguments.map (Taint.ofValue values), t.Coherent :=
      List.forall_mem_cons.2 ⟨Taint.coherent_unknown [], hargs⟩
    refine gives_joined hv [.joinAll (.unknown :: i.arguments.map (Taint.ofValue values))]
      (by simp only [transfer, hop, hcandidates]) fun v _ => ⟨?_, ?_⟩
    · intro t ht
      rw [List.mem_singleton.1 ht]
      exact Taint.coherent_joinAll hunknown
    · simp only [outputRank, hop, hcandidates, Taint.rank_joinAll hunknown, List.map_cons,
        List.map_nil, map_rank_ofValue, Taint.rank_bare_unknown]
  | cons c cs =>
    -- each candidate may be called, with the same arguments
    refine gives_joined hv
      ((c :: cs).map fun c => .ofCall s.module (some c) i.output
        (i.arguments.map (Taint.ofValue values)))
      (by simp only [transfer, hop, hcandidates]) fun v ho => ⟨?_, ?_⟩
    · intro t ht
      obtain ⟨callee, -, rfl⟩ := List.mem_map.1 ht
      rw [ho]
      exact Taint.coherent_ofCall hargs
    · simp only [outputRank, hop, hcandidates, List.map_map, ho]
      congr 3
      refine List.map_congr_left fun callee _ => ?_
      simp only [Function.comp_apply, Taint.rank_ofCall hargs, map_rank_ofValue]

/-- **Taints move as their ranks do.** -/
theorem gives_transfer {s : Scope} {values : Table Taint} {memory : Memory} (hv : values.Coherent)
    (hm : memory.Coherent) (i : Instr) :
    Gives (i.transfer s values memory).defines (i.definedRank s values.ranks memory.ranks) := by
  cases hop : i.op with
  | compute =>
    exact gives_compute hv (by simp only [transfer, hop]) (by simp only [outputRank, hop])
  | phi => exact gives_compute hv (by simp only [transfer, hop]) (by simp only [outputRank, hop])
  | load => exact gives_load hv hm hop
  | call => exact gives_call hv hop
  | indirectCall => exact gives_indirectCall hv hop
  | declassify =>
    simp only [transfer, hop, definedRank, outputRank]
    cases i.output with
    | none => exact ⟨rfl, fun d hd => by cases hd⟩
    | some v => exact ⟨rfl, fun d hd => by cases hd; exact Taint.coherent_pub⟩
  | store =>
    refine gives_nothing ?_ (by simp only [outputRank, hop])
    simp only [transfer, hop]
    cases i.location <;> cases i.inputs <;> rfl
  | scrub =>
    refine gives_nothing ?_ (by simp only [outputRank, hop])
    simp only [transfer, hop]
    cases i.location <;> rfl
  | _ => exact gives_nothing (by simp only [transfer, hop]) (by simp only [outputRank, hop])

end Instr

/-! ## Monotonicity

More secret values and cells make the output and the memory more secret. So the equations have a
least solution. -/

namespace Rank

/-- Joins are monotone in each item. -/
theorem joinAll_map_mono {α : Type} {f g : α → Rank} {xs : List α} (h : ∀ x ∈ xs, f x ≤ g x) :
    joinAll (xs.map f) ≤ joinAll (xs.map g) := by
  rw [joinAll_le_iff]
  intro r hr
  obtain ⟨x, hx, rfl⟩ := List.mem_map.1 hr
  exact le_trans (h x hx) (le_joinAll (List.mem_map_of_mem hx))

/-- A call passes on higher arguments or does not look at them. -/
theorem ofCall_mono {m : Module} {callee : Option String} {args : List String}
    {values values' : Ranks} (h : values ≤ values') :
    ofCall m callee (args.map values) ≤ ofCall m callee (args.map values') := by
  have hargs : joinAll (args.map values) ≤ joinAll (args.map values') :=
    joinAll_map_mono fun v _ => h v
  unfold ofCall
  split
  · exact hargs
  · exact le_refl _
  · exact max_le_max (le_refl _) hargs
  · exact le_refl _

/-- A cell that may be the same memory counts for more the higher it ranks. -/
theorem aliases_mono {s : Scope} {memory memory' : Ranks} (h : memory ≤ memory') (l : Location) :
    joinAll (aliases s memory l) ≤ joinAll (aliases s memory' l) := by
  rw [joinAll_le_iff]
  intro r hr
  obtain ⟨⟨name, other⟩, hother, hsome⟩ := List.mem_filterMap.1 hr
  split at hsome
  · next hcond =>
    cases hsome
    refine le_trans (min_le_min_right _ (h name))
      (le_joinAll (List.mem_filterMap.2 ⟨(name, other), hother, ?_⟩))
    rw [if_pos hcond]
  · cases hsome

end Rank

namespace Instr

variable {s : Scope} {values values' memory memory' : Ranks}

/-- **More secret operands never give a less secret output.** -/
theorem outputRank_mono (hv : values ≤ values') (hm : memory ≤ memory') {i : Instr} {r : Rank}
    (h : i.outputRank s values memory = some r) :
    ∃ r', i.outputRank s values' memory' = some r' ∧ r ≤ r' := by
  have hin : ∀ vs : List String, Rank.joinAll (vs.map values) ≤ Rank.joinAll (vs.map values') :=
    fun vs => Rank.joinAll_map_mono fun v _ => hv v
  unfold outputRank at h ⊢
  cases hop : i.op with
  | compute =>
    simp only [hop, Option.some.injEq] at h ⊢
    exact ⟨_, rfl, h ▸ hin i.inputs⟩
  | phi =>
    simp only [hop, Option.some.injEq] at h ⊢
    exact ⟨_, rfl, h ▸ hin i.inputs⟩
  | load =>
    simp only [hop] at h ⊢
    obtain ⟨l, hl, rfl⟩ := Option.map_eq_some_iff.1 h
    rw [hl]
    refine ⟨_, rfl, ?_⟩
    simp only [Rank.joinAll_append, Rank.joinAll_cons]
    exact max_le_max (max_le_max (le_refl _) (max_le_max (hm l.id) (hin i.inputs)))
      (Rank.aliases_mono hm l)
  | call =>
    simp only [hop, Option.some.injEq] at h ⊢
    exact ⟨_, rfl, h ▸ Rank.ofCall_mono hv⟩
  | indirectCall =>
    simp only [hop, Option.some.injEq] at h ⊢
    refine ⟨_, rfl, h ▸ ?_⟩
    have hpointer : (i.indirectTarget.map values).getD .pub ≤
        (i.indirectTarget.map values').getD .pub := by
      cases i.indirectTarget with
      | none => exact le_refl _
      | some p => exact hv p
    rw [Rank.joinAll_append, Rank.joinAll_append]
    refine max_le_max ?_ (max_le_max hpointer (le_refl _))
    cases i.distinctTargets with
    | nil => exact max_le_max (max_le_max (le_refl _) (hin i.arguments)) (le_refl _)
    | cons c cs => exact Rank.joinAll_map_mono fun callee _ => Rank.ofCall_mono hv
  | declassify =>
    simp only [hop, Option.some.injEq] at h ⊢
    exact ⟨_, rfl, h ▸ le_refl _⟩
  | _ => simp only [hop, reduceCtorEq] at h

/-- An output that has a rank has one under higher ranks, and no lower one. -/
theorem definedRank_mono (hv : values ≤ values') (hm : memory ≤ memory') {i : Instr}
    {v : String} {r : Rank} (h : i.definedRank s values memory = some (v, r)) :
    ∃ r', i.definedRank s values' memory' = some (v, r') ∧ r ≤ r' := by
  obtain ⟨w, ho, hr⟩ := Option.bind_eq_some_iff.1 h
  obtain ⟨x, hx, heq⟩ := Option.map_eq_some_iff.1 hr
  cases heq
  obtain ⟨r', hr', hle⟩ := outputRank_mono hv hm hx
  refine ⟨r', ?_, hle⟩
  rw [definedRank, ho, Option.bind_some, hr', Option.map_some]

/-- Cells rise with the values that are stored in them. -/
theorem memoryRanks_mono (hv : values ≤ values') (hm : memory ≤ memory') (i : Instr) :
    i.memoryRanks values memory ≤ i.memoryRanks values' memory' := by
  unfold memoryRanks
  split
  · exact update_le_update_iff.2 ⟨hv _, fun l _ => hm l⟩
  · exact update_le_update_iff.2 ⟨le_refl _, fun l _ => hm l⟩
  · exact hm

end Instr

end ConstantTime
