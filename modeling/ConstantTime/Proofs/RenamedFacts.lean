/-
Taints and regions of functions with other names for their blocks.

Taint moves by values and memory cells, and what happens at a block is looked up by its name only.
So the rounds over a renamed function do the same, block by block, and end with the same taints of
values. Regions grow along the flow graph; those of the renamed function are the regions of the
function, renamed, and they are malformed in the same cases.
-/
import ConstantTime.Proofs.RenamedBlocks
import ConstantTime.Region
import ConstantTime.Taint.Fixpoint

set_option autoImplicit false

namespace ConstantTime

variable {σ : String → String}

/-! ## Transfer

Instructions do not look at the names of blocks, and scopes are compared by what they look up. -/

/-- Two scopes in which names stand for the same locations and functions declare the same
results. -/
structure Scope.Alike (s s' : Scope) : Prop where
  locations : s'.locations.get? = s.locations.get?
  size : s'.locations.size = s.locations.size
  returns : ∀ name, (s'.module.function? name).bind Function.returns =
    (s.module.function? name).bind Function.returns

/-- Renaming the blocks of a module changes nothing that a function sees of it. -/
theorem Scope.alike_rename (ρ : String → String → String) (m : Module) (f : Function) :
    (Scope.ofFunction m f).Alike (Scope.ofFunction (m.rename ρ) (f.rename (ρ f.id))) where
  locations := rfl
  size := rfl
  returns := by
    intro name
    rw [Scope.ofFunction, Module.function?_rename, Scope.ofFunction]
    cases m.function? name <;> rfl

/-- Scopes that look up alike make an instruction do the same. -/
theorem Instr.transfer_congr {s s' : Scope} (h : s.Alike s') (values : Table Taint)
    (memory : Memory) (i : Instr) :
    i.transfer s' values memory = i.transfer s values memory := by
  have hcall : ∀ callee output args, Taint.ofCall s'.module callee output args =
      Taint.ofCall s.module callee output args := by
    intro callee output args
    cases callee with
    | none => rfl
    | some c => simp only [Taint.ofCall, h.returns]
  have haliases : ∀ l, Taint.aliases s' memory l = Taint.aliases s memory l := by
    intro l
    simp only [Taint.aliases, h.locations]
  simp only [transfer, h.locations, hcall, haliases]

/-- What an instruction does does not depend on the names of blocks. -/
theorem Instr.transfer_rename {s s' : Scope} (h : s.Alike s') (values : Table Taint)
    (memory : Memory) (i : Instr) :
    (i.rename σ).transfer s' values memory = i.transfer s values memory := by
  cases hop : i.op.targetsBlocks with
  | false => rw [rename_eq_self hop, transfer_congr h]
  | true =>
    have hcases : i.op = .branch ∨ i.op = .jump ∨ i.op = .indirectBranch := by
      revert hop
      cases i.op <;> simp [Opcode.targetsBlocks]
    rcases hcases with hop | hop | hop <;> simp only [transfer, op_rename, hop]

/-! ## Rounds

Two states correspond if they have the same values and, at corresponding blocks, the same memory. A
visit keeps that, so a round does and the whole iteration does. -/

namespace Taints

/-- Two states of the rounds that differ in the names of blocks. -/
structure State.Renamed (σ : String → String) (st st' : State) : Prop where
  values : st'.values = st.values
  memoryOut : ∀ b, st'.memoryOut.get? (σ b) = st.memoryOut.get? b
  changed : st'.changed = st.changed

variable {s s' : Scope} {f : Function} {g : FlowGraph} {st st' : State} (hσ : Function.Injective σ)

/-- A missing operand is missing in both. -/
theorem operandFault?_rename (h : s.Alike s') (i : Instr) :
    operandFault? s' (i.rename σ) = operandFault? s i := by
  simp only [operandFault?, Instr.op_rename, Instr.location_rename,
    Instr.inputs_rename, h.locations]
  rfl

include hσ

/-- A renamed block is entered with the same memory. -/
theorem entryMemory_rename {out out' : Table Memory} (h : ∀ b, out'.get? (σ b) = out.get? b)
    (b : String) :
    entryMemory (g.rename σ) out' (σ b) = entryMemory g out b := by
  rw [entryMemory, FlowGraph.preds_rename hσ, List.foldl_map, entryMemory]
  simp only [h]

/-- Its instructions then do the same. -/
theorem runBlock_rename (h : s.Alike s') (p : Point) (b : String) :
    runBlock s' (f.rename σ) p (σ b) = runBlock s f p b := by
  rw [runBlock, Function.block?_rename hσ, runBlock]
  cases f.block? b with
  | none => rfl
  | some blk =>
    dsimp only [Option.map_some, Block.rename]
    rw [List.foldl_map]
    have hstep : (fun (p : Point) (i : Instr) => p.step s' (i.rename σ)) = Point.step s := by
      funext p i
      simp only [Point.step, Instr.transfer_rename h]
    rw [hstep]

/-- So corresponding states stay so when the block is visited. -/
theorem State.Renamed.visit (hs : s.Alike s') (h : State.Renamed σ st st') (b : String) :
    State.Renamed σ (st.visit s f g b) (st'.visit s' (f.rename σ) (g.rename σ) (σ b)) := by
  simp only [State.visit, entryMemory_rename hσ h.memoryOut, h.values, h.changed,
    runBlock_rename hσ hs, h.memoryOut]
  have hset : ∀ memory b', (st'.memoryOut.set (σ b) memory).get? (σ b') =
      (st.memoryOut.set b memory).get? b' := by
    intro memory b'
    simp only [Table.get?_set, h.memoryOut, hσ.eq_iff]
  split
  · exact ⟨rfl, hset _, rfl⟩
  · split
    · exact ⟨rfl, hset _, rfl⟩
    · exact ⟨rfl, h.memoryOut, rfl⟩

/-- And over a whole round, in the renamed order. -/
theorem State.Renamed.round (hs : s.Alike s') (h : State.Renamed σ st st') (order : List String) :
    State.Renamed σ (st.round s f g order)
      (st'.round s' (f.rename σ) (g.rename σ) (order.map σ)) := by
  have hvisits : ∀ {st st' : State}, State.Renamed σ st st' →
      State.Renamed σ (order.foldl (State.visit s f g) st)
      ((order.map σ).foldl (State.visit s' (f.rename σ) (g.rename σ)) st') := by
    induction order with
    | nil => exact fun h => h
    | cons b order ih => exact fun h => ih (h.visit hσ hs b)
  exact hvisits ⟨h.values, h.memoryOut, rfl⟩

/-- Both iterations end after the same number of rounds. -/
theorem exists_iterate_rename (hs : s.Alike s') (order : List String) {left done rounds : Nat}
    {last : State} (h : State.Renamed σ st st')
    (hlast : iterate (State.round s f g order) left done st = some (last, rounds)) :
    ∃ last', iterate (State.round s' (f.rename σ) (g.rename σ) (order.map σ)) left done st' =
      some (last', rounds) ∧
      State.Renamed σ last last' := by
  induction left generalizing done st st' with
  | zero => cases hlast
  | succ left ih =>
    have hround := h.round (f := f) (g := g) hσ hs order
    rw [iterate] at hlast ⊢
    rw [hround.changed]
    split at hlast
    · next hchanged =>
      rw [if_pos hchanged]
      exact ih hround hlast
    · next hchanged =>
      rw [if_neg hchanged]
      cases hlast
      exact ⟨_, rfl, hround⟩

/-- The blocks are visited in the renamed order. -/
theorem order_rename : order (g.rename σ) = (order g).map σ := by
  rw [order, FlowGraph.reversePostOrder_rename hσ, FlowGraph.blocks_rename,
    FlowGraph.reachable_rename hσ, List.filter_map, order, List.map_append]
  simp only [Function.comp_def, List.mem_map_of_injective hσ]

end Taints

/-- The taints of values do not depend on the names of blocks. -/
theorem Taints.exists_ofFunction_rename {ρ : String → String → String} {m : Module} {f : Function}
    {g : FlowGraph} (hρ : Function.Injective (ρ f.id)) {t : Taints}
    (h : Taints.ofFunction m f g = .ok t) :
    ∃ t', Taints.ofFunction (m.rename ρ) (f.rename (ρ f.id)) (g.rename (ρ f.id)) = .ok t' ∧
      t'.values = t.values := by
  have hs := Scope.alike_rename ρ m f
  unfold ofFunction at h ⊢
  dsimp only at h ⊢
  have hfaults : ((f.rename (ρ f.id)).placed.findSome? fun p =>
      operandFault? (Scope.ofFunction (m.rename ρ) (f.rename (ρ f.id))) p.instr) =
        f.placed.findSome? fun p => operandFault? (Scope.ofFunction m f) p.instr := by
    rw [Function.placed_rename, List.findSome?_map]
    simp only [Function.comp_def, Placed.rename, operandFault?_rename hs]
  have hbound : ∀ n, roundBound (Scope.ofFunction (m.rename ρ) (f.rename (ρ f.id)))
      (f.rename (ρ f.id)) n =
      roundBound (Scope.ofFunction m f) f n := by
    intro n
    rw [roundBound, Function.sites_rename, Table.size_mapValues, hs.size, roundBound]
  rw [hfaults, order_rename hρ, List.length_map, hbound]
  split at h
  · cases h
  · split at h
    · cases h
    · next last rounds hlast =>
      cases h
      have hstart : State.Renamed (ρ f.id) ⟨seeds f, Table.empty, Table.empty, false⟩
          ⟨seeds f, Table.empty, Table.empty, false⟩ := ⟨rfl, fun _ => rfl, rfl⟩
      obtain ⟨last', hlast', hlike⟩ := exists_iterate_rename hρ hs (order g) hstart hlast
      have hseeds : seeds (f.rename (ρ f.id)) = seeds f := rfl
      rw [hseeds, hlast']
      exact ⟨_, rfl, hlike.values⟩

/-! ## Regions

The texts of errors name blocks, so results are compared with errors left out: a result is there
for both functions or for neither, and it is the renamed one. -/

section ToOption

variable {ε ε' α β : Type} {x : Except ε α} {y : Except ε' β} {g : α → β}

/-- Results that are equal up to errors: if the one is there, so is the other. -/
theorem eq_ok_of_toOption_eq (h : y.toOption = x.toOption.map g) {a : α} (hx : x = .ok a) :
    y = .ok (g a) := by
  subst hx
  cases y with
  | error e => cases h
  | ok b => exact congrArg Except.ok (Option.some.inj h)

/-- And if the one is an error, so is the other. -/
theorem exists_error_of_toOption_eq (h : y.toOption = x.toOption.map g) {e : ε}
    (hx : x = .error e) :
    ∃ e', y = .error e' := by
  subst hx
  cases y with
  | error e' => exact ⟨e', rfl⟩
  | ok b => cases h

end ToOption

/-- A region with other names for its blocks. -/
def Region.rename (σ : String → String) (r : Region) : Region :=
  ⟨σ r.entry, r.blocks.map σ, r.exits.map σ⟩

/-- How many targets there are does not depend on their names. -/
theorem Resolution.ofTargets_map (σ : String → String) (targets : List String) :
    ofTargets (targets.map σ) = ofTargets targets := by
  cases targets with
  | nil => rfl
  | cons t rest => cases rest <;> rfl

/-- An indirect site with other names for the blocks. -/
def IndirectSite.rename (σ : String → String) (s : IndirectSite) : IndirectSite :=
  { s with block := σ s.block, targets := if s.op.targetsBlocks then s.targets.map σ
    else s.targets }

section

variable (hσ : Function.Injective σ)

include hσ

/-- A renamed block is in the renamed region. -/
theorem regionOf?_rename (regions : List Region) (b : String) :
    regionOf? (regions.map (Region.rename σ)) (σ b) = (regionOf? regions b).map
      (Region.rename σ) := by
  rw [regionOf?, List.find?_map, regionOf?]
  simp only [Function.comp_def, Region.rename, List.mem_map_of_injective hσ]

/-- An instruction is covered in both functions or in neither. -/
theorem covered_rename {regions : List Region} {b : Block} {index : Nat} {inside : Bool}
    (h : covered regions b index = .ok inside) :
    covered (regions.map (Region.rename σ)) (b.rename σ) index = .ok inside := by
  unfold covered at h ⊢
  rw [Block.id_rename, regionOf?_rename hσ]
  cases hregion : regionOf? regions b.id with
  | none =>
    rw [hregion] at h
    exact h
  | some r =>
    rw [hregion] at h
    simp only [Option.map_some, Region.rename, hσ.eq_iff, Block.positions_rename, Block.isBehindEnd]
      at h ⊢
    split at h
    · next hentry =>
      rw [if_pos hentry]
      cases hstart : b.positions .regionStart with
      | nil =>
        rw [hstart] at h
        cases h
      | cons start rest =>
        rw [hstart] at h
        exact h
    · next hentry =>
      rw [if_neg hentry]
      exact h

namespace Function

variable {f : Function} {g : FlowGraph}

/-- Markers stay with their blocks. -/
theorem closesRegion_rename (b : String) : (f.rename σ).closesRegion (σ b) = f.closesRegion b := by
  rw [closesRegion, block?_rename hσ, Option.map_map, closesRegion]
  simp only [Function.comp_def, Block.endsRegion_rename]

omit hσ in
/-- The check of markers passes for both or for neither. -/
theorem markerViolation?_rename :
    (f.rename σ).markerViolation? = none ↔ f.markerViolation? = none := by
  rw [markerViolation?, List.findSome?_eq_none_iff, rename, List.forall_mem_map, markerViolation?,
    List.findSome?_eq_none_iff]
  refine forall₂_congr fun b _ => ?_
  rw [Block.positions_rename, Block.positions_rename]
  split <;> simp

/-- The graph along which regions grow. -/
theorem regionGraph_rename :
    (f.rename σ).regionGraph (g.rename σ) = (f.regionGraph g).rename σ := by
  rw [regionGraph, FlowGraph.rename, Digraph.rename, List.map_map, regionGraph, Digraph.rename,
    List.map_map]
  congr 2
  funext e
  simp only [Function.comp_apply, Prod.map_apply, Prod.map_fst, Prod.map_snd,
    closesRegion_rename hσ]
  split <;> rfl

/-- A region is entered from outside in both functions or in neither. -/
theorem entranceViolation?_rename (reachable : List String) (entry : String)
    (members : List String) :
    (f.rename σ).entranceViolation? (g.rename σ) (reachable.map σ) (σ entry) (members.map σ) =
      none ↔
      f.entranceViolation? g reachable entry members = none := by
  rw [entranceViolation?, List.findSome?_eq_none_iff, List.forall_mem_map, entranceViolation?,
    List.findSome?_eq_none_iff]
  refine forall₂_congr fun b _ => ?_
  simp only [hσ.eq_iff]
  by_cases hb : b = entry
  · rw [if_pos hb, if_pos hb]
  · rw [if_neg hb, if_neg hb, FlowGraph.preds_rename hσ, List.findSome?_eq_none_iff,
      List.forall_mem_map, List.findSome?_eq_none_iff]
    refine forall₂_congr fun p _ => ?_
    simp only [List.mem_map_of_injective hσ, closesRegion_rename hσ]
    by_cases hreachable : p ∉ reachable
    · rw [if_pos hreachable, if_pos hreachable]
    · by_cases hmember : p ∉ members
      · simp [hreachable, hmember]
      · by_cases hclose : f.closesRegion p = true <;> simp [hreachable, hmember, hclose]

/-- A region of the renamed function is the region of the function, renamed, and it is malformed in
the same cases. -/
theorem toOption_growRegion_rename (reachable starts : List String) (entry : String) :
    ((f.rename σ).growRegion (g.rename σ) (reachable.map σ) (starts.map σ) (σ entry)).toOption =
      (f.growRegion g reachable starts entry).toOption.map (Region.rename σ) := by
  have hmembers : ((f.rename σ).regionGraph (g.rename σ)).reach [σ entry] =
      ((f.regionGraph g).reach [entry]).map σ := by
    rw [regionGraph_rename hσ]
    exact Digraph.reach_rename hσ (f.regionGraph g) [entry]
  have hinner : ((((f.regionGraph g).reach [entry]).map σ).find? fun b =>
      decide (b ≠ σ entry) && decide (b ∈ starts.map σ)) =
        (((f.regionGraph g).reach [entry]).find? fun b => decide (b ≠ entry) &&
          decide (b ∈ starts)).map σ := by
    rw [List.find?_map]
    simp only [Function.comp_def, hσ.ne_iff, List.mem_map_of_injective hσ]
  have hexits :
    (((f.rename σ).blocks.filter fun b => decide (b.id ∈ ((f.regionGraph g).reach [entry]).map σ) &&
      (b.endsRegion || decide (b.id ∈ (g.rename σ).exits))).map Block.id) =
        ((f.blocks.filter fun b => decide (b.id ∈ (f.regionGraph g).reach [entry]) &&
          (b.endsRegion || decide (b.id ∈ g.exits))).map Block.id).map σ := by
    rw [rename, List.filter_map, List.map_map, List.map_map, FlowGraph.rename]
    simp only [Function.comp_def, Block.id_rename, Block.endsRegion_rename,
      List.mem_map_of_injective hσ]
  simp only [growRegion, hmembers, hinner, hexits, List.isEmpty_map]
  -- the same check fails in both, although the errors name other blocks
  cases ((f.regionGraph g).reach [entry]).find? fun b => decide (b ≠ entry) &&
    decide (b ∈ starts) with
  | some inner => rfl
  | none =>
    dsimp only [Option.map_none]
    have hentrance :=
      entranceViolation?_rename (f := f) (g := g) hσ reachable entry
        ((f.regionGraph g).reach [entry])
    cases hviolation : f.entranceViolation? g reachable entry ((f.regionGraph g).reach [entry]) with
    | some e =>
      cases hviolation' : (f.rename σ).entranceViolation? (g.rename σ) (reachable.map σ) (σ entry)
          (((f.regionGraph g).reach [entry]).map σ) with
      | some e' => rfl
      | none =>
        rw [hentrance.1 hviolation'] at hviolation
        cases hviolation
    | none =>
      rw [hentrance.2 hviolation]
      dsimp only
      split <;> rfl

/-- Regions grow alike, one after the other. -/
theorem toOption_growRegions_rename (reachable starts : List String) (done : List Region)
    (entries : List String) :
    ((f.rename σ).growRegions (g.rename σ) (reachable.map σ) (starts.map σ)
      (done.map (Region.rename σ)) (entries.map σ)).toOption =
        (f.growRegions g reachable starts done entries).toOption.map
          (List.map (Region.rename σ)) := by
  induction entries generalizing done with
  | nil => rfl
  | cons entry rest ih =>
    have hgrow := toOption_growRegion_rename (f := f) (g := g) hσ reachable starts entry
    rw [List.map_cons, growRegions, growRegions]
    cases hregion : f.growRegion g reachable starts entry with
    | error e =>
      obtain ⟨e', he'⟩ := exists_error_of_toOption_eq hgrow hregion
      rw [he']
      rfl
    | ok r =>
      rw [eq_ok_of_toOption_eq hgrow hregion]
      dsimp only
      -- two regions overlap in the renamed function exactly if they did
      have hoverlap :
        ((r.rename σ).blocks.findSome? fun b =>
          (regionOf? (done.map (Region.rename σ)) b).map fun other =>
          (⟨.overlappingRegions other.entry (σ entry), (f.rename σ).id, b⟩ : Malformed)) = none ↔
            (r.blocks.findSome? fun b => (regionOf? done b).map fun other =>
              (⟨.overlappingRegions other.entry entry, f.id, b⟩ : Malformed)) = none := by
        rw [List.findSome?_eq_none_iff, Region.rename, List.forall_mem_map,
          List.findSome?_eq_none_iff]
        simp only [regionOf?_rename hσ, Option.map_eq_none_iff]
      split
      · next e he =>
        split
        · rfl
        · next hnone =>
          rw [hoverlap.2 hnone] at he
          cases he
      · next hnone =>
        rw [hoverlap.1 hnone]
        dsimp only
        rw [← ih, List.map_append, List.map_singleton]

/-- All regions of a function. -/
theorem toOption_regions_rename :
    ((f.rename σ).regions (g.rename σ)).toOption = (f.regions g).toOption.map
      (List.map (Region.rename σ)) := by
  have hstarts :
    ((f.rename σ).blocks.filter fun b => b.startsRegion && decide (b.id ∈ g.reachable.map σ)).map
      Block.id =
      ((f.blocks.filter fun b => b.startsRegion && decide (b.id ∈ g.reachable)).map Block.id).map
        σ := by
    rw [rename, List.filter_map, List.map_map, List.map_map]
    simp only [Function.comp_def, Block.id_rename, Block.startsRegion_rename,
      List.mem_map_of_injective hσ]
  have hmarkers := markerViolation?_rename (σ := σ) (f := f)
  -- the three checks in order: markers, regions, ends that belong to none
  rw [regions, regions]
  cases hviolation : f.markerViolation? with
  | some e =>
    cases hviolation' : (f.rename σ).markerViolation? with
    | some e' => rfl
    | none =>
      rw [hmarkers.1 hviolation'] at hviolation
      cases hviolation
  | none =>
    rw [hmarkers.2 hviolation, FlowGraph.reachable_rename hσ]
    dsimp only
    rw [hstarts]
    have hgrow := toOption_growRegions_rename (f := f) (g := g) hσ g.reachable
      ((f.blocks.filter fun b => b.startsRegion && decide (b.id ∈ g.reachable)).map Block.id) []
      ((f.blocks.filter fun b => b.startsRegion && decide (b.id ∈ g.reachable)).map Block.id)
    rw [List.map_nil] at hgrow
    cases hgrown : f.growRegions g g.reachable
        ((f.blocks.filter fun b => b.startsRegion && decide (b.id ∈ g.reachable)).map Block.id) []
        ((f.blocks.filter fun b => b.startsRegion && decide (b.id ∈ g.reachable)).map Block.id) with
    | error e =>
      obtain ⟨e', he'⟩ := exists_error_of_toOption_eq hgrow hgrown
      rw [he']
      rfl
    | ok rs =>
      rw [eq_ok_of_toOption_eq hgrow hgrown]
      dsimp only
      have hstray : ((f.rename σ).blocks.find? fun b =>
          b.endsRegion && decide (b.id ∈ g.reachable.map σ) &&
            (regionOf? (rs.map (Region.rename σ)) b.id).isNone) =
            (f.blocks.find? fun b =>
              b.endsRegion && decide (b.id ∈ g.reachable) && (regionOf? rs b.id).isNone).map
                (Block.rename σ) := by
        rw [rename, List.find?_map]
        simp only [Function.comp_def, Block.id_rename, Block.endsRegion_rename,
          List.mem_map_of_injective hσ, regionOf?_rename hσ, Option.isNone_map]
      rw [hstray]
      cases f.blocks.find? fun b => b.endsRegion && decide (b.id ∈ g.reachable) &&
        (regionOf? rs b.id).isNone <;> rfl

/-- The indirect sites, with the answer whether they are covered. -/
theorem indirectSites_rename {regions : List Region} {sites : List IndirectSite}
    (h : f.indirectSites regions = .ok sites) :
    (f.rename σ).indirectSites (regions.map (Region.rename σ)) =
      .ok (sites.map (IndirectSite.rename σ)) := by
  rw [indirectSites] at h ⊢
  have hplaces : ((f.rename σ).placed.filter fun p => p.instr.op.isIndirect) =
      (f.placed.filter fun p => p.instr.op.isIndirect).map (Placed.rename σ) := by
    rw [placed_rename, List.filter_map]
    rfl
  rw [hplaces]
  refine collect_map_eq_ok (fun p site hsite => ?_) h
  unfold indirectSite at hsite ⊢
  split at hsite
  · cases hsite
  · next inside hinside =>
    cases hsite
    have hresolution : Resolution.ofTargets (p.instr.rename σ).distinctTargets =
        Resolution.ofTargets p.instr.distinctTargets := by
      rw [Instr.distinctTargets_rename hσ]
      split
      · exact Resolution.ofTargets_map σ p.instr.distinctTargets
      · rfl
    have hcovered : covered (regions.map (Region.rename σ)) (p.rename σ).block (p.rename σ).index =
        .ok inside :=
      covered_rename hσ hinside
    rw [hcovered]
    dsimp only
    rw [IndirectSite.rename]
    refine congrArg Except.ok ?_
    rw [IndirectSite.mk.injEq]
    exact ⟨rfl, rfl, rfl, rfl, Instr.distinctTargets_rename hσ p.instr, hresolution, rfl⟩

end Function

/-- The regions and indirect sites of the renamed function are those of the function, renamed. -/
theorem RegionMap.exists_ofFunction_rename {f : Function} {g : FlowGraph} {r : RegionMap}
    (h : ofFunction f g = .ok r) :
    ∃ r', ofFunction (f.rename σ) (g.rename σ) = .ok r' ∧
      r'.regions = r.regions.map (Region.rename σ) ∧
      r'.sites = r.sites.map (IndirectSite.rename σ) := by
  unfold ofFunction at h ⊢
  split at h
  · cases h
  · next regions hregions =>
    rw [eq_ok_of_toOption_eq (Function.toOption_regions_rename hσ) hregions]
    split at h
    · cases h
    · next sites hsites =>
      cases h
      dsimp only
      rw [Function.indirectSites_rename hσ hsites]
      exact ⟨_, rfl, rfl, rfl⟩

/-- Malformed regions stay malformed. The text may differ. -/
theorem RegionMap.exists_malformed_rename {f : Function} {g : FlowGraph} {e : Malformed}
    (h : ofFunction f g = .error (.malformed e)) :
    ∃ e', ofFunction (f.rename σ) (g.rename σ) = .error (.malformed e') := by
  unfold ofFunction at h ⊢
  split at h
  · next hregions =>
    obtain ⟨e', he'⟩ := exists_error_of_toOption_eq (Function.toOption_regions_rename hσ) hregions
    rw [he']
    exact ⟨e', rfl⟩
  · split at h <;> cases h

end

end ConstantTime
