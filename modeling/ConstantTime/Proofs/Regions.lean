/-
What the checks leave of a region: where it starts, what belongs to it, and how it is entered.

A region is grown from the block that opens it, behind no block that closes it. The checks look at
single edges: no other block that opens a region may be met, and an edge from a reachable block
into the region must come from within and from a block that does not close it, unless it leads to
the first block. Followed backwards along a path this says that the region was entered through its
first block, since each block of the path was reached. The path may also end before that happens,
at the entry of the function. No edge leads there from outside, so nothing is checked, and a region
that control can leave to the entry of the function has the entry inside. It is the only exception:
the first block dominates the region just if the entry of the function is no other block of it.
-/
import ConstantTime.Region
import ConstantTime.Proofs.PathRuns

set_option autoImplicit false

namespace ConstantTime

/-! ## Membership

A block is looked up in the list of regions, and the first region that has it is taken. -/

theorem mem_of_regionOf?_eq_some {regions : List Region} {b : String} {r : Region}
    (h : regionOf? regions b = some r) :
    r ∈ regions ∧ b ∈ r.blocks := by
  refine ⟨List.mem_of_find?_eq_some h, ?_⟩
  simpa using List.find?_some h

/-- A block without a region is in none of them. -/
theorem regionOf?_eq_none_iff {regions : List Region} {b : String} :
    regionOf? regions b = none ↔ ∀ r ∈ regions, b ∉ r.blocks := by
  rw [regionOf?, List.find?_eq_none]
  simp

/-- A block has a region exactly if some region has the block. -/
theorem isSome_regionOf?_iff {regions : List Region} {b : String} :
    (regionOf? regions b).isSome = true ↔ ∃ r ∈ regions, b ∈ r.blocks := by
  rw [Option.isSome_iff_ne_none, Ne, regionOf?_eq_none_iff]
  simp

/-- Only what stands in a block of a region is covered. -/
theorem exists_regionOf?_of_covered {regions : List Region} {b : Block} {index : Nat}
    (h : covered regions b index = .ok true) : ∃ r, regionOf? regions b.id = some r := by
  unfold covered at h
  split at h
  · cases h
  · next r hr => exact ⟨r, hr⟩

/-! ## Markers

A block has at most one marker of each kind, and if it has both then the end comes behind the
start. This is checked before any region is grown. -/

namespace Block

variable {b : Block}

/-- The positions of an opcode are where it stands. -/
theorem mem_positions_iff {op : Opcode} {k : Nat} :
    k ∈ b.positions op ↔ ∃ i, b.instrs[k]? = some i ∧ i.op = op := by
  simp only [positions, List.mem_map, List.mem_filter, Prod.exists, List.mem_zipIdx_iff_getElem?,
    decide_eq_true_iff]
  constructor
  · rintro ⟨i, _, ⟨hi, hop⟩, rfl⟩
    exact ⟨i, hi, hop⟩
  · rintro ⟨i, hi, hop⟩
    exact ⟨i, k, ⟨hi, hop⟩, rfl⟩

theorem lt_length_of_mem_positions {op : Opcode} {k : Nat} (h : k ∈ b.positions op) :
    k < b.instrs.length := by
  obtain ⟨_, hi, -⟩ := mem_positions_iff.1 h
  exact (List.getElem?_eq_some_iff.1 hi).1

/-- Where a part of a block has an instruction of some kind, the instruction has a position
there. -/
theorem any_drop_take_iff {op : Opcode} {m n : Nat} :
    (((b.instrs.take n).drop m).any fun i => decide (i.op = op)) = true ↔
      ∃ k ∈ b.positions op, m ≤ k ∧ k < n := by
  rw [List.any_eq_true]
  constructor
  · rintro ⟨i, hmem, hop⟩
    obtain ⟨k, hk⟩ := List.mem_iff_getElem?.1 hmem
    rw [List.getElem?_drop, List.getElem?_take, Option.ite_none_right_eq_some] at hk
    exact ⟨m + k, mem_positions_iff.2 ⟨i, hk.2, of_decide_eq_true hop⟩, Nat.le_add_right m k, hk.1⟩
  · rintro ⟨k, hk, hle, hlt⟩
    obtain ⟨i, hi, hop⟩ := mem_positions_iff.1 hk
    refine ⟨i, List.mem_iff_getElem?.2 ⟨k - m, ?_⟩, decide_eq_true hop⟩
    rw [List.getElem?_drop, List.getElem?_take, Nat.add_sub_cancel' hle, if_pos hlt, hi]

/-- A block has an instruction of a kind exactly if the kind has a position in it. -/
theorem any_op_iff {op : Opcode} :
    (b.instrs.any fun i => decide (i.op = op)) = true ↔ ∃ k, k ∈ b.positions op := by
  have hall := @any_drop_take_iff b op 0 b.instrs.length
  rw [List.take_length, List.drop_zero] at hall
  rw [hall]
  exact ⟨fun ⟨k, hk, _⟩ => ⟨k, hk⟩,
    fun ⟨k, hk⟩ => ⟨k, hk, Nat.zero_le k, lt_length_of_mem_positions hk⟩⟩

/-- The markers of a block are in order: at most one of each, and the one that opens a region
first. -/
structure Marked (b : Block) : Prop where
  start_unique : ∀ j ∈ b.positions .regionStart, ∀ k ∈ b.positions .regionStart, j = k
  end_unique : ∀ j ∈ b.positions .regionEnd, ∀ k ∈ b.positions .regionEnd, j = k
  start_lt_end : ∀ j ∈ b.positions .regionStart, ∀ k ∈ b.positions .regionEnd, j < k

end Block

/-- The check of markers leaves every block marked as `Marked` says. -/
theorem Function.marked_of_markerViolation? {f : Function}
    (h : f.markerViolation? = none) {b : Block} (hb : b ∈ f.blocks) : b.Marked := by
  rw [markerViolation?, List.findSome?_eq_none_iff] at h
  have hmarkers := h b hb
  -- no instruction is both markers
  have hne : ∀ j ∈ b.positions .regionStart, j ∉ b.positions .regionEnd := by
    intro j hstart hend
    obtain ⟨i, hi, hop⟩ := Block.mem_positions_iff.1 hstart
    obtain ⟨i', hi', hop'⟩ := Block.mem_positions_iff.1 hend
    rw [hi] at hi'
    rw [← Option.some.inj hi', hop] at hop'
    cases hop'
  -- two markers of a kind are refused, so the lists of positions are empty or have one member
  rcases hstarts : b.positions .regionStart with _ | ⟨s, _ | ⟨s', starts⟩⟩ <;>
    rcases hends : b.positions .regionEnd with _ | ⟨e, _ | ⟨e', ends⟩⟩ <;>
    simp only [hstarts, hends, reduceCtorEq, ite_eq_right_iff, List.mem_singleton, forall_eq]
      at hmarkers hne <;>
    constructor <;> simp only [hstarts, hends, List.mem_singleton, List.not_mem_nil, forall_eq] <;>
      grind

/-! ## Growing

`Grown` is what the checks leave of one region, and `HasRegions` of all of them. What is said here
is all that later modules use of the checks. -/

/-- Some block of this name is reached and opens a region. -/
def Function.OpensRegion (f : Function) (g : FlowGraph) (name : String) : Prop :=
  ∃ b ∈ f.blocks, b.id = name ∧ b.startsRegion = true ∧ g.Reached name

/-- A region that was grown, with what the checks found of it. -/
structure Region.Grown (f : Function) (g : FlowGraph) (r : Region) : Prop where
  /-- It goes on behind each of its blocks that does not close it. -/
  mem_blocks : ∀ b, b ∈ r.blocks ↔ (f.regionGraph g).Reaches r.entry b
  /-- No other region is opened in it. -/
  flat : ∀ b ∈ r.blocks, f.OpensRegion g b → b = r.entry
  /-- From reached blocks it is only entered through its first block. -/
  entered : ∀ b ∈ r.blocks, b ≠ r.entry → ∀ p ∈ g.preds b, g.Reached p →
    p ∈ r.blocks ∧ f.closesRegion p = false

namespace Function

variable {f : Function} {g : FlowGraph}

/-- Regions grow along edges that do not leave a block that closes a region. -/
theorem edge_regionGraph_iff {a b : String} :
    (f.regionGraph g).Edge a b ↔ f.closesRegion a = false ∧ b ∈ g.succs a := by
  have hfind :=
    Assoc.find?_map_value a (fun n ss => if f.closesRegion n then [] else ss) g.graph.adj
  rw [Digraph.Edge, Digraph.succs, regionGraph, hfind, FlowGraph.succs, Digraph.succs]
  cases hclose : f.closesRegion a with
  | true => cases Assoc.find? a g.graph.adj <;> simp
  | false => cases Assoc.find? a g.graph.adj <;> simp

/-- The blocks that open the regions of a function, in block order. -/
def regionStarts (f : Function) (g : FlowGraph) : List String :=
  (f.blocks.filter fun b => b.startsRegion && decide (b.id ∈ g.reachable)).map Block.id

/-- A region is grown from each reachable block that opens one. -/
theorem mem_regionStarts_iff {name : String} : name ∈ f.regionStarts g ↔ f.OpensRegion g name := by
  rw [regionStarts, List.mem_map, OpensRegion]
  refine exists_congr fun b => ?_
  rw [List.mem_filter, Bool.and_eq_true, decide_eq_true_iff, FlowGraph.mem_reachable_iff]
  constructor
  · rintro ⟨⟨hb, hstart, hreached⟩, rfl⟩
    exact ⟨hb, rfl, hstart, hreached⟩
  · rintro ⟨hb, rfl, hstart, hreached⟩
    exact ⟨⟨hb, hstart, hreached⟩, rfl⟩

/-- No way into a region is found but through its first block. -/
theorem entered_of_entranceViolation? {entry : String} {members : List String}
    (h : f.entranceViolation? g g.reachable entry members = none) :
    ∀ b ∈ members, b ≠ entry → ∀ p ∈ g.preds b, g.Reached p →
      p ∈ members ∧ f.closesRegion p = false := by
  intro b hb hne p hp hreached
  rw [entranceViolation?, List.findSome?_eq_none_iff] at h
  have hpreds := h b hb
  rw [if_neg hne, List.findSome?_eq_none_iff] at hpreds
  have hpred := hpreds p hp
  rw [if_neg (not_not.2 (FlowGraph.mem_reachable_iff.2 hreached))] at hpred
  by_cases hmem : p ∈ members
  · rw [if_neg (not_not.2 hmem)] at hpred
    refine ⟨hmem, Bool.eq_false_iff.2 fun hclose => ?_⟩
    rw [if_pos hclose] at hpred
    cases hpred
  · rw [if_pos hmem] at hpred
    cases hpred

/-- **What growing a region establishes.** -/
theorem grown_of_growRegion {entry : String} {r : Region}
    (h : f.growRegion g g.reachable (f.regionStarts g) entry = .ok r) :
    r.entry = entry ∧ r.Grown f g := by
  unfold growRegion at h
  dsimp only at h
  split at h
  · cases h
  · next hnested =>
    split at h
    · cases h
    · next hentrance =>
      split at h
      · cases h
      · cases h
        refine ⟨rfl, fun b => ?_, fun b hb hopens => ?_, entered_of_entranceViolation? hentrance⟩
        · rw [Digraph.mem_reach_iff]
          simp
        · by_contra hne
          have hpass := List.find?_eq_none.1 hnested b hb
          simp [hne, mem_regionStarts_iff.2 hopens] at hpass

/-- The regions that are grown are those of before and one for each entry. -/
theorem growRegions_spec {entries : List String} {done regions : List Region}
    (h : f.growRegions g g.reachable (f.regionStarts g) done entries = .ok regions) :
    (∀ r ∈ regions, r ∈ done ∨ r.entry ∈ entries ∧ r.Grown f g) ∧ (∀ r ∈ done, r ∈ regions) ∧
      ∀ entry ∈ entries, ∃ r ∈ regions, r.entry = entry := by
  -- `done` grows by one region at each entry, so the statement has to hold of any of them
  induction entries generalizing done with
  | nil =>
    cases h
    exact ⟨fun r hr => .inl hr, fun r hr => hr, fun entry hentry => absurd hentry List.not_mem_nil⟩
  | cons entry rest ih =>
    rw [growRegions] at h
    split at h
    · cases h
    · next r hgrow =>
      dsimp only at h
      split at h
      · cases h
      · obtain ⟨hfrom, hkept, hgrown⟩ := ih h
        obtain ⟨hentry, hr⟩ := grown_of_growRegion hgrow
        refine ⟨fun r' hr' => ?_, fun r' hr' => hkept r' (List.mem_append_left _ hr'),
          fun e he => ?_⟩
        · rcases hfrom r' hr' with hold | ⟨hmem, hgrown'⟩
          · rcases List.mem_append.1 hold with hold | hnew
            · exact .inl hold
            · rw [List.mem_singleton.1 hnew, hentry]
              exact .inr ⟨List.mem_cons_self, hr⟩
          · exact .inr ⟨List.mem_cons_of_mem _ hmem, hgrown'⟩
        · rcases List.mem_cons.1 he with rfl | he
          · exact ⟨r, hkept r (List.mem_append_right _ (List.mem_singleton_self r)), hentry⟩
          · exact hgrown e he

/-- The regions of a function, with what the checks found of them and of the markers. -/
structure HasRegions (f : Function) (g : FlowGraph) (regions : List Region) : Prop where
  marked : ∀ b ∈ f.blocks, b.Marked
  opened : ∀ r ∈ regions, f.OpensRegion g r.entry
  grown : ∀ r ∈ regions, r.Grown f g
  found : ∀ name, f.OpensRegion g name → ∃ r ∈ regions, r.entry = name
  closed : ∀ b ∈ f.blocks, b.endsRegion = true → g.Reached b.id → ∃ r ∈ regions, b.id ∈ r.blocks

/-- **What the checks of the regions establish.** -/
theorem hasRegions_of_regions {regions : List Region} (h : f.regions g = .ok regions) :
    f.HasRegions g regions := by
  unfold Function.regions at h
  split at h
  · cases h
  · next hmarkers =>
    dsimp only at h
    split at h
    · cases h
    · next grown hgrow =>
      split at h
      · cases h
      · next hstray =>
        cases h
        obtain ⟨hfrom, -, hfound⟩ := growRegions_spec hgrow
        refine ⟨fun b hb => marked_of_markerViolation? hmarkers hb, fun r hr => ?_, fun r hr => ?_,
          fun name hname => ?_, fun b hb hends hreached => ?_⟩
        · exact mem_regionStarts_iff.1 ((hfrom r hr).resolve_left List.not_mem_nil).1
        · exact ((hfrom r hr).resolve_left List.not_mem_nil).2
        · exact hfound name (mem_regionStarts_iff.2 hname)
        · have hpass := List.find?_eq_none.1 hstray b hb
          rw [hends, decide_eq_true (FlowGraph.mem_reachable_iff.2 hreached), Bool.and_self,
            Bool.true_and, Option.isNone_iff_eq_none] at hpass
          obtain ⟨r, hr⟩ := Option.ne_none_iff_exists'.1 hpass
          exact ⟨r, mem_of_regionOf?_eq_some hr⟩

/-! ## Paths into a region

The blocks of a region are reached, so each has a path. Going back along a path one leaves the
region through its first block, or the path begins inside of it. -/

/-- What is reached from a reached block without passing an end of a region is reached. -/
theorem reached_of_regionGraph {a b : String} (ha : g.Reached a)
    (h : (f.regionGraph g).Reaches a b) : g.Reached b := by
  induction h with
  | refl => exact ha
  | @tail b c _ hedge ih =>
    obtain ⟨path, hpath⟩ := ih
    exact ⟨path ++ [b], FlowGraph.isPath_concat.2 ⟨hpath, (edge_regionGraph_iff.1 hedge).2⟩⟩

/-- Only reachable blocks open regions. -/
theorem OpensRegion.reached {name : String} (h : f.OpensRegion g name) : g.Reached name := by
  obtain ⟨_, -, -, -, hreached⟩ := h
  exact hreached

namespace HasRegions

variable {regions : List Region} {r : Region}

/-- A region is opened in its first block. -/
theorem startsRegion_eq (h : f.HasRegions g regions) (hf : (f.blocks.map Block.id).Nodup)
    (hr : r ∈ regions) {b : Block} (hb : b ∈ f.blocks) (hentry : b.id = r.entry) :
    b.startsRegion = true := by
  obtain ⟨b', hb', hid, hstart, -⟩ := h.opened r hr
  rw [List.inj_on_of_nodup_map hf hb hb' (hentry.trans hid.symm)]
  exact hstart

/-- The blocks of a region are reached through its first block. -/
theorem reached (h : f.HasRegions g regions) (hr : r ∈ regions) {b : String} (hb : b ∈ r.blocks) :
    g.Reached b :=
  reached_of_regionGraph (h.opened r hr).reached (((h.grown r hr).mem_blocks b).1 hb)

/-- A region goes on behind a block that does not close it. -/
theorem mem_blocks_of_mem_succs (h : f.HasRegions g regions) (hr : r ∈ regions) {a b : String}
    (ha : a ∈ r.blocks) (hclose : f.closesRegion a = false) (hb : b ∈ g.succs a) :
    b ∈ r.blocks := by
  rw [(h.grown r hr).mem_blocks] at ha ⊢
  exact Relation.ReflTransGen.tail ha (edge_regionGraph_iff.2 ⟨hclose, hb⟩)

/-- A path that ends in a region has passed its first block, if the entry of the function is no
other block of it. -/
theorem entry_mem_path (h : f.HasRegions g regions) (hg : FlowGraph.ofFunction f = .ok g)
    (hf : (f.blocks.map Block.id).Nodup) (hr : r ∈ regions)
    (hentry : g.entry ∈ r.blocks → g.entry = r.entry) {path : List String} {b : String}
    (hpath : g.IsPath (path ++ [b])) (hb : b ∈ r.blocks) :
    r.entry ∈ path ++ [b] := by
  induction path using List.reverseRecOn generalizing b with
  | nil =>
    have hfirst : b = g.entry := Option.some.inj hpath.1
    rw [hfirst] at hb ⊢
    rw [hentry hb]
    exact List.mem_singleton_self _
  | append_singleton path a ih =>
    by_cases hstart : b = r.entry
    · rw [hstart]
      exact List.mem_append_right _ (List.mem_singleton_self _)
    · -- the block before was reached, so it belongs to the region too
      obtain ⟨hbefore, hedge⟩ := FlowGraph.isPath_concat.1 hpath
      have hpred := (FlowGraph.mem_preds_iff hg hf).2 hedge
      have ha := ((h.grown r hr).entered b hb hstart a hpred ⟨path, hbefore⟩).1
      exact List.mem_append_left _ (ih hbefore ha)

end HasRegions

end Function

/-! ## Functions of a well-formed module

The main statement, with a sample for each side of it: in the first the region is entered through
its marker, in the second the function is entered inside the region. -/

namespace RegionMap

variable {f : Function} {g : FlowGraph}

/-- The two parts of the result: the regions, and the indirect sites with respect to them. -/
theorem ofFunction_eq_ok {rm : RegionMap} (h : ofFunction f g = .ok rm) :
    f.regions g = .ok rm.regions ∧ f.indirectSites rm.regions = .ok rm.sites := by
  unfold ofFunction at h
  split at h
  · cases h
  · next regions hregions =>
    split at h
    · cases h
    · next sites hsites =>
      cases h
      exact ⟨hregions, hsites⟩

/-- A function with two regions in a row. The first is a loop back to the block that opens it, with
a block that leads into it but is never reached. The second opens and closes in one block, from
which control can go back to the entry. -/
def patrol : Function :=
  ⟨"patrol",
    [⟨"entry",
      [⟨.indirectCall, ["p"], none, [], none, none⟩, ⟨.jump, [], none, ["first"], none, none⟩]⟩,
      ⟨"first",
        [⟨.indirectCall, ["p"], none, [], none, none⟩, ⟨.regionStart, [], none, [], none, none⟩,
        ⟨.branch, ["p"], none, ["work", "done"], none, none⟩]⟩,
      ⟨"work",
        [⟨.indirectCall, ["p"], none, [], none, none⟩, ⟨.jump, [], none, ["first"], none, none⟩]⟩,
      ⟨"dead", [⟨.jump, [], none, ["work"], none, none⟩]⟩,
      ⟨"done",
        [⟨.regionEnd, [], none, [], none, none⟩, ⟨.indirectCall, ["p"], none, [], none, none⟩,
        ⟨.jump, [], none, ["second"], none, none⟩]⟩,
      ⟨"second",
        [⟨.regionStart, [], none, [], none, none⟩, ⟨.indirectCall, ["p"], none, [], none, none⟩,
        ⟨.regionEnd, [], none, [], none, none⟩,
        ⟨.branch, ["p"], none, ["entry", "out"], none, none⟩]⟩,
      ⟨"out", [⟨.ret, [], none, [], none, none⟩]⟩],
    [⟨"p", .pub⟩], none, []⟩

def patrolling : Module := ⟨"patrolling", [patrol], []⟩

theorem validate_patrolling : patrolling.validate = .ok () := by rfl

theorem patrol_mem_patrolling : patrol ∈ patrolling.functions := List.mem_singleton.2 rfl

/-- Its flow graph. -/
def patrolGraph : FlowGraph :=
  ⟨"entry",
    ⟨[("entry", ["first"]), ("first", ["work", "done"]), ("work", ["first"]), ("dead", ["work"]),
    ("done", ["second"]), ("second", ["entry", "out"]), ("out", [])]⟩, ["out"]⟩

theorem ofFunction_patrol : FlowGraph.ofFunction patrol = .ok patrolGraph := by rfl

/-- Its regions. -/
def patrolRegions : List Region :=
  [⟨"first", ["first", "work", "done"], ["done"]⟩, ⟨"second", ["second"], ["second"]⟩]

theorem exists_regions_patrol :
    ∃ rm, ofFunction patrol patrolGraph = .ok rm ∧ rm.regions = patrolRegions :=
  ⟨_, rfl, rfl⟩

/-- **Regions with a single entry.** The first block of a region dominates the region just if the
entry of the function is no other block of it. -/
theorem exists_forall_entry_dominates_iff {m : Module} (hm : m.validate = .ok ()) {f : Function}
    (hf : f ∈ m.functions) :
    ∃ g, FlowGraph.ofFunction f = .ok g ∧ ∀ rm, ofFunction f g = .ok rm → ∀ r ∈ rm.regions,
      ((∀ b ∈ r.blocks, g.Dominates r.entry b) ↔ (g.entry ∈ r.blocks → g.entry = r.entry)) := by
  have hwf := Module.wellFormed_of_validate hm
  obtain ⟨g, hg, -⟩ := hwf.flow f hf
  refine ⟨g, hg, fun rm hrm r hr => ?_⟩
  have hregions := Function.hasRegions_of_regions (ofFunction_eq_ok hrm).1
  constructor
  · intro hdominates hmem
    -- the path that is the entry alone has no other block on it
    have hpath := (hdominates g.entry hmem).2.2 [] ⟨rfl, List.isChain_singleton _⟩
    exact (List.mem_singleton.1 hpath).symm
  · intro hentry b hb
    apply (hregions.reached hr hb).dominates_iff.2
    intro path hpath
    exact hregions.entry_mem_path hg (hwf.function f hf).blocks hr hentry hpath hb

theorem exists_forall_entry_dominates_patrolling :
    patrolling.validate = .ok () ∧ patrol ∈ patrolling.functions ∧
    ∃ g rm, FlowGraph.ofFunction patrol = .ok g ∧ ofFunction patrol g = .ok rm ∧
      rm.regions = patrolRegions ∧
      ∀ r ∈ rm.regions, ∀ b ∈ r.blocks, g.Dominates r.entry b := by
  obtain ⟨g, hg, hall⟩ :=
    exists_forall_entry_dominates_iff validate_patrolling patrol_mem_patrolling
  cases hg.symm.trans ofFunction_patrol
  obtain ⟨rm, hrm, hregions⟩ := exists_regions_patrol
  refine ⟨validate_patrolling, patrol_mem_patrolling, patrolGraph, rm, hg, hrm, hregions,
    fun r hr => ?_⟩
  apply (hall rm hrm r hr).2
  -- the entry of the function is in neither region
  rw [hregions] at hr
  intro hmem
  have hout : ∀ r ∈ patrolRegions, patrolGraph.entry ∉ r.blocks := by decide
  exact absurd hmem (hout r hr)

/-- A region from which control goes back to the entry of the function. -/
def rewind : Function :=
  ⟨"rewind",
    [⟨"entry", [⟨.jump, [], none, ["start"], none, none⟩]⟩,
      ⟨"start",
        [⟨.regionStart, [], none, [], none, none⟩,
          ⟨.branch, ["p"], none, ["entry", "out"], none, none⟩]⟩,
      ⟨"out", [⟨.ret, [], none, [], none, none⟩]⟩],
    [⟨"p", .pub⟩], none, []⟩

def rewinding : Module := ⟨"rewinding", [rewind], []⟩

/-- Its flow graph. -/
def rewindGraph : FlowGraph :=
  ⟨"entry", ⟨[("entry", ["start"]), ("start", ["entry", "out"]), ("out", [])]⟩, ["out"]⟩

/-- Its region is accepted although control comes into it at the entry of the function. -/
theorem not_dominates_rewinding : rewinding.validate = .ok () ∧ rewind ∈ rewinding.functions ∧
    ∃ g rm r, FlowGraph.ofFunction rewind = .ok g ∧ ofFunction rewind g = .ok rm ∧ r ∈ rm.regions ∧
      g.entry ∈ r.blocks ∧ ¬ g.Dominates r.entry g.entry := by
  refine ⟨rfl, List.mem_singleton.2 rfl, rewindGraph, _,
    ⟨"start", ["start", "entry", "out"], ["out"]⟩, rfl, rfl,
    List.mem_singleton.2 rfl, by decide, fun hdominates => ?_⟩
  have hpath : rewindGraph.IsPath ([] ++ ["entry"]) := by decide
  have hmem := hdominates.2.2 [] hpath
  revert hmem
  decide

end RegionMap

end ConstantTime
