/-
Whether a region is open, told from the markers that ran and from the blocks.

Along a path the markers open and close regions as they run, and whether one is open at an
instruction may depend on the path. The blocks of a region are found by a search that looks at no
path. The two agree: along every edge between reached blocks, the next block belongs to a region
just if it opens one or the block before belongs to one and does not close it. That is what running
the markers of the block before gives, so the answers agree at the start of every block of every
path, and then at each instruction, since a block has at most one marker of each kind and in order.

Two things are set apart. In the first block of a region the instructions before the marker that
opens it are not covered, even if control comes back with the region still open. And the entry of
the function, where nothing is open, must not lie in a region that it does not open itself.
-/
import ConstantTime.Proofs.FindingPlaces

set_option autoImplicit false

namespace ConstantTime

/-! ## Running the markers

Whether a region is open after some instructions is decided by the last marker among them. -/

/-- Whether a region is open behind an instruction, where `o` says whether one is open before it. -/
def Instr.leavesOpen (i : Instr) (o : Bool) : Bool :=
  if i.op = .regionStart then true else if i.op = .regionEnd then false else o

/-- Whether a region is open after instructions have run, where `o` says whether one was open
before. -/
def isOpenAfter (o : Bool) (ran : List Instr) : Bool := ran.foldl (fun o i => i.leavesOpen o) o

/-- Whether a region is open at an instruction that control comes to along a path. The marker that
opens a region is in it, and so is the one that closes it. -/
def Function.openAt (f : Function) (path : List String) (p : Placed) : Bool :=
  decide (p.instr.op = .regionStart) || isOpenAfter false (f.ranBefore path p)

/-- The instruction stands in the first block of a region, before the marker that opens it. -/
def Placed.IsBeforeStart (regions : List Region) (p : Placed) : Prop :=
  ∃ r ∈ regions, r.entry = p.block.id ∧ ∃ s ∈ p.block.positions .regionStart, p.index < s

/-- Instructions may be run in parts. -/
theorem isOpenAfter_append (o : Bool) (before after : List Instr) :
    isOpenAfter o (before ++ after) = isOpenAfter (isOpenAfter o before) after := List.foldl_append

/-- Where no marker opens a region, one stays open until a marker closes it. -/
theorem isOpenAfter_of_no_start (o : Bool) {ran : List Instr}
    (h : (ran.any fun i => decide (i.op = .regionStart)) = false) :
    isOpenAfter o ran = (o && !ran.any fun i => decide (i.op = .regionEnd)) := by
  induction ran generalizing o with
  | nil => simp [isOpenAfter]
  | cons i rest ih =>
    rw [List.any_cons, Bool.or_eq_false_iff, decide_eq_false_iff_not] at h
    have hleaves : i.leavesOpen o = (o && !decide (i.op = .regionEnd)) := by
      rw [Instr.leavesOpen, if_neg h.1]
      by_cases hop : i.op = .regionEnd <;> simp [hop]
    have hrest : isOpenAfter o (i :: rest) = isOpenAfter (i.leavesOpen o) rest := rfl
    rw [hrest, ih _ h.2, hleaves, List.any_cons, Bool.not_or, Bool.and_assoc]

namespace Block.Marked

variable {b : Block}

/-- A place is behind the end of a region if the marker stands before it. -/
theorem isBehindEnd_iff (hb : b.Marked) {n : Nat} :
    b.isBehindEnd n = true ↔ ∃ k ∈ b.positions .regionEnd, k < n := by
  have hunique := hb.end_unique
  rw [isBehindEnd]
  cases hends : b.positions .regionEnd with
  | nil => simp
  | cons e ends =>
    rw [hends] at hunique
    rw [decide_eq_true_iff]
    constructor
    · intro hlt
      exact ⟨e, List.mem_cons_self, hlt⟩
    · rintro ⟨k, hk, hlt⟩
      rw [hunique e List.mem_cons_self k hk]
      exact hlt

/-- At the end of a block, any marker that it has stands before. -/
theorem isBehindEnd_length (hb : b.Marked) : b.isBehindEnd b.instrs.length = b.endsRegion := by
  rw [Bool.eq_iff_iff, hb.isBehindEnd_iff, endsRegion, any_op_iff]
  exact ⟨fun ⟨k, hk, _⟩ => ⟨k, hk⟩, fun ⟨k, hk⟩ => ⟨k, hk, lt_length_of_mem_positions hk⟩⟩

/-- Of a part of a block that no end of a region comes before, the markers that close regions are
those of the whole. -/
theorem any_end_drop_take (hb : b.Marked) {m n : Nat} (hm : ∀ k ∈ b.positions .regionEnd, m ≤ k) :
    (((b.instrs.take n).drop m).any fun i => decide (i.op = .regionEnd)) = b.isBehindEnd n := by
  rw [Bool.eq_iff_iff, any_drop_take_iff, hb.isBehindEnd_iff]
  exact ⟨fun ⟨k, hk, _, hlt⟩ => ⟨k, hk, hlt⟩, fun ⟨k, hk, hlt⟩ => ⟨k, hk, hm k hk, hlt⟩⟩

/-- **Running the markers of a block** up to some position behind the one that opens a region, if
there is one. -/
theorem isOpenAfter_take (hb : b.Marked) (o : Bool) {n : Nat}
    (hn : ∀ s ∈ b.positions .regionStart, s < n) :
    isOpenAfter o (b.instrs.take n) = ((o || b.startsRegion) && !b.isBehindEnd n) := by
  cases hstarts : b.startsRegion with
  | false =>
    have hno : ((b.instrs.take n).any fun i => decide (i.op = .regionStart)) = false := by
      rw [Bool.eq_false_iff]
      intro hany
      obtain ⟨k, hk, -⟩ := (any_drop_take_iff (m := 0)).1 hany
      rw [startsRegion, any_op_iff.2 ⟨k, hk⟩] at hstarts
      cases hstarts
    have hends := hb.any_end_drop_take (m := 0) (n := n) fun k _ => Nat.zero_le k
    rw [List.drop_zero] at hends
    rw [isOpenAfter_of_no_start o hno, hends, Bool.or_false]
  | true =>
    obtain ⟨s, hs⟩ := any_op_iff.1 hstarts
    obtain ⟨i, hi, hop⟩ := mem_positions_iff.1 hs
    -- the marker opens a region, whatever ran before it, and no other follows
    have hopened : isOpenAfter o (b.instrs.take (s + 1)) = true := by
      rw [List.take_add_one, hi, Option.toList_some, isOpenAfter_append]
      exact if_pos hop
    have hno : (((b.instrs.take n).drop (s + 1)).any fun i => decide (i.op = .regionStart)) =
        false := by
      rw [Bool.eq_false_iff, Ne, any_drop_take_iff]
      rintro ⟨k, hk, hle, -⟩
      have hsame := hb.start_unique s hs k hk
      omega
    have hsplit : b.instrs.take n = b.instrs.take (s + 1) ++ (b.instrs.take n).drop (s + 1) := by
      have hfirst : b.instrs.take (s + 1) = (b.instrs.take n).take (s + 1) := by
        rw [List.take_take, Nat.min_eq_left (hn s hs)]
      rw [hfirst, List.take_append_drop]
    rw [hsplit, isOpenAfter_append, hopened, isOpenAfter_of_no_start true hno,
      hb.any_end_drop_take fun k hk => hb.start_lt_end s hs k hk, Bool.or_true]

end Block.Marked

/-! ## Membership along edges

The search for the blocks of a region is compared with one step of a path. The checks of entrances
are used here: an edge from outside leads to a first block only. -/

namespace Function

variable {f : Function} {g : FlowGraph}

/-- A block closes a region if it has a marker for it. -/
theorem closesRegion_id (hf : (f.blocks.map Block.id).Nodup) {b : Block} (hb : b ∈ f.blocks) :
    f.closesRegion b.id = b.endsRegion := by
  rw [closesRegion, block?_id hf hb, Option.map_some, Option.getD_some]

namespace HasRegions

variable {regions : List Region}

/-- A reached block that opens a region belongs to it. -/
theorem isSome_regionOf?_of_startsRegion (h : f.HasRegions g regions) {b : Block}
    (hb : b ∈ f.blocks) (hstarts : b.startsRegion = true) (hreached : g.Reached b.id) :
    (regionOf? regions b.id).isSome = true := by
  obtain ⟨r, hr, hentry⟩ := h.found b.id ⟨b, hb, rfl, hstarts, hreached⟩
  refine isSome_regionOf?_iff.2 ⟨r, hr, ?_⟩
  rw [(h.grown r hr).mem_blocks, hentry]
  exact Relation.ReflTransGen.refl

/-- Where the entry of a function is no inner block of a region, it belongs to a region only by
opening it. -/
theorem isSome_regionOf?_entry (h : f.HasRegions g regions)
    (hf : (f.blocks.map Block.id).Nodup) {b : Block} (hb : b ∈ f.blocks) (hfirst : b.id = g.entry)
    (hentry : ∀ r ∈ regions, g.entry ∈ r.blocks → g.entry = r.entry) :
    (regionOf? regions b.id).isSome = b.startsRegion := by
  rw [Bool.eq_iff_iff]
  constructor
  · intro hsome
    obtain ⟨r, hr, hmem⟩ := isSome_regionOf?_iff.1 hsome
    rw [hfirst] at hmem
    exact h.startsRegion_eq hf hr hb (hfirst.trans (hentry r hr hmem))
  · intro hstarts
    refine h.isSome_regionOf?_of_startsRegion hb hstarts ⟨[], ?_⟩
    rw [hfirst]
    exact ⟨rfl, List.isChain_singleton _⟩

/-- **Membership along an edge.** Behind a reached block, a block belongs to a region just if it
opens one, or the block before belongs to one and does not close it. -/
theorem isSome_regionOf?_of_mem_succs (h : f.HasRegions g regions)
    (hg : FlowGraph.ofFunction f = .ok g) (hf : (f.blocks.map Block.id).Nodup) {a b : Block}
    (ha : a ∈ f.blocks) (hb : b ∈ f.blocks) (hreached : g.Reached a.id)
    (hedge : b.id ∈ g.succs a.id) :
    (regionOf? regions b.id).isSome =
      ((regionOf? regions a.id).isSome && !a.endsRegion || b.startsRegion) := by
  rw [Bool.eq_iff_iff, Bool.or_eq_true, Bool.and_eq_true, Bool.not_eq_true',
    ← closesRegion_id hf ha]
  constructor
  · intro hsome
    obtain ⟨r, hr, hmem⟩ := isSome_regionOf?_iff.1 hsome
    by_cases hentry : b.id = r.entry
    · exact .inr (h.startsRegion_eq hf hr hb hentry)
    · obtain ⟨hbefore, hclose⟩ :=
        (h.grown r hr).entered b.id hmem hentry a.id
          ((FlowGraph.mem_preds_iff hg hf).2 hedge) hreached
      exact .inl ⟨isSome_regionOf?_iff.2 ⟨r, hr, hbefore⟩, hclose⟩
  · rintro (⟨hsome, hclose⟩ | hstarts)
    · obtain ⟨r, hr, hmem⟩ := isSome_regionOf?_iff.1 hsome
      exact isSome_regionOf?_iff.2 ⟨r, hr, h.mem_blocks_of_mem_succs hr hmem hclose hedge⟩
    · obtain ⟨path, hpath⟩ := hreached
      exact h.isSome_regionOf?_of_startsRegion hb hstarts
        ⟨path ++ [a.id], FlowGraph.isPath_concat.2 ⟨hpath, hedge⟩⟩

/-! ## Covered instructions

Inside a block the answer depends on the place of the instruction, before or behind the markers of
the block. -/

/-- Behind the marker that opens a region, if the block has one, an instruction is covered just if
its block belongs to a region and no end of it comes before. -/
theorem covered_eq (h : f.HasRegions g regions) (hf : (f.blocks.map Block.id).Nodup) {b : Block}
    (hb : b ∈ f.blocks) {index : Nat} (hindex : ∀ s ∈ b.positions .regionStart, s ≤ index) :
    covered regions b index = .ok ((regionOf? regions b.id).isSome && !b.isBehindEnd index) := by
  unfold covered
  split
  · next hnone => rw [hnone]; rfl
  · next r hr =>
    rw [hr, Option.isSome_some, Bool.true_and]
    split
    · next hentry =>
      have hstarts := h.startsRegion_eq hf (mem_of_regionOf?_eq_some hr).1 hb hentry
      obtain ⟨s, hs⟩ := Block.any_op_iff.1 hstarts
      split
      · next start _ hpositions =>
        rw [decide_eq_true (hindex start (hpositions ▸ List.mem_cons_self)), Bool.true_and]
      · next hnil => exact absurd (hnil ▸ hs) List.not_mem_nil
    · rfl

/-- No marker that opens a region comes behind what does not stand before the start of one. -/
theorem le_index_of_not_isBeforeStart (h : f.HasRegions g regions) {p : Placed}
    (hp : p.block ∈ f.blocks) (hreached : g.Reached p.block.id)
    (hstart : ¬ p.IsBeforeStart regions) :
    ∀ s ∈ p.block.positions .regionStart, s ≤ p.index := by
  intro s hs
  by_contra hlt
  obtain ⟨r, hr, hentry⟩ :=
    h.found p.block.id ⟨p.block, hp, rfl, Block.any_op_iff.2 ⟨s, hs⟩, hreached⟩
  exact hstart ⟨r, hr, hentry, s, hs, Nat.lt_of_not_le hlt⟩

/-- Before the marker that opens a region nothing is covered. -/
theorem not_isBeforeStart_of_covered (h : f.HasRegions g regions) {p : Placed}
    (hb : p.block ∈ f.blocks) (hcovered : covered regions p.block p.index = .ok true) :
    ¬ p.IsBeforeStart regions := by
  rintro ⟨opened, hopened, hentry, s, hs, hlt⟩
  unfold covered at hcovered
  split at hcovered
  · cases hcovered
  · next r hr =>
    obtain ⟨hmem, hblock⟩ := mem_of_regionOf?_eq_some hr
    -- no region is opened inside another, so the block is the first of its region
    have hfirst := (h.grown r hmem).flat p.block.id hblock (hentry ▸ h.opened opened hopened)
    rw [if_pos hfirst] at hcovered
    split at hcovered
    · next start _ hpositions =>
      have hsame := (h.marked p.block hb).start_unique s hs start (hpositions ▸ List.mem_cons_self)
      have hle := (Bool.and_eq_true_iff.1 (Except.ok.inj hcovered)).1
      rw [decide_eq_true_iff] at hle
      omega
    · cases hcovered

/-! ## Along paths

By induction on the path, the region is open at the start of a block exactly if the block is in one
and does not open it. The instructions of the last block then follow. -/

section Paths

variable (h : f.HasRegions g regions) (hg : FlowGraph.ofFunction f = .ok g)
    (hf : (f.blocks.map Block.id).Nodup)
  (hentry : ∀ r ∈ regions, g.entry ∈ r.blocks → g.entry = r.entry)

include h hg hf hentry

/-- **At the start of every block of every path**, a region is open or opened by the block just if
the block belongs to one. -/
theorem isOpenAfter_executed {path : List String} {b : Block} (hb : b ∈ f.blocks)
    (hpath : g.IsPath (path ++ [b.id])) :
    (isOpenAfter false (f.executed path) || b.startsRegion) = (regionOf? regions b.id).isSome := by
  induction path using List.reverseRecOn generalizing b with
  | nil =>
    rw [h.isSome_regionOf?_entry hf hb (Option.some.inj hpath.1) hentry]
    exact Bool.false_or _
  | append_singleton path name ih =>
    obtain ⟨hbefore, hedge⟩ := FlowGraph.isPath_concat.1 hpath
    have hname : name ∈ g.blocks := Digraph.Edge.mem_nodes hedge
    rw [FlowGraph.blocks_eq hg] at hname
    obtain ⟨a, ha, rfl⟩ := List.mem_map.1 hname
    -- the block before ran from its first instruction to its last
    have hrun :=
      (h.marked a ha).isOpenAfter_take (isOpenAfter false (f.executed path)) (n := a.instrs.length)
      fun s hs => Block.lt_length_of_mem_positions hs
    rw [List.take_length, ih ha hbefore, (h.marked a ha).isBehindEnd_length] at hrun
    rw [executed_concat, instrsOf_eq hf ha, isOpenAfter_append, hrun,
      h.isSome_regionOf?_of_mem_succs hg hf ha hb ⟨path, hbefore⟩ hedge]

/-- **Along every path an instruction is covered just if a region is open there.** -/
theorem covered_eq_openAt {p : Placed} (hp : p ∈ f.placed) (hstart : ¬ p.IsBeforeStart regions)
    {path : List String} (hpath : g.IsPath (path ++ [p.block.id])) :
    covered regions p.block p.index = .ok (f.openAt path p) := by
  obtain ⟨hb, hi⟩ := mem_placed_iff.1 hp
  have hle := h.le_index_of_not_isBeforeStart hb ⟨path, hpath⟩ hstart
  have hmarked := h.marked p.block hb
  rw [h.covered_eq hf hb hle, openAt]
  by_cases hop : p.instr.op = .regionStart
  · -- the marker itself: it opens the region, and the end comes later
    have hs : p.index ∈ p.block.positions .regionStart :=
      Block.mem_positions_iff.2 ⟨p.instr, hi, hop⟩
    have hsome :=
      h.isSome_regionOf?_of_startsRegion hb (Block.any_op_iff.2 ⟨p.index, hs⟩) ⟨path, hpath⟩
    have hend : p.block.isBehindEnd p.index = false := by
      rw [Bool.eq_false_iff, Ne, hmarked.isBehindEnd_iff]
      rintro ⟨k, hk, hlt⟩
      have hlater := hmarked.start_lt_end p.index hs k hk
      omega
    rw [hsome, hend, decide_eq_true hop]
    rfl
  · have hlt : ∀ s ∈ p.block.positions .regionStart, s < p.index := by
      intro s hs
      refine Nat.lt_of_le_of_ne (hle s hs) fun heq => hop ?_
      obtain ⟨i, hi', hop'⟩ := Block.mem_positions_iff.1 hs
      rw [heq, hi] at hi'
      rw [Option.some.inj hi']
      exact hop'
    rw [decide_eq_false hop, Bool.false_or, ranBefore, isOpenAfter_append,
      hmarked.isOpenAfter_take _ hlt, h.isOpenAfter_executed hg hf hentry hb hpath]

/-- The instructions that are covered, told from the paths. -/
theorem covered_eq_true_iff {p : Placed} (hp : p ∈ f.placed) :
    covered regions p.block p.index = .ok true ↔
      ¬ p.IsBeforeStart regions ∧ ∃ path, g.IsPath (path ++ [p.block.id]) ∧
        f.openAt path p = true := by
  constructor
  · intro hcovered
    have hstart := h.not_isBeforeStart_of_covered (mem_placed_iff.1 hp).1 hcovered
    obtain ⟨r, hr⟩ := exists_regionOf?_of_covered hcovered
    obtain ⟨hmem, hblock⟩ := mem_of_regionOf?_eq_some hr
    obtain ⟨path, hpath⟩ := h.reached hmem hblock
    rw [h.covered_eq_openAt hg hf hentry hp hstart hpath] at hcovered
    exact ⟨hstart, path, hpath, Except.ok.inj hcovered⟩
  · rintro ⟨hstart, path, hpath, hopen⟩
    rw [h.covered_eq_openAt hg hf hentry hp hstart hpath, hopen]

/-- If a region is open at an instruction on one path, it is on all. -/
theorem exists_openAt_iff {p : Placed} (hp : p ∈ f.placed) (hstart : ¬ p.IsBeforeStart regions) :
    (∃ path, g.IsPath (path ++ [p.block.id]) ∧ f.openAt path p = true) ↔
      g.Reached p.block.id ∧ ∀ path, g.IsPath (path ++ [p.block.id]) → f.openAt path p = true := by
  constructor
  · rintro ⟨path, hpath, hopen⟩
    refine ⟨⟨path, hpath⟩, fun path' hpath' => ?_⟩
    have hcovered := h.covered_eq_openAt hg hf hentry hp hstart hpath'
    rw [h.covered_eq_openAt hg hf hentry hp hstart hpath, hopen] at hcovered
    exact (Except.ok.inj hcovered).symm
  · rintro ⟨⟨path, hpath⟩, hall⟩
    exact ⟨path, hpath, hall path hpath⟩

end Paths

end HasRegions

end Function

/-! ## Findings at indirect sites

A site is reported if it is covered and has not exactly one target. The findings are matched with
the sites, one for each. -/

/-- An indirect branch or call with other than one destination. -/
structure Placed.IsDynamic (p : Placed) : Prop where
  indirect : p.instr.op.isIndirect = true
  targets : p.instr.distinctTargets.length ≠ 1

/-- Exactly one target is a resolved one. -/
theorem Resolution.ofTargets_ne_resolved_iff {targets : List String} :
    ofTargets targets ≠ .resolved ↔ targets.length ≠ 1 := by
  rcases targets with _ | ⟨_, _ | _⟩ <;> simp [ofTargets]

/-- Where an indirect site stands, as findings say it. -/
def IndirectSite.place (s : IndirectSite) : String × Int := (s.block, s.index)

/-- What the site of an indirect branch or call says of it. -/
theorem Function.indirectSite_spec {regions : List Region} {p : Placed} {s : IndirectSite}
    (h : indirectSite regions p = .ok s) :
    s.place = p.place ∧ covered regions p.block p.index = .ok s.inRegion ∧
      (s.isDynamic = true ↔ p.instr.distinctTargets.length ≠ 1) := by
  unfold indirectSite at h
  split at h
  · cases h
  · next hcovered =>
    cases h
    exact ⟨rfl, hcovered, decide_eq_true_iff.trans Resolution.ofTargets_ne_resolved_iff⟩

namespace Context

variable {c : Context} {found : List Finding}

/-- A site is reported at its own place. -/
theorem isFindingAt_of_siteFinding {s : IndirectSite} {x : Finding} (h : c.siteFinding s = .ok x) :
    c.IsFindingAt .indirectBranch s.place x :=
  (madeAt_of_siteFinding h).isFindingAt

/-- A finding stands at an indirect branch or call that is covered and has other than one
destination. -/
theorem exists_of_mem_indirectBranches (hc : c.Proper) (hfound : c.indirectBranches = .ok found)
    {x : Finding} (hx : x ∈ found) :
    ∃ p ∈ c.function.placed, p.IsDynamic ∧ covered c.regions.regions p.block p.index = .ok true ∧
      c.IsFindingAt .indirectBranch p.place x := by
  obtain ⟨s, hs, hfinding⟩ := (mem_collect_iff hfound).1 hx
  rw [List.mem_filter, Bool.and_eq_true] at hs
  obtain ⟨p, hp, hsite⟩ := (mem_collect_iff (RegionMap.ofFunction_eq_ok hc.regions).2).1 hs.1
  rw [List.mem_filter] at hp
  obtain ⟨hplace, hcovered, hdynamic⟩ := Function.indirectSite_spec hsite
  rw [hs.2.1] at hcovered
  exact ⟨p, hp.1, ⟨hp.2, hdynamic.1 hs.2.2⟩, hcovered, hplace ▸ isFindingAt_of_siteFinding hfinding⟩

/-- Every such branch or call has a finding. -/
theorem exists_mem_indirectBranches (hc : c.Proper) (hfound : c.indirectBranches = .ok found)
    {p : Placed} (hp : p ∈ c.function.placed) (hdynamic : p.IsDynamic)
    (hcovered : covered c.regions.regions p.block p.index = .ok true) :
    ∃ x ∈ found, x.instrPlace = p.place := by
  have hall := forall₂_of_collect_eq_ok (RegionMap.ofFunction_eq_ok hc.regions).2
  obtain ⟨s, hs, hsite⟩ := exists_of_mem_of_forall₂ hall (List.mem_filter.2 ⟨hp, hdynamic.indirect⟩)
  obtain ⟨hplace, hcovered', htargets⟩ := Function.indirectSite_spec hsite
  have hin : s.inRegion = true := Except.ok.inj (hcovered'.symm.trans hcovered)
  have hreported : (s.inRegion && s.isDynamic) = true := by
    rw [hin, htargets.2 hdynamic.targets, Bool.and_self]
  obtain ⟨x, hx, hfinding⟩ :=
    exists_of_mem_of_forall₂ (forall₂_of_collect_eq_ok hfound) (List.mem_filter.2 ⟨hs, hreported⟩)
  exact ⟨x, hx, (isFindingAt_of_siteFinding hfinding).place.trans hplace⟩

/-- No place has two findings, because no two sites share a place. -/
theorem nodup_places_of_indirectBranches (hc : c.Proper) (hfound : c.indirectBranches = .ok found) :
    (found.map Finding.instrPlace).Nodup := by
  have hsites :=
    map_eq_map_of_collect Placed.place IndirectSite.place (RegionMap.ofFunction_eq_ok hc.regions).2
    fun p _ s hs => (Function.indirectSite_spec hs).1
  have hplaces := map_eq_map_of_collect IndirectSite.place Finding.instrPlace hfound
    fun s _ x hx => (isFindingAt_of_siteFinding hx).place
  have hnodup : (c.regions.sites.map IndirectSite.place).Nodup := by
    rw [hsites]
    exact (Function.nodup_places hc.wellFormed.blocks).sublist (List.filter_sublist.map _)
  rw [hplaces]
  exact hnodup.sublist (List.filter_sublist.map _)

/-- Findings at the indirect branches and calls with other than one destination at which a region
is open on some path and that do not stand before its start, one at each, and nowhere else. -/
structure ReportsOpenSites (c : Context) (found : List Finding) : Prop where
  only : ∀ x ∈ found, ∃ p ∈ c.function.placed, p.IsDynamic ∧ ¬ p.IsBeforeStart c.regions.regions ∧
    (∃ path, c.graph.IsPath (path ++ [p.block.id]) ∧ c.function.openAt path p = true) ∧
    c.IsFindingAt .indirectBranch p.place x
  once : ∀ p ∈ c.function.placed, p.IsDynamic → ¬ p.IsBeforeStart c.regions.regions →
    (∃ path, c.graph.IsPath (path ++ [p.block.id]) ∧ c.function.openAt path p = true) →
    (found.countP fun x => x.block = p.block.id ∧ x.index = (p.index : Int)) = 1

/-- **The findings at indirect sites are exact**, where the entry of the function is no inner block
of a region. -/
theorem Proper.exists_reportsOpenSites (hc : c.Proper)
    (hentry : ∀ r ∈ c.regions.regions, c.graph.entry ∈ r.blocks → c.graph.entry = r.entry) :
    ∃ found, c.indirectBranches = .ok found ∧ c.ReportsOpenSites found := by
  obtain ⟨found, hfound⟩ := hc.exists_indirectBranches
  have hregions := Function.hasRegions_of_regions (RegionMap.ofFunction_eq_ok hc.regions).1
  have hblocks := hc.wellFormed.blocks
  refine ⟨found, hfound, fun x hx => ?_, fun p hp hdynamic hstart hopen => ?_⟩
  · obtain ⟨p, hp, hdynamic, hcovered, hat⟩ := exists_of_mem_indirectBranches hc hfound hx
    obtain ⟨hstart, hopen⟩ := (hregions.covered_eq_true_iff hc.graph hblocks hentry hp).1 hcovered
    exact ⟨p, hp, hdynamic, hstart, hopen, hat⟩
  · have hcovered := (hregions.covered_eq_true_iff hc.graph hblocks hentry hp).2 ⟨hstart, hopen⟩
    obtain ⟨x, hx, hplace⟩ := exists_mem_indirectBranches hc hfound hp hdynamic hcovered
    exact countP_place_eq_one (nodup_places_of_indirectBranches hc hfound) hx hplace

end Context

/-! ## Functions of a validated module

The statement for callers: what the region map says about a place is what running the markers on
any path to it gives. -/

namespace RegionMap

/-- **Regions and markers agree.** Where the entry of the function is no inner block of a region,
an instruction that does not stand before the start of its region is covered just if the markers
that ran along the path have left a region open there, whatever the path; and the findings at
indirect sites are those where one is open. -/
theorem exists_forall_covers_eq_openAt {m : Module} (hm : m.validate = .ok ()) {f : Function}
    (hf : f ∈ m.functions) :
    ∃ g, FlowGraph.ofFunction f = .ok g ∧ ∀ rm, ofFunction f g = .ok rm →
      (∀ r ∈ rm.regions, g.entry ∈ r.blocks → g.entry = r.entry) →
      (∀ p ∈ f.placed, ¬ p.IsBeforeStart rm.regions →
        (∀ path, g.IsPath (path ++ [p.block.id]) →
          rm.covers p.block p.index = .ok (f.openAt path p)) ∧
          ((∃ path, g.IsPath (path ++ [p.block.id]) ∧ f.openAt path p = true) ↔
            g.Reached p.block.id ∧ ∀ path, g.IsPath (path ++ [p.block.id]) →
              f.openAt path p = true)) ∧
      ∀ c : Context, c.module = m → c.function = f → c.graph = g → c.regions = rm →
        ∃ found, c.indirectBranches = .ok found ∧ c.ReportsOpenSites found := by
  have hwf := Module.wellFormed_of_validate hm
  obtain ⟨g, hg, -⟩ := hwf.flow f hf
  have hblocks := (hwf.function f hf).blocks
  refine ⟨g, hg, fun rm hrm hentry => ⟨fun p hp hstart => ⟨fun path hpath => ?_, ?_⟩, ?_⟩⟩
  · exact (Function.hasRegions_of_regions (ofFunction_eq_ok hrm).1).covered_eq_openAt hg hblocks
      hentry hp hstart hpath
  · exact (Function.hasRegions_of_regions (ofFunction_eq_ok hrm).1).exists_openAt_iff hg hblocks
      hentry hp hstart
  · rintro c rfl rfl rfl rfl
    exact Context.Proper.exists_reportsOpenSites ⟨hwf, hf, hg, hrm⟩ hentry

/-- The call in the loop of the first region. -/
def patrolCall : Placed :=
  ⟨⟨"work",
    [⟨.indirectCall, ["p"], none, [], none, none⟩, ⟨.jump, [], none, ["first"], none, none⟩]⟩, 0,
    ⟨.indirectCall, ["p"], none, [], none, none⟩⟩

/-- The call is covered, also the second time around, and reported once. -/
theorem exists_forall_covers_eq_openAt_patrolling :
    patrolling.validate = .ok () ∧ patrol ∈ patrolling.functions ∧
    ∃ g rm, FlowGraph.ofFunction patrol = .ok g ∧ ofFunction patrol g = .ok rm ∧
      (∀ r ∈ rm.regions, g.entry ∈ r.blocks → g.entry = r.entry) ∧
        ¬ patrolCall.IsBeforeStart rm.regions ∧
      patrol.openAt ["entry", "first", "work", "first"] patrolCall = true ∧
      rm.covers patrolCall.block patrolCall.index = .ok true ∧
      ∀ c : Context, c.module = patrolling → c.function = patrol → c.graph = g → c.regions = rm →
        ∃ found, c.indirectBranches = .ok found ∧
          (found.countP fun x => x.block = "work" ∧ x.index = (0 : Int)) = 1 := by
  obtain ⟨g, hg, hall⟩ := exists_forall_covers_eq_openAt validate_patrolling patrol_mem_patrolling
  cases hg.symm.trans ofFunction_patrol
  obtain ⟨rm, hrm, hregions⟩ := exists_regions_patrol
  have hentry : ∀ r ∈ rm.regions, patrolGraph.entry ∈ r.blocks → patrolGraph.entry = r.entry := by
    rw [hregions]
    decide
  have hstart : ¬ patrolCall.IsBeforeStart rm.regions := by
    rw [hregions]
    rintro ⟨r, hr, hid, -⟩
    have hout : ∀ r ∈ patrolRegions, r.entry ≠ patrolCall.block.id := by decide
    exact hout r hr hid
  have hp : patrolCall ∈ patrol.placed := Function.mem_placed_iff.2 ⟨by decide, rfl⟩
  have hpath : patrolGraph.IsPath
      (["entry", "first", "work", "first"] ++ [patrolCall.block.id]) := by decide
  have hopen : patrol.openAt ["entry", "first", "work", "first"] patrolCall = true := by decide
  obtain ⟨hmembership, hreports⟩ := hall rm hrm hentry
  have hcovers := (hmembership patrolCall hp hstart).1 _ hpath
  rw [hopen] at hcovers
  refine ⟨validate_patrolling, patrol_mem_patrolling, patrolGraph, rm, hg, hrm, hentry, hstart,
    hopen, hcovers, ?_⟩
  intro c hmodule hfunction hgraph hmap
  obtain ⟨found, hfound, hexact⟩ := hreports c hmodule hfunction hgraph hmap
  have honce := hexact.once patrolCall
  rw [hfunction, hgraph, hmap] at honce
  exact ⟨found, hfound, honce hp ⟨rfl, by decide⟩ hstart ⟨_, hpath, hopen⟩⟩

end RegionMap

end ConstantTime
