/-
When the regions of a function are accepted.

The checks grow one region after the other and stop at the first thing wrong. What they ask in all
is said here without an order: the markers of every block are in order, every region is flat,
entered through its first block only and left somewhere, and every end of a region that is reached
belongs to one. That no two regions overlap is checked as well, but follows from the rest: a block
of two regions is led back, along the way from the one first block and through the only entrance of
the other region, to a first block that lies in a region opened elsewhere.
-/
import ConstantTime.Proofs.OpenRegions

set_option autoImplicit false

namespace ConstantTime

/-! ## Markers

The check of markers asks of each block exactly what `Marked` says. -/

/-- A position is listed once. -/
theorem Block.nodup_positions (b : Block) (op : Opcode) : (b.positions op).Nodup := by
  have hsub : (b.positions op).Sublist (b.instrs.zipIdx.map Prod.snd) :=
    List.filter_sublist.map Prod.snd
  rw [List.zipIdx_map_snd] at hsub
  exact hsub.nodup List.nodup_range'

/-- A list without repetition whose members are all equal has at most one. -/
theorem eq_nil_or_eq_singleton {α : Type} {xs : List α} (hn : xs.Nodup)
    (h : ∀ x ∈ xs, ∀ y ∈ xs, x = y) :
    xs = [] ∨ ∃ x, xs = [x] := by
  rcases xs with _ | ⟨x, _ | ⟨y, rest⟩⟩
  · exact .inl rfl
  · exact .inr ⟨x, rfl⟩
  · rw [h y (by simp) x (by simp)] at hn
    simp at hn

/-- If every block is marked properly, the check of markers passes. -/
theorem Function.markerViolation?_eq_none {f : Function} (h : ∀ b ∈ f.blocks, b.Marked) :
    f.markerViolation? = none := by
  rw [markerViolation?, List.findSome?_eq_none_iff]
  intro b hb
  obtain ⟨hstart, hend, hlt⟩ := h b hb
  rcases eq_nil_or_eq_singleton (b.nodup_positions _) hstart with hs | ⟨s, hs⟩
  · rcases eq_nil_or_eq_singleton (b.nodup_positions _) hend with he | ⟨e, he⟩ <;>
      simp only [hs, he]
  · rcases eq_nil_or_eq_singleton (b.nodup_positions _) hend with he | ⟨e, he⟩
    · simp only [hs, he]
    · have hbefore := hlt s (by simp [hs]) e (by simp [he])
      simp only [hs, he, if_neg (Nat.not_lt.2 (Nat.le_of_lt hbefore))]

/-! ## Growing one region

The conditions of one region, read off in the order in which they are checked and then put back
together. -/

namespace Function

variable {f : Function} {g : FlowGraph}

/-- A region can be grown from the block: no other region is opened in it, it is only entered
through the block, and it is left somewhere. -/
structure CanGrow (f : Function) (g : FlowGraph) (entry : String) : Prop where
  flat : ∀ b, (f.regionGraph g).Reaches entry b → f.OpensRegion g b → b = entry
  entered : ∀ b, (f.regionGraph g).Reaches entry b → b ≠ entry → ∀ p ∈ g.preds b, g.Reached p →
    (f.regionGraph g).Reaches entry p ∧ f.closesRegion p = false
  left : ∃ b ∈ f.blocks, (f.regionGraph g).Reaches entry b.id ∧
    (b.endsRegion = true ∨ b.id ∈ g.exits)

/-- The members of a region are what its first block leads to before a region ends. -/
theorem mem_reach_regionGraph_iff {entry b : String} :
    b ∈ (f.regionGraph g).reach [entry] ↔ (f.regionGraph g).Reaches entry b := by
  rw [Digraph.mem_reach_iff]
  simp

/-- A region that was grown could grow. -/
theorem canGrow_of_growRegion {entry : String} {r : Region}
    (h : f.growRegion g g.reachable (f.regionStarts g) entry = .ok r) : f.CanGrow g entry := by
  obtain ⟨rfl, hgrown⟩ := grown_of_growRegion h
  refine ⟨fun b hb => hgrown.flat b ((hgrown.mem_blocks b).2 hb),
    fun b hb hne p hp hreached => ?_, ?_⟩
  · obtain ⟨hmem, hopen⟩ := hgrown.entered b ((hgrown.mem_blocks b).2 hb) hne p hp hreached
    exact ⟨(hgrown.mem_blocks p).1 hmem, hopen⟩
  · unfold growRegion at h
    dsimp only at h
    split at h
    · cases h
    · split at h
      · cases h
      · split at h
        · cases h
        · next hexits =>
          obtain ⟨name, hname⟩ := List.exists_mem_of_ne_nil _ (mt List.isEmpty_iff.2 hexits)
          obtain ⟨b, hb, -⟩ := List.mem_map.1 hname
          rw [List.mem_filter, Bool.and_eq_true, decide_eq_true_iff, Bool.or_eq_true,
            decide_eq_true_iff, mem_reach_regionGraph_iff] at hb
          exact ⟨b, hb⟩

/-- And one that can grow is grown. -/
theorem exists_growRegion {entry : String} (h : f.CanGrow g entry) :
    ∃ r, f.growRegion g g.reachable (f.regionStarts g) entry = .ok r := by
  have hnested : ((f.regionGraph g).reach [entry]).find?
      (fun b => decide (b ≠ entry) && decide (b ∈ f.regionStarts g)) = none := by
    rw [List.find?_eq_none]
    intro b hb hinner
    rw [Bool.and_eq_true, decide_eq_true_iff, decide_eq_true_iff, mem_regionStarts_iff] at hinner
    exact hinner.1 (h.flat b (mem_reach_regionGraph_iff.1 hb) hinner.2)
  have hentrance : f.entranceViolation? g g.reachable entry ((f.regionGraph g).reach [entry]) =
      none := by
    rw [entranceViolation?, List.findSome?_eq_none_iff]
    intro b hb
    by_cases hne : b = entry
    · rw [if_pos hne]
    · rw [if_neg hne, List.findSome?_eq_none_iff]
      intro p hp
      -- edges from blocks that are never reached do not count
      by_cases hreached : g.Reached p
      · obtain ⟨hmem, hopen⟩ := h.entered b (mem_reach_regionGraph_iff.1 hb) hne p hp hreached
        rw [if_neg (not_not.2 (FlowGraph.mem_reachable_iff.2 hreached)),
          if_neg (not_not.2 (mem_reach_regionGraph_iff.2 hmem)), hopen]
        rfl
      · rw [if_pos (mt FlowGraph.mem_reachable_iff.1 hreached)]
  obtain ⟨b, hb, hmem, hleft⟩ := h.left
  have hexits : b.id ∈ (f.blocks.filter fun b => decide (b.id ∈ (f.regionGraph g).reach [entry]) &&
      (b.endsRegion || decide (b.id ∈ g.exits))).map Block.id := by
    refine List.mem_map_of_mem (List.mem_filter.2 ⟨hb, ?_⟩)
    rw [Bool.and_eq_true, decide_eq_true_iff, Bool.or_eq_true, decide_eq_true_iff,
      mem_reach_regionGraph_iff]
    exact ⟨hmem, hleft⟩
  unfold growRegion
  dsimp only
  rw [hnested, hentrance]
  dsimp only
  rw [if_neg fun hnil => List.ne_nil_of_mem hexits (List.isEmpty_iff.1 hnil)]
  exact ⟨_, rfl⟩

/-! ## Growing all regions

A region is refused if it overlaps one grown before. That never happens to regions that can grow,
since their first blocks differ. -/

variable (hg : FlowGraph.ofFunction f = .ok g) (hf : (f.blocks.map Block.id).Nodup)

include hg hf

omit hg in
/-- No block opens two regions. -/
theorem nodup_regionStarts : (f.regionStarts g).Nodup := (List.filter_sublist.map Block.id).nodup hf

/-- **Regions do not overlap.** Two regions that were opened and grown have no block in common,
unless they are opened at the same block. -/
theorem entry_eq_of_grown {r r' : Region} (hr : r.Grown f g) (hr' : r'.Grown f g)
    (hopens : f.OpensRegion g r.entry) (hopens' : f.OpensRegion g r'.entry) {b : String}
    (hb : b ∈ r.blocks) (hb' : b ∈ r'.blocks) : r.entry = r'.entry := by
  -- the way from the first block of the one region is followed back through the other
  have hway := (hr.mem_blocks b).1 hb
  clear hb
  induction hway with
  | refl => exact hr'.flat _ hb' hopens
  | @tail a b hbefore hedge ih =>
    by_cases hfirst : b = r'.entry
    · have hinner := (hr.mem_blocks b).2 (hbefore.tail hedge)
      rw [hfirst] at hinner
      exact (hr.flat _ hinner hopens').symm
    · have hpred := (FlowGraph.mem_preds_iff hg hf).2 (edge_regionGraph_iff.1 hedge).2
      exact ih (hr'.entered b hb' hfirst a hpred (reached_of_regionGraph hopens.reached hbefore)).1

/-- What was opened before the regions at `entries`: grown regions that are opened elsewhere. -/
def OpenedBefore (f : Function) (g : FlowGraph) (entries : List String) (done : List Region) :
    Prop :=
  ∀ r ∈ done, r.Grown f g ∧ f.OpensRegion g r.entry ∧ r.entry ∉ entries

/-- A region that can be grown is never refused for a block of a region opened before. -/
theorem growRegions_cons {entry : String} {rest : List String} {done : List Region} {r : Region}
    (hn : entry ∉ rest) (hopens : f.OpensRegion g entry)
    (hdone : f.OpenedBefore g (entry :: rest) done)
    (hr : f.growRegion g g.reachable (f.regionStarts g) entry = .ok r) :
    f.growRegions g g.reachable (f.regionStarts g) done (entry :: rest) =
        f.growRegions g g.reachable (f.regionStarts g) (done ++ [r]) rest ∧
      f.OpenedBefore g rest (done ++ [r]) := by
  obtain ⟨rfl, hgrown⟩ := grown_of_growRegion hr
  -- a common block would make the first blocks equal, and this one was not used yet
  have hapart : ∀ b ∈ r.blocks, regionOf? done b = none := by
    intro b hb
    rw [regionOf?_eq_none_iff]
    intro r' hr' hb'
    obtain ⟨hgrown', hopens', hnot⟩ := hdone r' hr'
    rw [entry_eq_of_grown hg hf hgrown' hgrown hopens' hopens hb' hb] at hnot
    exact hnot List.mem_cons_self
  have hoverlap : (r.blocks.findSome? fun b => (regionOf? done b).map fun other =>
      (⟨.overlappingRegions other.entry r.entry, f.id, b⟩ : Malformed)) = none := by
    rw [List.findSome?_eq_none_iff]
    intro b hb
    rw [hapart b hb, Option.map_none]
  constructor
  · rw [growRegions, hr]
    dsimp only
    rw [hoverlap]
  · intro r' hr'
    rcases List.mem_append.1 hr' with hold | hnew
    · obtain ⟨hgrown', hopens', hnot⟩ := hdone r' hold
      exact ⟨hgrown', hopens', fun hmem => hnot (List.mem_cons_of_mem _ hmem)⟩
    · rw [List.mem_singleton.1 hnew]
      exact ⟨hgrown, hopens, hn⟩

/-- Regions are opened one after the other, each apart from those before. -/
theorem exists_growRegions {entries : List String} (hn : entries.Nodup)
    (hentries : ∀ entry ∈ entries, f.OpensRegion g entry ∧ f.CanGrow g entry) {done : List Region}
    (hdone : f.OpenedBefore g entries done) :
    ∃ regions, f.growRegions g g.reachable (f.regionStarts g) done entries = .ok regions := by
  induction entries generalizing done with
  | nil => exact ⟨done, rfl⟩
  | cons entry rest ih =>
    rw [List.nodup_cons] at hn
    obtain ⟨hopens, hcan⟩ := hentries entry List.mem_cons_self
    obtain ⟨r, hr⟩ := exists_growRegion hcan
    obtain ⟨hcons, hbefore⟩ := growRegions_cons hg hf hn.1 hopens hdone hr
    rw [hcons]
    exact ih hn.2 (fun e he => hentries e (List.mem_cons_of_mem _ he)) hbefore

/-- Opening regions one after the other fails only where one of them cannot be grown by itself. -/
theorem exists_growRegion_eq_error {entries : List String} (hn : entries.Nodup)
    (hentries : ∀ entry ∈ entries, f.OpensRegion g entry) {done : List Region}
    (hdone : f.OpenedBefore g entries done) {e : Malformed}
    (h : f.growRegions g g.reachable (f.regionStarts g) done entries = .error e) :
    ∃ entry ∈ entries, f.growRegion g g.reachable (f.regionStarts g) entry = .error e := by
  induction entries generalizing done with
  | nil => cases h
  | cons entry rest ih =>
    rw [List.nodup_cons] at hn
    cases hr : f.growRegion g g.reachable (f.regionStarts g) entry with
    | error e' =>
      rw [growRegions, hr] at h
      cases h
      exact ⟨entry, List.mem_cons_self, hr⟩
    | ok r =>
      obtain ⟨hcons, hbefore⟩ :=
        growRegions_cons hg hf hn.1 (hentries entry List.mem_cons_self) hdone hr
      rw [hcons] at h
      obtain ⟨later, hlater, herror⟩ :=
        ih hn.2 (fun e he => hentries e (List.mem_cons_of_mem _ he)) hbefore h
      exact ⟨later, List.mem_cons_of_mem _ hlater, herror⟩

omit hg hf in
/-- If all regions were grown, each of them could. -/
theorem canGrow_of_growRegions {entries : List String} {done regions : List Region}
    (h : f.growRegions g g.reachable (f.regionStarts g) done entries = .ok regions) :
    ∀ entry ∈ entries, f.CanGrow g entry := by
  induction entries generalizing done with
  | nil => exact fun _ hentry => absurd hentry List.not_mem_nil
  | cons entry rest ih =>
    rw [growRegions] at h
    split at h
    · cases h
    · next r hgrow =>
      dsimp only at h
      split at h
      · cases h
      · exact List.forall_mem_cons.2 ⟨canGrow_of_growRegion hgrow, ih h⟩

/-! ## Accepting the regions

All conditions together, and what is covered then, both without mention of how the regions are
grown. -/

omit hg hf in
/-- The blocks of the regions are those to which a block that opens one leads. -/
theorem HasRegions.exists_mem_blocks_iff {regions : List Region} (h : f.HasRegions g regions)
    {b : String} :
    (∃ r ∈ regions, b ∈ r.blocks) ↔ ∃ entry, f.OpensRegion g entry ∧
      (f.regionGraph g).Reaches entry b := by
  constructor
  · rintro ⟨r, hr, hb⟩
    exact ⟨r.entry, h.opened r hr, ((h.grown r hr).mem_blocks b).1 hb⟩
  · rintro ⟨entry, hopens, hreaches⟩
    obtain ⟨r, hr, rfl⟩ := h.found entry hopens
    exact ⟨r, hr, ((h.grown r hr).mem_blocks b).2 hreaches⟩

/-- What the checks of the regions ask. -/
structure RegionsFit (f : Function) (g : FlowGraph) : Prop where
  marked : ∀ b ∈ f.blocks, b.Marked
  grown : ∀ entry, f.OpensRegion g entry → f.CanGrow g entry
  closed : ∀ b ∈ f.blocks, b.endsRegion = true → g.Reached b.id →
    ∃ entry, f.OpensRegion g entry ∧ (f.regionGraph g).Reaches entry b.id

/-- **The regions are accepted exactly when they fit.** -/
theorem exists_regions_iff : (∃ regions, f.regions g = .ok regions) ↔ f.RegionsFit g := by
  constructor
  · rintro ⟨regions, h⟩
    have hhas := hasRegions_of_regions h
    refine ⟨hhas.marked, fun entry hopens => ?_, fun b hb hends hreached =>
      hhas.exists_mem_blocks_iff.1 (hhas.closed b hb hends hreached)⟩
    unfold Function.regions at h
    split at h
    · cases h
    · dsimp only at h
      split at h
      · cases h
      · next hgrow => exact canGrow_of_growRegions hgrow entry (mem_regionStarts_iff.2 hopens)
  · intro h
    have hentries : ∀ entry ∈ f.regionStarts g, f.OpensRegion g entry ∧ f.CanGrow g entry :=
      fun entry hentry =>
        ⟨mem_regionStarts_iff.1 hentry, h.grown entry (mem_regionStarts_iff.1 hentry)⟩
    obtain ⟨regions, hgrow⟩ :
        ∃ regions, f.growRegions g g.reachable (f.regionStarts g) [] (f.regionStarts g) =
          .ok regions :=
      exists_growRegions hg hf (nodup_regionStarts hf) hentries fun r hr =>
        absurd hr List.not_mem_nil
    obtain ⟨hfrom, -, hfound⟩ := growRegions_spec hgrow
    -- an end that is reached lies in what its region has grown to
    have hstray : (f.blocks.find? fun b =>
        b.endsRegion && decide (b.id ∈ g.reachable) && (regionOf? regions b.id).isNone) = none := by
      rw [List.find?_eq_none]
      intro b hb hstray
      rw [Bool.and_eq_true, Bool.and_eq_true, decide_eq_true_iff, FlowGraph.mem_reachable_iff,
        Option.isNone_iff_eq_none, regionOf?_eq_none_iff] at hstray
      obtain ⟨entry, hopens, hreaches⟩ := h.closed b hb hstray.1.1 hstray.1.2
      obtain ⟨r, hr, rfl⟩ := hfound entry (mem_regionStarts_iff.2 hopens)
      have hgrown := ((hfrom r hr).resolve_left List.not_mem_nil).2
      exact hstray.2 r hr ((hgrown.mem_blocks b.id).2 hreaches)
    refine ⟨regions, ?_⟩
    unfold Function.regions
    rw [markerViolation?_eq_none h.marked]
    dsimp only
    unfold regionStarts at hgrow
    rw [hgrow]
    dsimp only
    rw [hstray]

omit hg in
/-- What is covered, told from the blocks that open regions. -/
theorem HasRegions.covered_iff {regions : List Region} (h : f.HasRegions g regions) {p : Placed}
    (hb : p.block ∈ f.blocks) :
    covered regions p.block p.index = .ok true ↔
      (∃ entry, f.OpensRegion g entry ∧ (f.regionGraph g).Reaches entry p.block.id) ∧
        (∀ s ∈ p.block.positions .regionStart, s ≤ p.index) ∧
          p.block.isBehindEnd p.index = false := by
  rw [← h.exists_mem_blocks_iff, ← isSome_regionOf?_iff]
  constructor
  · intro hcovered
    obtain ⟨r, hr⟩ := exists_regionOf?_of_covered hcovered
    obtain ⟨hmem, hblock⟩ := mem_of_regionOf?_eq_some hr
    have hindex :=
      h.le_index_of_not_isBeforeStart hb (h.reached hmem hblock)
        (h.not_isBeforeStart_of_covered hb hcovered)
    rw [h.covered_eq hf hb hindex, Except.ok.injEq, Bool.and_eq_true, Bool.not_eq_true'] at hcovered
    exact ⟨hcovered.1, hindex, hcovered.2⟩
  · rintro ⟨hsome, hindex, hend⟩
    rw [h.covered_eq hf hb hindex, hsome, hend]
    rfl

/-! ## Regions apart

The consequence for callers: accepted regions are disjoint, and no error ever says that two
overlap. -/

omit hg hf in
/-- Regions are listed by the blocks at which they were opened. -/
theorem map_entry_of_growRegions {entries : List String} {done regions : List Region}
    (h : f.growRegions g g.reachable (f.regionStarts g) done entries = .ok regions) :
    regions.map Region.entry = done.map Region.entry ++ entries := by
  induction entries generalizing done with
  | nil =>
    cases h
    exact (List.append_nil _).symm
  | cons entry rest ih =>
    rw [growRegions] at h
    split at h
    · cases h
    · next r hgrow =>
      dsimp only at h
      split at h
      · cases h
      · rw [ih h, List.map_append, List.append_assoc, List.map_singleton,
          (grown_of_growRegion hgrow).1]
        rfl

/-- The regions of a function have no block in common. -/
theorem pairwise_disjoint_regions {regions : List Region} (h : f.regions g = .ok regions) :
    regions.Pairwise fun r r' => r.blocks.Disjoint r'.blocks := by
  have hhas := hasRegions_of_regions h
  have hentries : regions.map Region.entry = f.regionStarts g := by
    unfold Function.regions at h
    split at h
    · cases h
    · dsimp only at h
      split at h
      · cases h
      · next hgrow =>
        split at h
        · cases h
        · cases h
          exact map_entry_of_growRegions hgrow
  have hnodup : (regions.map Region.entry).Nodup := by
    rw [hentries]
    exact nodup_regionStarts hf
  refine (List.pairwise_map.1 hnodup).imp_of_mem fun {r r'} hr hr' hne b hb hb' => ?_
  exact hne
    (entry_eq_of_grown hg hf (hhas.grown r hr) (hhas.grown r' hr') (hhas.opened r hr)
      (hhas.opened r' hr') hb hb')

omit hg hf in
/-- What is wrong with a region by itself has nothing to do with other regions opened before. -/
theorem cause_ne_of_growRegion_eq_error {entry : String} {e : Malformed}
    (h : f.growRegion g g.reachable (f.regionStarts g) entry = .error e) (first second : String) :
    e.cause ≠ .overlappingRegions first second := by
  unfold growRegion at h
  dsimp only at h
  split at h
  · cases h
    intro hcause
    cases hcause
  · split at h
    · next hentrance =>
      cases h
      -- an entrance is refused for a block outside or for one that closes the region
      obtain ⟨b, -, hb⟩ := List.exists_of_findSome?_eq_some hentrance
      split at hb
      · cases hb
      · obtain ⟨p, -, hp⟩ := List.exists_of_findSome?_eq_some hb
        split at hp
        · cases hp
        · split at hp
          · cases hp
            intro hcause
            cases hcause
          · split at hp
            · cases hp
              intro hcause
              cases hcause
            · cases hp
    · split at h
      · cases h
        intro hcause
        cases hcause
      · cases h

omit hg hf in
/-- Errors about markers do not speak of two regions. -/
theorem cause_ne_of_markerViolation? {e : Malformed} (h : f.markerViolation? = some e)
    (first second : String) :
    e.cause ≠ .overlappingRegions first second := by
  obtain ⟨b, -, hb⟩ := List.exists_of_findSome?_eq_some h
  intro hcause
  split at hb
  · cases hb
    cases hcause
  · cases hb
    cases hcause
  · split at hb
    · cases hb
      cases hcause
    · cases hb
  · cases hb

/-- **No function is refused for regions that overlap.** -/
theorem cause_ne_of_regions_eq_error {e : Malformed} (h : f.regions g = .error e)
    (first second : String) :
    e.cause ≠ .overlappingRegions first second := by
  unfold Function.regions at h
  split at h
  · next hmarkers =>
    cases h
    exact cause_ne_of_markerViolation? hmarkers first second
  · dsimp only at h
    split at h
    · next hgrow =>
      cases h
      obtain ⟨entry, -, herror⟩ := exists_growRegion_eq_error hg hf (nodup_regionStarts hf)
        (fun entry hentry => mem_regionStarts_iff.1 hentry)
          (fun r hr => absurd hr List.not_mem_nil) hgrow
      exact cause_ne_of_growRegion_eq_error herror first second
    · split at h
      · cases h
        intro hcause
        cases hcause
      · cases h

end Function

namespace RegionMap

/-- **Regions never overlap.** Regions that are grown from different blocks have no block in
common, whether or not the function is accepted in the end; so a function is never refused for a
block of two regions, and if it is accepted every block belongs to at most one region. -/
theorem exists_forall_grown_disjoint {m : Module} (hm : m.validate = .ok ()) {f : Function}
    (hf : f ∈ m.functions) :
    ∃ g, FlowGraph.ofFunction f = .ok g ∧
      (∀ a ∈ f.regionStarts g, ∀ b ∈ f.regionStarts g, a ≠ b → ∀ r r',
        f.growRegion g g.reachable (f.regionStarts g) a = .ok r →
          f.growRegion g g.reachable (f.regionStarts g) b = .ok r' → r.blocks.Disjoint r'.blocks) ∧
      (∀ e, ofFunction f g = .error (.malformed e) →
        ∀ first second, e.cause ≠ .overlappingRegions first second) ∧
      ∀ rm, ofFunction f g = .ok rm →
        rm.regions.Pairwise fun r r' => r.blocks.Disjoint r'.blocks := by
  have hwf := Module.wellFormed_of_validate hm
  obtain ⟨g, hg, -⟩ := hwf.flow f hf
  have hblocks := (hwf.function f hf).blocks
  refine ⟨g, hg, fun a ha b hb hne r r' hr hr' => ?_, fun e he => ?_, fun rm hrm => ?_⟩
  · obtain ⟨rfl, hgrown⟩ := Function.grown_of_growRegion hr
    obtain ⟨rfl, hgrown'⟩ := Function.grown_of_growRegion hr'
    intro c hc hc'
    exact hne
      (Function.entry_eq_of_grown hg hblocks hgrown hgrown' (Function.mem_regionStarts_iff.1 ha)
      (Function.mem_regionStarts_iff.1 hb) hc hc')
  · unfold ofFunction at he
    split at he
    · next hregions =>
      cases he
      exact Function.cause_ne_of_regions_eq_error hg hblocks hregions
    · split at he <;> cases he
  · exact Function.pairwise_disjoint_regions hg hblocks (ofFunction_eq_ok hrm).1

/-- Its two regions are grown apart. -/
theorem grown_disjoint_patrolling : patrolling.validate = .ok () ∧ patrol ∈ patrolling.functions ∧
    ∃ g r r', FlowGraph.ofFunction patrol = .ok g ∧
      patrol.growRegion g g.reachable (patrol.regionStarts g) "first" = .ok r ∧
        patrol.growRegion g g.reachable (patrol.regionStarts g) "second" = .ok r' ∧
          r.blocks.Disjoint r'.blocks ∧
          ∃ rm, ofFunction patrol g = .ok rm ∧ rm.regions = [r, r'] := by
  obtain ⟨g, hg, hgrown, -, -⟩ :=
    exists_forall_grown_disjoint validate_patrolling patrol_mem_patrolling
  cases hg.symm.trans ofFunction_patrol
  have hfirst : patrol.growRegion patrolGraph patrolGraph.reachable
      (patrol.regionStarts patrolGraph) "first" =
      .ok ⟨"first", ["first", "work", "done"], ["done"]⟩ := by rfl
  have hsecond : patrol.growRegion patrolGraph patrolGraph.reachable
      (patrol.regionStarts patrolGraph) "second" =
      .ok ⟨"second", ["second"], ["second"]⟩ := by rfl
  exact ⟨validate_patrolling, patrol_mem_patrolling, patrolGraph, _, _, hg, hfirst, hsecond,
    hgrown "first" (by decide) "second" (by decide) (by decide) _ _ hfirst hsecond,
    exists_regions_patrol⟩

end RegionMap

end ConstantTime
