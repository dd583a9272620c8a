/-
The rounds end, within a bound that the size of the function gives.

What can change is finite: the values of the function, the blocks that were visited, and the cells
at the ends of blocks. Each of these slots has a level, which no visit lowers, and a visit that
changes anything raises one. A value has five levels, since it may have no taint yet; a block has
two; a cell has four and starts at the lowest. So the sum of the levels, which every round but the
last one raises, cannot pass four for each value and each cell, with a block without cells counted
as one.

That no other slot ever rises needs an assignment that bounds the equations: the one that is secret
everywhere except at locations that the function cannot see. Everything the rounds do stays below
it.

The last round changes nothing, so it ends above the equations, and like all rounds it stays below
every assignment that bounds them. At the end stand the two results for the functions of a
validated module: how many rounds there are at most, and that the ranks of their taints are the
least solution.
-/
import Mathlib.Algebra.Order.BigOperators.Group.List
import Mathlib.Algebra.Order.Ring.Nat
import Mathlib.Algebra.Group.Action.Defs
import ConstantTime.Proofs.Rounds

set_option autoImplicit false

namespace ConstantTime

namespace Taints

/-! ## Levels

`Advances` says of a visit what the bound needs: no level sinks, and if something was marked as
changed then some level of the slots rose. It composes, so it is shown for one definition, one
instruction and one block in turn. -/

/-- No level falls, and a change shows as a slot that rises. -/
structure Advances {σ : Type} (slots : List σ) (before after : σ → Nat) (changed changed' : Bool) :
    Prop where
  le : before ≤ after
  rises : changed' = true → changed = true ∨ ∃ s ∈ slots, before s < after s

namespace Advances

variable {σ : Type} {slots : List σ} {x y z : σ → Nat} {c c' c'' : Bool}

theorem refl (slots : List σ) (x : σ → Nat) (c : Bool) : Advances slots x x c c := ⟨le_refl x, .inl⟩

/-- Levels rise along both steps, and what either of them marks as changed has risen. -/
theorem trans (h : Advances slots x y c c') (h' : Advances slots y z c' c'') :
    Advances slots x z c c'' := by
  refine ⟨le_trans h.le h'.le, fun hc => ?_⟩
  -- the change is new in the second step, or it was there before
  rcases h'.rises hc with hc' | ⟨s, hs, hlt⟩
  · rcases h.rises hc' with hc'' | ⟨s, hs, hlt⟩
    · exact .inl hc''
    · exact .inr ⟨s, hs, lt_of_lt_of_le hlt (h'.le s)⟩
  · exact .inr ⟨s, hs, lt_of_le_of_lt (h.le s) hlt⟩

/-- A change raises the sum of the levels. -/
theorem sum_lt (h : Advances slots x y false true) : (slots.map x).sum < (slots.map y).sum := by
  rcases h.rises rfl with hc | hlt
  · cases hc
  · exact List.sum_lt_sum x y (fun s _ => h.le s) hlt

end Advances

/-- The level of a value: none for one without a taint, or else by its rank. -/
def valueLevel (values : Table Taint) (v : String) : Nat :=
  match values.get? v with
  | some t => t.rank.level + 1
  | none => 0

/-- No taint, or one of the four ranks. -/
theorem valueLevel_le (values : Table Taint) (v : String) : valueLevel values v ≤ 4 := by
  unfold valueLevel
  split
  · next t _ =>
    have h := t.rank.level_le_three
    omega
  · omega

/-- Setting a taint changes one level. -/
theorem valueLevel_set (values : Table Taint) (v : String) (t : Taint) :
    valueLevel (values.set v t) = Function.update (valueLevel values) v (t.rank.level + 1) := by
  funext w
  by_cases hw : w = v
  · subst hw
    rw [Function.update_self, valueLevel, Table.get?_set_self]
  · rw [Function.update_of_ne hw, valueLevel, valueLevel, Table.get?_set_of_ne _ _ (Ne.symm hw)]

/-- Setting a higher taint advances, for a value among the slots. -/
theorem advances_valueLevel_set {values : Table Taint} {v : String} {t : Taint} {outs : List String}
    (hv : v ∈ outs) (h : valueLevel values v < t.rank.level + 1) (c c' : Bool) :
    Advances outs (valueLevel values) (valueLevel (values.set v t)) c c' := by
  rw [valueLevel_set]
  refine ⟨le_update_self_iff.2 (le_of_lt h), fun _ => .inr ⟨v, hv, ?_⟩⟩
  rw [Function.update_self]
  exact h

namespace Point

/-- A definition sets a taint only if it improves on the one that is there, and then its rank is
higher. -/
theorem advances_define {p : Point} (hp : p.values.Coherent) {v : String} {t : Taint}
    (ht : t.Coherent) {outs : List String} (hv : v ∈ outs) :
    Advances outs (valueLevel p.values) (valueLevel (p.define v t).values) p.changed
      (p.define v t).changed := by
  rcases define_cases p v t with ⟨hnone, h⟩ | ⟨old, hold, himp, h⟩ | ⟨_, _, _, h⟩
  · -- the first taint of the value
    rw [h]
    refine advances_valueLevel_set hv ?_ _ _
    rw [valueLevel, hnone]
    exact Nat.succ_pos _
  · -- a taint that says more, and so ranks higher
    rw [h]
    refine advances_valueLevel_set hv ?_ _ _
    have hlt := (Taint.improves_iff (hp v old hold) ht).1 himp
    rw [valueLevel, hold, Taint.rank_join ht (hp v old hold), max_eq_left (le_of_lt hlt)]
    exact Nat.succ_lt_succ hlt
  · rw [h]
    exact .refl _ _ _

/-- An instruction defines its output or nothing. -/
theorem advances_step {s : Scope} {p : Point} (hv : p.values.Coherent)
    (hm : p.memory.Coherent) {i : Instr} {outs : List String}
    (hi : ∀ v, i.output = some v → v ∈ outs) :
    Advances outs (valueLevel p.values) (valueLevel (p.step s i).values) p.changed
      (p.step s i).changed := by
  obtain ⟨hgiven, hcoherent⟩ := Instr.gives_transfer hv hm i (s := s)
  obtain ⟨q, hvalues, -, hchanged, ⟨-, h⟩ | ⟨v, t, hd, h⟩⟩ := step_cases s p i
  · rw [h, hvalues, hchanged]
    exact .refl _ _ _
  · rw [hd, Option.map_some] at hgiven
    rw [← hvalues] at hv ⊢
    rw [h, ← hchanged]
    exact advances_define hv (hcoherent _ hd) (hi v (Instr.output_of_definedRank hgiven.symm))

/-- The instructions of a block, one after the other. -/
theorem advances_run {s : Scope} {p : Point} (hv : p.values.Coherent) (hm : p.memory.Coherent)
    {instrs : List Instr} {outs : List String}
    (hi : ∀ i ∈ instrs, ∀ v, i.output = some v → v ∈ outs) :
    Advances outs (valueLevel p.values)
      (valueLevel (instrs.foldl (Point.step s) p).values) p.changed
      (instrs.foldl (Point.step s) p).changed := by
  induction instrs using List.reverseRecOn with
  | nil => exact .refl _ _ _
  | append_singleton instrs i ih =>
    obtain ⟨hv', hm'⟩ := coherent_run hv hm instrs (s := s)
    rw [List.foldl_append]
    refine (ih fun j hj => hi j (List.mem_append_left [i] hj)).trans (advances_step hv' hm' ?_)
    exact hi i (List.mem_append_right instrs (List.mem_singleton.2 rfl))

end Point

/-! ## Slots

The slots of a function are its values, its blocks and the cells at the ends of its blocks. A level
is capped, so the sum of the caps bounds how often anything can rise. -/

/-- What can change: the taint of a value, whether a block was visited, a cell at the end of a
block. -/
inductive Slot
  | value (v : String)
  | block (b : String)
  | cell (b l : String)

/-- The level of a slot. -/
def State.level (st : State) : Slot → Nat
  | .value v => valueLevel st.values v
  | .block b => if (st.memoryOut.get? b).isSome then 1 else 0
  | .cell b l => (ranksAt st.memoryOut b l).level

/-- The highest level of a slot. -/
def Slot.cap : Slot → Nat
  | .value _ => 4
  | .block _ => 1
  | .cell _ _ => 3

/-- Each level is within the cap of its slot. -/
theorem State.level_le_cap (st : State) (s : Slot) : st.level s ≤ s.cap := by
  cases s with
  | value v => exact valueLevel_le st.values v
  | block b =>
    change (if (st.memoryOut.get? b).isSome then 1 else 0) ≤ 1
    split <;> omega
  | cell b l => exact Rank.level_le_three _

/-- The locations that the function can see. -/
def visible (m : Module) (f : Function) : List String :=
  f.locations.map Location.id ++ m.locations.map Location.id

/-- All slots that the rounds can raise. -/
def slots (m : Module) (f : Function) : List Slot :=
  f.definedValues.map .value ++
    f.blocks.flatMap fun b => .block b.id :: (visible m f).map (.cell b.id)

/-- Parameters and outputs have slots. -/
theorem value_mem_slots {m : Module} {f : Function} {v : String} (h : v ∈ f.definedValues) :
    .value v ∈ slots m f :=
  List.mem_append_left _ (List.mem_map_of_mem h)

theorem block_mem_slots {m : Module} {f : Function} {b : Block} (h : b ∈ f.blocks) :
    .block b.id ∈ slots m f :=
  List.mem_append_right _ (List.mem_flatMap.2 ⟨b, h, List.mem_cons_self⟩)

/-- So have the visible locations at the end of each block. -/
theorem cell_mem_slots {m : Module} {f : Function} {b : Block} (h : b ∈ f.blocks) {l : String}
    (hl : l ∈ visible m f) : .cell b.id l ∈ slots m f :=
  List.mem_append_right
    _ (List.mem_flatMap.2 ⟨b, h, List.mem_cons_of_mem _ (List.mem_map_of_mem hl)⟩)

/-- The sum of the caps in terms of the size of the function. -/
theorem sum_cap_slots (m : Module) (f : Function) :
    ((slots m f).map Slot.cap).sum =
      4 * f.definedValues.length + f.blocks.length *
        (1 + 3 * (m.locations.length + f.locations.length)) := by
  have hcells : ∀ (b : String) (ls : List String), ((ls.map (Slot.cell b)).map Slot.cap).sum =
      3 * ls.length := by
    intro b ls
    rw [List.map_map, show Slot.cap ∘ Slot.cell b = fun _ => 3 from rfl, List.map_const',
      List.sum_replicate, smul_eq_mul, Nat.mul_comm]
  have hvalues : ((f.definedValues.map Slot.value).map Slot.cap).sum =
      4 * f.definedValues.length := by
    rw [List.map_map, show Slot.cap ∘ Slot.value = fun _ => 4 from rfl, List.map_const',
      List.sum_replicate, smul_eq_mul, Nat.mul_comm]
  have hblocks : ∀ (bs : List Block) (ls : List String),
      ((bs.flatMap fun b => Slot.block b.id :: ls.map (Slot.cell b.id)).map Slot.cap).sum =
        bs.length * (1 + 3 * ls.length) := by
    intro bs ls
    induction bs with
    | nil => rw [List.flatMap_nil, List.map_nil, List.sum_nil, List.length_nil, Nat.zero_mul]
    | cons b bs ih =>
      rw [List.flatMap_cons, List.map_append, List.sum_append, ih, List.map_cons, List.sum_cons,
        hcells, Slot.cap, List.length_cons, Nat.add_mul bs.length 1, Nat.one_mul, Nat.add_comm]
  rw [slots, List.map_append, List.sum_append, hvalues, hblocks, visible, List.length_append,
    List.length_map, List.length_map, Nat.add_comm f.locations.length]

/-! ## Locations out of sight

A cell of a location that the function cannot see never rises, but there is no end of such cells.
The assignment `ceiling` keeps them public and is secret everywhere else; it bounds the equations,
so the rounds stay below it. -/

/-- Secret wherever something may be stored. -/
def ceiling (m : Module) (f : Function) : Assignment :=
  ⟨fun _ => .secret, fun _ l => if l ∈ visible m f then .secret else .pub⟩

/-- A location out of sight stays as it is. -/
theorem memoryRanks_eq_of_not_visible {m : Module} {f : Function} {i : Instr}
    (hi : i.Operands (f.names m.locations)) {l : String} (hl : l ∉ visible m f)
    (values memory : Ranks) :
    i.memoryRanks values memory l = memory l := by
  have hne : ∀ l', i.location = some l' → l ≠ l' := by
    rintro l' hl' rfl
    exact hl (hi.known l hl')
  rcases Instr.memoryRanks_cases values memory i with h | ⟨l', r, hl', h⟩
  · rw [h]
  · rw [h, Function.update_of_ne (hne l' hl')]

/-- No block writes to a location out of sight. -/
theorem memoryAfter_eq_of_not_visible {m : Module} {f : Function} {instrs : List Instr}
    (hinstrs : ∀ i ∈ instrs, i.Operands (f.names m.locations)) {l : String} (hl : l ∉ visible m f)
    (values memory : Ranks) : memoryAfter values memory instrs l = memory l := by
  induction instrs using List.reverseRecOn with
  | nil => rfl
  | append_singleton instrs i ih =>
    have hlast := hinstrs i (List.mem_append_right instrs (List.mem_singleton.2 rfl))
    rw [memoryAfter_concat, memoryRanks_eq_of_not_visible hlast hl]
    exact ih fun j hj => hinstrs j (List.mem_append_left [i] hj)

/-- What leaves a block is public out of sight. -/
theorem leaving_ceiling {m : Module} {f : Function} (hf : f.WellFormed m.locations)
    (b : String) {l : String} (hl : l ∉ visible m f) : (ceiling m f).leaving f b l = .pub := by
  cases hblk : f.block? b with
  | none =>
    rw [Assignment.leaving, hblk]
    exact if_neg hl
  | some blk =>
    obtain ⟨hmem, -⟩ := Function.mem_of_block?_eq_some hblk
    rw [Assignment.leaving, hblk]
    exact (memoryAfter_eq_of_not_visible (fun i hi => hf.operands hmem hi) hl _ _).trans (if_neg hl)

/-- The ceiling bounds the equations of a function that passes the checks. -/
theorem bounds_ceiling {m : Module} {f : Function} (hf : f.WellFormed m.locations) (g : FlowGraph) :
    (ceiling m f).Bounds m f g := by
  refine ⟨fun p _ => Rank.le_secret _, fun _ _ _ _ _ _ _ _ => Rank.le_secret _, fun b _ l => ?_⟩
  by_cases hl : l ∈ visible m f
  · -- in sight nothing can be above the ceiling
    change _ ≤ if l ∈ visible m f then Rank.secret else .pub
    rw [if_pos hl]
    exact Rank.le_secret _
  · -- out of sight nothing arrives
    refine Rank.joinAll_le_iff.2 fun r hr => ?_
    obtain ⟨p, -, rfl⟩ := List.mem_map.1 hr
    rw [leaving_ceiling hf p hl]
    exact Rank.pub_le _

/-! ## Visits and rounds

A visit sets one value per instruction and the cells at the end of one block. A round that changes
anything raises the sum of the levels, which `height` is. -/

/-- Setting the memory of a block changes the ranks of that block. -/
theorem ranksAt_set (states : Table Memory) (b : String) (mem : Memory) :
    ranksAt (states.set b mem) = Function.update (ranksAt states) b mem.ranks := by
  funext c
  by_cases hc : c = b
  · subst hc
    rw [Function.update_self, ranksAt_of_get?_eq_some (Table.get?_set_self states c mem)]
  · rw [Function.update_of_ne hc, ranksAt, ranksAt, Table.get?_set_of_ne _ _ (Ne.symm hc)]

namespace State

variable {m : Module} {f : Function} {g : FlowGraph} {st st' : State}

/-- Raising values, and replacing the end of one block by one that is no lower, lowers no slot. -/
theorem level_le_of_set {b : String} {mem : Memory}
    (hvalues : valueLevel st.values ≤ valueLevel st'.values)
    (hout : st'.memoryOut = st.memoryOut.set b mem) (hmem : ranksAt st.memoryOut b ≤ mem.ranks) :
    st.level ≤ st'.level := by
  intro s
  cases s with
  | value v => exact hvalues v
  | block c =>
    change (if (st.memoryOut.get? c).isSome then 1 else 0) ≤ if (st'.memoryOut.get? c).isSome
      then 1 else 0
    rw [hout, Table.get?_set]
    by_cases hc : b = c
    · rw [if_pos hc, Option.isSome_some, if_pos rfl]
      exact st.level_le_cap (.block c)
    · rw [if_neg hc]
  | cell c l =>
    change (ranksAt st.memoryOut c l).level ≤ (ranksAt st'.memoryOut c l).level
    have hle : ranksAt st.memoryOut ≤ ranksAt st'.memoryOut := by
      rw [hout, ranksAt_set]
      exact le_update_self_iff.2 hmem
    exact hle c l

/-- Raising values lowers no slot. -/
theorem level_le_of_memoryOut_eq (hvalues : valueLevel st.values ≤ valueLevel st'.values)
    (hout : st'.memoryOut = st.memoryOut) : st.level ≤ st'.level := by
  intro s
  cases s with
  | value v => exact hvalues v
  | block c =>
    rw [level, level, hout]
  | cell c l =>
    rw [level, level, hout]

/-- A cell that is not public at the end of a block is in sight. -/
theorem Below.mem_visible (h : st.Below f (ceiling m f)) (hf : f.WellFormed m.locations) {b : Block}
    (hb : b ∈ f.blocks) {r : Rank} {l : String}
    (hl : r < (st.last (Scope.ofFunction m f) f g b.id).memory.ranks l) : l ∈ visible m f := by
  by_contra hout
  have hpub := (h.last (bounds_ceiling hf g) hf.blocks hb).memory_le l
  rw [leaving_ceiling hf b.id hout] at hpub
  exact absurd (lt_of_lt_of_le hl hpub) (not_lt.2 (Rank.pub_le r))

/-- A visit lowers no slot, and a change shows as one that rises. -/
theorem advances_visit (h : st.Below f (ceiling m f)) (hf : f.WellFormed m.locations) {b : Block}
    (hb : b ∈ f.blocks) :
    Advances (slots m f) st.level (st.visit (Scope.ofFunction m f) f g b.id).level st.changed
      (st.visit (Scope.ofFunction m f) f g b.id).changed := by
  have hlast := h.last (bounds_ceiling hf g) hf.blocks hb
  have hrun : Advances f.definedValues (valueLevel st.values)
      (valueLevel (st.visit (Scope.ofFunction m f) f g b.id).values) st.changed
      (st.last (Scope.ofFunction m f) f g b.id).changed := by
    rw [values_visit, last_eq hf.blocks hb]
    refine Point.advances_run (p := st.first g b.id) h.coherent (h.coherent_first g b.id)
      fun i hi v hv => ?_
    exact List.mem_append_right _ (List.mem_map.2 ⟨_, Function.mem_outputs hb hi hv, rfl⟩)
  rcases visit_cases (Scope.ofFunction m f) f g st b.id
    with ⟨hnone, -, hout⟩ | ⟨old, hold, himp, -, hout⟩ |
    ⟨old, hold, -, hchanged, hout⟩
  · -- the first visit: the slot of the block rises
    have hpub : ranksAt st.memoryOut b.id ≤
        (st.last (Scope.ofFunction m f) f g b.id).memory.ranks := by
      rw [ranksAt, hnone]
      exact fun l => Rank.pub_le _
    refine ⟨level_le_of_set hrun.le hout hpub, fun _ => .inr ⟨_, block_mem_slots hb, ?_⟩⟩
    change (if (st.memoryOut.get? b.id).isSome then 1 else 0) <
      if ((st.visit (Scope.ofFunction m f) f g b.id).memoryOut.get? b.id).isSome then 1 else 0
    rw [hout, hnone, Table.get?_set_self]
    exact Nat.zero_lt_one
  · -- the end of the block improves: a cell rises, and it is one in sight
    have hoc := (h.memoryOut b.id old hold).1
    have hjoin := Memory.ranks_join hoc hlast.coherentMemory
    obtain ⟨l, hlt⟩ := (Memory.improvesOn_iff hlast.coherentMemory hoc).1 himp
    have hle : ranksAt st.memoryOut b.id ≤
        (old.join (st.last (Scope.ofFunction m f) f g b.id).memory).ranks := by
      intro k
      rw [ranksAt_of_get?_eq_some hold, hjoin k]
      exact le_max_left _ _
    refine ⟨level_le_of_set hrun.le hout hle,
      fun _ => .inr ⟨_, cell_mem_slots hb (h.mem_visible hf hb hlt), ?_⟩⟩
    change ranksAt st.memoryOut b.id l <
      ranksAt (st.visit (Scope.ofFunction m f) f g b.id).memoryOut b.id l
    rw [hout, ranksAt_set, Function.update_self, ranksAt_of_get?_eq_some hold, hjoin l]
    exact lt_max_of_lt_right hlt
  · -- only values can have changed
    rw [hchanged]
    refine ⟨level_le_of_memoryOut_eq hrun.le hout, fun hc => ?_⟩
    rcases hrun.rises hc with hst | ⟨v, hv, hlt⟩
    · exact .inl hst
    · exact .inr ⟨_, value_mem_slots hv, hlt⟩

/-- A round lowers no slot, and a change shows as one that rises. -/
theorem advances_visits (h : st.Below f (ceiling m f)) (hf : f.WellFormed m.locations)
    {names : List String} (hnames : ∀ b ∈ names, b ∈ f.blocks.map Block.id) :
    Advances (slots m f) st.level (names.foldl (State.visit (Scope.ofFunction m f) f g) st).level
      st.changed (names.foldl (State.visit (Scope.ofFunction m f) f g) st).changed := by
  induction names using List.reverseRecOn with
  | nil => exact .refl _ _ _
  | append_singleton names b ih =>
    have hbefore : ∀ c ∈ names, c ∈ f.blocks.map Block.id :=
      fun c hc => hnames c (List.mem_append_left [b] hc)
    obtain ⟨blk, hblk, rfl⟩ :=
      List.mem_map.1 (hnames b (List.mem_append_right names (List.mem_singleton.2 rfl)))
    have hbelow := (h.visits (bounds_ceiling hf g) hf.blocks hbefore).1
    rw [List.foldl_append]
    exact (ih hbefore).trans (advances_visit hbelow hf hblk)

/-- The sum of the levels. -/
def height (m : Module) (f : Function) (st : State) : Nat := ((slots m f).map st.level).sum

/-- The height is at most the sum of the caps. -/
theorem height_le (m : Module) (f : Function) (st : State) :
    st.height m f ≤
      4 * f.definedValues.length + f.blocks.length *
        (1 + 3 * (m.locations.length + f.locations.length)) := by
  rw [← sum_cap_slots]
  exact List.sum_le_sum fun s _ => st.level_le_cap s

/-- A round that changes anything raises the sum of the levels. -/
theorem height_lt_round (h : st.Below f (ceiling m f)) (hf : f.WellFormed m.locations)
    {names : List String} (hnames : ∀ b ∈ names, b ∈ f.blocks.map Block.id)
    (hchanged : (st.round (Scope.ofFunction m f) f g names).changed = true) :
    st.height m f < (st.round (Scope.ofFunction m f) f g names).height m f := by
  have hround := advances_visits h.reset hf hnames (g := g)
  change Advances _ _ _ _ (st.round (Scope.ofFunction m f) f g names).changed at hround
  rw [hchanged] at hround
  exact hround.sum_lt

end State

/-- Rounds that keep an invariant, and raise a bounded measure whenever they change anything, end
in time. What they return is a round that changed nothing. -/
theorem exists_of_iterate {round : State → State} {P : State → Prop} {measure : State → Nat}
    {bound : Nat} (hP : ∀ st, P st → P (round st)) (hbound : ∀ st, measure st ≤ bound)
    (hrise : ∀ st, P st → (round st).changed = true → measure st < measure (round st))
    (left done : Nat) (st : State) (hst : P st) (hleft : bound < measure st + left) :
    ∃ prev n, iterate round left done st = some (round prev, n) ∧ P prev ∧
      (round prev).changed = false ∧
      n + measure st ≤ done + bound + 1 := by
  induction left generalizing done st with
  | zero => exact absurd (hbound st) (Nat.not_le.2 hleft)
  | succ left ih =>
    rw [iterate]
    by_cases hchanged : (round st).changed = true
    · -- one round less is left, and the measure made up for it
      have hlt := hrise st hst hchanged
      obtain ⟨prev, n, hit, hprev, hkept, hn⟩ := ih (done + 1) (round st) (hP st hst) (by omega)
      refine ⟨prev, n, ?_, hprev, hkept, by omega⟩
      rw [if_pos hchanged]
      exact hit
    · have hle := hbound st
      refine ⟨st, done + 1, ?_, hst, Bool.eq_false_iff.2 hchanged, by omega⟩
      rw [if_neg hchanged]

end Taints

/-! ## Sizes

The tables of a function are as long as its lists of values and of locations, so the bound on the
rounds can be said in the sizes of the function. -/

/-- Where values have one definition each, the sites are those of the parameters and of the
outputs, in order. -/
theorem Function.entries_sites {f : Function} (hf : f.definedValues.Nodup) :
    f.sites.entries = f.params.map (fun p => (p.value, Site.param)) ++
      f.placed.filterMap fun p => p.instr.output.map fun v =>
        (v, Site.instr p.block.id p.index) := by
  have hparams : (f.params.foldl (fun t p => t.set p.value Site.param) Table.empty).entries =
      f.params.map fun p => (p.value, Site.param) :=
    Table.entries_foldl_set Param.value (fun _ => Site.param) (List.nodup_append.1 hf).1 fun _ _ =>
      List.not_mem_nil
  rw [← hparams]
  refine Table.entries_foldl_setNew (fun p : Placed => p.instr.output)
    (fun p => Site.instr p.block.id p.index) ?_
  rw [Table.names, hparams, List.map_map, ← map_fst_outputs]
  exact hf

/-- The table of sites has one name for each value. -/
theorem Function.names_sites {f : Function} (hf : f.definedValues.Nodup) :
    f.sites.names = f.definedValues := by
  rw [Table.names, entries_sites hf, List.map_append, List.map_map, List.map_filterMap,
    definedValues, map_fst_outputs]
  simp only [Option.map_map]
  congr 1
  exact List.filterMap_congr fun p _ => Option.map_id'

/-- Where locations have names of their own, a function sees its own and those of the module. -/
theorem Module.entries_locationsFor {m : Module} (hm : m.WellFormed) {f : Function}
    (hf : f ∈ m.functions) :
    (m.locationsFor f).entries = (m.locations ++ f.locations).map fun l => (l.id, l) := by
  have hnodup : ((m.locations ++ f.locations).map Location.id).Nodup := by
    rw [List.map_append]
    refine List.nodup_append.2 ⟨hm.locations, (hm.function f hf).locations, ?_⟩
    rintro l hl _ hl' rfl
    obtain ⟨loc, hloc, rfl⟩ := List.mem_map.1 hl'
    exact hm.apart f hf loc hloc hl
  exact Table.entries_foldl_set Location.id (fun l => l) hnodup (t := Table.empty) fun _ _ =>
    List.not_mem_nil

/-- A function sees the locations of its module and its own. -/
theorem Module.names_locationsFor {m : Module} (hm : m.WellFormed) {f : Function}
    (hf : f ∈ m.functions) :
    (m.locationsFor f).names = m.locations.map Location.id ++ f.locations.map Location.id := by
  rw [Table.names, entries_locationsFor hm hf, List.map_map, ← List.map_append]
  rfl

namespace Taints

variable {m : Module} {f : Function} {g : FlowGraph}

/-- An instruction that needs a location finds it. -/
theorem exists_location (hm : m.WellFormed) (hf : f ∈ m.functions) {i : Instr}
    (hi : i.Operands (f.names m.locations)) (hop : i.op.needsLocation = true) :
    ∃ l, i.location.bind (m.locationsFor f).get? = some l := by
  cases hl : i.location with
  | none => exact absurd hl (hi.location hop)
  | some l =>
    refine Table.exists_get?_of_mem_names ?_
    rw [Module.names_locationsFor hm hf, List.mem_append, or_comm, ← List.mem_append]
    exact hi.known l hl

/-- The operands that the effects need are there. -/
theorem operandFault?_eq_none (hm : m.WellFormed) (hf : f ∈ m.functions) {i : Instr}
    (hi : i.Operands (f.names m.locations)) : operandFault? (Scope.ofFunction m f) i = none := by
  unfold operandFault?
  cases hop : i.op with
  | load =>
    obtain ⟨l, hl⟩ := exists_location hm hf hi (by rw [hop]; rfl)
    simp only [Scope.ofFunction, hl, Option.isNone_some]
    rfl
  | store =>
    have hin := hi.input (by rw [hop]; rfl)
    simp only [List.isEmpty_iff, hin, if_false]
  | declassify =>
    have hin := hi.input (by rw [hop]; rfl)
    simp only [List.isEmpty_iff, hin, if_false]
  | _ => rfl

/-! ## The result of the rounds

`Reached` collects what holds before every round. At a round that changes nothing it gives the
least solution, and by the bound there is one. -/

/-- What holds after any number of rounds: the state is below every assignment that bounds the
equations, and no parameter is below what it declares. -/
structure State.Reached (m : Module) (f : Function) (g : FlowGraph) (st : State) : Prop where
  below : ∀ a : Assignment, a.Bounds m f g → st.Below f a
  params : ∀ p ∈ f.params, .ofSensitivity p.sensitivity ≤ st.values.ranks p.value

/-- Before the first round the parameters have their declared taints and nothing else has one. -/
theorem reached_start (hf : f.WellFormed m.locations) : (start f).Reached m f g where
  below _ ha := below_start ha (List.nodup_append.1 hf.values).1
  params _ hp := le_of_eq (ranks_seeds (List.nodup_append.1 hf.values).1 hp).symm

/-- A round over blocks of the function keeps all of it. -/
theorem State.Reached.round {st : State} (h : st.Reached m f g) (hf : f.WellFormed m.locations)
    {names : List String} (hnames : ∀ b ∈ names, b ∈ f.blocks.map Block.id) :
    (st.round (Scope.ofFunction m f) f g names).Reached m f g where
  below a ha := ((h.below a ha).round ha hf.blocks hnames).1
  params p hp := le_trans (h.params p hp) <|
    ((h.below _ (bounds_ceiling hf g)).round (bounds_ceiling hf g) hf.blocks hnames).2 p.value

/-- The ranks of the taints of a function. -/
def assignment (t : Taints) : Assignment := ⟨t.values.ranks, ranksAt t.memoryIn⟩

/-- The taints are coherent, every block has a memory state at its entry, and their ranks are the
least that bound the equations. -/
structure Least (m : Module) (f : Function) (g : FlowGraph) (t : Taints) : Prop where
  values : t.values.Coherent
  entries : ∀ b ∈ f.blocks, ∃ mem, t.memoryIn.get? b.id = some mem ∧ mem.Coherent
  bounds : t.assignment.Bounds m f g
  least : ∀ a : Assignment, a.Bounds m f g → t.assignment ≤ a

/-- A reached state that a round does not change holds the least ranks. -/
theorem State.Reached.least {st : State} (h : st.Reached m f g) (hf : f.WellFormed m.locations)
    (hg : FlowGraph.ofFunction f = .ok g) {names : List String}
    (hnames : ∀ b, b ∈ names ↔ b ∈ f.blocks.map Block.id)
    (hchanged : (st.round (Scope.ofFunction m f) f g names).changed = false) {t : Taints}
    (hvalues : t.values = (st.round (Scope.ofFunction m f) f g names).values)
    (hmemory : t.memoryIn = (st.round (Scope.ofFunction m f) f g names).memoryIn) :
    t.Least m f g := by
  have htop := bounds_ceiling hf g
  have hround := h.round hf fun b hb => (hnames b).1 hb
  have hassignment : t.assignment = (st.round (Scope.ofFunction m f) f g names).assignment := by
    rw [Taints.assignment, hvalues, hmemory]
    rfl
  refine ⟨hvalues ▸ (hround.below _ htop).coherent, fun b hb => ?_, ?_, fun a ha => ?_⟩
  · obtain ⟨-, -, -, hblocks⟩ :=
      (h.below _ htop).reset.unchanged_visits htop hf.blocks (fun c hc => (hnames c).1 hc) hchanged
    have hentry := (hblocks b hb ((hnames b.id).2 (List.mem_map_of_mem hb))).2
    rw [hmemory]
    exact ⟨_, hentry, ((hround.below _ htop).memoryIn b.id _ hentry).1⟩
  · rw [hassignment]
    exact (h.below _ htop).bounds_of_unchanged htop hf.blocks hg hnames h.params hchanged
  · rw [hassignment]
    exact (hround.below a ha).assignment_le

/-- The bound on the rounds, in the sizes of the function. -/
theorem roundBound_eq (hm : m.WellFormed) (hf : f ∈ m.functions)
    (hg : FlowGraph.ofFunction f = .ok g) :
    roundBound (Scope.ofFunction m f) f (order g).length =
      4 * (f.definedValues.length + f.blocks.length * max 1
        (m.locations.length + f.locations.length)) + 2 := by
  have hwf := hm.function f hf
  have hsites : f.sites.size = f.definedValues.length := by
    rw [← Function.names_sites hwf.values, Table.names, List.length_map, Table.size]
  have hlocations : (Scope.ofFunction m f).locations.size = m.locations.length +
      f.locations.length := by
    have hlength := congrArg List.length (Module.names_locationsFor hm hf)
    rwa [Table.names, List.length_map, List.length_append, List.length_map, List.length_map]
      at hlength
  have horder : (order g).length = f.blocks.length := by
    rw [(FlowGraph.order_perm hg hwf).length_eq, FlowGraph.blocks_eq hg, List.length_map]
  rw [roundBound, hsites, hlocations, horder]

/-- The levels of all slots together fit into the bound, with two rounds to spare. -/
theorem caps_le (values blocks locations : Nat) :
    4 * values + blocks * (1 + 3 * locations) ≤ 4 * (values + blocks * max 1 locations) := by
  -- without locations a block still has its own slot, which the maximum pays for
  have hcells : 1 + 3 * locations ≤ 4 * max 1 locations := by omega
  have hmul := Nat.mul_le_mul_left blocks hcells
  rw [Nat.mul_left_comm] at hmul
  omega

/-- Where every operand is there and the rounds end, their state gives the taints. -/
theorem ofFunction_eq_ok_of_iterate (hm : m.WellFormed) (hf : f ∈ m.functions)
    {st : State} {n : Nat} (hit : iterate (State.round (Scope.ofFunction m f) f g (order g))
      (roundBound (Scope.ofFunction m f) f (order g).length) 0 (start f) = some (st, n)) :
    ofFunction m f g = .ok ⟨st.values, st.memoryIn, declassified f st.values, n⟩ := by
  have hfault : f.placed.findSome? (fun p => operandFault? (Scope.ofFunction m f) p.instr) =
      none := by
    refine List.findSome?_eq_none_iff.2 fun p hp => operandFault?_eq_none hm hf ?_
    obtain ⟨hb, hi⟩ := Function.mem_placed_iff.1 hp
    exact (hm.function f hf).operands hb (List.mem_of_getElem? hi)
  unfold start at hit
  simp only [ofFunction, hfault, hit]

/-- **Every function of a well-formed module has taints**, with the least ranks, and the rounds are
within the bound. -/
theorem exists_least (hm : m.WellFormed) (hf : f ∈ m.functions) :
    ∃ g t, FlowGraph.ofFunction f = .ok g ∧ ofFunction m f g = .ok t ∧ t.Least m f g ∧
      t.rounds ≤
        4 * (f.definedValues.length + f.blocks.length * max 1
          (m.locations.length + f.locations.length)) + 1 := by
  obtain ⟨g, hg, -⟩ := hm.flow f hf
  have hwf := hm.function f hf
  have hnames : ∀ b, b ∈ order g ↔ b ∈ f.blocks.map Block.id := by
    intro b
    rw [(FlowGraph.order_perm hg hwf).mem_iff, FlowGraph.blocks_eq hg]
  have hblocks : ∀ b ∈ order g, b ∈ f.blocks.map Block.id := fun b hb => (hnames b).1 hb
  have hheight : ∀ st : State, st.height m f ≤
      4 * (f.definedValues.length + f.blocks.length * max 1
        (m.locations.length + f.locations.length)) :=
    fun st => le_trans (st.height_le m f) (caps_le _ _ _)
  -- a round that changes something raises the height, which is bounded
  have hrise : ∀ st : State, st.Reached m f g →
      (st.round (Scope.ofFunction m f) f g (order g)).changed = true →
        st.height m f < (st.round (Scope.ofFunction m f) f g (order g)).height m f :=
    fun st hst => State.height_lt_round (hst.below _ (bounds_ceiling hwf g)) hwf hblocks
  have hleft := roundBound_eq hm hf hg
  obtain ⟨prev, n, hit, hprev, hchanged, hn⟩ :=
    exists_of_iterate (fun st hst => hst.round hwf hblocks) hheight hrise
    (roundBound (Scope.ofFunction m f) f (order g).length) 0 (start f)
      (reached_start hwf) (by omega)
  refine ⟨g, _, hg, ofFunction_eq_ok_of_iterate hm hf hit,
    hprev.least hwf hg hnames hchanged rfl rfl, ?_⟩
  change n ≤ _
  omega

/-! ## Functions of a validated module

The two results for callers, with the sample that shows them at work: a function with a loop, a
secret parameter and a location of its own. -/

/-- A loop that mixes a key into an accumulator and keeps the last value in a buffer. -/
def mix : Function :=
  ⟨"mix",
    [⟨"entry",
      [⟨.compute, ["n"], some "acc0", [], none, none⟩, ⟨.jump, [], none, ["head"], none, none⟩]⟩,
      ⟨"head", [⟨.phi, ["acc0", "acc1"], some "acc", [], none, none⟩,
        ⟨.branch, ["n"], none, ["body", "out"], none, none⟩]⟩,
      ⟨"body", [⟨.compute, ["acc", "key"], some "acc1", [], none, none⟩,
        ⟨.store, ["acc1"], none, [], some "buf", none⟩, ⟨.jump, [], none, ["head"], none, none⟩]⟩,
      ⟨"out", [⟨.load, [], some "v", [], some "buf", none⟩,
        ⟨.ret, ["acc"], none, [], none, none⟩]⟩],
    [⟨"key", .secret⟩, ⟨"n", .pub⟩], none, [⟨"buf", .stack, some "buf", false⟩]⟩

def mixing : Module := ⟨"mixing", [mix], []⟩

theorem validate_mixing : mixing.validate = .ok () := rfl

theorem mix_mem_mixing : mix ∈ mixing.functions := List.mem_singleton.2 rfl

/-- **The rounds converge.** Four times the number of values and cells, and two more, is a bound on
them, where a block has a cell for each location in sight and at least one. -/
theorem exists_rounds_le {m : Module} (hm : m.validate = .ok ()) {f : Function}
    (hf : f ∈ m.functions) :
    ∃ g t, FlowGraph.ofFunction f = .ok g ∧ ofFunction m f g = .ok t ∧
      t.rounds ≤
        4 * (f.definedValues.length + f.blocks.length * max 1
          (m.locations.length + f.locations.length)) + 2 := by
  obtain ⟨g, t, hg, ht, -, hrounds⟩ := exists_least (Module.wellFormed_of_validate hm) hf
  exact ⟨g, t, hg, ht, Nat.le_succ_of_le hrounds⟩

theorem exists_rounds_le_mixing : mixing.validate = .ok () ∧ mix ∈ mixing.functions ∧
    ∃ g t, FlowGraph.ofFunction mix = .ok g ∧ ofFunction mixing mix g = .ok t ∧ t.rounds ≤ 42 :=
  ⟨validate_mixing, mix_mem_mixing, exists_rounds_le validate_mixing mix_mem_mixing⟩

/-- **The taints have the ranks of the least solution of the equations.** -/
theorem exists_isLeast_assignment {m : Module} (hm : m.validate = .ok ()) {f : Function}
    (hf : f ∈ m.functions) :
    ∃ g t, FlowGraph.ofFunction f = .ok g ∧ ofFunction m f g = .ok t ∧
      IsLeast {a : Assignment | a.Solves m f g} t.assignment := by
  have hwf := Module.wellFormed_of_validate hm
  obtain ⟨g, t, hg, ht, hleast, -⟩ := exists_least hwf hf
  refine ⟨g, t, hg, ht, ?_, fun a ha => hleast.least a ha.bounds⟩
  exact Assignment.solves_of_least hleast.bounds hleast.least (hwf.function f hf).values

theorem exists_isLeast_assignment_mixing : mixing.validate = .ok () ∧ mix ∈ mixing.functions ∧
    ∃ g t, FlowGraph.ofFunction mix = .ok g ∧ ofFunction mixing mix g = .ok t ∧
      IsLeast {a : Assignment | a.Solves mixing mix g} t.assignment :=
  ⟨validate_mixing, mix_mem_mixing, exists_isLeast_assignment validate_mixing mix_mem_mixing⟩

end Taints

end ConstantTime
