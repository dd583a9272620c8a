/-
What a round of the taint iteration keeps, and what a round that changes nothing shows.

The argument goes through the levels of the iteration one at a time: an effect, a step, a block, a
visit, a round. At each level there are two lemmas. One says that whatever was below an assignment
that bounds the equations stays below it; the memory is then compared with what the equations say
at the same place. The other says what it means that nothing changed: every output already ranks as
its instruction asks, and the end of every block already ranks as its last memory.

That values may change in the middle of a round, before the blocks that read them are visited or
after, makes no difference to either: both speak about the state as it is at one place.
-/
import Mathlib.Data.List.Infix
import ConstantTime.Proofs.Equations

set_option autoImplicit false

namespace ConstantTime

/-! ## Effects

An effect is compared with the equations at the same place: `Covered` relates the ranks of the
tables to ranks that bound them. -/

/-- Coherent taints of values and memory, nowhere above the given ranks. -/
structure Covered (values memory : Ranks) (table : Table Taint) (state : Memory) : Prop where
  coherentValues : table.Coherent
  coherentMemory : state.Coherent
  values_le : table.ranks ≤ values
  memory_le : state.ranks ≤ memory

namespace Covered

variable {values memory : Ranks} {table : Table Taint} {state : Memory}

/-- The effect on memory stays below the effect on ranks. -/
theorem memory_transfer (h : Covered values memory table state) (s : Scope) (i : Instr) :
    (i.transfer s table state).memory.Coherent ∧
      (i.transfer s table state).memory.ranks ≤ i.memoryRanks values memory := by
  refine ⟨Instr.coherent_transfer_memory h.coherentValues h.coherentMemory i, ?_⟩
  rw [Instr.ranks_transfer]
  exact Instr.memoryRanks_mono h.values_le h.memory_le i

/-- The taint of what is defined stays below the rank given to it. -/
theorem defines_transfer (h : Covered values memory table state) {s : Scope} {i : Instr}
    {v : String} {t : Taint} (hd : (i.transfer s table state).defines = some (v, t)) :
    t.Coherent ∧ ∃ r, i.definedRank s values memory = some (v, r) ∧ t.rank ≤ r := by
  obtain ⟨hgiven, hcoherent⟩ := Instr.gives_transfer h.coherentValues h.coherentMemory i (s := s)
  rw [hd, Option.map_some] at hgiven
  exact ⟨hcoherent _ hd, Instr.definedRank_mono h.values_le h.memory_le hgiven.symm⟩

/-- If single steps stay below an assignment, so do all steps of a block: at every instruction the
state is below what the equations say there. -/
theorem run {σ : Type} (table : σ → Table Taint) (state : σ → Memory) (step : σ → Instr → σ)
    {m : Module} {f : Function} {a : Assignment}
    (hstep : ∀ (memory : Ranks) (x : σ) (i : Instr), Covered a.value memory (table x) (state x) →
      (∀ v r, i.definedRank (Scope.ofFunction m f) a.value memory = some (v, r) → r ≤ a.value v) →
        Covered a.value (i.memoryRanks a.value memory) (table (step x i)) (state (step x i)))
    (ha : a.CoversOutputs m f) {b : Block} (hb : b ∈ f.blocks) {x : σ}
    (hx : Covered a.value (a.entry b.id) (table x) (state x)) {before : List Instr}
    (hbefore : before <+: b.instrs) :
    Covered a.value (a.memoryAt b before) (table (before.foldl step x))
      (state (before.foldl step x)) := by
  induction before using List.reverseRecOn with
  | nil => exact hx
  | append_singleton before i ih =>
    have hcovered := ih ((List.prefix_append before [i]).trans hbefore)
    rw [List.foldl_append, Assignment.memoryAt, memoryAfter_concat]
    exact hstep _ _ i hcovered (ha b hb before i hbefore)

end Covered

namespace Taints

/-! ## Steps

A step lets the effect of an instruction happen. A value is written only if its taint improves, and
the state is marked as changed exactly then. -/

namespace Point

/-- All that giving a value a taint can do. -/
theorem define_cases (p : Point) (v : String) (t : Taint) :
    (p.values.get? v = none ∧ p.define v t = ⟨p.values.set v t, p.memory, true⟩) ∨
      (∃ old, p.values.get? v = some old ∧ old.improves t = true ∧
        p.define v t = ⟨p.values.set v (t.join old), p.memory, true⟩) ∨
      ∃ old, p.values.get? v = some old ∧ old.improves t = false ∧ p.define v t = p := by
  unfold define
  split
  · next hnone => exact .inl ⟨hnone, rfl⟩
  · next old hold =>
    split
    · next himp => exact .inr (.inl ⟨old, hold, himp, rfl⟩)
    · next himp => exact .inr (.inr ⟨old, hold, Bool.eq_false_iff.2 himp, rfl⟩)

/-- Coherent taints are all that is ever entered. -/
theorem coherent_define {p : Point} (hp : p.values.Coherent) {v : String} {t : Taint}
    (ht : t.Coherent) :
    (p.define v t).values.Coherent := by
  rcases define_cases p v t with ⟨_, h⟩ | ⟨old, hold, _, h⟩ | ⟨_, _, _, h⟩
  · rw [h]
    exact hp.set ht
  · rw [h]
    exact hp.set (Taint.coherent_join ht (hp v old hold))
  · rw [h]
    exact hp

/-- In ranks, giving a value a taint is a join, whether or not anything is recorded. -/
theorem ranks_define {p : Point} (hp : p.values.Coherent) {v : String} {t : Taint}
    (ht : t.Coherent) :
    (p.define v t).values.ranks = Function.update p.values.ranks v
      (max (p.values.ranks v) t.rank) := by
  rcases define_cases p v t with ⟨hnone, h⟩ | ⟨old, hold, -, h⟩ | ⟨old, hold, himp, h⟩
  · rw [h, Table.ranks_set, Table.ranks_of_get?_eq_none hnone, max_eq_right (Rank.pub_le _)]
  · rw [h, Table.ranks_set, Taint.rank_join ht (hp v old hold),
      Table.ranks_of_get?_eq_some hold, max_comm]
  · -- no improvement, so the join gives back what was there
    have hle : t.rank ≤ old.rank := by
      rw [← not_lt, ← Taint.improves_iff (hp v old hold) ht, himp]
      exact Bool.false_ne_true
    rw [h, Table.ranks_of_get?_eq_some hold, max_eq_left hle, ← Table.ranks_of_get?_eq_some hold,
      Function.update_eq_self]

@[simp] theorem memory_define (p : Point) (v : String) (t : Taint) :
    (p.define v t).memory = p.memory := by
  rcases define_cases p v t with ⟨_, h⟩ | ⟨_, _, _, h⟩ | ⟨_, _, _, h⟩ <;> rw [h]

/-- All that a step can do: with the memory after the instruction in place, it may give a value a
taint. -/
theorem step_cases (s : Scope) (p : Point) (i : Instr) :
    ∃ q : Point, q.values = p.values ∧ q.memory = (i.transfer s p.values p.memory).memory ∧
      q.changed = p.changed ∧
      (((i.transfer s p.values p.memory).defines = none ∧ p.step s i = q) ∨
        ∃ v t, (i.transfer s p.values p.memory).defines = some (v, t) ∧
          p.step s i = q.define v t) := by
  refine ⟨{ p with memory := (i.transfer s p.values p.memory).memory }, rfl, rfl, rfl, ?_⟩
  unfold step
  simp only
  split
  · next v t hd => exact .inr ⟨v, t, hd, rfl⟩
  · next hd => exact .inl ⟨hd, rfl⟩

/-- The memory after a step is what the instruction makes of it. -/
theorem memory_step (s : Scope) (p : Point) (i : Instr) :
    (p.step s i).memory = (i.transfer s p.values p.memory).memory := by
  obtain ⟨q, -, hmemory, -, ⟨-, h⟩ | ⟨v, t, -, h⟩⟩ := step_cases s p i
  · rw [h, hmemory]
  · rw [h, memory_define, hmemory]

/-- A step stays below the equations. -/
theorem covered_step {values memory : Ranks} {s : Scope} {p : Point}
    (hp : Covered values memory p.values p.memory) {i : Instr}
    (hi : ∀ v r, i.definedRank s values memory = some (v, r) → r ≤ values v) :
    Covered values (i.memoryRanks values memory) (p.step s i).values (p.step s i).memory := by
  obtain ⟨hmc, hmr⟩ := hp.memory_transfer s i
  have hqc := hp.coherentValues
  have hqr := hp.values_le
  rw [memory_step]
  obtain ⟨q, hvalues, -, -, ⟨-, h⟩ | ⟨v, t, hd, h⟩⟩ := step_cases s p i
  · rw [h, hvalues]
    exact ⟨hqc, hmc, hqr, hmr⟩
  · obtain ⟨ht, r, hr, hle⟩ := hp.defines_transfer hd
    rw [← hvalues] at hqc hqr
    rw [h]
    refine ⟨coherent_define hqc ht, hmc, ?_, hmr⟩
    -- the value was below, and what it is joined with is below what the equations ask for
    rw [ranks_define hqc ht]
    exact update_le_iff.2 ⟨max_le (hqr v) (le_trans hle (hi v r hr)), fun w _ => hqr w⟩

/-- A step lowers no value. -/
theorem ranks_le_step {s : Scope} {p : Point} (hv : p.values.Coherent) (hm : p.memory.Coherent)
    (i : Instr) :
    p.values.ranks ≤ (p.step s i).values.ranks := by
  obtain ⟨q, hvalues, -, -, ⟨-, h⟩ | ⟨v, t, hd, h⟩⟩ := step_cases s p i
  · rw [h, hvalues]
  · have ht := (Instr.gives_transfer hv hm i (s := s)).2 _ hd
    rw [← hvalues] at hv ⊢
    rw [h, ranks_define hv ht]
    exact le_update_self_iff.2 (le_max_left _ _)

/-- A step that changes nothing found the output at its rank already. -/
theorem unchanged_step {s : Scope} {p : Point} (hv : p.values.Coherent)
    (hm : p.memory.Coherent) {i : Instr} (h : (p.step s i).changed = false) :
    p.changed = false ∧ (p.step s i).values = p.values ∧
      ∀ v r, i.definedRank s p.values.ranks p.memory.ranks = some (v, r) →
        r ≤ p.values.ranks v := by
  obtain ⟨hgiven, hcoherent⟩ := Instr.gives_transfer hv hm i (s := s)
  rw [← hgiven]
  obtain ⟨q, hvalues, -, hchanged, ⟨hd, hstep⟩ | ⟨v, t, hd, hstep⟩⟩ := step_cases s p i
  · rw [hstep] at h ⊢
    refine ⟨hchanged ▸ h, hvalues, fun v r hr => ?_⟩
    rw [hd] at hr
    cases hr
  · rw [hstep] at h ⊢
    -- of the three things that giving a taint can do, two are changes
    rcases define_cases q v t with ⟨_, hdef⟩ | ⟨_, _, _, hdef⟩ | ⟨old, hold, himp, hdef⟩
    · rw [hdef] at h
      cases h
    · rw [hdef] at h
      cases h
    · rw [hdef] at h ⊢
      refine ⟨hchanged ▸ h, hvalues, fun w r hr => ?_⟩
      rw [hd] at hr
      cases hr
      rw [hvalues] at hold
      rw [Table.ranks_of_get?_eq_some hold, ← not_lt,
        ← Taint.improves_iff (hv v old hold) (hcoherent _ hd), himp]
      exact Bool.false_ne_true

/-! ## Blocks

A block is a sequence of steps. What a step keeps, the block keeps, and if nothing changed in the
block then nothing changed in any of its steps. -/

variable {m : Module} {f : Function} {g : FlowGraph}

/-- Coherence is being below the highest assignment there is. -/
theorem coherent_run {s : Scope} {p : Point} (hv : p.values.Coherent) (hm : p.memory.Coherent)
    (instrs : List Instr) :
    (instrs.foldl (Point.step s) p).values.Coherent ∧
      (instrs.foldl (Point.step s) p).memory.Coherent := by
  induction instrs using List.reverseRecOn with
  | nil => exact ⟨hv, hm⟩
  | append_singleton instrs i ih =>
    -- nothing is above secret, so every step stays below it and keeps coherence
    have htop : Covered (fun _ => .secret) (fun _ => .secret) (instrs.foldl (Point.step s) p).values
        (instrs.foldl (Point.step s) p).memory :=
          ⟨ih.1, ih.2, fun _ => Rank.le_secret _, fun _ => Rank.le_secret _⟩
    have hstep := covered_step htop (s := s) (i := i) fun _ _ _ => Rank.le_secret _
    rw [List.foldl_append]
    exact ⟨hstep.coherentValues, hstep.coherentMemory⟩

/-- A block lowers no value. -/
theorem ranks_le_run {s : Scope} {p : Point} (hv : p.values.Coherent) (hm : p.memory.Coherent)
    (instrs : List Instr) :
    p.values.ranks ≤ (instrs.foldl (Point.step s) p).values.ranks := by
  induction instrs using List.reverseRecOn with
  | nil => exact le_refl _
  | append_singleton instrs i ih =>
    obtain ⟨hv', hm'⟩ := coherent_run hv hm instrs (s := s)
    rw [List.foldl_append]
    exact le_trans ih (ranks_le_step hv' hm' i)

/-- A block that changes nothing found every output at its rank already, and leaves the memory that
the equations say. -/
theorem unchanged_run {s : Scope} {p : Point} (hv : p.values.Coherent) (hm : p.memory.Coherent)
    {instrs : List Instr} (h : (instrs.foldl (Point.step s) p).changed = false) :
    p.changed = false ∧ (instrs.foldl (Point.step s) p).values = p.values ∧
      (instrs.foldl (Point.step s) p).memory.ranks =
        memoryAfter p.values.ranks p.memory.ranks instrs ∧
      ∀ before i, before ++ [i] <+: instrs → ∀ v r,
        i.definedRank s p.values.ranks (memoryAfter p.values.ranks p.memory.ranks before) =
          some (v, r) →
          r ≤ p.values.ranks v := by
  induction instrs using List.reverseRecOn with
  | nil =>
    refine ⟨h, rfl, rfl, fun before i hi => ?_⟩
    exact absurd (List.prefix_nil.1 hi)
      (List.append_ne_nil_of_right_ne_nil before (List.cons_ne_nil i []))
  | append_singleton instrs i ih =>
    obtain ⟨hv', hm'⟩ := coherent_run hv hm instrs (s := s)
    rw [List.foldl_append] at h ⊢
    obtain ⟨hchanged, hvalues, hout⟩ := unchanged_step hv' hm' h
    obtain ⟨hp, hpv, hpm, hpout⟩ := ih hchanged
    refine ⟨hp, hvalues.trans hpv, ?_, fun before j hj => ?_⟩
    · -- the values never changed, so memory moved by the values at the entry
      rw [List.foldl_cons, List.foldl_nil, memory_step, Instr.ranks_transfer, hpv, hpm,
        memoryAfter_concat]
    · -- an instruction of the longer block is the last one, or one of the shorter
      rcases List.prefix_concat_iff.1 hj with heq | hpre
      · obtain ⟨rfl, hij⟩ := List.append_inj' heq rfl
        cases hij
        rw [hpv, hpm] at hout
        exact hout
      · exact hpout before j hpre

end Point

/-! ## Entries

A block is entered with the join of what its predecessors end with. A predecessor that was not
visited yet counts as empty, that is, as public everywhere. -/

/-- The ranks of memory at a block, public if it was not visited yet. -/
def ranksAt (states : Table Memory) (b : String) : Ranks := ((states.get? b).getD .empty).ranks

/-- The ranks at a block that was visited. -/
theorem ranksAt_of_get?_eq_some {states : Table Memory} {b : String} {mem : Memory}
    (h : states.get? b = some mem) :
    ranksAt states b = mem.ranks := by
  rw [ranksAt, h, Option.getD_some]

/-- The empty memory is coherent too. -/
theorem coherent_getD {states : Table Memory} (h : ∀ b mem, states.get? b = some mem → mem.Coherent)
    (b : String) :
    ((states.get? b).getD .empty).Coherent := by
  cases hb : states.get? b with
  | none => exact Memory.coherent_empty
  | some mem => exact h b mem hb

/-- At its entry a block holds in every location the join of what the blocks before it leave
there. -/
theorem entryMemory_reads {out : Table Memory}
    (hout : ∀ p mem, out.get? p = some mem → mem.Coherent) (g : FlowGraph) (b : String) :
    (entryMemory g out b).Coherent ∧
      ∀ l, (entryMemory g out b).read l =
        .joinAll ((g.preds b).map fun p => ((out.get? p).getD .empty).read l) := by
  have hleft : ∀ p l, (((out.get? p).getD .empty).read l).Coherent :=
    fun p l => (coherent_getD hout p).read l
  unfold entryMemory
  induction g.preds b using List.reverseRecOn with
  | nil => exact ⟨Memory.coherent_empty, fun l => rfl⟩
  | append_singleton ps p ih =>
    rw [List.foldl_append, List.foldl_cons, List.foldl_nil]
    obtain ⟨hcoherent, hreads⟩ := ih
    have hsplit : ∀ l, Taint.joinAll ((ps ++ [p]).map fun p => ((out.get? p).getD .empty).read l) =
        (Taint.joinAll (ps.map fun p => ((out.get? p).getD .empty).read l)).join
          (((out.get? p).getD .empty).read l) := by
      intro l
      have hbefore : ∀ t ∈ ps.map fun p => ((out.get? p).getD .empty).read l, t.Coherent :=
        List.forall_mem_map.2 fun q _ => hleft q l
      rw [List.map_append, List.map_singleton,
        Taint.joinAll_append hbefore (List.forall_mem_singleton.2 (hleft p l)),
        Taint.joinAll_singleton (hleft p l)]
    cases hp : out.get? p with
    | none =>
      -- a predecessor that was not visited yet adds nothing, and counts as public
      refine ⟨hcoherent, fun l => ?_⟩
      rw [hsplit l, ← hreads l, hp]
      exact (Taint.join_pub (hcoherent.read l)).symm
    | some mem =>
      refine ⟨hcoherent.join (hout p mem hp), fun l => ?_⟩
      rw [hsplit l, ← hreads l, hp, Option.getD_some, Memory.read_join hcoherent (hout p mem hp)]

/-- A cell at the entry of a block ranks as the highest of the cells of its predecessors. -/
theorem entryMemory_ranks {out : Table Memory}
    (hout : ∀ p mem, out.get? p = some mem → mem.Coherent) (g : FlowGraph) (b : String) :
    (entryMemory g out b).Coherent ∧
      ∀ l, (entryMemory g out b).ranks l = .joinAll ((g.preds b).map fun p => ranksAt out p l) := by
  obtain ⟨hcoherent, hreads⟩ := entryMemory_reads hout g b
  refine ⟨hcoherent, fun l => ?_⟩
  rw [Memory.ranks_eq, hreads l,
    Taint.rank_joinAll (List.forall_mem_map.2 fun p _ => (coherent_getD hout p).read l),
    List.map_map]
  rfl

/-! ## Visits

`Below` is the invariant from one side. From the other side `Settled` says of a block that it asks
for nothing more. -/

namespace State

/-- The state at the entry of a block when it is visited. -/
def first (g : FlowGraph) (st : State) (b : String) : Point :=
  ⟨st.values, entryMemory g st.memoryOut b, st.changed⟩

/-- The state at the end of a block when it is visited. -/
def last (s : Scope) (f : Function) (g : FlowGraph) (st : State) (b : String) : Point :=
  runBlock s f (st.first g b) b

/-- At the end of a visit the instructions of the block have run on what it was entered with. -/
theorem last_eq {f : Function} (hf : (f.blocks.map Block.id).Nodup) {b : Block}
    (hb : b ∈ f.blocks) (s : Scope) (g : FlowGraph) (st : State) :
    st.last s f g b.id = b.instrs.foldl (Point.step s) (st.first g b.id) := by
  rw [last, runBlock, Function.block?_id hf hb]

/-- A visit passes its values on to the next one. -/
theorem values_visit (s : Scope) (f : Function) (g : FlowGraph) (st : State) (b : String) :
    (st.visit s f g b).values = (st.last s f g b).values := by
  unfold visit
  simp only
  split
  · rfl
  · split <;> rfl

/-- It notes the memory that the block was entered with. -/
theorem memoryIn_visit (s : Scope) (f : Function) (g : FlowGraph) (st : State) (b : String) :
    (st.visit s f g b).memoryIn = st.memoryIn.set b (entryMemory g st.memoryOut b) := by
  unfold visit
  simp only
  split
  · rfl
  · split <;> rfl

/-- All that a visit can do to the end of its block. -/
theorem visit_cases (s : Scope) (f : Function) (g : FlowGraph) (st : State) (b : String) :
    (st.memoryOut.get? b = none ∧ (st.visit s f g b).changed = true ∧
        (st.visit s f g b).memoryOut = st.memoryOut.set b (st.last s f g b).memory) ∨
      (∃ old, st.memoryOut.get? b = some old ∧ (st.last s f g b).memory.improvesOn old = true ∧
        (st.visit s f g b).changed = true ∧
        (st.visit s f g b).memoryOut = st.memoryOut.set b (old.join (st.last s f g b).memory)) ∨
      ∃ old, st.memoryOut.get? b = some old ∧ (st.last s f g b).memory.improvesOn old = false ∧
        (st.visit s f g b).changed = (st.last s f g b).changed ∧
        (st.visit s f g b).memoryOut = st.memoryOut := by
  unfold visit
  simp only
  split
  · next hnone => exact .inl ⟨hnone, rfl, rfl⟩
  · next old hold =>
    split
    · next himp => exact .inr (.inl ⟨old, hold, himp, rfl, rfl⟩)
    · next himp => exact .inr (.inr ⟨old, hold, Bool.eq_false_iff.2 himp, rfl, rfl⟩)

/-- The state is coherent and nowhere above an assignment. -/
structure Below (f : Function) (a : Assignment) (st : State) : Prop where
  coherent : st.values.Coherent
  values : st.values.ranks ≤ a.value
  memoryIn : ∀ b mem, st.memoryIn.get? b = some mem → mem.Coherent ∧ mem.ranks ≤ a.entry b
  memoryOut : ∀ b mem, st.memoryOut.get? b = some mem → mem.Coherent ∧ mem.ranks ≤ a.leaving f b

variable {m : Module} {f : Function} {g : FlowGraph} {a : Assignment} {st : State}

/-- The ends of blocks are below what the assignment says there. -/
theorem Below.ranksAt_le (h : st.Below f a) (p : String) :
    ranksAt st.memoryOut p ≤ a.leaving f p := by
  cases hp : st.memoryOut.get? p with
  | none =>
    rw [ranksAt, hp]
    exact fun l => Rank.pub_le _
  | some mem =>
    rw [ranksAt_of_get?_eq_some hp]
    exact (h.memoryOut p mem hp).2

theorem Below.coherent_first (h : st.Below f a) (g : FlowGraph) (b : String) :
    (st.first g b).memory.Coherent :=
  (entryMemory_ranks (fun p mem hp => (h.memoryOut p mem hp).1) g b).1

/-- A block is entered below what the equations say. -/
theorem Below.entry (h : st.Below f a) (ha : a.Bounds m f g) {b : Block} (hb : b ∈ f.blocks) :
    (entryMemory g st.memoryOut b.id).Coherent ∧ (entryMemory g st.memoryOut b.id).ranks ≤
      a.entry b.id := by
  obtain ⟨hcoherent, hranks⟩ := entryMemory_ranks (fun p mem hp => (h.memoryOut p mem hp).1) g b.id
  refine ⟨hcoherent, le_trans (fun l => ?_) (ha.entries b hb)⟩
  rw [hranks l]
  exact Rank.joinAll_map_mono fun p _ => h.ranksAt_le p l

/-- A block is left below what the equations say. -/
theorem Below.last (h : st.Below f a) (ha : a.Bounds m f g)
    (hf : (f.blocks.map Block.id).Nodup) {b : Block} (hb : b ∈ f.blocks) :
    Covered a.value (a.leaving f b.id) (st.last (Scope.ofFunction m f) f g b.id).values
      (st.last (Scope.ofFunction m f) f g b.id).memory := by
  obtain ⟨hcoherent, hentry⟩ := h.entry ha hb
  have hfirst : Covered a.value (a.entry b.id) (st.first g b.id).values (st.first g b.id).memory :=
    ⟨h.coherent, hcoherent, h.values, hentry⟩
  rw [last_eq hf hb, Assignment.leaving, Function.block?_id hf hb]
  exact Covered.run Point.values Point.memory (Point.step (Scope.ofFunction m f))
    (fun _ _ _ hx hi => Point.covered_step hx hi) ha.outputs hb hfirst (List.prefix_refl b.instrs)

/-- A visit stays below the equations. -/
theorem Below.visit (h : st.Below f a) (ha : a.Bounds m f g)
    (hf : (f.blocks.map Block.id).Nodup) {b : Block} (hb : b ∈ f.blocks) :
    (st.visit (Scope.ofFunction m f) f g b.id).Below f a := by
  have hlast := h.last ha hf hb
  -- setting one entry of a table of memory states keeps what holds of all entries
  have hset : ∀ (out : Table Memory) (bound : String → Ranks) (mem : Memory),
      (∀ p x, out.get? p = some x → x.Coherent ∧ x.ranks ≤ bound p) → mem.Coherent →
        mem.ranks ≤ bound b.id →
        ∀ p x, (out.set b.id mem).get? p = some x → x.Coherent ∧ x.ranks ≤ bound p := by
    intro out bound mem hout hcoherent hle p x hx
    rw [Table.get?_set] at hx
    split at hx
    · next heq =>
      cases hx
      subst heq
      exact ⟨hcoherent, hle⟩
    · exact hout p x hx
  constructor
  · rw [values_visit]
    exact hlast.coherentValues
  · rw [values_visit]
    exact hlast.values_le
  · rw [memoryIn_visit]
    exact hset _ a.entry _ h.memoryIn (h.entry ha hb).1 (h.entry ha hb).2
  · rcases visit_cases (Scope.ofFunction m f) f g st b.id
      with ⟨_, _, hout⟩ | ⟨old, hold, _, _, hout⟩ |
      ⟨_, _, _, _, hout⟩
    · rw [hout]
      exact hset _ (a.leaving f) _ h.memoryOut hlast.coherentMemory hlast.memory_le
    · -- both the old end and the new memory are below what leaves the block
      obtain ⟨hoc, hor⟩ := h.memoryOut b.id old hold
      rw [hout]
      refine hset _ (a.leaving f) _ h.memoryOut (hoc.join hlast.coherentMemory) fun l => ?_
      rw [Memory.ranks_join hoc hlast.coherentMemory]
      exact max_le (hor l) (hlast.memory_le l)
    · rw [hout]
      exact h.memoryOut

/-- A visit lowers no value. -/
theorem Below.ranks_le_visit (h : st.Below f a) (s : Scope) (b : String) :
    st.values.ranks ≤ (st.visit s f g b).values.ranks := by
  rw [values_visit, State.last, runBlock]
  split
  · exact Point.ranks_le_run (p := st.first g b) h.coherent (h.coherent_first g b) _
  · exact le_refl _

/-- At a block, nothing is left to do: every output ranks as its instruction asks, and the end of
the block ranks as the memory that leaves it. -/
structure Settled (m : Module) (f : Function) (g : FlowGraph) (st : State) (b : Block) : Prop where
  outputs : ∀ before i, before ++ [i] <+: b.instrs → ∀ v r,
    i.definedRank (Scope.ofFunction m f) st.values.ranks
      (memoryAfter st.values.ranks (entryMemory g st.memoryOut b.id).ranks before) = some (v, r) →
        r ≤ st.values.ranks v
  leaving : memoryAfter st.values.ranks (entryMemory g st.memoryOut b.id).ranks b.instrs ≤
    ranksAt st.memoryOut b.id

/-- A visit that changes nothing found its block settled. -/
theorem Below.unchanged_visit (h : st.Below f a) (hf : (f.blocks.map Block.id).Nodup) {b : Block}
    (hb : b ∈ f.blocks) (hchanged : (st.visit (Scope.ofFunction m f) f g b.id).changed = false) :
    st.changed = false ∧ (st.visit (Scope.ofFunction m f) f g b.id).values = st.values ∧
      (st.visit (Scope.ofFunction m f) f g b.id).memoryOut = st.memoryOut ∧ st.Settled m f g b := by
  have hentry := h.coherent_first g b.id
  have hlast := last_eq hf hb (Scope.ofFunction m f) g st
  have hcoherent := (Point.coherent_run (p := st.first g b.id) h.coherent hentry b.instrs
    (s := Scope.ofFunction m f)).2
  rcases visit_cases (Scope.ofFunction m f) f g st b.id with ⟨_, htrue, _⟩ | ⟨_, _, _, htrue, _⟩ |
    ⟨old, hold, himp, hkept, hout⟩
  · rw [htrue] at hchanged
    cases hchanged
  · rw [htrue] at hchanged
    cases hchanged
  · rw [hkept, hlast] at hchanged
    obtain ⟨hst, hvalues, hmemory, houtputs⟩ :=
      Point.unchanged_run (p := st.first g b.id) h.coherent hentry hchanged
    refine ⟨hst, by rw [values_visit, hlast, hvalues]; rfl, hout, houtputs, fun l => ?_⟩
    -- a cell above the old end would have been an improvement
    change memoryAfter (st.first g b.id).values.ranks (st.first g b.id).memory.ranks b.instrs l ≤ _
    rw [← hmemory, ranksAt_of_get?_eq_some hold, ← not_lt]
    intro hlt
    have htrue := (Memory.improvesOn_iff hcoherent (h.memoryOut b.id old hold).1).2 ⟨l, hlt⟩
    rw [← hlast, himp] at htrue
    cases htrue

/-! ## Rounds

A round that changes nothing has settled every block at one and the same state, and so this state
bounds the equations. -/

/-- Some visits stay below the equations, and lower no value. -/
theorem Below.visits (h : st.Below f a) (ha : a.Bounds m f g) (hf : (f.blocks.map Block.id).Nodup)
    {names : List String} (hnames : ∀ b ∈ names, b ∈ f.blocks.map Block.id) :
    (names.foldl (State.visit (Scope.ofFunction m f) f g) st).Below f a ∧
      st.values.ranks ≤ (names.foldl (State.visit (Scope.ofFunction m f) f g) st).values.ranks := by
  induction names using List.reverseRecOn with
  | nil => exact ⟨h, le_refl _⟩
  | append_singleton names b ih =>
    obtain ⟨hbelow, hle⟩ := ih fun c hc => hnames c (List.mem_append_left [b] hc)
    obtain ⟨blk, hblk, rfl⟩ :=
      List.mem_map.1 (hnames b (List.mem_append_right names (List.mem_singleton.2 rfl)))
    rw [List.foldl_append]
    exact ⟨hbelow.visit ha hf hblk, le_trans hle (hbelow.ranks_le_visit _ _)⟩

/-- Visits that change nothing found all their blocks settled, and record the memory at the entry
of each. -/
theorem Below.unchanged_visits (h : st.Below f a) (ha : a.Bounds m f g)
    (hf : (f.blocks.map Block.id).Nodup) {names : List String}
    (hnames : ∀ b ∈ names, b ∈ f.blocks.map Block.id)
    (hchanged : (names.foldl (State.visit (Scope.ofFunction m f) f g) st).changed = false) :
    st.changed = false ∧
      (names.foldl (State.visit (Scope.ofFunction m f) f g) st).values = st.values ∧
      (names.foldl (State.visit (Scope.ofFunction m f) f g) st).memoryOut = st.memoryOut ∧
      ∀ b ∈ f.blocks, b.id ∈ names → st.Settled m f g b ∧
        (names.foldl (State.visit (Scope.ofFunction m f) f g) st).memoryIn.get? b.id =
          some (entryMemory g st.memoryOut b.id) := by
  induction names using List.reverseRecOn with
  | nil => exact ⟨hchanged, rfl, rfl, fun b _ hb => absurd hb List.not_mem_nil⟩
  | append_singleton names c ih =>
    have hbefore : ∀ b ∈ names, b ∈ f.blocks.map Block.id :=
      fun b hb => hnames b (List.mem_append_left [c] hb)
    obtain ⟨blk, hblk, rfl⟩ :=
      List.mem_map.1 (hnames c (List.mem_append_right names (List.mem_singleton.2 rfl)))
    rw [List.foldl_append, List.foldl_cons, List.foldl_nil] at hchanged ⊢
    -- the last visit changed nothing, so neither did those before it
    obtain ⟨hst, hvalues, hout, hsettled⟩ :=
      (h.visits ha hf hbefore).1.unchanged_visit hf hblk hchanged
    obtain ⟨hst', hvalues', hout', hrest⟩ := ih hbefore hst
    refine ⟨hst', hvalues.trans hvalues', hout.trans hout', fun b hb hmem => ?_⟩
    rw [memoryIn_visit, hout', Table.get?_set]
    by_cases hid : blk.id = b.id
    · -- the block just visited: it was settled in a state with the same values and ends
      rw [if_pos hid, hid]
      rw [List.inj_on_of_nodup_map hf hblk hb hid] at hsettled
      obtain ⟨houtputs, hleaving⟩ := hsettled
      rw [hvalues', hout'] at houtputs hleaving
      exact ⟨⟨houtputs, hleaving⟩, rfl⟩
    · rw [if_neg hid]
      rcases List.mem_append.1 hmem with hb' | hb'
      · exact hrest b hb hb'
      · exact absurd (List.mem_singleton.1 hb').symm hid

/-- The ranks in a state. -/
def assignment (st : State) : Assignment := ⟨st.values.ranks, ranksAt st.memoryIn⟩

/-- Read as an assignment, a state below another one is below it. -/
theorem Below.assignment_le (h : st.Below f a) : st.assignment ≤ a := by
  refine ⟨h.values, fun b => ?_⟩
  change ranksAt st.memoryIn b ≤ a.entry b
  cases hb : st.memoryIn.get? b with
  | none =>
    rw [ranksAt, hb]
    exact fun l => Rank.pub_le _
  | some mem =>
    rw [ranksAt_of_get?_eq_some hb]
    exact (h.memoryIn b mem hb).2

/-- The mark for changes does not matter for being below. -/
theorem Below.reset (h : st.Below f a) : Below f a { st with changed := false } :=
  ⟨h.coherent, h.values, h.memoryIn, h.memoryOut⟩

/-- A round stays below the equations, and lowers no value. -/
theorem Below.round (h : st.Below f a) (ha : a.Bounds m f g) (hf : (f.blocks.map Block.id).Nodup)
    {names : List String} (hnames : ∀ b ∈ names, b ∈ f.blocks.map Block.id) :
    (st.round (Scope.ofFunction m f) f g names).Below f a ∧
      st.values.ranks ≤ (st.round (Scope.ofFunction m f) f g names).values.ranks :=
  h.reset.visits ha hf hnames

/-- **A round that changes nothing ends above the equations.** All blocks are settled in one and
the same state, since nothing changed between their visits. So what leaves a block is below the end
recorded for it, and the ends are what was joined at the entries. -/
theorem Below.bounds_of_unchanged (h : st.Below f a) (ha : a.Bounds m f g)
    (hf : (f.blocks.map Block.id).Nodup) (hg : FlowGraph.ofFunction f = .ok g) {names : List String}
    (hnames : ∀ b, b ∈ names ↔ b ∈ f.blocks.map Block.id)
    (hparams : ∀ p ∈ f.params, .ofSensitivity p.sensitivity ≤ st.values.ranks p.value)
    (hchanged : (st.round (Scope.ofFunction m f) f g names).changed = false) :
    (st.round (Scope.ofFunction m f) f g names).assignment.Bounds m f g := by
  obtain ⟨-, hvalues, -, hblocks⟩ :=
    h.reset.unchanged_visits ha hf (fun b hb => (hnames b).1 hb) hchanged
  -- the ranks after the round: the values as before it, and at each entry what was joined there
  have hentry : ∀ b ∈ f.blocks, (st.round (Scope.ofFunction m f) f g names).assignment.entry b.id =
      (entryMemory g st.memoryOut b.id).ranks := fun b hb =>
    ranksAt_of_get?_eq_some (hblocks b hb ((hnames b.id).2 (List.mem_map_of_mem hb))).2
  have hvalue : (st.round (Scope.ofFunction m f) f g names).assignment.value = st.values.ranks :=
    congrArg Table.ranks hvalues
  have hsettled : ∀ b ∈ f.blocks, st.Settled m f g b := fun b hb =>
    let ⟨houtputs, hleaving⟩ := (hblocks b hb ((hnames b.id).2 (List.mem_map_of_mem hb))).1
    ⟨houtputs, hleaving⟩
  constructor
  · intro p hp
    rw [hvalue]
    exact hparams p hp
  · intro b hb before i hi v r hr
    rw [Assignment.memoryAt, hentry b hb, hvalue] at hr
    rw [hvalue]
    exact (hsettled b hb).outputs before i hi v r hr
  · intro b hb l
    have hcoherent : ∀ p mem, st.memoryOut.get? p = some mem → mem.Coherent :=
      fun p mem hp => (h.memoryOut p mem hp).1
    rw [hentry b hb, (entryMemory_ranks hcoherent g b.id).2 l]
    refine Rank.joinAll_map_mono fun p hp => ?_
    -- a block before `b`: its last memory is below its recorded end
    have hpblocks := FlowGraph.preds_subset hg hf hp
    rw [FlowGraph.blocks_eq hg] at hpblocks
    obtain ⟨blk, hblk, rfl⟩ := List.mem_map.1 hpblocks
    rw [Assignment.leaving, Function.block?_id hf hblk, hentry blk hblk, hvalue]
    exact (hsettled blk hblk).leaving l

end State

/-! ## The start

Only parameters have taints before the first round, those that are declared for them. -/

/-- The taint of a parameter, as declared. -/
def seed (p : Param) : Taint :=
  match p.sensitivity with
  | .secret => .source p.value
  | s => ⟨.ofSensitivity s, []⟩

/-- What is declared for a parameter is coherent. -/
theorem coherent_seed (p : Param) : (seed p).Coherent := by
  unfold seed
  cases p.sensitivity with
  | pub => exact Taint.coherent_pub
  | unknown => exact Taint.coherent_unknown []
  | secret => exact Taint.coherent_source p.value

/-- And it ranks as its sensitivity says. -/
theorem rank_seed (p : Param) : (seed p).rank = .ofSensitivity p.sensitivity := by
  unfold seed
  cases p.sensitivity <;> rfl

/-- Where names are distinct, the start has just the parameters. -/
theorem seeds_get?_eq_some_iff {f : Function} (hf : (f.params.map Param.value).Nodup) {v : String}
    {t : Taint} :
    (seeds f).get? v = some t ↔ ∃ p ∈ f.params, p.value = v ∧ seed p = t := by
  have hentries : (seeds f).entries = [] ++ f.params.map fun p => (p.value, seed p) :=
    Table.entries_foldl_set Param.value seed hf fun _ _ => List.not_mem_nil
  rw [Table.get?_eq_some_iff, hentries, List.nil_append, List.mem_map]
  simp only [Prod.mk.injEq]

/-- At the start parameters rank as declared. -/
theorem ranks_seeds {f : Function} (hf : (f.params.map Param.value).Nodup) {p : Param}
    (hp : p ∈ f.params) :
    (seeds f).ranks p.value = .ofSensitivity p.sensitivity := by
  rw [Table.ranks_of_get?_eq_some ((seeds_get?_eq_some_iff hf).2 ⟨p, hp, rfl, rfl⟩), rank_seed]

/-- The state before the first round. -/
def start (f : Function) : State := ⟨seeds f, Table.empty, Table.empty, false⟩

/-- The start is below the equations. -/
theorem below_start {m : Module} {f : Function} {g : FlowGraph} {a : Assignment}
    (ha : a.Bounds m f g) (hf : (f.params.map Param.value).Nodup) : (start f).Below f a := by
  refine ⟨fun v t hv => ?_, fun v => ?_, nofun, nofun⟩
  · obtain ⟨p, -, -, rfl⟩ := (seeds_get?_eq_some_iff hf).1 hv
    exact coherent_seed p
  · change (seeds f).ranks v ≤ a.value v
    cases hv : (seeds f).get? v with
    | none =>
      rw [Table.ranks_of_get?_eq_none hv]
      exact Rank.pub_le _
    | some t =>
      obtain ⟨p, hp, rfl, rfl⟩ := (seeds_get?_eq_some_iff hf).1 hv
      rw [Table.ranks_of_get?_eq_some hv, rank_seed]
      exact ha.params p hp

end Taints

end ConstantTime
