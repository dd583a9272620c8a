/-
The equations behind the taint iteration, in ranks.

An assignment gives a rank to every value and to every memory cell at the entry of every block.
`Assignment.Solves` says that it fits a function: parameters rank as declared, an output ranks at
least as the effect of its instruction says, and memory at the entry of a block is the join over
the ends of the blocks before it. Nothing here knows about rounds, about the order of visits, or
about what counts as an improvement.

`Assignment.Bounds` is the same with inequalities only. It is what an induction over rounds needs,
and by the argument of Knaster and Tarski nothing is lost: the least assignment that bounds the
equations solves them. Lowering an assignment that bounds the equations, as long as one does so
consistently, gives another; so if there was room to lower the least one, it would not be the
least.
-/
import Mathlib.Data.List.Induction
import Mathlib.Order.Bounds.Basic
import ConstantTime.Proofs.RankTransfer
import ConstantTime.Proofs.Flow

set_option autoImplicit false

namespace ConstantTime

/-- The ranks of memory after some instructions. -/
def memoryAfter (values memory : Ranks) (instrs : List Instr) : Ranks :=
  instrs.foldl (fun mem i => i.memoryRanks values mem) memory

theorem memoryAfter_concat (values memory : Ranks) (instrs : List Instr) (i : Instr) :
    memoryAfter values memory (instrs ++ [i]) =
      i.memoryRanks values (memoryAfter values memory instrs) := by
  rw [memoryAfter, List.foldl_append]
  rfl

/-- More secret values and cells leave a more secret memory. -/
theorem memoryAfter_mono {values values' memory memory' : Ranks} (hv : values ≤ values')
    (hm : memory ≤ memory') (instrs : List Instr) :
    memoryAfter values memory instrs ≤ memoryAfter values' memory' instrs := by
  induction instrs using List.reverseRecOn with
  | nil => exact hm
  | append_singleton instrs i ih =>
    rw [memoryAfter_concat, memoryAfter_concat]
    exact Instr.memoryRanks_mono hv ih i

/-! ## Assignments

An assignment is compared at all values and at all cells. Both sides of the equations are monotone
in it. -/

/-- Ranks of all values, and of all memory cells at the entry of every block. -/
structure Assignment where
  value : Ranks
  entry : String → Ranks

namespace Assignment

instance : LE Assignment := ⟨fun a b => a.value ≤ b.value ∧ a.entry ≤ b.entry⟩

/-- The ranks of memory at the end of a block. -/
def leaving (a : Assignment) (f : Function) (b : String) : Ranks :=
  match f.block? b with
  | some blk => memoryAfter a.value (a.entry b) blk.instrs
  | none => a.entry b

/-- The ranks of memory before the instruction that follows `before` in a block. -/
def memoryAt (a : Assignment) (b : Block) (before : List Instr) : Ranks :=
  memoryAfter a.value (a.entry b.id) before

/-- The ranks that meet at the entry of a block. -/
def meeting (a : Assignment) (f : Function) (g : FlowGraph) (b : String) : Ranks :=
  fun l => .joinAll ((g.preds b).map fun p => a.leaving f p l)

/-- The memory at the end of a block rises with the assignment. -/
theorem leaving_mono {a b : Assignment} (h : a ≤ b) (f : Function) (name : String) :
    a.leaving f name ≤ b.leaving f name := by
  unfold leaving
  split
  · exact memoryAfter_mono h.1 (h.2 name) _
  · exact h.2 name

/-- So does what the blocks before it hand on. -/
theorem meeting_mono {a b : Assignment} (h : a ≤ b) (f : Function) (g : FlowGraph) (name : String) :
    a.meeting f g name ≤ b.meeting f g name :=
  fun l => Rank.joinAll_map_mono fun p _ => leaving_mono h f p l

/-- Every output ranks at least as the effect of its instruction says, given the memory at that
instruction. -/
def CoversOutputs (m : Module) (f : Function) (a : Assignment) : Prop :=
  ∀ b ∈ f.blocks, ∀ before i, before ++ [i] <+: b.instrs →
    ∀ v r, i.definedRank (Scope.ofFunction m f) a.value (a.memoryAt b before) = some (v, r) →
      r ≤ a.value v

/-- The assignment solves the equations of a function. -/
structure Solves (m : Module) (f : Function) (g : FlowGraph) (a : Assignment) : Prop where
  params : ∀ p ∈ f.params, a.value p.value = .ofSensitivity p.sensitivity
  outputs : a.CoversOutputs m f
  entries : ∀ b ∈ f.blocks, a.entry b.id = a.meeting f g b.id

/-- The assignment is nowhere below what the equations of a function ask for. -/
structure Bounds (m : Module) (f : Function) (g : FlowGraph) (a : Assignment) : Prop where
  params : ∀ p ∈ f.params, .ofSensitivity p.sensitivity ≤ a.value p.value
  outputs : a.CoversOutputs m f
  entries : ∀ b ∈ f.blocks, a.meeting f g b.id ≤ a.entry b.id

variable {m : Module} {f : Function} {g : FlowGraph}

/-- A solution bounds the equations. -/
theorem Solves.bounds {a : Assignment} (h : a.Solves m f g) : a.Bounds m f g where
  params p hp := le_of_eq (h.params p hp).symm
  outputs := h.outputs
  entries b hb := le_of_eq (h.entries b hb).symm

/-! ## The least assignment

If the least assignment ranked a value or a cell higher than the equations ask for, it could be
lowered there. The lowered one still bounds the equations, which contradicts that the other was the
least. -/

/-- Lowering an assignment leaves its outputs covered, except for values that were lowered
themselves. -/
theorem CoversOutputs.lower {a b : Assignment} (ha : a.CoversOutputs m f) (hba : b ≤ a)
    (hkept : ∀ blk ∈ f.blocks, ∀ i ∈ blk.instrs, ∀ v r values memory,
      i.definedRank (Scope.ofFunction m f) values memory = some (v, r) → b.value v = a.value v) :
    b.CoversOutputs m f := by
  intro blk hblk before i hi v r hr
  -- lower values and memory ask for less, and what is asked for has not been lowered
  have hmem : b.memoryAt blk before ≤ a.memoryAt blk before :=
    memoryAfter_mono hba.1 (hba.2 blk.id) before
  obtain ⟨r', hr', hle⟩ := Instr.definedRank_mono hba.1 hmem hr
  have hin : i ∈ blk.instrs := hi.subset (List.mem_append_right before (List.mem_singleton.2 rfl))
  rw [hkept blk hblk i hin v r _ _ hr]
  exact le_trans hle (ha blk hblk before i hi v r' hr')

/-- An assignment that bounds the equations still does so when memory is lowered to what meets at
the entries. -/
theorem Bounds.tighten {a : Assignment} (ha : a.Bounds m f g) :
    Bounds m f g
      ⟨a.value, fun b => if b ∈ f.blocks.map Block.id then a.meeting f g b else a.entry b⟩ := by
  have hle :
    (⟨a.value, fun b => if b ∈ f.blocks.map Block.id then a.meeting f g b else a.entry b⟩ :
      Assignment) ≤
      a := by
    refine ⟨le_refl _, fun b => ?_⟩
    change (if b ∈ f.blocks.map Block.id then a.meeting f g b else a.entry b) ≤ a.entry b
    split
    · next hb =>
      obtain ⟨blk, hblk, rfl⟩ := List.mem_map.1 hb
      exact ha.entries blk hblk
    · exact le_refl _
  refine ⟨ha.params, ha.outputs.lower hle fun _ _ _ _ _ _ _ _ _ => rfl, fun b hb => ?_⟩
  change _ ≤ if b.id ∈ f.blocks.map Block.id then a.meeting f g b.id else a.entry b.id
  rw [if_pos (List.mem_map_of_mem hb)]
  exact meeting_mono hle f g b.id

/-- An assignment that bounds the equations still does so when a value is lowered to no less than
what a parameter of that name declares and than what the instructions with that output give. -/
theorem Bounds.lower_value {a : Assignment} (ha : a.Bounds m f g) {v : String} {r : Rank}
    (hr : r ≤ a.value v) (hparam : ∀ p ∈ f.params, p.value = v → .ofSensitivity p.sensitivity ≤ r)
    (hdef : ∀ blk ∈ f.blocks, ∀ before i, before ++ [i] <+: blk.instrs → ∀ r',
      i.definedRank (Scope.ofFunction m f) a.value (a.memoryAt blk before) = some
      (v, r') → r' ≤ r) :
    Bounds m f g ⟨Function.update a.value v r, a.entry⟩ := by
  have hle : (⟨Function.update a.value v r, a.entry⟩ : Assignment) ≤ a :=
    ⟨update_le_self_iff.2 hr, le_refl _⟩
  refine ⟨fun p hp => ?_, fun blk hblk before i hi w r' hw => ?_, fun b hb => ?_⟩
  · change _ ≤ Function.update a.value v r p.value
    by_cases hv : p.value = v
    · rw [hv, Function.update_self]
      exact hparam p hp hv
    · rw [Function.update_of_ne hv]
      exact ha.params p hp
  · -- lower values and memory ask for no more than before
    obtain ⟨r'', hr'', hle'⟩ :=
      Instr.definedRank_mono hle.1 (memoryAfter_mono hle.1 (le_refl _) before) hw
    change _ ≤ Function.update a.value v r w
    by_cases hwv : w = v
    · rw [hwv] at hr'' ⊢
      rw [Function.update_self]
      exact le_trans hle' (hdef blk hblk before i hi r'' hr'')
    · rw [Function.update_of_ne hwv]
      exact le_trans hle' (ha.outputs blk hblk before i hi w r'' hr'')
  · exact le_trans (meeting_mono hle f g b.id) (ha.entries b hb)

/-- In the least assignment, a value is no higher than what the parameters declare and what the
instructions give. -/
theorem value_le_of_forall_definedRank {a : Assignment} (ha : a.Bounds m f g)
    (hleast : ∀ b : Assignment, b.Bounds m f g → a ≤ b) {v : String} {r : Rank}
    (hparam : ∀ p ∈ f.params, p.value = v → .ofSensitivity p.sensitivity ≤ r)
    (hdef : ∀ blk ∈ f.blocks, ∀ before i, before ++ [i] <+: blk.instrs → ∀ r',
      i.definedRank (Scope.ofFunction m f) a.value (a.memoryAt blk before) = some
      (v, r') → r' ≤ r) : a.value v ≤ r := by
  rcases le_total (a.value v) r with h | h
  · exact h
  · -- otherwise the value could be lowered to `r`, and the least assignment is below the result
    have hlower := (hleast _ (ha.lower_value h hparam hdef)).1 v
    change a.value v ≤ Function.update a.value v r v at hlower
    rwa [Function.update_self] at hlower

/-- In the least assignment, a value that no instruction gives a rank is as low as the parameters
allow. -/
theorem value_le_of_least {a : Assignment} (ha : a.Bounds m f g)
    (hleast : ∀ b : Assignment, b.Bounds m f g → a ≤ b) {v : String} {r : Rank}
    (hparam : ∀ p ∈ f.params, p.value = v → .ofSensitivity p.sensitivity ≤ r)
    (hdef : ∀ blk ∈ f.blocks, ∀ i ∈ blk.instrs, ∀ r' values memory,
      i.definedRank (Scope.ofFunction m f) values memory ≠ some (v, r')) : a.value v ≤ r := by
  refine value_le_of_forall_definedRank ha hleast hparam fun blk hblk before i hi r' hr' => ?_
  have hin : i ∈ blk.instrs := hi.subset (List.mem_append_right before (List.mem_singleton.2 rfl))
  exact absurd hr' (hdef blk hblk i hin r' _ _)

/-- **The least assignment that bounds the equations solves them.** Parameters have no other
definition, so nothing raises them above what they declare; and memory at an entry is not above
what meets there, or it could be lowered. -/
theorem solves_of_least {a : Assignment} (ha : a.Bounds m f g)
    (hleast : ∀ b : Assignment, b.Bounds m f g → a ≤ b) (hf : f.definedValues.Nodup) :
    a.Solves m f g := by
  refine ⟨fun p hp => le_antisymm ?_ (ha.params p hp), ha.outputs,
    fun b hb => le_antisymm ?_ (ha.entries b hb)⟩
  · -- a parameter has one declaration, and no instruction has it as its output
    refine value_le_of_least ha hleast
      (fun q hq hqp => ?_) fun blk hblk i hi r' values memory hr' => ?_
    · rw [List.inj_on_of_nodup_map (List.nodup_append.1 hf).1 hq hp hqp]
    · have hout := Function.mem_outputs hblk hi (Instr.output_of_definedRank hr')
      exact (List.nodup_append.1 hf).2.2 p.value (List.mem_map_of_mem hp) p.value
        (List.mem_map.2 ⟨_, hout, rfl⟩) rfl
  · -- memory at the entry could be lowered to what meets there
    have htight := (hleast _ ha.tighten).2 b.id
    change a.entry b.id ≤ if b.id ∈ f.blocks.map Block.id then a.meeting f g b.id
      else a.entry b.id at htight
    rwa [if_pos (List.mem_map_of_mem hb)] at htight

end Assignment

end ConstantTime
