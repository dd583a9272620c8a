/-
The states that the rounds pass through.

A round visits the blocks one after the other, and a visit runs the instructions of its block one
after the other. `stateAt` is the state between two visits, with so many rounds behind and so many
blocks of the next one visited; `pointAt` is the state between two instructions of the block that
comes next. What holds at the start and is kept by a visit holds in all of them, and the taints of
a function are those of one of them.
-/
import ConstantTime.Proofs.Convergence

set_option autoImplicit false

namespace ConstantTime.Taints

variable {m : Module} {f : Function} {g : FlowGraph}

/-- The state when `n` rounds are over and the blocks of `done` were visited in the next one. -/
def stateAt (m : Module) (f : Function) (g : FlowGraph) (n : Nat) (done : List String) : State :=
  done.foldl (State.visit (Scope.ofFunction m f) f g)
    { (State.round (Scope.ofFunction m f) f g (order g))^[n] (start f) with changed := false }

/-- The state within the visit of the block `b` that comes next, when the instructions of `before`
were run. -/
def pointAt (m : Module) (f : Function) (g : FlowGraph) (n : Nat) (done : List String) (b : Block)
    (before : List Instr) : Point :=
  before.foldl (Point.step (Scope.ofFunction m f)) ((stateAt m f g n done).first g b.id)

/-- One more block is visited. -/
theorem stateAt_concat (n : Nat) (done : List String) (b : String) :
    stateAt m f g n (done ++ [b]) = (stateAt m f g n done).visit (Scope.ofFunction m f) f g b := by
  rw [stateAt, List.foldl_append]
  rfl

/-- The next round starts with the mark for changes cleared. -/
theorem stateAt_succ (n : Nat) :
    stateAt m f g (n + 1) [] = { stateAt m f g n (order g) with changed := false } := by
  rw [stateAt, Function.iterate_succ_apply']
  rfl

/-- A round visits blocks of the function. -/
theorem mem_blocks_of_mem_order (hf : f.WellFormed m.locations)
    (hg : FlowGraph.ofFunction f = .ok g) {b : String} (hb : b ∈ order g) :
    ∃ blk ∈ f.blocks, blk.id = b := by
  rw [(FlowGraph.order_perm hg hf).mem_iff, FlowGraph.blocks_eq hg] at hb
  exact List.mem_map.1 hb

/-- **What a visit keeps holds all the time.** -/
theorem stateAt_induction (hf : f.WellFormed m.locations) (hg : FlowGraph.ofFunction f = .ok g)
    {P : State → Prop} (hstart : P (start f)) (hreset : ∀ st, P st → P { st with changed := false })
    (hvisit : ∀ st, P st → ∀ b ∈ f.blocks, P (st.visit (Scope.ofFunction m f) f g b.id)) (n : Nat)
    {done : List String} (hdone : done <+: order g) : P (stateAt m f g n done) := by
  have hvisits : ∀ n, P (stateAt m f g n []) → ∀ done, done <+: order g →
      P (stateAt m f g n done) := by
    intro n hn done hdone
    induction done using List.reverseRecOn with
    | nil => exact hn
    | append_singleton done b ih =>
      obtain ⟨blk, hblk, rfl⟩ := mem_blocks_of_mem_order hf hg
        (hdone.subset (List.mem_append_right done (List.mem_singleton.2 rfl)))
      rw [stateAt_concat]
      exact hvisit _ (ih ((List.prefix_append done [blk.id]).trans hdone)) blk hblk
  have hrounds : ∀ n, P (stateAt m f g n []) := by
    intro n
    induction n with
    | zero => exact hreset _ hstart
    | succ n ih =>
      rw [stateAt_succ]
      exact hreset _ (hvisits n ih (order g) (List.prefix_refl _))
  exact hvisits n (hrounds n) done hdone

/-- What the rounds return is what some number of them leads to. -/
theorem eq_iterate_of_iterate {round : State → State} {left done n : Nat} {st st' : State}
    (h : iterate round left done st = some (st', n)) : ∃ k, n = done + k ∧ st' = round^[k] st := by
  induction left generalizing done st with
  | zero => cases h
  | succ left ih =>
    rw [iterate] at h
    split at h
    · obtain ⟨k, rfl, rfl⟩ := ih h
      exact ⟨k + 1, by omega, rfl⟩
    · cases h
      exact ⟨1, rfl, rfl⟩

/-- The taints of a function are those after its rounds. -/
theorem eq_stateAt_of_ofFunction {t : Taints} (h : ofFunction m f g = .ok t) :
    t.values = (stateAt m f g t.rounds []).values ∧
      t.memoryIn = (stateAt m f g t.rounds []).memoryIn := by
  unfold ofFunction at h
  dsimp only at h
  split at h
  · cases h
  · split at h
    · cases h
    · next st n hit =>
      cases h
      obtain ⟨k, rfl, rfl⟩ := eq_iterate_of_iterate hit
      rw [Nat.zero_add]
      exact ⟨rfl, rfl⟩

/-! ## Coherence at every step

Coherence is part of what the rounds keep. Here it is stated for every state on the way, also in
the middle of a block. -/

/-- All taints of a state are coherent. -/
structure State.Coherent (st : State) : Prop where
  values : st.values.Coherent
  memoryIn : ∀ b mem, st.memoryIn.get? b = some mem → mem.Coherent
  memoryOut : ∀ b mem, st.memoryOut.get? b = some mem → mem.Coherent

theorem State.Below.isCoherent {st : State} {a : Assignment} (h : st.Below f a) : st.Coherent :=
  ⟨h.coherent, fun b mem hmem => (h.memoryIn b mem hmem).1,
    fun b mem hmem => (h.memoryOut b mem hmem).1⟩

/-- All taints are coherent between two visits. -/
theorem coherent_stateAt (hf : f.WellFormed m.locations) (hg : FlowGraph.ofFunction f = .ok g)
    (n : Nat) {done : List String} (hdone : done <+: order g) :
    (stateAt m f g n done).Coherent := by
  have htop := bounds_ceiling hf g
  have hbelow : (stateAt m f g n done).Below f (ceiling m f) :=
    stateAt_induction hf hg (below_start htop (List.nodup_append.1 hf.values).1)
      (fun _ hst => hst.reset)
      (fun _ hst b hb => hst.visit htop hf.blocks hb) n hdone
  exact hbelow.isCoherent

/-- And between two instructions. -/
theorem coherent_pointAt (hf : f.WellFormed m.locations) (hg : FlowGraph.ofFunction f = .ok g)
    (n : Nat) {done : List String} (hdone : done <+: order g) (b : Block) (before : List Instr) :
    (pointAt m f g n done b before).values.Coherent ∧
      (pointAt m f g n done b before).memory.Coherent := by
  have hstate := coherent_stateAt hf hg n hdone
  have hentry := (entryMemory_ranks hstate.memoryOut g b.id).1
  exact Point.coherent_run (p := (stateAt m f g n done).first g b.id) hstate.values hentry before

end ConstantTime.Taints
