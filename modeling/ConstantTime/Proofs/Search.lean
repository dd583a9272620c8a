/-
The breadth-first search is exact: `Digraph.reach` lists what can be reached along edges, each node
once.

A search step takes one node off the queue. Two facts carry the argument. Whatever is listed or
queued can be reached, and the successors of a listed node are listed or queued; so when the queue
is empty the listed nodes are closed under edges. That the queue does become empty is a matter of
counting: the bound on the steps is at least the length of the queue plus the number of edges out
of nodes not listed yet, and a step lowers that sum.
-/
import Mathlib.Logic.Relation
import Mathlib.Data.List.Basic
import ConstantTime.Graph.Digraph

set_option autoImplicit false

namespace ConstantTime.Digraph

variable {α : Type} [DecidableEq α]

/-! ## Edges

Reaching is the reflexive and transitive closure of the edges. A set that is closed under edges
holds whatever its nodes lead to. -/

/-- There is an edge from `a` to `b`. -/
def Edge (d : Digraph α) (a b : α) : Prop := b ∈ d.succs a

/-- A sequence of edges leads from `a` to `b`, possibly none. -/
def Reaches (d : Digraph α) : α → α → Prop := Relation.ReflTransGen d.Edge

theorem Reaches.refl (d : Digraph α) (a : α) : d.Reaches a a := Relation.ReflTransGen.refl

theorem Reaches.head {d : Digraph α} {a b c : α} (h : d.Edge a b) (hc : d.Reaches b c) :
    d.Reaches a c :=
  Relation.ReflTransGen.head h hc

/-- A list closed under edges holds whatever its members reach. -/
theorem Reaches.mem_of_closed {d : Digraph α} {xs : List α}
    (hxs : ∀ x ∈ xs, ∀ y, d.Edge x y → y ∈ xs) {a b : α} (hab : d.Reaches a b) (ha : a ∈ xs) :
    b ∈ xs := by
  induction hab with
  | refl => exact ha
  | tail _ hedge ih => exact hxs _ ih _ hedge

omit [DecidableEq α] in
theorem mem_nodes_iff {d : Digraph α} {n : α} : n ∈ d.nodes ↔ ∃ ss, (n, ss) ∈ d.adj := by
  simp [nodes]

/-- The successors of a node come from its line. -/
theorem mem_adj_of_succs_ne_nil {d : Digraph α} {n : α} (h : d.succs n ≠ []) :
    (n, d.succs n) ∈ d.adj := by
  unfold succs at h ⊢
  generalize d.adj = adj at h ⊢
  induction adj with
  | nil => exact absurd rfl h
  | cons e rest ih =>
    obtain ⟨k, ss⟩ := e
    by_cases hk : k = n
    · subst hk
      simp [Assoc.find?]
    · simp only [Assoc.find?, if_neg hk] at h ⊢
      exact List.mem_cons_of_mem _ (ih h)

/-- Only listed nodes have edges out of them. -/
theorem Edge.mem_nodes {d : Digraph α} {a b : α} (h : d.Edge a b) : a ∈ d.nodes :=
  mem_nodes_iff.2 ⟨_, mem_adj_of_succs_ne_nil (List.ne_nil_of_mem h)⟩

/-! ## What the search lists

The search lists only what can be reached. -/

/-- What is listed stays listed. -/
theorem mem_spread_of_mem (d : Digraph α) {x : α} (steps : Nat) (queue seen : List α)
    (hx : x ∈ seen) :
    x ∈ d.spread steps queue seen := by
  fun_induction spread d steps queue seen with
  | case1 => exact hx
  | case2 => exact hx
  | case3 _ _ _ _ _ ih => exact ih hx
  | case4 _ _ _ _ _ ih => exact ih (List.mem_append_left _ hx)

/-- Everything listed was listed before or is reached from the queue. -/
theorem reaches_of_mem_spread (d : Digraph α) {x : α} (steps : Nat) (queue seen : List α)
    (hx : x ∈ d.spread steps queue seen) : x ∈ seen ∨ ∃ q ∈ queue, d.Reaches q x := by
  fun_induction spread d steps queue seen with
  | case1 => exact .inl hx
  | case2 => exact .inl hx
  | case3 _ n queue _ _ ih =>
    rcases ih hx with h | ⟨q, hq, hr⟩
    · exact .inl h
    · exact .inr ⟨q, List.mem_cons_of_mem _ hq, hr⟩
  | case4 _ n queue _ _ ih =>
    rcases ih hx with h | ⟨q, hq, hr⟩
    · rcases List.mem_append.1 h with h | h
      · exact .inl h
      · rw [List.mem_singleton.1 h]
        exact .inr ⟨n, List.mem_cons_self, Reaches.refl d n⟩
    · rcases List.mem_append.1 hq with h | h
      · exact .inr ⟨q, List.mem_cons_of_mem _ h, hr⟩
      · exact .inr ⟨n, List.mem_cons_self, Reaches.head h hr⟩

/-! ## The bound on the steps

Every edge is followed at most once. The edges of nodes not listed yet are counted in advance, and
a step pays for those of the node it lists. -/

/-- The number of edges out of lines whose node is not listed yet. -/
def unexplored (adj : List (α × List α)) (seen : List α) : Nat :=
  ((adj.filter fun e => decide (e.1 ∉ seen)).flatMap Prod.snd).length

theorem unexplored_cons (k : α) (ss : List α) (adj : List (α × List α)) (seen : List α) :
    unexplored ((k, ss) :: adj) seen = (if k ∈ seen then 0 else ss.length) +
      unexplored adj seen := by
  by_cases hk : k ∈ seen <;> simp [unexplored, hk]

/-- At the start all edges are to be followed. -/
theorem unexplored_nil (d : Digraph α) : unexplored d.adj [] = d.size := by
  simp [unexplored, size]

/-- Listing a node leaves no more edges than before. -/
theorem unexplored_append_le (adj : List (α × List α)) (seen : List α) (n : α) :
    unexplored adj (seen ++ [n]) ≤ unexplored adj seen := by
  induction adj with
  | nil => exact Nat.le_refl _
  | cons e rest ih =>
    obtain ⟨k, ss⟩ := e
    rw [unexplored_cons, unexplored_cons]
    by_cases hk : k ∈ seen
    · rw [if_pos hk, if_pos (List.mem_append_left _ hk)]
      omega
    · rw [if_neg hk]
      split <;> omega

/-- Listing a node pays for queueing its successors. -/
theorem succs_add_unexplored_le (d : Digraph α) {seen : List α} {n : α} (hn : n ∉ seen) :
    (d.succs n).length + unexplored d.adj (seen ++ [n]) ≤ unexplored d.adj seen := by
  unfold succs
  induction d.adj with
  | nil => simp [Assoc.find?, unexplored]
  | cons e rest ih =>
    obtain ⟨k, ss⟩ := e
    rw [unexplored_cons, unexplored_cons]
    by_cases hk : k = n
    · -- the line of the node itself: its edges are no longer counted, and further lines of it may
      -- only go too
      subst hk
      have hle := unexplored_append_le rest seen k
      simp only [Assoc.find?, if_true, Option.getD_some, if_neg hn, List.mem_append,
        List.mem_singleton, or_true]
      omega
    · have hmem : k ∈ seen ++ [n] ↔ k ∈ seen := by simp [hk]
      simp only [Assoc.find?, if_neg hk, hmem]
      omega

theorem unexplored_le_size (d : Digraph α) (seen : List α) : unexplored d.adj seen ≤ d.size := by
  rw [← unexplored_nil d]
  induction d.adj with
  | nil => exact Nat.le_refl _
  | cons e adj ih =>
    obtain ⟨k, ss⟩ := e
    rw [unexplored_cons, unexplored_cons, if_neg List.not_mem_nil]
    split <;> omega

/-- What the visits of a depth-first search have to do, by the successors that each has left:
looking at an edge counts twice and ending the visit once. -/
def pending : List (List α) → Nat
  | [] => 0
  | left :: rest => 2 * left.length + 1 + pending rest

/-- Beginning a visit adds one step: meeting the node pays for looking at its edges. -/
theorem pending_visit_le (d : Digraph α) {met : List α} {n : α} (hn : n ∉ met)
    (lefts : List (List α)) :
    pending (d.succs n :: lefts) + 2 * unexplored d.adj (met ++ [n]) ≤ pending lefts +
      2 * unexplored d.adj met + 1 := by
  have hpay := succs_add_unexplored_le d hn
  rw [pending]
  omega

/-- **The search ends with its queue empty.** With enough steps left, the queue is listed in the
end and the list is closed under edges. -/
theorem spread_complete (d : Digraph α) (steps : Nat) (queue seen : List α)
    (hsteps : queue.length + unexplored d.adj seen ≤ steps)
    (hclosed : ∀ x ∈ seen, ∀ y, d.Edge x y → y ∈ seen ∨ y ∈ queue) :
    (∀ q ∈ queue, q ∈ d.spread steps queue seen) ∧
      ∀ x ∈ d.spread steps queue seen, ∀ y, d.Edge x y → y ∈ d.spread steps queue seen := by
  fun_induction spread d steps queue seen with
  | case1 queue seen =>
    -- no steps are left, and by the bound no queue either
    have hq : queue = [] := List.eq_nil_of_length_eq_zero (by omega)
    subst hq
    refine ⟨fun q hq => absurd hq List.not_mem_nil, fun x hx y hy => ?_⟩
    exact (hclosed x hx y hy).resolve_right List.not_mem_nil
  | case2 =>
    refine ⟨fun q hq => absurd hq List.not_mem_nil, fun x hx y hy => ?_⟩
    exact (hclosed x hx y hy).resolve_right List.not_mem_nil
  | case3 steps n queue seen hn ih =>
    -- the node is listed already and only leaves the queue
    have hrest := ih (by simp only [List.length_cons] at hsteps; omega) (fun x hx y hy => by
      rcases hclosed x hx y hy with h | h
      · exact .inl h
      · rcases List.mem_cons.1 h with rfl | h
        · exact .inl hn
        · exact .inr h)
    refine ⟨fun q hq => ?_, hrest.2⟩
    rcases List.mem_cons.1 hq with rfl | hq
    · exact mem_spread_of_mem d steps queue seen hn
    · exact hrest.1 q hq
  | case4 steps n queue seen hn ih =>
    -- the node is new: its successors join the queue, and the edges out of it pay for them
    have hpay := succs_add_unexplored_le d hn
    have hrest :=
      ih (by simp only [List.length_cons, List.length_append] at hsteps ⊢; omega)
        (fun x hx y hy => by
      rcases List.mem_append.1 hx with hx | hx
      · rcases hclosed x hx y hy with h | h
        · exact .inl (List.mem_append_left _ h)
        · rcases List.mem_cons.1 h with rfl | h
          · exact .inl (List.mem_append_right _ (List.mem_singleton.2 rfl))
          · exact .inr (List.mem_append_left _ h)
      · rw [List.mem_singleton.1 hx] at hy
        exact .inr (List.mem_append_right _ hy))
    refine ⟨fun q hq => ?_, hrest.2⟩
    rcases List.mem_cons.1 hq with rfl | hq
    · exact mem_spread_of_mem d steps _ _ (List.mem_append_right _ (List.mem_singleton.2 rfl))
    · exact hrest.1 q (List.mem_append_left _ hq)

/-! ## The whole search

Both halves together. -/

/-- **Searching is reachability.** -/
theorem mem_reach_iff (d : Digraph α) (starts : List α) (x : α) :
    x ∈ d.reach starts ↔ ∃ s ∈ starts, d.Reaches s x := by
  constructor
  · intro hx
    exact (reaches_of_mem_spread d _ starts [] hx).resolve_left List.not_mem_nil
  · rintro ⟨s, hs, hsx⟩
    obtain ⟨hstarts, hclosed⟩ := spread_complete d (starts.length + d.size) starts []
      (Nat.le_of_eq (by rw [unexplored_nil])) (fun _ hx => absurd hx List.not_mem_nil)
    exact hsx.mem_of_closed hclosed (hstarts s hs)

end ConstantTime.Digraph
