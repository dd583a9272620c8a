/-
The order in which a depth-first search finishes the nodes.

At any time the nodes met stand in an order: those being visited, the outermost first, and behind
them the finished ones, the last one first. Ending a visit leaves this order as it is, and
beginning one puts the new node between the two parts. So what comes before what is settled once
and for all, and when no visit is left the order is the reverse post-order.

The new node stands behind the node from which it was met. A node that was met earlier, when an
edge to it is looked at, either is finished and stands behind as well, or is still being visited;
then it leads, visit by visit, to the node at which the edge begins. So an edge goes against the
order only on a circle.
-/
import Mathlib.Data.List.Chain
import Mathlib.Data.List.Nodup
import ConstantTime.Flow.Graph
import ConstantTime.Proofs.Search

set_option autoImplicit false

namespace ConstantTime

/-! ## Places in a list

That one node stands before another is said by a sublist of two, which survives when nodes are put
in between. -/

section Places

variable {α : Type}

theorem pair_sublist_append {before after : List α} {a b : α} (ha : a ∈ before) (hb : b ∈ after) :
    [a, b].Sublist (before ++ after) :=
  (List.singleton_sublist.2 ha).append (List.singleton_sublist.2 hb)

/-- In a list without repetition, what comes before has the smaller place. -/
theorem idxOf_lt_of_sublist [DecidableEq α] {list : List α} (hnodup : list.Nodup) {a b : α}
    (h : [a, b].Sublist list) : list.idxOf a < list.idxOf b := by
  induction list with
  | nil => cases h
  | cons x rest ih =>
    obtain ⟨hx, hrest⟩ := List.nodup_cons.1 hnodup
    cases h with
    | cons _ h =>
      have ha : x ≠ a := by
        rintro rfl
        exact hx (h.subset List.mem_cons_self)
      have hb : x ≠ b := by
        rintro rfl
        exact hx (h.subset (List.mem_cons_of_mem _ List.mem_cons_self))
      rw [List.idxOf_cons_ne rest ha, List.idxOf_cons_ne rest hb]
      exact Nat.succ_lt_succ (ih hrest h)
    | cons_cons _ h =>
      have hb : a ≠ b := by
        rintro rfl
        exact hx (List.singleton_sublist.1 h)
      rw [List.idxOf_cons_self, List.idxOf_cons_ne rest hb]
      exact Nat.succ_pos _

end Places

namespace Digraph

variable {α : Type} [DecidableEq α] {d : Digraph α} {root : α}

/-! ## Orders that grow from a root

What holds of the order at any time: it begins with the root, and every other node has an edge from
a node before it. -/

/-- The list starts with the root and holds nothing twice, and every other node was reached by an
edge from a node before it. -/
structure Grown (d : Digraph α) (root : α) (order : List α) : Prop where
  head : order.head? = some root
  nodup : order.Nodup
  reached : ∀ x ∈ order, d.Reaches root x
  follows : ∀ x ∈ order, x ≠ root → ∃ p, d.Edge p x ∧ [p, x].Sublist order

/-- A new node may stand anywhere behind one that has an edge to it. -/
theorem Grown.insert {before after : List α} {n m : α} (h : d.Grown root (before ++ after))
    (hn : n ∈ before) (hedge : d.Edge n m) (hm : m ∉ before ++ after) :
    d.Grown root (before ++ m :: after) where
  head := by
    obtain ⟨x, before, rfl⟩ := List.exists_cons_of_ne_nil (List.ne_nil_of_mem hn)
    exact h.head
  nodup := List.nodup_middle.2 (List.nodup_cons.2 ⟨hm, h.nodup⟩)
  reached := by
    intro x hx
    rcases List.mem_cons.1 (List.perm_middle.mem_iff.1 hx) with rfl | hx
    · exact Relation.ReflTransGen.tail (h.reached n (List.mem_append_left after hn)) hedge
    · exact h.reached x hx
  follows := by
    intro x hx hne
    rcases List.mem_cons.1 (List.perm_middle.mem_iff.1 hx) with rfl | hx
    · exact ⟨n, hedge, pair_sublist_append hn List.mem_cons_self⟩
    · obtain ⟨p, hp, hsub⟩ := h.follows x hx hne
      exact ⟨p, hp, hsub.trans ((List.sublist_cons_self m after).append_left before)⟩

/-- The second node comes later in the list, or is in the list and leads back to the first. -/
def LaterOrBack (d : Digraph α) (order : List α) (u v : α) : Prop :=
  [u, v].Sublist order ∨ v ∈ order ∧ d.Reaches v u

/-- Putting in more nodes does not change which of two comes first. -/
theorem LaterOrBack.mono {order order' : List α} {u v : α} (h : d.LaterOrBack order u v)
    (hsub : order.Sublist order') : d.LaterOrBack order' u v :=
  h.imp (fun hlater => hlater.trans hsub) fun hback => ⟨hsub.subset hback.1, hback.2⟩

theorem LaterOrBack.mem {order : List α} {u v : α} (h : d.LaterOrBack order u v) : v ∈ order := by
  rcases h with hlater | hback
  · exact hlater.subset (List.mem_cons_of_mem u List.mem_cons_self)
  · exact hback.1

/-- Where each node has an edge from the next one, they all lead to the first. -/
theorem reaches_of_isChain {n : α} {nodes : List α}
    (h : (n :: nodes).IsChain fun m k => d.Edge k m) :
    ∀ x ∈ n :: nodes, d.Reaches x n := by
  induction nodes generalizing n with
  | nil =>
    intro x hx
    rw [List.mem_singleton.1 hx]
    exact Reaches.refl d n
  | cons k nodes ih =>
    intro x hx
    obtain ⟨hedge, hrest⟩ := List.isChain_cons_cons.1 h
    rcases List.mem_cons.1 hx with rfl | hx
    · exact Reaches.refl d x
    · exact Relation.ReflTransGen.tail (ih hrest x hx) hedge

namespace Descent

variable {s : Descent α} {n m : α} {left : List α} {rest : List (α × List α)}

/-! ## What a step keeps

`Sound` is the invariant. It holds for the order of all nodes met, finished or not, so that ending
a visit changes nothing in it. -/

/-- The nodes met: those being visited, the outermost first, and behind them the finished ones. -/
def order (s : Descent α) : List α := (s.visits.map Prod.fst).reverse ++ s.finished

/-- What is known of a search from a root while it goes on. -/
structure Sound (d : Digraph α) (root : α) (s : Descent α) : Prop where
  met : ∀ x, x ∈ s.met ↔ x ∈ s.order
  grown : d.Grown root s.order
  /-- A visit was begun from the one around it. -/
  trail : (s.visits.map Prod.fst).IsChain fun m k => d.Edge k m
  left : ∀ v ∈ s.visits, ∀ m ∈ v.2, d.Edge v.1 m
  /-- The edges out of the nodes met are still to be looked at, or have their place. -/
  edges : ∀ u ∈ s.order, ∀ v, d.Edge u v →
    (∃ left, (u, left) ∈ s.visits ∧ v ∈ left) ∨ d.LaterOrBack s.order u v

/-- The root alone is an order, and all its edges are left to look at. -/
theorem sound_start (d : Digraph α) (root : α) : (start.meet d root).Sound d root where
  met x := Iff.rfl
  grown := by
    refine ⟨rfl, List.nodup_singleton root, ?_, ?_⟩
    · intro x hx
      rw [List.mem_singleton.1 hx]
      exact Reaches.refl d root
    · intro x hx hne
      exact absurd (List.mem_singleton.1 hx) hne
  trail := List.isChain_singleton root
  left := by
    intro v hv m hm
    rw [List.mem_singleton.1 hv] at hm ⊢
    exact hm
  edges := by
    intro u hu v huv
    rw [List.mem_singleton.1 hu] at huv ⊢
    exact .inl ⟨d.succs root, List.mem_singleton_self _, huv⟩

/-- A node that was met stands behind the node of the innermost visit, or leads to it. -/
theorem Sound.laterOrBack (h : s.Sound d root) (hvisits : s.visits = (n, left) :: rest)
    (hm : m ∈ s.met) :
    d.LaterOrBack s.order n m := by
  have hmem : m ∈ s.order := (h.met m).1 hm
  have htrail := h.trail
  rw [order, List.mem_append, List.mem_reverse] at hmem
  rw [hvisits, List.map_cons] at htrail hmem
  rcases hmem with hvisited | hfinished
  · exact .inr ⟨(h.met m).1 hm, reaches_of_isChain htrail m hvisited⟩
  · refine .inl (pair_sublist_append ?_ hfinished)
    rw [hvisits, List.map_cons, List.mem_reverse]
    exact List.mem_cons_self

/-- When the innermost visit looks at its next edge, the other edges stay as they are. -/
theorem Sound.edge_cases (h : s.Sound d root) (hvisits : s.visits = (n, m :: left) :: rest)
    {u v : α} (hu : u ∈ s.order) (huv : d.Edge u v) :
    (u = n ∧ v = m) ∨ (∃ left', (u, left') ∈ (n, left) :: rest ∧ v ∈ left') ∨
      d.LaterOrBack s.order u v := by
  rcases h.edges u hu v huv with ⟨left', hvisit, hv⟩ | hplaced
  · rw [hvisits] at hvisit
    rcases List.mem_cons.1 hvisit with heq | hvisit
    · obtain ⟨rfl, rfl⟩ := Prod.mk.inj heq
      rcases List.mem_cons.1 hv with rfl | hv
      · exact .inl ⟨rfl, rfl⟩
      · exact .inr (.inl ⟨left, List.mem_cons_self, hv⟩)
    · exact .inr (.inl ⟨left', List.mem_cons_of_mem _ hvisit, hv⟩)
  · exact .inr (.inr hplaced)

/-- The successors that are left to look at are successors, also when one less is left. -/
theorem Sound.left_of_look (h : s.Sound d root) (hvisits : s.visits = (n, m :: left) :: rest) :
    d.Edge n m ∧ ∀ v ∈ (n, left) :: rest, ∀ k ∈ v.2, d.Edge v.1 k := by
  have hleft := h.left
  rw [hvisits] at hleft
  refine ⟨hleft (n, m :: left) List.mem_cons_self m List.mem_cons_self, ?_⟩
  intro v hv k hk
  rcases List.mem_cons.1 hv with rfl | hv
  · exact hleft (n, m :: left) List.mem_cons_self k (List.mem_cons_of_mem m hk)
  · exact hleft v (List.mem_cons_of_mem _ hv) k hk

/-- An edge leads to a node that was met. -/
theorem Sound.pass (h : s.Sound d root) (hvisits : s.visits = (n, m :: left) :: rest)
    (hm : m ∈ s.met) :
    Sound d root { s with visits := (n, left) :: rest } := by
  have hnodes : ((n, left) :: rest).map Prod.fst = s.visits.map Prod.fst := by
    rw [hvisits, List.map_cons, List.map_cons]
  have horder : order { s with visits := (n, left) :: rest } = s.order := by
    rw [order, order, hnodes]
  refine ⟨?_, ?_, ?_, (h.left_of_look hvisits).2, ?_⟩
  · rw [horder]
    exact h.met
  · rw [horder]
    exact h.grown
  · rw [hnodes]
    exact h.trail
  · rw [horder]
    intro u hu v huv
    rcases h.edge_cases hvisits hu huv with ⟨rfl, rfl⟩ | hopen
    · exact .inr (h.laterOrBack hvisits hm)
    · exact hopen

/-- An edge leads to a new node, and its visit begins. -/
theorem Sound.meet (h : s.Sound d root) (hvisits : s.visits = (n, m :: left) :: rest)
    (hm : m ∉ s.met) :
    Sound d root (Descent.meet d m { s with visits := (n, left) :: rest }) := by
  obtain ⟨hedge, hleft⟩ := h.left_of_look hvisits
  have hnodes : s.visits.map Prod.fst = n :: rest.map Prod.fst := by
    rw [hvisits, List.map_cons]
  -- the new node goes between the nodes being visited and the finished ones
  have hold : s.order = (n :: rest.map Prod.fst).reverse ++ s.finished := by
    rw [order, hnodes]
  have hnew : order (Descent.meet d m { s with visits := (n, left) :: rest }) =
      (n :: rest.map Prod.fst).reverse ++ m :: s.finished := by
    rw [order, Descent.meet, List.map_cons, List.map_cons, List.reverse_cons, List.append_assoc,
      List.singleton_append]
  have hmem : ∀ x, x ∈ (n :: rest.map Prod.fst).reverse ++ m :: s.finished ↔
      x = m ∨ x ∈ s.order := by
    intro x
    rw [hold, List.perm_middle.mem_iff, List.mem_cons]
  have hn : n ∈ (n :: rest.map Prod.fst).reverse := List.mem_reverse.2 List.mem_cons_self
  refine ⟨?_, ?_, ?_, ?_, ?_⟩
  · intro x
    rw [hnew, hmem x, ← h.met x, Descent.meet, List.mem_append, List.mem_singleton, or_comm]
  · have hgrown := h.grown
    rw [h.met m, hold] at hm
    rw [hold] at hgrown
    rw [hnew]
    exact hgrown.insert hn hedge hm
  · have htrail := h.trail
    rw [hnodes] at htrail
    exact List.isChain_cons_cons.2 ⟨hedge, htrail⟩
  · intro v hv k hk
    rcases List.mem_cons.1 hv with rfl | hv
    · exact hk
    · exact hleft v hv k hk
  · rw [hnew]
    intro u hu v huv
    rcases (hmem u).1 hu with rfl | hu
    · exact .inl ⟨d.succs u, List.mem_cons_self, huv⟩
    · rcases h.edge_cases hvisits hu huv with ⟨rfl, rfl⟩ | ⟨left', hvisit, hv⟩ | hplaced
      · exact .inr (.inl (pair_sublist_append hn List.mem_cons_self))
      · exact .inl ⟨left', List.mem_cons_of_mem _ hvisit, hv⟩
      · rw [hold] at hplaced
        exact .inr (hplaced.mono ((List.sublist_cons_self m s.finished).append_left _))

/-- A visit ends. -/
theorem Sound.leave (h : s.Sound d root) (hvisits : s.visits = (n, []) :: rest) :
    Sound d root { s with visits := rest, finished := n :: s.finished } := by
  have horder : order { s with visits := rest, finished := n :: s.finished } = s.order := by
    rw [order, order, hvisits, List.map_cons, List.reverse_cons, List.append_assoc,
      List.singleton_append]
  refine ⟨?_, ?_, ?_, ?_, ?_⟩
  · rw [horder]
    exact h.met
  · rw [horder]
    exact h.grown
  · have htrail := h.trail
    rw [hvisits, List.map_cons] at htrail
    exact htrail.tail
  · intro v hv k hk
    exact h.left v (hvisits ▸ List.mem_cons_of_mem _ hv) k hk
  · rw [horder]
    intro u hu v huv
    rcases h.edges u hu v huv with ⟨left, hvisit, hv⟩ | hplaced
    · rw [hvisits] at hvisit
      rcases List.mem_cons.1 hvisit with heq | hvisit
      · -- the visit that ends has no edge left
        cases heq
        exact absurd hv List.not_mem_nil
      · exact .inl ⟨left, hvisit, hv⟩
    · exact .inr hplaced

/-- One step, in its three cases: nothing is left, a node that was met, a new node. -/
theorem Sound.step (h : s.Sound d root) (hvisits : s.visits = (n, left) :: rest) :
    (s.step d n left rest).Sound d root := by
  unfold Descent.step
  split
  · exact h.leave hvisits
  · next m left =>
    by_cases hm : m ∈ s.met
    · rw [if_pos hm]
      exact h.pass hvisits hm
    · rw [if_neg hm]
      exact h.meet hvisits hm

/-! ## The bound on the steps

Every edge of a visited node is looked at once and every visit ends once. The cost counts what is
still to come of these. -/

/-- What is still to do at most. -/
def cost (d : Digraph α) (s : Descent α) : Nat :=
  pending (s.visits.map Prod.snd) + 2 * unexplored d.adj s.met

/-- Meeting a node trades the step counted for it against its edges, which were counted as well. -/
theorem cost_meet_le (d : Digraph α) (hn : n ∉ s.met) : (s.meet d n).cost d ≤ s.cost d + 1 :=
  pending_visit_le d hn (s.visits.map Prod.snd)

/-- A step lowers what is still to do. -/
theorem cost_step_lt (d : Digraph α) (hvisits : s.visits = (n, left) :: rest) :
    (s.step d n left rest).cost d < s.cost d := by
  have hcost : s.cost d = 2 * left.length + 1 + pending (rest.map Prod.snd) +
      2 * unexplored d.adj s.met := by
    rw [cost, hvisits, List.map_cons, pending]
  cases left with
  | nil =>
    have hleave : (s.step d n [] rest).cost d = pending (rest.map Prod.snd) +
        2 * unexplored d.adj s.met := rfl
    omega
  | cons m left =>
    have hlooked : cost d { s with visits := (n, left) :: rest } =
        2 * left.length + 1 + pending (rest.map Prod.snd) + 2 * unexplored d.adj s.met := rfl
    rw [List.length_cons] at hcost
    unfold Descent.step
    by_cases hm : m ∈ s.met
    · simp only [if_pos hm]
      omega
    · simp only [if_neg hm]
      have hmeet := cost_meet_le (s := { s with visits := (n, left) :: rest }) d hm
      omega

/-- **All visits come to an end**, and what is known of the search still holds. -/
theorem Sound.settle {steps : Nat} (h : s.Sound d root) (hsteps : s.cost d ≤ steps) :
    (s.settle d steps).Sound d root ∧ (s.settle d steps).visits = [] := by
  induction steps generalizing s with
  | zero =>
    refine ⟨h, ?_⟩
    cases hvisits : s.visits with
    | nil => exact hvisits
    | cons v rest =>
      rw [cost, hvisits, List.map_cons, pending] at hsteps
      omega
  | succ steps ih =>
    unfold Descent.settle
    split
    · next hvisits => exact ⟨h, hvisits⟩
    · next n left rest hvisits =>
      have hlt := cost_step_lt d hvisits
      exact ih (h.step hvisits) (by omega)

end Descent

/-! ## The whole search

With no visits left, the order consists of the finished nodes. All that was said of it becomes a
statement about the result. -/

/-- What a reverse post-order from a root is. -/
structure IsReversePostOrder (d : Digraph α) (root : α) (order : List α) : Prop where
  head : order.head? = some root
  nodup : order.Nodup
  mem_iff : ∀ x, x ∈ order ↔ d.Reaches root x
  /-- Every other node comes after a predecessor. -/
  after_pred : ∀ x ∈ order, x ≠ root → ∃ p ∈ order, d.Edge p x ∧ order.idxOf p < order.idxOf x
  /-- An edge leads to a later node, except on a circle. -/
  before_succ : ∀ u ∈ order, ∀ v ∈ order, d.Edge u v → ¬ d.Reaches v u →
    order.idxOf u < order.idxOf v

/-- A sound state without visits holds a reverse post-order. -/
theorem Descent.Sound.isReversePostOrder {s : Descent α} (h : s.Sound d root)
    (hvisits : s.visits = []) :
    d.IsReversePostOrder root s.finished := by
  have horder : s.order = s.finished := by
    rw [Descent.order, hvisits, List.map_nil, List.reverse_nil, List.nil_append]
  have hgrown := h.grown
  rw [horder] at hgrown
  have hplaced : ∀ u ∈ s.finished, ∀ v, d.Edge u v → d.LaterOrBack s.finished u v := by
    intro u hu v huv
    rw [← horder] at hu ⊢
    rcases h.edges u hu v huv with ⟨left, hvisit, -⟩ | hplaced
    · rw [hvisits] at hvisit
      exact absurd hvisit List.not_mem_nil
    · exact hplaced
  refine ⟨hgrown.head, hgrown.nodup, ?_, ?_, ?_⟩
  · intro x
    refine ⟨hgrown.reached x, fun hx => ?_⟩
    have hclosed : ∀ u ∈ s.finished, ∀ v, d.Edge u v → v ∈ s.finished :=
      fun u hu v huv => (hplaced u hu v huv).mem
    exact hx.mem_of_closed hclosed (List.mem_of_mem_head? hgrown.head)
  · intro x hx hne
    obtain ⟨p, hedge, hsub⟩ := hgrown.follows x hx hne
    exact ⟨p, hsub.subset List.mem_cons_self, hedge, idxOf_lt_of_sublist hgrown.nodup hsub⟩
  · intro u hu v _ huv hnot
    rcases hplaced u hu v huv with hlater | hback
    · exact idxOf_lt_of_sublist hgrown.nodup hlater
    · exact absurd hback.2 hnot

/-- **The search gives a reverse post-order.** -/
theorem isReversePostOrder (d : Digraph α) (root : α) :
    d.IsReversePostOrder root (d.reversePostOrder root) := by
  have hcost : (Descent.start.meet d root).cost d ≤ 2 * d.size + 1 := by
    have hmeet := Descent.cost_meet_le (s := Descent.start) d (List.not_mem_nil (a := root))
    have hstart : (Descent.start : Descent α).cost d = 0 + 2 * unexplored d.adj [] := rfl
    rw [unexplored_nil] at hstart
    omega
  obtain ⟨hsound, hvisits⟩ := (Descent.sound_start d root).settle hcost
  exact hsound.isReversePostOrder hvisits

/-- The order has the nodes that the root leads to. -/
theorem mem_reversePostOrder_iff (d : Digraph α) (root x : α) :
    x ∈ d.reversePostOrder root ↔ d.Reaches root x :=
  (d.isReversePostOrder root).mem_iff x

theorem nodup_reversePostOrder (d : Digraph α) (root : α) : (d.reversePostOrder root).Nodup :=
  (d.isReversePostOrder root).nodup

end Digraph

namespace FlowGraph

variable {g : FlowGraph} {b : String}

/-- In a flow graph, those are the blocks that the entry leads to. -/
theorem mem_reversePostOrder_iff_reaches : b ∈ g.reversePostOrder ↔ g.graph.Reaches g.entry b :=
  g.graph.mem_reversePostOrder_iff g.entry b

/-- The breadth-first search finds the same blocks. -/
theorem mem_reachable_iff_reaches : b ∈ g.reachable ↔ g.graph.Reaches g.entry b := by
  rw [reachable, Digraph.mem_reach_iff]
  simp

/-- The two searches from the entry find the same blocks. -/
theorem mem_reversePostOrder_iff_mem_reachable : b ∈ g.reversePostOrder ↔ b ∈ g.reachable := by
  rw [mem_reversePostOrder_iff_reaches, mem_reachable_iff_reaches]

end FlowGraph

/-- **The depth-first search of any graph gives a reverse post-order** from its root, and that of a
flow graph lists the blocks that can be reached. -/
theorem Digraph.isReversePostOrder_and_mem_reachable {α : Type} [DecidableEq α]
    (d : Digraph α) (root : α) (g : FlowGraph) :
    d.IsReversePostOrder root (d.reversePostOrder root) ∧
      ∀ b, b ∈ g.reversePostOrder ↔ b ∈ g.reachable :=
  ⟨d.isReversePostOrder root, fun _ => FlowGraph.mem_reversePostOrder_iff_mem_reachable⟩

/-- A circle that is entered at two nodes: the edge from 2 to 1 goes against the order. -/
example :
    Digraph.reversePostOrder ⟨[(0, [1, 2]), (1, [2, 3]), (2, [1, 0]), (3, [])]⟩ 0 =
      [0, 1, 3, 2] := by decide

end ConstantTime
