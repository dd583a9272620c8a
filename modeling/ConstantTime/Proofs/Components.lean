/-
The search for components finds them, and every component after what it leads to.

At any time the stack of the search falls into pieces, one for each visit: the node of the visit,
and above it nodes that were visited from it and are linked with it in a circle. `Piece` says what
is known of one piece and `Trail` how the pieces lie on each other. A step changes only the topmost
pieces. When a visit ends with the low link of a node further down, its piece is linked with the
piece below and joins it. When it ends with its own number, no edge leads from its piece to the
nodes below, so the piece is a component, and all edges out of it lead to components found before.
At the end there are no visits, so nothing is left on the stack and every node that was met has its
component.
-/
import Mathlib.Data.List.Nodup
import ConstantTime.Graph.Components
import ConstantTime.Proofs.Search
import ConstantTime.Proofs.Tables

set_option autoImplicit false

namespace ConstantTime.Digraph

variable {α : Type} [DecidableEq α] {d : Digraph α}

/-! ## Linked nodes

Two nodes belong to one component if each leads to the other. -/

/-- Two nodes that reach each other. -/
def Linked (d : Digraph α) (a b : α) : Prop := d.Reaches a b ∧ d.Reaches b a

theorem Linked.refl (d : Digraph α) (a : α) : d.Linked a a := ⟨Reaches.refl d a, Reaches.refl d a⟩

theorem Linked.symm {a b : α} (h : d.Linked a b) : d.Linked b a := ⟨h.2, h.1⟩

/-- Being linked is an equivalence. -/
theorem Linked.trans {a b c : α} (hab : d.Linked a b) (hbc : d.Linked b c) : d.Linked a c :=
  ⟨hab.1.trans hbc.1, hbc.2.trans hab.2⟩

/-! ## Components in order

What the search has found at any time: full components, with all that they lead to in front of
them. That a list of linked nodes is a whole component then follows, since a node outside could be
reached only from a component that stands later. -/

/-- Each list is not empty, its nodes are linked, and edges out of it lead to earlier lists. -/
def Ordered (d : Digraph α) (components : List (List α)) : Prop :=
  ∀ before c after, components = before ++ c :: after →
    c ≠ [] ∧ (∀ x ∈ c, ∀ y ∈ c, d.Linked x y) ∧ ∀ x ∈ c, ∀ z, d.Edge x z →
      z ∈ c ∨ z ∈ before.flatten

theorem ordered_nil (d : Digraph α) : d.Ordered [] := by
  intro before c after h
  simp at h

/-- A list of linked nodes may be added if its edges lead into itself and to what is there. -/
theorem Ordered.concat {components : List (List α)} (h : d.Ordered components) {c : List α}
    (hne : c ≠ []) (hlinked : ∀ x ∈ c, ∀ y ∈ c, d.Linked x y)
    (hedge : ∀ x ∈ c, ∀ z, d.Edge x z → z ∈ c ∨ z ∈ components.flatten) :
    d.Ordered (components ++ [c]) := by
  intro before c' after hsplit
  rcases List.eq_nil_or_concat after with rfl | ⟨after', last, rfl⟩
  · obtain ⟨rfl, hc⟩ := List.append_inj' hsplit rfl
    rw [← (List.cons.inj hc).1]
    exact ⟨hne, hlinked, hedge⟩
  · have hsplit' : components ++ [c] = (before ++ c' :: after') ++ [last] := by
      rw [hsplit]
      simp
    exact h before c' after' (List.append_inj' hsplit' rfl).1

/-- Any first part of the components is in order as well. -/
theorem Ordered.left {components later : List (List α)} (h : d.Ordered (components ++ later)) :
    d.Ordered components := by
  intro before c after hsplit
  refine h before c (after ++ later) ?_
  rw [hsplit]
  simp

/-- No edge leads out of all components. -/
theorem Ordered.closed {components : List (List α)} (h : d.Ordered components) {x z : α}
    (hx : x ∈ components.flatten) (hedge : d.Edge x z) : z ∈ components.flatten := by
  obtain ⟨c, hc, hxc⟩ := List.mem_flatten.1 hx
  obtain ⟨before, after, rfl⟩ := List.append_of_mem hc
  rw [List.flatten_append, List.flatten_cons, List.mem_append, List.mem_append]
  rcases (h before c after rfl).2.2 x hxc z hedge with hz | hz
  · exact .inr (.inl hz)
  · exact .inl hz

/-- What a component reaches lies in it or before it. -/
theorem Ordered.mem_of_reaches {before : List (List α)} {c : List α} {after : List (List α)}
    (h : d.Ordered (before ++ c :: after)) {x y : α} (hx : x ∈ c) (hxy : d.Reaches x y) :
    y ∈ c ∨ y ∈ before.flatten := by
  have hclosed : ∀ a ∈ c ++ before.flatten, ∀ b, d.Edge a b → b ∈ c ++ before.flatten := by
    intro a ha b hab
    rw [List.mem_append] at ha ⊢
    rcases ha with ha | ha
    · exact (h before c after rfl).2.2 a ha b hab
    · exact .inr (h.left.closed ha hab)
  exact List.mem_append.1 (hxy.mem_of_closed hclosed (List.mem_append_left _ hx))

/-- Two nodes are in one component exactly when they are linked. -/
theorem Ordered.exists_mem_iff {components : List (List α)} (h : d.Ordered components)
    (hnodup : components.flatten.Nodup) {x y : α} (hx : x ∈ components.flatten)
    (hy : y ∈ components.flatten) :
    (∃ c ∈ components, x ∈ c ∧ y ∈ c) ↔ d.Linked x y := by
  constructor
  · rintro ⟨c, hc, hxc, hyc⟩
    obtain ⟨before, after, rfl⟩ := List.append_of_mem hc
    exact (h before c after rfl).2.1 x hxc y hyc
  · intro hlinked
    obtain ⟨c, hc, hxc⟩ := List.mem_flatten.1 hx
    obtain ⟨before, after, rfl⟩ := List.append_of_mem hc
    refine ⟨c, hc, hxc, (h.mem_of_reaches hxc hlinked.1).resolve_right fun hybefore => ?_⟩
    -- otherwise `x`, which `y` reaches, would lie in or before an earlier component
    obtain ⟨c', hc', hyc'⟩ := List.mem_flatten.1 hybefore
    obtain ⟨before', after', rfl⟩ := List.append_of_mem hc'
    have hxearlier : x ∈ (before' ++ c' :: after').flatten := by
      rw [List.flatten_append, List.flatten_cons, List.mem_append, List.mem_append]
      rcases h.left.mem_of_reaches hyc' hlinked.2 with hxc' | hxbefore
      · exact .inr (.inl hxc')
      · exact .inl hxbefore
    rw [List.flatten_append, List.nodup_append] at hnodup
    exact hnodup.2.2 x hxearlier x (List.mem_flatten.2 ⟨c, List.mem_cons_self, hxc⟩) rfl

/-! ## Pieces of the stack

A piece is a visit together with the part of the stack above its node, up to the next visit. The
low link of the visit is the number of a node that the piece leads to. -/

/-- What is known of the node of a visit and the part of the stack above it that was visited from
it, where `below` is the rest of the stack: the low link is the number of a node that can be
reached, and no edge that was looked at leads to a smaller number on the stack. -/
structure Piece (d : Digraph α) (number : α → Nat) (met above below : List α) (v : Visit α) :
    Prop where
  number_eq : v.number = number v.node
  left : ∀ z ∈ v.left, d.Edge v.node z
  linked : ∀ x ∈ above, d.Linked v.node x
  low : ∃ y ∈ v.node :: below, number y = v.low ∧ d.Reaches v.node y
  edges : ∀ x ∈ v.node :: above, ∀ z, d.Edge x z →
    (x = v.node ∧ z ∈ v.left) ∨ (z ∈ met ∧ (z ∈ below → v.low ≤ number z))

omit [DecidableEq α] in
theorem Visit.node_lower (v : Visit α) (k : Nat) : (v.lower k).node = v.node := by
  unfold lower
  split <;> rfl

omit [DecidableEq α] in
theorem Visit.left_lower (v : Visit α) (k : Nat) : (v.lower k).left = v.left := by
  unfold lower
  split <;> rfl

omit [DecidableEq α] in
/-- Lowering a link by a number brings it to that number at most. -/
theorem Visit.low_lower_le (v : Visit α) (k : Nat) : (v.lower k).low ≤ k := by
  unfold lower
  split
  · exact Nat.le_refl k
  · next h => exact Nat.not_lt.1 h

omit [DecidableEq α] in
theorem Visit.lower_with_left (v : Visit α) (k : Nat) (left : List α) :
    { v with left := left }.lower k = { v.lower k with left := left } := by
  unfold lower
  split <;> rfl

omit [DecidableEq α] in
/-- A link that is low enough stays. -/
theorem Visit.lower_of_le {v : Visit α} {k : Nat} (h : v.low ≤ k) :
    v.lower k = v := if_neg (Nat.not_lt.2 h)

namespace Piece

variable {number : α → Nat} {met above below : List α} {v : Visit α}

/-- A piece stays one when more nodes are met and the nodes on the stack keep their numbers. -/
theorem mono (h : d.Piece number met above below v) {number' : α → Nat} {met' : List α}
    (hnumber : ∀ x ∈ v.node :: below, number' x = number x) (hmet : ∀ x ∈ met, x ∈ met') :
    d.Piece number' met' above below v where
  number_eq := by rw [hnumber v.node List.mem_cons_self, h.number_eq]
  left := h.left
  linked := h.linked
  low := by
    obtain ⟨y, hy, hlow, hreach⟩ := h.low
    exact ⟨y, hy, by rw [hnumber y hy, hlow], hreach⟩
  edges := by
    intro x hx z hedge
    rcases h.edges x hx z hedge with hz | ⟨hz, hle⟩
    · exact .inl hz
    · refine .inr ⟨hmet z hz, fun hbelow => ?_⟩
      rw [hnumber z (List.mem_cons_of_mem _ hbelow)]
      exact hle hbelow

/-- The low link is at most the node's own number. -/
theorem low_le (h : d.Piece number met above below v)
    (hbelow : ∀ b ∈ below, number b < number v.node) :
    v.low ≤ number v.node := by
  obtain ⟨y, hy, hlow, -⟩ := h.low
  rcases List.mem_cons.1 hy with rfl | hy
  · exact Nat.le_of_eq hlow.symm
  · rw [← hlow]
    exact Nat.le_of_lt (hbelow y hy)

/-- The low link may be lowered to the number of a node further down that can be reached. -/
theorem lower (h : d.Piece number met above below v) {y : α} (hreach : d.Reaches v.node y)
    (hy : number y < v.low → y ∈ v.node :: below) :
    d.Piece number met above below (v.lower (number y)) := by
  unfold Visit.lower
  split
  · next hlt =>
    refine ⟨h.number_eq, h.left, h.linked, ⟨y, hy hlt, rfl, hreach⟩, fun x hx z hedge => ?_⟩
    rcases h.edges x hx z hedge with hz | ⟨hz, hle⟩
    · exact .inl hz
    · exact .inr ⟨hz, fun hbelow => Nat.le_trans (Nat.le_of_lt hlt) (hle hbelow)⟩
  · exact h

/-- A successor that was met, and has no smaller number further down, needs no more looking at. -/
theorem pass (h : d.Piece number met above below v) {m : α} {left : List α}
    (hleft : v.left = m :: left) (hm : m ∈ met) (hle : m ∈ below → v.low ≤ number m) :
    d.Piece number met above below { v with left := left } := by
  refine ⟨h.number_eq, fun z hz => h.left z ?_, h.linked, h.low, fun x hx z hedge => ?_⟩
  · rw [hleft]
    exact List.mem_cons_of_mem m hz
  · rcases h.edges x hx z hedge with ⟨rfl, hz⟩ | hz
    · rw [hleft, List.mem_cons] at hz
      rcases hz with rfl | hz
      · exact .inr ⟨hm, hle⟩
      · exact .inl ⟨rfl, hz⟩
    · exact .inr hz

/-- A piece takes in linked nodes from above whose edges were all looked at. -/
theorem absorb (h : d.Piece number met above below v) {upper : List α}
    (hlinked : ∀ x ∈ upper, d.Linked v.node x)
    (hedges : ∀ x ∈ upper, ∀ z, d.Edge x z → z ∈ met ∧ (z ∈ below → v.low ≤ number z)) :
    d.Piece number met (upper ++ above) below v := by
  refine ⟨h.number_eq, h.left, fun x hx => ?_, h.low, fun x hx z hedge => ?_⟩
  · rcases List.mem_append.1 hx with hx | hx
    · exact hlinked x hx
    · exact h.linked x hx
  · rw [List.mem_cons, List.mem_append] at hx
    rcases hx with hx | hx | hx
    · exact h.edges x (List.mem_cons.2 (.inl hx)) z hedge
    · exact .inr (hedges x hx z hedge)
    · exact h.edges x (List.mem_cons_of_mem _ hx) z hedge

/-- Where nothing is left to look at, all edges of the piece were looked at. -/
theorem edges_of_left_eq_nil (h : d.Piece number met above below v) (hleft : v.left = []) {x z : α}
    (hx : x ∈ v.node :: above) (hedge : d.Edge x z) : z ∈ met ∧ (z ∈ below → v.low ≤ number z) := by
  rcases h.edges x hx z hedge with ⟨-, hz⟩ | hz
  · rw [hleft] at hz
    exact absurd hz List.not_mem_nil
  · exact hz

/-- The nodes of a piece are linked with its visit, so with each other. -/
theorem linked_node (h : d.Piece number met above below v) {x : α} (hx : x ∈ v.node :: above) :
    d.Linked v.node x := by
  rcases List.mem_cons.1 hx with rfl | hx
  · exact Linked.refl d v.node
  · exact h.linked x hx

end Piece

/-! ## The trail of visits

The pieces lie on each other like the visits. Each node of a visit leads to the visit above it, so
everything below leads to everything above. -/

/-- The visits and the stack: one piece for each visit, each visit begun at the node of the one
before. -/
inductive Trail (d : Digraph α) (number : α → Nat) (met : List α) : List (Visit α) → List α → Prop
  | nil : Trail d number met [] []
  | cons {v : Visit α} {rest : List (Visit α)} {above below : List α}
    (trail : Trail d number met rest below)
      (begun : ∀ p ∈ rest.head?, d.Edge p.node v.node) (piece : d.Piece number met above below v) :
      Trail d number met (v :: rest) (above ++ v.node :: below)

namespace Trail

variable {number : α → Nat} {met : List α} {visits : List (Visit α)} {stack : List α}

/-- The topmost piece, and the trail below it. -/
theorem exists_piece {v : Visit α} {rest : List (Visit α)}
    (h : Trail d number met (v :: rest) stack) :
    ∃ above below, stack = above ++ v.node :: below ∧ Trail d number met rest below ∧
      (∀ p ∈ rest.head?, d.Edge p.node v.node) ∧ d.Piece number met above below v := by
  cases h with
  | @cons _ _ above below trail begun piece => exact ⟨above, below, rfl, trail, begun, piece⟩

/-- A trail stays one when more nodes are met, as long as those on the stack keep their numbers. -/
theorem mono (h : Trail d number met visits stack) {number' : α → Nat} {met' : List α}
    (hnumber : ∀ x ∈ stack, number' x = number x) (hmet : ∀ x ∈ met, x ∈ met') :
    Trail d number' met' visits stack := by
  induction h with
  | nil => exact .nil
  | @cons v rest above below _ hbegun hpiece ih =>
    have hbelow : ∀ x ∈ v.node :: below, number' x = number x := fun x hx =>
      hnumber x (List.mem_append_right above hx)
    exact .cons (ih fun x hx => hbelow x (List.mem_cons_of_mem _ hx)) hbegun
      (hpiece.mono hbelow hmet)

/-- Everything on the stack reaches the node of the innermost visit. -/
theorem reaches (h : Trail d number met visits stack) {y : α} (hy : y ∈ stack) :
    ∀ p ∈ visits.head?, d.Reaches y p.node := by
  induction h with
  | nil => exact absurd hy List.not_mem_nil
  | @cons v rest above below htrail hbegun hpiece ih =>
    intro p hp
    rw [List.head?_cons, Option.mem_some] at hp
    subst hp
    rw [List.mem_append, List.mem_cons] at hy
    rcases hy with hy | rfl | hy
    · exact (hpiece.linked y hy).2
    · exact Reaches.refl d _
    · cases htrail with
      | nil => exact absurd hy List.not_mem_nil
      | @cons p rest above' below' _ _ _ => exact (ih hy p rfl).tail (hbegun p rfl)

end Trail

/-- A list is cut at the first occurrence of a node. -/
theorem takeWhile_ne {n : α} {above below : List α} (hn : n ∉ above) :
    ((above ++ n :: below).takeWhile fun x => decide (x ≠ n)) = above := by
  induction above with
  | nil => simp
  | cons a above ih =>
    rw [List.mem_cons, not_or] at hn
    simpa [Ne.symm hn.1] using ih hn.2

/-- What is left of the stack when the piece of a node is taken off. -/
theorem drop_dropWhile_ne {n : α} {above below : List α} (hn : n ∉ above) :
    ((above ++ n :: below).dropWhile fun x => decide (x ≠ n)).drop 1 = below := by
  induction above with
  | nil => simp
  | cons a above ih =>
    rw [List.mem_cons, not_or] at hn
    simpa [Ne.symm hn.1] using ih hn.2

/-! ## States of the search

The trail, with the components found so far and the numbers of all nodes that were met, is the
invariant of the search. -/

namespace Sweep

variable {s : Sweep α}

/-- The nodes met so far. -/
def met (s : Sweep α) : List α := s.numbers.map Prod.fst

/-- The number of a node that was met. -/
def number (s : Sweep α) (n : α) : Nat := (Assoc.find? n s.numbers).getD 0

/-- What holds of the search between steps. -/
structure Sound (d : Digraph α) (s : Sweep α) : Prop where
  trail : Trail d s.number s.met s.visits s.stack
  /-- Numbers fall down the stack. -/
  falling : s.stack.Pairwise fun a b => s.number b < s.number a
  bound : ∀ x ∈ s.met, s.number x < s.numbers.length
  nodup : s.met.Nodup
  /-- A node that was met is on the stack or in a component. -/
  parts : s.met.Perm (s.stack ++ s.components.flatten)
  reached : ∀ x ∈ s.met, ∃ r ∈ d.nodes, d.Reaches r x
  ordered : d.Ordered s.components

/-- A node that was met is on the stack or in a component. -/
theorem Sound.mem_met_iff (h : s.Sound d) {x : α} :
    x ∈ s.met ↔ x ∈ s.stack ∨ x ∈ s.components.flatten := by
  rw [h.parts.mem_iff, List.mem_append]

/-- Looking a node up shows whether it was met, and its number. -/
theorem find?_numbers_eq_none_iff {n : α} :
    Assoc.find? n s.numbers = none ↔ n ∉ s.met := Assoc.find?_eq_none_iff

/-- A number in the table is the number of a node that was met. -/
theorem mem_met_of_find?_eq_some {n : α} {k : Nat} (h : Assoc.find? n s.numbers = some k) :
    n ∈ s.met ∧ s.number n = k := by
  refine ⟨List.mem_map.2 ⟨(n, k), Assoc.mem_of_find?_eq_some h, rfl⟩, ?_⟩
  rw [number, h, Option.getD_some]

/-- Nothing was met at the start. -/
theorem sound_start (d : Digraph α) : (start : Sweep α).Sound d where
  trail := .nil
  falling := .nil
  bound := by simp [start, met]
  nodup := by simp [start, met]
  parts := by simp [start, met]
  reached := by simp [start, met]
  ordered := ordered_nil d

/-! ### Meeting a node

A new visit starts a piece of its own on top of the trail. Its number is higher than all others. -/

section Meet

variable {n : α} (hn : n ∉ s.met)

include hn

theorem numbers_meet (d : Digraph α) :
    (s.meet d n).numbers = s.numbers ++ [(n, s.numbers.length)] :=
  Assoc.put_of_not_mem hn

theorem met_meet (d : Digraph α) : (s.meet d n).met = s.met ++ [n] := by
  rw [met, numbers_meet hn, List.map_append]
  rfl

omit hn in
/-- A node that is met gets the next number, and the others keep theirs. -/
theorem number_meet (d : Digraph α) (x : α) :
    (s.meet d n).number x = if n = x then s.numbers.length else s.number x := by
  rw [number, meet, Assoc.find?_put]
  split <;> rfl

theorem number_meet_of_mem (d : Digraph α) {x : α} (hx : x ∈ s.met) :
    (s.meet d n).number x = s.number x := by
  rw [number_meet, if_neg]
  rintro rfl
  exact hn hx

/-- The trail stays one when a node is met. -/
theorem Sound.trail_meet (h : s.Sound d) {visits : List (Visit α)} {stack : List α}
    (hstack : ∀ x ∈ stack, x ∈ s.stack) (htrail : Trail d s.number s.met visits stack) :
    Trail d (s.meet d n).number (s.meet d n).met visits stack := by
  refine htrail.mono (fun x hx => number_meet_of_mem hn d (h.mem_met_iff.2 (.inl (hstack x hx))))
    fun x hx => ?_
  rw [met_meet hn]
  exact List.mem_append_left _ hx

/-- A node is met, from the node of the innermost visit or as the root of a search. -/
theorem Sound.meet (h : s.Sound d) {visits : List (Visit α)}
    (htrail : Trail d (s.meet d n).number (s.meet d n).met visits s.stack)
    (hbegun : ∀ p ∈ visits.head?, d.Edge p.node n) (hreached : ∃ r ∈ d.nodes, d.Reaches r n) :
    (Sweep.meet d n { s with visits := visits }).Sound d := by
  have hself : (s.meet d n).number n = s.numbers.length := by rw [number_meet, if_pos rfl]
  have hstack : ∀ x ∈ s.stack, (s.meet d n).number x = s.number x := fun x hx =>
    number_meet_of_mem hn d (h.mem_met_iff.2 (.inl hx))
  have hmet : ∀ {x}, x ∈ (s.meet d n).met ↔ x ∈ s.met ∨ x = n := by
    intro x
    rw [met_meet hn, List.mem_append, List.mem_singleton]
  -- the new piece is the node alone, with all its edges still to look at
  have hpiece : d.Piece (s.meet d n).number (s.meet d n).met [] s.stack
      ⟨n, s.numbers.length, s.numbers.length, d.succs n⟩ := by
    refine ⟨hself.symm,
      fun z hz => hz, by simp, ⟨n, List.mem_cons_self, hself, Reaches.refl d n⟩, ?_⟩
    intro x hx z hedge
    rw [List.mem_singleton.1 hx] at hedge ⊢
    exact .inl ⟨rfl, hedge⟩
  have hfalling : (n :: s.stack).Pairwise fun a b => (s.meet d n).number b <
      (s.meet d n).number a := by
    refine List.pairwise_cons.2 ⟨fun b hb => ?_, h.falling.imp_of_mem fun ha hb hab => ?_⟩
    · rw [hself, hstack b hb]
      exact h.bound b (h.mem_met_iff.2 (.inl hb))
    · rw [hstack _ ha, hstack _ hb]
      exact hab
  have hbound : ∀ x ∈ (s.meet d n).met, (s.meet d n).number x < (s.meet d n).numbers.length := by
    intro x hx
    rw [numbers_meet hn, List.length_append, List.length_singleton]
    rcases hmet.1 hx with hx | rfl
    · rw [number_meet_of_mem hn d hx]
      have hlt := h.bound x hx
      omega
    · omega
  have hnodup : (s.meet d n).met.Nodup := by
    rw [met_meet hn, List.nodup_append]
    refine ⟨h.nodup, List.nodup_singleton n, fun a ha b hb hab => hn ?_⟩
    rw [← List.mem_singleton.1 hb, ← hab]
    exact ha
  have hparts : (s.meet d n).met.Perm (n :: s.stack ++ s.components.flatten) := by
    rw [met_meet hn]
    exact (List.perm_append_singleton n s.met).trans (h.parts.cons n)
  have hreach : ∀ x ∈ (s.meet d n).met, ∃ r ∈ d.nodes, d.Reaches r x := by
    intro x hx
    rcases hmet.1 hx with hx | rfl
    · exact h.reached x hx
    · exact hreached
  exact ⟨.cons htrail hbegun hpiece, hfalling, hbound, hnodup, hparts, hreach, h.ordered⟩

end Meet

/-! ### Looking at an edge

The edge leads to a new node, to a node on the stack, or to one whose component is known. In the
second case the low link of the visit may sink; in the last case nothing changes, since a component
is never left open. -/

section Visits

variable {v : Visit α} {rest : List (Visit α)} (h : s.Sound d) (hvisits : s.visits = v :: rest)

include h hvisits

/-- The topmost piece of the stack, and what its place on the stack says about numbers. -/
theorem Sound.exists_piece :
    ∃ above below, s.stack = above ++ v.node :: below ∧ Trail d s.number s.met rest below ∧
    (∀ p ∈ rest.head?, d.Edge p.node v.node) ∧ d.Piece s.number s.met above below v ∧
    (∀ a ∈ above, s.number v.node < s.number a) ∧ (∀ b ∈ below, s.number b < s.number v.node) ∧
      v.node ∉ above := by
  have htrail := h.trail
  rw [hvisits] at htrail
  obtain ⟨above, below, hstack, hrest, hbegun, hpiece⟩ := htrail.exists_piece
  have hfalling := h.falling
  rw [hstack, List.pairwise_append, List.pairwise_cons] at hfalling
  have habove : ∀ a ∈ above, s.number v.node < s.number a :=
    fun a ha => hfalling.2.2 a ha v.node List.mem_cons_self
  exact ⟨above, below, hstack, hrest, hbegun, hpiece, habove, hfalling.2.1.1,
    fun hv => Nat.lt_irrefl _ (habove _ hv)⟩

/-- The node of a visit was met. -/
theorem Sound.mem_met_of_visit : v.node ∈ s.met := by
  obtain ⟨above, below, hstack, -⟩ := h.exists_piece hvisits
  rw [h.mem_met_iff, hstack]
  exact .inl (List.mem_append_right above List.mem_cons_self)

omit hvisits in
/-- The innermost visit may be replaced by one that fits the same piece. -/
theorem Sound.replace {above below : List α} (hstack : s.stack = above ++ v.node :: below)
    (hrest : Trail d s.number s.met rest below) (hbegun : ∀ p ∈ rest.head?, d.Edge p.node v.node)
    (hpiece : d.Piece s.number s.met above below v) : { s with visits := v :: rest }.Sound d := by
  have htrail : Trail d s.number s.met (v :: rest) (above ++ v.node :: below) :=
    .cons hrest hbegun hpiece
  rw [← hstack] at htrail
  exact ⟨htrail, h.falling, h.bound, h.nodup, h.parts, h.reached, h.ordered⟩

/-- A successor that was met but is no longer on the stack is passed. -/
theorem Sound.pass {m : α} {left : List α} (hleft : v.left = m :: left) (hm : m ∈ s.met)
    (hout : m ∉ s.stack) :
    { s with visits := { v with left := left } :: rest }.Sound d := by
  obtain ⟨above, below, hstack, hrest, hbegun, hpiece, -⟩ := h.exists_piece hvisits
  refine h.replace (v := { v with left := left }) hstack hrest hbegun
    (hpiece.pass hleft hm fun hbelow => ?_)
  rw [hstack] at hout
  exact absurd (List.mem_append_right above (List.mem_cons_of_mem _ hbelow)) hout

/-- A successor on the stack lowers the low link to its number. -/
theorem Sound.lower {m : α} {left : List α} (hleft : v.left = m :: left) (hm : m ∈ s.stack) :
    { s with visits := { v with left := left }.lower (s.number m) :: rest }.Sound d := by
  obtain ⟨above, below, hstack, hrest, hbegun, hpiece, habove, hbelow, -⟩ := h.exists_piece hvisits
  have hedge : d.Edge v.node m := hpiece.left m (by rw [hleft]; exact List.mem_cons_self)
  -- a number below the low link is below the node's own, so its node lies further down
  have hlower : d.Piece s.number s.met above below (v.lower (s.number m)) := by
    refine hpiece.lower (Relation.ReflTransGen.single hedge) fun hlt => ?_
    rw [hstack, List.mem_append] at hm
    rcases hm with hm | hm
    · have hle := hpiece.low_le hbelow
      have hgt := habove m hm
      omega
    · exact hm
  have hpass := hlower.pass (v.left_lower _ |>.trans hleft) (h.mem_met_iff.2 (.inl hm)) fun _ =>
    v.low_lower_le _
  rw [← Visit.lower_with_left] at hpass
  refine h.replace (v := { v with left := left }.lower (s.number m)) ?_ hrest ?_ hpass
  · rw [Visit.node_lower]
    exact hstack
  · rw [Visit.node_lower]
    exact hbegun

/-- A successor that was not met is visited next. -/
theorem Sound.visit {m : α} {left : List α} (hleft : v.left = m :: left) (hm : m ∉ s.met) :
    (Sweep.meet d m { s with visits := { v with left := left } :: rest }).Sound d := by
  obtain ⟨above, below, hstack, hrest, hbegun, hpiece, -⟩ := h.exists_piece hvisits
  have hsub : ∀ x ∈ v.node :: below, x ∈ s.stack := by
    intro x hx
    rw [hstack]
    exact List.mem_append_right above hx
  have hout : m ∉ s.stack := fun hin => hm (h.mem_met_iff.2 (.inl hin))
  have hedge : d.Edge v.node m := hpiece.left m (by rw [hleft]; exact List.mem_cons_self)
  -- when the successor has been met, it is above the piece and needs no more looking at
  have hmono : d.Piece (s.meet d m).number (s.meet d m).met above below v := by
    refine hpiece.mono (fun x hx => number_meet_of_mem hm d (h.mem_met_iff.2 (.inl (hsub x hx))))
      fun x hx => ?_
    rw [met_meet hm]
    exact List.mem_append_left _ hx
  have hpass : d.Piece (s.meet d m).number (s.meet d m).met above below
      { v with left := left } := by
    refine hmono.pass hleft ?_ fun hbelow => absurd (hsub m (List.mem_cons_of_mem _ hbelow)) hout
    rw [met_meet hm]
    exact List.mem_append_right _ (List.mem_singleton.2 rfl)
  have htrail : Trail d (s.meet d m).number (s.meet d m).met ({ v with left := left } :: rest)
      (above ++ v.node :: below) :=
    .cons (h.trail_meet hm (fun x hx => hsub x (List.mem_cons_of_mem _ hx)) hrest) hbegun hpass
  rw [← hstack] at htrail
  refine h.meet hm htrail (fun p hp => ?_) ?_
  · rw [List.head?_cons, Option.mem_some] at hp
    rw [← hp]
    exact hedge
  · obtain ⟨r, hr, hreach⟩ := h.reached v.node (h.mem_met_of_visit hvisits)
    exact ⟨r, hr, hreach.tail hedge⟩

/-- **Looking at an edge keeps the search sound.** -/
theorem Sound.look {m : α} {left : List α} (hleft : v.left = m :: left) :
    (s.look d { v with left := left } rest m).Sound d := by
  unfold Sweep.look
  split
  · next hnone => exact h.visit hvisits hleft (find?_numbers_eq_none_iff.1 hnone)
  · next k hk =>
    obtain ⟨hm, rfl⟩ := mem_met_of_find?_eq_some hk
    split
    · next hstack => exact h.lower hvisits hleft hstack
    · next hstack => exact h.pass hvisits hleft hm hstack

/-! ### Ending a visit

The piece of the visit is closed as a component or joins the piece below it. Which one depends only
on its low link. -/

/-- A piece whose low link is its own number is a component. -/
theorem Sound.close (hleft : v.left = []) (hlow : v.low = v.number) : (s.leave v rest).Sound d := by
  obtain ⟨above, below, hstack, hrest, -, hpiece, -, hbelow, hnot⟩ := h.exists_piece hvisits
  -- the low link of the visit before is smaller, and stays
  have hlower : lowerFirst v.low rest = rest := by
    cases hrest with
    | nil => rfl
    | @cons p rest above' below' _ _ hpiece' =>
      refine congrArg (· :: rest) (Visit.lower_of_le ?_)
      obtain ⟨y, hy, hylow, -⟩ := hpiece'.low
      rw [hlow, hpiece.number_eq, ← hylow]
      exact Nat.le_of_lt (hbelow y (List.mem_append_right above' hy))
  have hmem : ∀ {x}, x ∈ above ++ [v.node] ↔ x ∈ v.node :: above := by
    intro x
    rw [List.mem_append, List.mem_singleton, List.mem_cons, or_comm]
  have hlinked : ∀ x ∈ above ++ [v.node], ∀ y ∈ above ++ [v.node], d.Linked x y := fun x hx y hy =>
    (hpiece.linked_node (hmem.1 hx)).symm.trans (hpiece.linked_node (hmem.1 hy))
  -- an edge out of the piece leads to a node that was met, and not to one below
  have hedge : ∀ x ∈ above ++ [v.node], ∀ z, d.Edge x z →
      z ∈ above ++ [v.node] ∨ z ∈ s.components.flatten := by
    intro x hx z hz
    obtain ⟨hmet, hle⟩ := hpiece.edges_of_left_eq_nil hleft (hmem.1 hx) hz
    have hout : z ∉ below := by
      intro hin
      have hge := hle hin
      have hlt := hbelow z hin
      rw [hlow, hpiece.number_eq] at hge
      omega
    rw [h.mem_met_iff, hstack] at hmet
    simpa [hout] using hmet
  have hfalling : below.Pairwise fun a b => s.number b < s.number a := by
    have hfalling := h.falling
    rw [hstack, List.pairwise_append, List.pairwise_cons] at hfalling
    exact hfalling.2.1.2
  have hparts : s.met.Perm (below ++ (s.components ++ [above ++ [v.node]]).flatten) := by
    refine h.parts.trans ?_
    rw [hstack, List.perm_iff_count]
    intro x
    simp only [List.count_append, List.count_cons, List.flatten_append, List.flatten_cons,
      List.flatten_nil, List.append_nil, List.count_nil]
    omega
  rw [leave, if_pos hlow, hstack, takeWhile_ne hnot, drop_dropWhile_ne hnot, hlower]
  exact ⟨hrest, hfalling, h.bound, h.nodup, hparts, h.reached,
    h.ordered.concat (by simp) hlinked hedge⟩

/-- A piece whose low link is smaller belongs to the piece below. -/
theorem Sound.join (hleft : v.left = []) (hlow : v.low ≠ v.number) : (s.leave v rest).Sound d := by
  obtain ⟨above, below, hstack, hrest, hbegun, hpiece, -, hbelow, -⟩ := h.exists_piece hvisits
  -- the low link is the number of a node below, so there is a visit to go back to
  obtain ⟨y, hy, hylow, hreach⟩ := hpiece.low
  have hybelow : y ∈ below := by
    refine (List.mem_cons.1 hy).resolve_left fun hyv => hlow ?_
    rw [hpiece.number_eq, ← hyv, hylow]
  cases rest with
  | nil =>
    cases hrest
    exact absurd hybelow List.not_mem_nil
  | cons p rest =>
    have hfromp : d.Edge p.node v.node := hbegun p rfl
    have hlink : d.Linked p.node v.node :=
      ⟨Relation.ReflTransGen.single hfromp, hreach.trans (hrest.reaches hybelow p rfl)⟩
    obtain ⟨above', below', rfl, hrest', hbegun', hpiece'⟩ := hrest.exists_piece
    have hfalling := h.falling
    rw [hstack, List.pairwise_append, List.pairwise_cons, List.pairwise_append, List.pairwise_cons]
      at hfalling
    obtain ⟨-, ⟨-, -, ⟨hbelow', -⟩, habove'⟩, -⟩ := hfalling
    have hlower : d.Piece s.number s.met above' below' (p.lower v.low) := by
      rw [← hylow]
      refine hpiece'.lower (Reaches.head hfromp hreach) fun hlt => ?_
      refine (List.mem_append.1 hybelow).resolve_left fun hyabove => ?_
      have hle := hpiece'.low_le hbelow'
      have hgt := habove' y hyabove p.node List.mem_cons_self
      omega
    have habsorb : d.Piece s.number s.met ((above ++ [v.node]) ++ above') below'
        (p.lower v.low) := by
      have hmem : ∀ {x}, x ∈ above ++ [v.node] → x ∈ v.node :: above := by
        intro x hx
        rw [List.mem_append, List.mem_singleton, or_comm] at hx
        exact List.mem_cons.2 hx
      refine hlower.absorb (fun x hx => ?_) fun x hx z hz => ?_
      · rw [Visit.node_lower]
        exact hlink.trans (hpiece.linked_node (hmem hx))
      · obtain ⟨hmet, hle⟩ := hpiece.edges_of_left_eq_nil hleft (hmem hx) hz
        refine ⟨hmet, fun hin => Nat.le_trans (p.low_lower_le v.low) (hle ?_)⟩
        exact List.mem_append_right above' (List.mem_cons_of_mem _ hin)
    rw [leave, if_neg hlow]
    refine h.replace ?_ hrest' ?_ habsorb
    · rw [Visit.node_lower, hstack]
      simp
    · rw [Visit.node_lower]
      exact hbegun'

/-- **A step keeps the search sound.** -/
theorem Sound.step : (s.step d v rest).Sound d := by
  unfold Sweep.step
  split
  · next hleft =>
    by_cases hlow : v.low = v.number
    · exact h.close hvisits hleft hlow
    · exact h.join hvisits hleft hlow
  · next m left hleft => exact h.look hvisits hleft

end Visits

/-! ### The bound on the steps

A step uses up an edge or a visit. New visits begin only at nodes that were not met, so their edges
can be counted in advance. -/

/-- What is still to do at most. -/
def cost (d : Digraph α) (s : Sweep α) : Nat :=
  pending (s.visits.map Visit.left) + 2 * unexplored d.adj s.met

omit [DecidableEq α] in
/-- Passing on a low link uses up no edges. -/
theorem map_left_lowerFirst (k : Nat) (visits : List (Visit α)) :
    (lowerFirst k visits).map Visit.left = visits.map Visit.left := by
  cases visits with
  | nil => rfl
  | cons v rest => rw [lowerFirst, List.map_cons, List.map_cons, Visit.left_lower]

/-- Meeting a node trades the step counted for it against its edges, which were counted as well. -/
theorem cost_meet_le (d : Digraph α) {n : α} (hn : n ∉ s.met) :
    (s.meet d n).cost d ≤ s.cost d + 1 := by
  rw [cost, met_meet hn]
  exact pending_visit_le d hn (s.visits.map Visit.left)

/-- A step lowers what is still to do. -/
theorem cost_step_lt {v : Visit α} {rest : List (Visit α)} (hvisits : s.visits = v :: rest) :
    (s.step d v rest).cost d < s.cost d := by
  have hcost : s.cost d = 2 * v.left.length + 1 + pending (rest.map Visit.left) +
      2 * unexplored d.adj s.met := by
    rw [cost, hvisits, List.map_cons, pending]
  -- a visit ends, an edge leads to a new node, or an edge leads to a node that was met
  unfold step
  split
  · next hleft =>
    have hleave : (s.leave v rest).cost d = pending (rest.map Visit.left) +
        2 * unexplored d.adj s.met := by
      rw [← map_left_lowerFirst v.low rest]
      unfold leave
      dsimp only
      split <;> rfl
    omega
  · next m left hleft =>
    rw [hleft, List.length_cons] at hcost
    have hpassed : ∀ v' : Visit α, v'.left = left →
        cost d { s with visits := v' :: rest } =
          2 * left.length + 1 + pending (rest.map Visit.left) + 2 * unexplored d.adj s.met := by
      rintro v' rfl
      rfl
    unfold look
    split
    · next hnone =>
      have hmeet := cost_meet_le (s := { s with visits := { v with left := left } :: rest }) d
        (find?_numbers_eq_none_iff.1 hnone)
      rw [hpassed _ rfl] at hmeet
      omega
    · split
      · rw [hpassed _ (Visit.left_lower _ _)]
        omega
      · rw [hpassed _ rfl]
        omega

/-- What was met stays met. -/
theorem met_subset_step {v : Visit α} {rest : List (Visit α)} {x : α} (hx : x ∈ s.met) :
    x ∈ (s.step d v rest).met := by
  unfold step
  split
  · unfold leave
    dsimp only
    split <;> exact hx
  · unfold look
    split
    · next hnone =>
      change x ∈ (s.meet d _).met
      rw [met_meet (find?_numbers_eq_none_iff.1 hnone)]
      exact List.mem_append_left _ hx
    · split <;> exact hx

/-! ### Whole searches

Between two searches there are no visits. What was met is then closed under edges, and each search
extends it by what its node leads to. -/

/-- The search is sound, and no visit is going on. -/
structure Rests (d : Digraph α) (s : Sweep α) : Prop where
  sound : s.Sound d
  visits : s.visits = []

/-- Where no visit is going on, every node that was met is in a component. -/
theorem Rests.mem_met_iff (h : s.Rests d) {x : α} : x ∈ s.met ↔ x ∈ s.components.flatten := by
  have htrail := h.sound.trail
  rw [h.visits] at htrail
  generalize hstack : s.stack = stack at htrail
  cases htrail
  rw [h.sound.mem_met_iff, hstack]
  simp

/-- **All visits come to an end.** -/
theorem Sound.settle {steps : Nat} (h : s.Sound d) (hsteps : s.cost d ≤ steps) :
    (s.settle d steps).Rests d ∧ ∀ x ∈ s.met, x ∈ (s.settle d steps).met := by
  induction steps generalizing s with
  | zero =>
    refine ⟨⟨h, ?_⟩, fun x hx => hx⟩
    cases hvisits : s.visits with
    | nil => exact hvisits
    | cons v rest =>
      rw [cost, hvisits, List.map_cons, pending] at hsteps
      omega
  | succ steps ih =>
    unfold Sweep.settle
    split
    · next hvisits => exact ⟨⟨h, hvisits⟩, fun x hx => hx⟩
    · next v rest hvisits =>
      have hlt := cost_step_lt (d := d) hvisits
      obtain ⟨hrests, hmet⟩ := ih (h.step hvisits) (by omega)
      exact ⟨hrests, fun x hx => hmet x (met_subset_step hx)⟩

/-- A search meets its root and loses nothing. -/
theorem Rests.search (h : s.Rests d) {root : α} (hroot : root ∈ d.nodes) :
    (s.search d root).Rests d ∧ root ∈ (s.search d root).met ∧ ∀ x ∈ s.met,
      x ∈ (s.search d root).met := by
  unfold Sweep.search
  split
  · next k hk => exact ⟨h, (mem_met_of_find?_eq_some hk).1, fun x hx => hx⟩
  · next hnone =>
    have hnew : root ∉ s.met := find?_numbers_eq_none_iff.1 hnone
    have hmeet : (s.meet d root).Sound d := by
      refine h.sound.meet hnew (h.sound.trail_meet hnew (fun _ hx => hx) h.sound.trail) ?_
        ⟨root, hroot, .refl d root⟩
      rw [h.visits]
      intro p hp
      cases hp
    have hcost : (s.meet d root).cost d ≤ 2 * d.size + 1 := by
      have hle := cost_meet_le d hnew
      have hunexplored := unexplored_le_size d s.met
      have hcost : s.cost d = 0 + 2 * unexplored d.adj s.met := by
        rw [cost, h.visits, List.map_nil, pending]
      omega
    obtain ⟨hrests, hmet⟩ := hmeet.settle hcost
    rw [met_meet hnew] at hmet
    exact ⟨hrests, hmet root (List.mem_append_right _ (List.mem_singleton.2 rfl)),
      fun x hx => hmet x (List.mem_append_left _ hx)⟩

/-- Searches from roots one after the other. -/
theorem Rests.foldl_search (h : s.Rests d) {roots : List α} (hroots : ∀ r ∈ roots, r ∈ d.nodes) :
    (roots.foldl (Sweep.search d) s).Rests d ∧
      ∀ x, x ∈ roots ∨ x ∈ s.met → x ∈ (roots.foldl (Sweep.search d) s).met := by
  induction roots generalizing s with
  | nil => exact ⟨h, fun x hx => hx.resolve_left List.not_mem_nil⟩
  | cons r roots ih =>
    obtain ⟨hrests, hroot, hkept⟩ := h.search (hroots r List.mem_cons_self)
    obtain ⟨hall, hmet⟩ := ih hrests fun x hx => hroots x (List.mem_cons_of_mem r hx)
    refine ⟨hall, fun x hx => hmet x ?_⟩
    rw [List.mem_cons, or_assoc] at hx
    rcases hx with rfl | hx | hx
    · exact .inr hroot
    · exact .inl hx
    · exact .inr (hkept x hx)

end Sweep

/-! ## All components

The three facts that callers use: components are ordered, they do not overlap, and together they
hold all nodes. -/

/-- After the searches from all nodes there is no visit left. -/
theorem rests_nodes (d : Digraph α) : (d.nodes.foldl (Sweep.search d) Sweep.start).Rests d :=
  (Sweep.Rests.foldl_search ⟨Sweep.sound_start d, rfl⟩ fun _ hr => hr).1

/-- **Components come after what they lead to**, and their nodes are linked. -/
theorem ordered_components (d : Digraph α) : d.Ordered d.components := (rests_nodes d).sound.ordered

/-- No node is listed twice. -/
theorem nodup_flatten_components (d : Digraph α) : d.components.flatten.Nodup := by
  have hsound := (rests_nodes d).sound
  exact (List.nodup_append.1 (hsound.parts.nodup_iff.1 hsound.nodup)).2.1

/-- **The components hold all nodes** and what can be reached from them. -/
theorem mem_flatten_components_iff (d : Digraph α) {x : α} :
    x ∈ d.components.flatten ↔ ∃ r ∈ d.nodes, d.Reaches r x := by
  rw [components, ← (rests_nodes d).mem_met_iff]
  constructor
  · exact (rests_nodes d).sound.reached x
  · rintro ⟨r, hr, hreach⟩
    have hroot : r ∈ d.components.flatten := by
      rw [components, ← (rests_nodes d).mem_met_iff]
      exact (Sweep.Rests.foldl_search ⟨Sweep.sound_start d, rfl⟩ fun _ hr => hr).2 r (.inl hr)
    rw [(rests_nodes d).mem_met_iff]
    exact hreach.mem_of_closed (fun a ha b hab => (ordered_components d).closed ha hab) hroot

end ConstantTime.Digraph
