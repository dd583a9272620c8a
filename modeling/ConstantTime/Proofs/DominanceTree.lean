/-
The tree that the passes grow is the dominance tree.

Nodes are numbered by their place in the order. Before the iteration is over the tree is only an
approximation, and two facts carry the argument. From one side, a tree never loses a dominator:
every dominator of a node is above it, in any tree on the way. From the other side, what is above a
node gets onto ever more ways. A step of a way is a retreat if it does not go to a later node, and
after `i` passes whatever is above a node is on every way to it with fewer than `i` retreats.
Within a pass that holds of the nodes visited so far, and of the others with one retreat less: a
step to a visited node that is no retreat comes from a node visited before it.

A way without repetition has fewer retreats than there are nodes, and so the tree is exact after as
many passes. An exact tree passes unchanged, so the bound on the passes is never hit. And a tree
that passes unchanged once does so for ever, hence it is exact, however early that was.
-/
import Mathlib.Data.List.Basic
import Mathlib.Data.List.Nodup
import Mathlib.Data.List.Perm.Subperm
import ConstantTime.Graph.Dominance
import ConstantTime.Proofs.Tables

set_option autoImplicit false

namespace ConstantTime.Dominance

variable {α : Type} [DecidableEq α]

/-! ## Lines

Going from a node to its parent again and again ends at the root. The nodes on the way are those
above the node, and they have ever smaller numbers. -/

/-- The node `a` is on the line from `b` up, `b` included. -/
inductive Above (parents : List (α × α)) (a : α) : α → Prop
  | here : Above parents a a
  | up {b c : α} : Assoc.find? b parents = some c → Above parents a c → Above parents a b

/-- The node has a parent. -/
def InTree (parents : List (α × α)) (n : α) : Prop := ∃ p, Assoc.find? n parents = some p

/-- What every tree on the way to the last one is like: the root is its own parent, and the parent
of any other node is in the tree and earlier in the order. -/
structure IsTree (order : List α) (root : α) (parents : List (α × α)) : Prop where
  own : Assoc.find? root parents = some root
  parent : ∀ {n p}, Assoc.find? n parents = some p → n ≠ root →
    InTree parents p ∧ order.idxOf p < order.idxOf n
  listed : ∀ {n}, InTree parents n → n ∈ order

/-- Above a node is the node itself and what is above its parent. -/
theorem above_iff {parents : List (α × α)} {a b c : α} (h : Assoc.find? b parents = some c) :
    Above parents a b ↔ a = b ∨ Above parents a c := by
  constructor
  · intro hab
    cases hab with
    | here => exact .inl rfl
    | up h' hac =>
      rw [h] at h'
      rw [Option.some.inj h']
      exact .inr hac
  · rintro (rfl | hac)
    · exact .here
    · exact .up h hac

section Lines

variable {order : List α} {root : α} {parents : List (α × α)} (ht : IsTree order root parents)

include ht

/-- A parent is earlier than its node. Only the root is its own parent. -/
theorem IsTree.parent_eq_or_lt {n p : α} (hp : Assoc.find? n parents = some p) :
    p = n ∨ order.idxOf p < order.idxOf n := by
  by_cases hroot : n = root
  · rw [hroot, ht.own] at hp
    exact .inl ((Option.some.inj hp).symm.trans hroot.symm)
  · exact .inr (ht.parent hp hroot).2

/-- Going up is going to earlier nodes. -/
theorem Above.eq_or_lt {a b : α} (h : Above parents a b) :
    a = b ∨ order.idxOf a < order.idxOf b := by
  induction h with
  | here => exact .inl rfl
  | @up b c hb _ ih =>
    rcases ht.parent_eq_or_lt hb with rfl | hlt
    · exact ih
    · rcases ih with rfl | ih
      · exact .inr hlt
      · exact .inr (by omega)

/-- Two different nodes are not above each other, since numbers sink along lines. -/
theorem Above.antisymm {a b : α} (hab : Above parents a b) (hba : Above parents b a) : a = b := by
  rcases hab.eq_or_lt ht with h | h
  · exact h
  · rcases hba.eq_or_lt ht with h' | h'
    · exact h'.symm
    · omega

/-- Above the root is nothing but the root. -/
theorem eq_of_above_root {a : α} (h : Above parents a root) (hroot : order.idxOf root = 0) :
    a = root := by
  rcases h.eq_or_lt ht with h | h
  · exact h
  · omega

end Lines

/-! ## Where lines meet

Two lines meet first at the node of highest number that is above both. The search for it moves up
whichever of the two nodes stands later. -/

section Meeting

variable {order : List α} {root : α} {parents : List (α × α)} (ht : IsTree order root parents)
  (hroot : order.idxOf root = 0)

include ht hroot

/-- Of two nodes, the later one has a parent, and what is above both is above the parent. -/
theorem exists_parent_of_later {a b : α} (ha : InTree parents a)
    (hlt : order.idxOf b < order.idxOf a) :
    ∃ p, Assoc.find? a parents = some p ∧ InTree parents p ∧ order.idxOf p < order.idxOf a ∧
      ∀ x, Above parents x p ∧ Above parents x b ↔ Above parents x a ∧ Above parents x b := by
  obtain ⟨p, hp⟩ := ha
  have hne : a ≠ root := by
    rintro rfl
    omega
  obtain ⟨hin, hlt'⟩ := ht.parent hp hne
  refine ⟨p, hp, hin, hlt', fun x => and_congr_left fun hxb => ?_⟩
  rw [above_iff hp]
  refine ⟨.inr, fun h => h.resolve_left ?_⟩
  rintro rfl
  -- the later node is not above the earlier one
  rcases hxb.eq_or_lt ht with h | h
  · rw [h] at hlt
    omega
  · omega

/-- **Lines meet.** With enough steps there is a node that has above it just what both nodes
have. -/
theorem exists_meet {a b : α} (ha : InTree parents a) (hb : InTree parents b) (steps : Nat)
    (hsteps : order.idxOf a + order.idxOf b < steps) :
    ∃ c, meet? order parents steps a b = some c ∧ InTree parents c ∧
      ∀ x, Above parents x c ↔ Above parents x a ∧ Above parents x b := by
  induction steps generalizing a b with
  | zero => omega
  | succ steps ih =>
    rw [meet?]
    by_cases hab : a = b
    · subst hab
      exact ⟨a, if_pos rfl, ha, fun x => (and_self_iff).symm⟩
    rw [if_neg hab]
    rcases Nat.lt_trichotomy (order.idxOf b) (order.idxOf a) with hlt | heq | hlt
    · obtain ⟨p, hp, hin, hlt', hboth⟩ := exists_parent_of_later ht hroot ha hlt
      obtain ⟨c, hc, hcin, hx⟩ := ih hin hb (by omega)
      rw [if_pos hlt, hp]
      exact ⟨c, hc, hcin, fun x => (hx x).trans (hboth x)⟩
    · exact absurd ((List.idxOf_inj (ht.listed hb)).1 heq).symm hab
    · obtain ⟨p, hp, hin, hlt', hboth⟩ := exists_parent_of_later ht hroot hb hlt
      obtain ⟨c, hc, hcin, hx⟩ := ih ha hin (by omega)
      rw [if_neg (by omega), if_pos hlt, hp]
      refine ⟨c, hc, hcin, fun x => (hx x).trans ?_⟩
      rw [and_comm, hboth x, and_comm]

/-- The lines of several nodes meet. -/
theorem exists_meetAll {first : α} (hfirst : InTree parents first) (others : List α)
    (hothers : ∀ p ∈ others, InTree parents p) :
    ∃ c, meetAll? order parents first others = some c ∧ InTree parents c ∧
      ∀ x, Above parents x c ↔ ∀ p ∈ first :: others, Above parents x p := by
  induction others generalizing first with
  | nil => exact ⟨first, rfl, hfirst, fun x => by simp⟩
  | cons other rest ih =>
    have hother := hothers other List.mem_cons_self
    have hlt := List.idxOf_lt_length_of_mem (ht.listed hfirst)
    have hlt' := List.idxOf_lt_length_of_mem (ht.listed hother)
    obtain ⟨d, hd, hdin, hdx⟩ := exists_meet ht hroot hother hfirst (2 * order.length) (by omega)
    obtain ⟨c, hc, hcin, hcx⟩ := ih hdin fun p hp => hothers p (List.mem_cons_of_mem _ hp)
    refine ⟨c, ?_, hcin, fun x => ?_⟩
    · rw [meetAll?, hd]
      exact hc
    · rw [hcx x, List.forall_mem_cons, hdx x, List.forall_mem_cons, List.forall_mem_cons]
      tauto

end Meeting

/-! ## Ways

A way starts at the root, and it is counted how many of its steps are retreats. Each node of the
order is reached by a way without any. -/

/-- `Way order preds root path n k` says that `path` is a way from the root to `n`, its last node
first, on which the step to the next node does not go to a later one `k` times. -/
inductive Way (order : List α) (preds : α → List α) (root : α) : List α → α → Nat → Prop
  | start : Way order preds root [root] root 0
  | step {path : List α} {p n : α} {k : Nat} :
    Way order preds root path p k → p ∈ preds n → n ∈ order →
      Way order preds root (n :: path) n (if order.idxOf n ≤ order.idxOf p then k + 1 else k)

/-- Every way from the root to `b` leads through `a`. -/
def OnEveryWay (order : List α) (preds : α → List α) (root a b : α) : Prop :=
  ∀ path k, Way order preds root path b k → a ∈ path

/-- An order in which the iteration can go: it starts with the root, and every other node has a
predecessor that comes before it. -/
structure Numbering (order : List α) (preds : α → List α) (root : α) : Prop where
  nodup : order.Nodup
  head : order.head? = some root
  earlier : ∀ n ∈ order, n ≠ root → ∃ p ∈ preds n, p ∈ order ∧ order.idxOf p < order.idxOf n

section Ways

variable {order : List α} {preds : α → List α} {root : α}

/-- The root is the first node of the order. -/
theorem Numbering.idxOf_root (hn : Numbering order preds root) : order.idxOf root = 0 := by
  have hhead := hn.head
  cases order with
  | nil => cases hhead
  | cons r rest =>
    have hr : r = root := Option.some.inj hhead
    rw [hr, List.idxOf_cons_self]

theorem Numbering.root_mem (hn : Numbering order preds root) : root ∈ order :=
  List.mem_of_mem_head? hn.head

namespace Way

variable {path : List α} {n : α} {k : Nat}

theorem mem_path (h : Way order preds root path n k) : n ∈ path := by
  cases h <;> exact List.mem_cons_self

/-- Ways stay among the nodes of the order. -/
theorem mem_order (h : Way order preds root path n k) (hn : Numbering order preds root) :
    n ∈ order := by
  cases h with
  | start => exact hn.root_mem
  | step _ _ hmem => exact hmem

theorem path_subset (h : Way order preds root path n k) (hn : Numbering order preds root) :
    ∀ x ∈ path, x ∈ order := by
  induction h with
  | start =>
    intro x hx
    rw [List.mem_singleton.1 hx]
    exact hn.root_mem
  | step _ _ hmem ih =>
    intro x hx
    rcases List.mem_cons.1 hx with rfl | hx
    · exact hmem
    · exact ih x hx

/-- There are fewer retreats on a way than nodes. -/
theorem lt_length (h : Way order preds root path n k) : k < path.length := by
  induction h with
  | start => exact Nat.one_pos
  | step _ _ _ ih =>
    rw [List.length_cons]
    split <;> omega

/-- A way passes each of its nodes, with no more retreats up to there. -/
theorem exists_suffix (h : Way order preds root path n k) {x : α} (hx : x ∈ path) :
    ∃ path' k', Way order preds root path' x k' ∧ path' <:+ path ∧ k' ≤ k := by
  induction h with
  | start =>
    rw [List.mem_singleton.1 hx]
    exact ⟨_, _, .start, List.suffix_refl _, Nat.le_refl _⟩
  | @step path p n k hway hp hmem ih =>
    rcases List.mem_cons.1 hx with rfl | hx
    · exact ⟨_, _, .step hway hp hmem, List.suffix_refl _, Nat.le_refl _⟩
    · obtain ⟨path', k', hway', hsuffix, hle⟩ := ih hx
      refine ⟨path', k', hway', hsuffix.trans (List.suffix_cons n path), ?_⟩
      split <;> omega

/-- What is on a way can be passed without repetition. -/
theorem exists_nodup (h : Way order preds root path n k) :
    ∃ path' k', Way order preds root path' n k' ∧ path'.Nodup ∧ ∀ x ∈ path', x ∈ path := by
  induction h with
  | start => exact ⟨_, _, .start, List.nodup_singleton root, fun x hx => hx⟩
  | @step path p n k _ hp hmem ih =>
    obtain ⟨path', k', hway', hnodup, hsub⟩ := ih
    by_cases hin : n ∈ path'
    · -- the node was passed before: the way ends there
      obtain ⟨path'', k'', hway'', hsuffix, -⟩ := hway'.exists_suffix hin
      refine ⟨path'', k'', hway'', hnodup.sublist hsuffix.sublist, fun x hx => ?_⟩
      exact List.mem_cons_of_mem _ (hsub x (hsuffix.subset hx))
    · refine ⟨n :: path', _, .step hway' hp hmem, List.nodup_cons.2 ⟨hin, hnodup⟩, fun x hx => ?_⟩
      rcases List.mem_cons.1 hx with rfl | hx
      · exact List.mem_cons_self
      · exact List.mem_cons_of_mem _ (hsub x hx)

/-- What is on a way can be passed with fewer retreats than there are nodes. -/
theorem exists_lt_length (h : Way order preds root path n k) (hn : Numbering order preds root) :
    ∃ path' k', Way order preds root path' n k' ∧ k' < order.length ∧ ∀ x ∈ path', x ∈ path := by
  obtain ⟨path', k', hway, hnodup, hsub⟩ := h.exists_nodup
  have hle : path'.length ≤ order.length := (hnodup.subperm (hway.path_subset hn)).length_le
  exact ⟨path', k', hway, Nat.lt_of_lt_of_le hway.lt_length hle, hsub⟩

/-- Every node has a way without retreats. -/
theorem exists_zero (hn : Numbering order preds root) (m : α) (hm : m ∈ order) :
    ∃ path, Way order preds root path m 0 := by
  induction hi : order.idxOf m using Nat.strongRecOn generalizing m with
  | _ i ih =>
    by_cases hroot : m = root
    · rw [hroot]
      exact ⟨_, .start⟩
    · obtain ⟨p, hp, hpm, hlt⟩ := hn.earlier m hm hroot
      obtain ⟨path, hway⟩ := ih (order.idxOf p) (by omega) p hpm rfl
      have hstep := hway.step hp hm
      rw [if_neg (by omega)] at hstep
      exact ⟨_, hstep⟩

end Way

/-- A dominator of a node other than itself dominates its predecessors. -/
theorem OnEveryWay.pred {a n p : α} (h : OnEveryWay order preds root a n) (hne : a ≠ n)
    (hp : p ∈ preds n) (hn : n ∈ order) : OnEveryWay order preds root a p := by
  intro path k hway
  exact (List.mem_cons.1 (h _ _ (hway.step hp hn))).resolve_left hne

/-- What dominates all predecessors of a node dominates it, unless it is the root. -/
theorem onEveryWay_of_preds {a n : α} (hne : n ≠ root)
    (h : ∀ p ∈ preds n, ∀ path k, Way order preds root path p k → a ∈ path) :
    OnEveryWay order preds root a n := by
  intro path k hway
  cases hway with
  | start => exact absurd rfl hne
  | step hway hp _ => exact List.mem_cons_of_mem _ (h _ hp _ _ hway)

end Ways

/-! ## What a visit keeps

A visit gives a node a new parent, the place where the lines of its predecessors meet. Lines of
earlier nodes do not change; others change only below the node. -/

/-- The tree has the node, and whatever is above it is on the given way. -/
def Settled (parents : List (α × α)) (n : α) (path : List α) : Prop :=
  InTree parents n ∧ ∀ a, Above parents a n → a ∈ path

/-- The tree in pass `i` when the nodes before place `j` of the order have been visited. -/
structure Reached (order : List α) (preds : α → List α) (root : α) (i j : Nat)
    (parents : List (α × α)) :
    Prop where
  tree : IsTree order root parents
  /-- No dominator is lost on the way up. -/
  keeps : ∀ {n p}, Assoc.find? n parents = some p → n ≠ root →
    ∀ d, OnEveryWay order preds root d n → d ≠ n → OnEveryWay order preds root d p
  visited : ∀ {path n k}, Way order preds root path n k → order.idxOf n < j → k < i →
    Settled parents n path
  waiting : ∀ {path n k}, Way order preds root path n k → k + 1 < i → Settled parents n path

/-- The tree holds all nodes, and above them are only their dominators. -/
def Exact (order : List α) (preds : α → List α) (root : α) (parents : List (α × α)) : Prop :=
  ∀ n ∈ order, InTree parents n ∧ ∀ a, Above parents a n → OnEveryWay order preds root a n

/-- The tree `next` is `parents` with the parent of `n` changed to `c`. -/
def Moved (parents next : List (α × α)) (n c : α) : Prop :=
  ∀ m, Assoc.find? m next = if n = m then some c else Assoc.find? m parents

section Visiting

variable {order : List α} {preds : α → List α} {root : α} {i j : Nat} {parents next : List (α × α)}

/-- The dominators of a node are above it. -/
theorem Reached.above_of_onEveryWay (h : Reached order preds root i j parents) {d n : α}
    (hin : InTree parents n) (hd : OnEveryWay order preds root d n) : Above parents d n := by
  induction hi : order.idxOf n using Nat.strongRecOn generalizing n with
  | _ m ih =>
    by_cases hdn : d = n
    · rw [hdn]
      exact .here
    by_cases hroot : n = root
    · have hmem := hd [root] 0 (hroot ▸ .start)
      rw [List.mem_singleton.1 hmem, hroot]
      exact .here
    · obtain ⟨p, hp⟩ := hin
      obtain ⟨hpin, hlt⟩ := h.tree.parent hp hroot
      exact .up hp (ih (order.idxOf p) (by omega) hpin (h.keeps hp hroot d hd hdn) rfl)

/-- A dominator of a node dominates what lies between them in the tree. -/
theorem Reached.onEveryWay_of_between (h : Reached order preds root i j parents) {d c n : α}
    (hd : OnEveryWay order preds root d n) (hcn : Above parents c n) (hdc : Above parents d c) :
    OnEveryWay order preds root d c := by
  induction hcn with
  | here => exact hd
  | @up n p hp hcp ih =>
    by_cases hdn : d = n
    · -- then `c` is above and below `d`
      subst hdn
      have hcd : c = d := Above.antisymm h.tree (.up hp hcp) hdc
      rw [hcd]
      exact hd
    by_cases hroot : n = root
    · have hpn : p = n := by
        rw [hroot, h.tree.own] at hp
        rw [hroot, Option.some.inj hp]
      exact ih (hpn ▸ hd)
    · exact ih (h.keeps hp hroot d hd hdn)

/-- **What a visit finds.** In its turn, a node gets a parent that has above it just what all
predecessors in the tree have above them, and that is earlier in the order. -/
theorem Reached.exists_visit (h : Reached order preds root i j parents)
    (hn : Numbering order preds root) (hi : 1 ≤ i) {n : α} (hnj : order.idxOf n = j)
    (hmem : n ∈ order) (hroot : n ≠ root) :
    ∃ c, visit? order preds parents n = some (some c) ∧ InTree parents c ∧
      order.idxOf c < order.idxOf n ∧
      (∃ p ∈ preds n, InTree parents p ∧ Above parents c p) ∧
      ∀ x, Above parents x c ↔ ∀ p ∈ preds n, InTree parents p → Above parents x p := by
  -- a predecessor that is earlier in the order was visited in this pass
  obtain ⟨e, he, hemem, helt⟩ := hn.earlier n hmem hroot
  obtain ⟨path, hway⟩ := Way.exists_zero hn e hemem
  have hein : InTree parents e := (h.visited hway (by omega) (by omega)).1
  have hknown : ∀ p, p ∈ (preds n).filter (fun p => (Assoc.find? p parents).isSome) ↔
      p ∈ preds n ∧ InTree parents p := by
    intro p
    rw [List.mem_filter, Option.isSome_iff_exists, InTree]
  rw [visit?]
  cases hfilter : (preds n).filter (fun p => (Assoc.find? p parents).isSome) with
  | nil =>
    have hin := (hknown e).2 ⟨he, hein⟩
    rw [hfilter] at hin
    exact absurd hin List.not_mem_nil
  | cons first rest =>
    rw [hfilter] at hknown
    obtain ⟨c, hc, hcin, hcx⟩ :=
      exists_meetAll h.tree hn.idxOf_root ((hknown first).1 List.mem_cons_self).2 rest
      fun p hp => ((hknown p).1 (List.mem_cons_of_mem _ hp)).2
    have hcx' : ∀ x, Above parents x c ↔ ∀ p ∈ preds n, InTree parents p → Above parents x p := by
      intro x
      rw [hcx x]
      exact ⟨fun hx p hp hin => hx p ((hknown p).2 ⟨hp, hin⟩),
        fun hx p hp => hx p ((hknown p).1 hp).1 ((hknown p).1 hp).2⟩
    have hce : Above parents c e := (hcx' c).1 .here e he hein
    refine ⟨c, by simp only [hc, Option.map_some], hcin, ?_, ⟨e, he, hein, hce⟩, hcx'⟩
    rcases hce.eq_or_lt h.tree with rfl | hlt
    · exact helt
    · omega

section Moving

variable {n c : α} (ht : IsTree order root parents) (hmoved : Moved parents next n c)

include ht hmoved

/-- Above a node that is earlier than the one that moves, nothing changes. -/
theorem Moved.above_iff_of_lt {a m : α} (hm : order.idxOf m < order.idxOf n) :
    Above next a m ↔ Above parents a m := by
  constructor
  · intro h
    induction h with
    | here => exact .here
    | @up m p hp _ ih =>
      have hne : n ≠ m := by
        rintro rfl
        omega
      rw [hmoved, if_neg hne] at hp
      rcases ht.parent_eq_or_lt hp with rfl | hlt
      · exact ih hm
      · exact .up hp (ih (by omega))
  · intro h
    induction h with
    | here => exact .here
    | @up m p hp _ ih =>
      have hne : n ≠ m := by
        rintro rfl
        omega
      refine .up (by rw [hmoved, if_neg hne]; exact hp) ?_
      rcases ht.parent_eq_or_lt hp with rfl | hlt
      · exact ih hm
      · exact ih (by omega)

/-- Above the node that moved are the node and what is above its new parent. -/
theorem Moved.above_self_iff {a : α} (hc : order.idxOf c < order.idxOf n) :
    Above next a n ↔ a = n ∨ Above parents a c := by
  have hn : Assoc.find? n next = some c := by rw [hmoved, if_pos rfl]
  rw [above_iff hn, hmoved.above_iff_of_lt ht hc]

/-- Above any other node is what was above it, unless the node that moved is in between. -/
theorem Moved.above_cases {a m : α} (hc : order.idxOf c < order.idxOf n) (h : Above next a m) :
    Above parents a m ∨ Above parents n m ∧ Above parents a c := by
  induction h with
  | here => exact .inl .here
  | @up m p hp hap ih =>
    by_cases hm : n = m
    · subst hm
      rw [hmoved, if_pos rfl] at hp
      rw [← Option.some.inj hp] at hap
      exact .inr ⟨.here, (hmoved.above_iff_of_lt ht hc).1 hap⟩
    · rw [hmoved, if_neg hm] at hp
      rcases ih with ih | ⟨ih, ih'⟩
      · exact .inl (.up hp ih)
      · exact .inr ⟨.up hp ih, ih'⟩

end Moving

/-- A node that has a parent keeps having one. -/
theorem Moved.inTree {n c m : α} (hmoved : Moved parents next n c) (h : InTree parents m) :
    InTree next m := by
  obtain ⟨p, hp⟩ := h
  by_cases hm : n = m
  · exact ⟨c, by rw [hmoved, if_pos hm]⟩
  · exact ⟨p, by rw [hmoved, if_neg hm, hp]⟩

/-- The tree with the new parent is a tree, if the parent stands before the node. -/
theorem Moved.isTree {n c : α} (hmoved : Moved parents next n c) (ht : IsTree order root parents)
    (hroot : n ≠ root) (hmem : n ∈ order) (hcin : InTree parents c)
    (hc : order.idxOf c < order.idxOf n) : IsTree order root next where
  own := by rw [hmoved, if_neg hroot, ht.own]
  parent {m p} hp hm := by
    rw [hmoved] at hp
    split at hp
    · next heq =>
      subst heq
      rw [← Option.some.inj hp]
      exact ⟨hmoved.inTree hcin, hc⟩
    · obtain ⟨hin, hlt⟩ := ht.parent hp hm
      exact ⟨hmoved.inTree hin, hlt⟩
  listed {m} hm := by
    obtain ⟨p, hp⟩ := hm
    rw [hmoved] at hp
    split at hp
    · next heq => exact heq ▸ hmem
    · exact ht.listed ⟨p, hp⟩

/-- **A visit keeps the invariant**, with the node now among those visited. -/
theorem Reached.visit (h : Reached order preds root i j parents)
    (hn : Numbering order preds root) {n c : α} (hnj : order.idxOf n = j) (hmem : n ∈ order)
    (hroot : n ≠ root) (hcin : InTree parents c) (hc : order.idxOf c < order.idxOf n)
    (hpred : ∃ p ∈ preds n, InTree parents p ∧ Above parents c p)
    (hx : ∀ x, Above parents x c ↔ ∀ p ∈ preds n, InTree parents p → Above parents x p)
    (hmoved : Moved parents next n c) : Reached order preds root i (j + 1) next := by
  -- whatever is above the new parent is on every way to the node with few retreats
  have hsettled : ∀ {path k}, Way order preds root path n k → k < i → ∀ a, Above parents a c →
      a ∈ path := by
    intro path k hway hk a ha
    cases hway with
    | start => exact absurd rfl hroot
    | @step path p _ k hway hp _ =>
      refine List.mem_cons_of_mem _ ?_
      by_cases hle : order.idxOf n ≤ order.idxOf p
      · rw [if_pos hle] at hk
        obtain ⟨hin, habove⟩ := h.waiting hway hk
        exact habove a ((hx a).1 ha p hp hin)
      · rw [if_neg hle] at hk
        obtain ⟨hin, habove⟩ := h.visited hway (by omega) hk
        exact habove a ((hx a).1 ha p hp hin)
  have hself : ∀ {path k}, Way order preds root path n k → k < i → Settled next n path := by
    intro path k hway hk
    refine ⟨⟨c, by rw [hmoved, if_pos rfl]⟩, fun a ha => ?_⟩
    rcases (hmoved.above_self_iff h.tree hc).1 ha with rfl | ha
    · exact hway.mem_path
    · exact hsettled hway hk a ha
  -- a node below the moved one is later, so it still waits for its visit
  have hother : ∀ {path m k}, Way order preds root path m k → Settled parents m path →
      (Above parents n m → m ≠ n → k < i) → m ≠ n → Settled next m path := by
    intro path m k hway hset hk hmn
    refine ⟨hmoved.inTree hset.1, fun a ha => ?_⟩
    rcases hmoved.above_cases h.tree hc ha with ha | ⟨hnm, ha⟩
    · exact hset.2 a ha
    · obtain ⟨path', k', hway', hsuffix, hle⟩ := hway.exists_suffix (hset.2 n hnm)
      have hlt := hk hnm hmn
      exact hsuffix.subset (hsettled hway' (by omega) a ha)
  refine ⟨hmoved.isTree h.tree hroot hmem hcin hc, ?_, ?_, ?_⟩
  · intro m p hp hm d hd hdm
    rw [hmoved] at hp
    split at hp
    · next heq =>
      subst heq
      rw [← Option.some.inj hp]
      obtain ⟨e, he, hein, hce⟩ := hpred
      have hdom : ∀ q ∈ preds n, InTree parents q → Above parents d q := fun q hq hin =>
        h.above_of_onEveryWay hin (hd.pred hdm hq hmem)
      exact h.onEveryWay_of_between (hd.pred hdm he hmem) hce ((hx d).2 hdom)
    · exact h.keeps hp hm d hd hdm
  · intro path m k hway hlt hk
    by_cases hmn : m = n
    · subst hmn
      exact hself hway hk
    · have hne : order.idxOf m ≠ order.idxOf n :=
        fun heq => hmn ((List.idxOf_inj (hway.mem_order hn)).1 heq)
      exact hother hway (h.visited hway (by omega) hk) (fun _ _ => hk) hmn
  · intro path m k hway hk
    by_cases hmn : m = n
    · subst hmn
      exact hself hway (by omega)
    · exact hother hway (h.waiting hway hk) (fun _ _ => by omega) hmn

/-- An exact tree gives a node the parent that it has. -/
theorem Reached.find?_eq_of_exact (h : Reached order preds root i j parents)
    (hn : Numbering order preds root) (hexact : Exact order preds root parents) {n c : α}
    (hmem : n ∈ order) (hroot : n ≠ root) (hc : order.idxOf c < order.idxOf n)
    (hx : ∀ x, Above parents x c ↔ ∀ p ∈ preds n, InTree parents p → Above parents x p) :
    Assoc.find? n parents = some c := by
  obtain ⟨⟨q, hq⟩, habove⟩ := hexact n hmem
  have hqlt := (h.tree.parent hq hroot).2
  -- the old parent dominates the predecessors, so it is above the new one
  have hqc : Above parents q c := by
    refine (hx q).2 fun p hp hin => h.above_of_onEveryWay hin ?_
    refine (habove q (.up hq .here)).pred ?_ hp hmem
    rintro rfl
    omega
  -- the new parent dominates the predecessors, so it dominates the node and is above the old one
  have hcq : Above parents c q := by
    have hdom : OnEveryWay order preds root c n := by
      refine onEveryWay_of_preds hroot fun p hp path k hway => ?_
      obtain ⟨hin, hp'⟩ := hexact p (hway.mem_order hn)
      exact hp' c ((hx c).1 .here p hp hin) path k hway
    rcases (above_iff hq).1 (h.above_of_onEveryWay ⟨q, hq⟩ hdom) with rfl | hcq
    · omega
    · exact hcq
  rw [hq, Above.antisymm h.tree hqc hcq]

end Visiting

/-! ## Passes

A pass visits all nodes in order, so the count of retreats for which the tree is right grows by
one. That ends either with an exact tree or earlier, with a pass that changes nothing. -/

section Passing

variable {order : List α} {preds : α → List α} {root : α}

/-- A pass over the rest of the order completes the pass, and an exact tree stays as it is. -/
theorem Reached.exists_pass (hn : Numbering order preds root) {i : Nat} (hi : 1 ≤ i) (rest : List α)
    {done : List α} (horder : done ++ rest = order) (hdone : done ≠ []) {parents : List (α × α)}
    (h : Reached order preds root i done.length parents) :
    ∃ next changed, pass? order preds rest parents = some (next, changed) ∧
      Reached order preds root i order.length next ∧ (changed = false → next = parents) ∧
      (Exact order preds root parents → changed = false) := by
  -- `done` are the nodes visited so far; what is known of the tree counts them
  induction rest generalizing done parents with
  | nil =>
    rw [List.append_nil] at horder
    rw [← horder]
    rw [← horder] at h
    exact ⟨parents, false, rfl, h, fun _ => rfl, fun _ => rfl⟩
  | cons n rest ih =>
    have hnotin : n ∉ done := by
      have hnodup := hn.nodup
      rw [← horder] at hnodup
      exact fun hin => (List.nodup_append.1 hnodup).2.2 n hin n List.mem_cons_self rfl
    have hmem : n ∈ order := by
      rw [← horder]
      exact List.mem_append_right _ List.mem_cons_self
    have hidx : order.idxOf n = done.length := by
      rw [← horder, List.idxOf_append_of_notMem hnotin, List.idxOf_cons_self, Nat.add_zero]
    have hroot : n ≠ root := by
      rintro rfl
      have hzero := hn.idxOf_root
      exact hdone (List.eq_nil_of_length_eq_zero (by omega))
    obtain ⟨c, hvisit, hcin, hlt, hpred, hx⟩ := h.exists_visit hn hi hidx hmem hroot
    have hstep : ∀ {next}, Moved parents next n c →
        Reached order preds root i (done ++ [n]).length next := by
      intro next hmoved
      rw [List.length_append]
      exact h.visit hn hidx hmem hroot hcin hlt hpred hx hmoved
    have horder' : (done ++ [n]) ++ rest = order := by
      rw [← horder, List.append_assoc, List.singleton_append]
    have hne : done ++ [n] ≠ [] := by simp
    rw [pass?, hvisit]
    by_cases hsame : Assoc.find? n parents = some c
    · -- the visit changes nothing, which is a move to the parent that is there
      have hmoved : Moved parents parents n c := by
        intro m
        split
        · next heq => rw [← heq, hsame]
        · rfl
      obtain ⟨next, changed, hpass, hreached⟩ := ih horder' hne (hstep hmoved)
      refine ⟨next, changed, ?_, hreached⟩
      simp only [if_pos hsame, hpass]
    · have hmoved : Moved parents (Assoc.put n c parents) n c :=
        fun m => Assoc.find?_put n m c parents
      obtain ⟨next, changed, hpass, hreached, -, -⟩ := ih horder' hne (hstep hmoved)
      refine ⟨next, true, ?_, hreached, fun hfalse => Bool.noConfusion hfalse, fun hexact => ?_⟩
      · simp only [if_neg hsame, hpass, Option.map_some]
      · exact absurd (h.find?_eq_of_exact hn hexact hmem hroot hlt hx) hsame

/-- **A whole pass** takes the invariant from one pass to the next. -/
theorem Reached.exists_next (hn : Numbering order preds root) {i : Nat} {parents : List (α × α)}
    (h : Reached order preds root i order.length parents) :
    ∃ next changed, pass? order preds order.tail parents = some (next, changed) ∧
      Reached order preds root (i + 1) order.length next ∧ (changed = false → next = parents) ∧
      (Exact order preds root parents → changed = false) := by
  have horder : [root] ++ order.tail = order := by
    have hhead := hn.head
    cases order with
    | nil => cases hhead
    | cons r rest => rw [Option.some.inj hhead, List.tail_cons, List.singleton_append]
  refine Reached.exists_pass hn (Nat.le_add_left 1 i) order.tail horder
    (List.cons_ne_nil root []) ?_
  refine ⟨h.tree, h.keeps, fun {path n k} hway hlt hk => ?_, fun {path n k} hway hk => ?_⟩
  · -- only the root counts as visited at the start of a pass
    have hlt1 : order.idxOf n < 1 := hlt
    have hidx : order.idxOf n = order.idxOf root := by
      rw [hn.idxOf_root]
      omega
    have hnroot : n = root := (List.idxOf_inj (hway.mem_order hn)).1 hidx
    subst hnroot
    refine ⟨⟨n, h.tree.own⟩, fun a ha => ?_⟩
    rw [eq_of_above_root h.tree ha hn.idxOf_root]
    exact hway.mem_path
  · exact h.visited hway (List.idxOf_lt_length_of_mem (hway.mem_order hn)) (by omega)

/-- After as many passes as there are nodes the tree is exact. -/
theorem Reached.exact (hn : Numbering order preds root) {i : Nat} {parents : List (α × α)}
    (h : Reached order preds root i order.length parents) (hi : order.length ≤ i) :
    Exact order preds root parents := by
  intro n hmem
  have hlt := List.idxOf_lt_length_of_mem hmem
  obtain ⟨path, hway⟩ := Way.exists_zero hn n hmem
  refine ⟨(h.visited hway hlt (by omega)).1, fun a ha path' k hway' => ?_⟩
  obtain ⟨path'', k', hway'', hk', hsub⟩ := hway'.exists_lt_length hn
  exact hsub a ((h.visited hway'' hlt (by omega)).2 a ha)

/-- A tree that passes unchanged is exact: further passes leave it as it is, and there may be any
number of them. -/
theorem Reached.exact_of_unchanged (hn : Numbering order preds root) {i : Nat}
    {parents : List (α × α)} (h : Reached order preds root i order.length parents)
    (hpass : pass? order preds order.tail parents = some (parents, false)) :
    Exact order preds root parents := by
  have hall : ∀ more, Reached order preds root (i + more) order.length parents := by
    intro more
    induction more with
    | zero => exact h
    | succ more ih =>
      obtain ⟨next, changed, hpass', hnext, -⟩ := ih.exists_next hn
      rw [hpass] at hpass'
      obtain ⟨hnextEq, -⟩ := Prod.mk.inj (Option.some.inj hpass')
      rw [hnextEq]
      exact hnext
  exact (hall order.length).exact hn (Nat.le_add_left _ _)

/-- **The passes come to an end** within the bound, and with an exact tree. -/
theorem Reached.exists_settle (hn : Numbering order preds root) {i : Nat} {parents : List (α × α)}
    (h : Reached order preds root i order.length parents) (passes : Nat) (hi : i ≤ order.length)
    (hpasses : i + passes = order.length + 1) :
    ∃ last, settle? order preds passes parents = some last ∧ Exact order preds root last ∧
      ∃ k, Reached order preds root k order.length last := by
  induction passes generalizing i parents with
  | zero => omega
  | succ passes ih =>
    obtain ⟨next, changed, hpass, hnext, hsame, hexact⟩ := h.exists_next hn
    rw [settle?, hpass]
    cases changed with
    | false =>
      have heq := hsame rfl
      subst heq
      exact ⟨next, rfl, h.exact_of_unchanged hn hpass, i + 1, hnext⟩
    | true =>
      have hlt : i < order.length := by
        rcases Nat.lt_or_ge i order.length with hlt | hge
        · exact hlt
        · exact Bool.noConfusion (hexact (h.exact hn hge))
      simpa using ih hnext hlt (by omega)

end Passing

/-! ## The tree in the end

What the callers need: the nodes above a node in the final tree are those on every way to it, and
`climb` lists them. -/

section Last

variable {order : List α} {preds : α → List α} {root : α}

/-- The tree that the passes start from. -/
theorem reached_start (hn : Numbering order preds root) :
    Reached order preds root 0 order.length [(root, root)] := by
  have hfind : ∀ {n p}, Assoc.find? n [(root, root)] = some p → n = root := by
    intro n p hp
    by_contra hne
    rw [Assoc.find?, if_neg (Ne.symm hne), Assoc.find?] at hp
    cases hp
  refine ⟨⟨?_, fun hp hne => absurd (hfind hp) hne, ?_⟩, fun hp hne => absurd (hfind hp) hne, ?_,
    ?_⟩
  · rw [Assoc.find?, if_pos rfl]
  · rintro n ⟨p, hp⟩
    rw [hfind hp]
    exact hn.root_mem
  · intro path n k _ _ hk
    omega
  · intro path n k _ hk
    omega

/-- Climbing lists what is above a node. -/
theorem exists_climb {parents : List (α × α)} (ht : IsTree order root parents)
    (hroot : order.idxOf root = 0) {n : α} (hin : InTree parents n) (steps : Nat)
    (hsteps : order.idxOf n < steps) :
    ∃ line, climb parents steps n = some line ∧ ∀ a, a ∈ line ↔ Above parents a n := by
  induction steps generalizing n with
  | zero => omega
  | succ steps ih =>
    obtain ⟨p, hp⟩ := hin
    rw [climb, hp]
    by_cases hn : n = root
    · subst hn
      rw [ht.own] at hp
      obtain rfl := Option.some.inj hp
      refine ⟨[n], if_pos rfl, fun a => ?_⟩
      rw [List.mem_singleton]
      exact ⟨fun ha => ha ▸ .here, fun ha => eq_of_above_root ht ha hroot⟩
    · obtain ⟨hpin, hlt⟩ := ht.parent hp hn
      have hne : p ≠ n := by
        rintro rfl
        omega
      obtain ⟨line, hline, hmem⟩ := ih hpin (by omega)
      refine ⟨n :: line, by simp only [if_neg hne, hline, Option.map_some], fun a => ?_⟩
      rw [List.mem_cons, hmem a, above_iff hp]

/-- What a dominance tree says, against the ways from the root. -/
structure Describes (order : List α) (preds : α → List α) (root : α) (t : Dominance α) : Prop where
  tree : IsTree order root t.parents
  nodes : ∀ n, n ∈ t.nodes ↔ n ∈ order
  dominators : ∀ a b, a ∈ t.dominators b ↔ b ∈ order ∧ OnEveryWay order preds root a b
  above : ∀ a b, b ∈ order → (Above t.parents a b ↔ OnEveryWay order preds root a b)

/-- **The iteration gives the dominance tree.** -/
theorem exists_grow (hn : Numbering order preds root) :
    ∃ t, grow? order preds root = some t ∧ Describes order preds root t := by
  obtain ⟨parents, hsettle, hexact, i, hreached⟩ :=
    (reached_start hn).exists_settle hn (order.length + 1) (Nat.zero_le _) (Nat.zero_add _)
  have hkeys : ∀ n, n ∈ parents.map Prod.fst ↔ n ∈ order := by
    intro n
    constructor
    · intro hmem
      obtain ⟨p, hp⟩ :=
        Option.ne_none_iff_exists'.1 fun hnone => Assoc.find?_eq_none_iff.1 hnone hmem
      exact hreached.tree.listed ⟨p, hp⟩
    · intro hmem
      obtain ⟨p, hp⟩ := (hexact n hmem).1
      exact List.mem_map.2 ⟨(n, p), Assoc.mem_of_find?_eq_some hp, rfl⟩
  have hlength : order.length ≤ parents.length := by
    have hle := (hn.nodup.subperm fun n hmem => (hkeys n).2 hmem).length_le
    rwa [List.length_map] at hle
  have habove : ∀ a b, b ∈ order → (Above parents a b ↔ OnEveryWay order preds root a b) :=
    fun a b hb => ⟨(hexact b hb).2 a, hreached.above_of_onEveryWay (hexact b hb).1⟩
  have hclimb : ∀ n ∈ order, ∃ line, climb parents parents.length n = some line ∧
      ∀ a, a ∈ line ↔ Above parents a n := fun n hmem =>
    exists_climb hreached.tree hn.idxOf_root (hexact n hmem).1 parents.length
      (Nat.lt_of_lt_of_le (List.idxOf_lt_length_of_mem hmem) hlength)
  have hrooted : ∀ e ∈ parents, (climb parents parents.length e.1).isSome := by
    intro e he
    obtain ⟨line, hline, -⟩ := hclimb e.1 ((hkeys e.1).1 (List.mem_map_of_mem he))
    rw [hline]
    rfl
  refine ⟨⟨parents, hrooted⟩, ?_, hreached.tree, hkeys, fun a b => ?_, habove⟩
  · rw [grow?, hsettle]
    exact dif_pos hrooted
  · by_cases hb : b ∈ order
    · obtain ⟨line, hline, hmem⟩ := hclimb b hb
      rw [Dominance.dominators, hline, Option.getD_some, hmem a, habove a b hb, and_iff_right hb]
    · -- a node outside the tree has no line
      have hnone : climb parents parents.length b = none := by
        cases hlen : parents.length with
        | zero => rfl
        | succ steps => rw [climb, Assoc.find?_eq_none_iff.2 fun hmem => hb ((hkeys b).1 hmem)]
      rw [Dominance.dominators, hnone, Option.getD_none]
      exact ⟨fun h => absurd h List.not_mem_nil, fun h => absurd h.1 hb⟩

/-- Two nodes that dominate each other are the same. -/
theorem Describes.onEveryWay_antisymm {t : Dominance α} (h : Describes order preds root t) {a b : α}
    (ha : a ∈ order) (hb : b ∈ order) (hab : OnEveryWay order preds root a b)
    (hba : OnEveryWay order preds root b a) : a = b :=
  Above.antisymm h.tree ((h.above a b hb).2 hab) ((h.above b a ha).2 hba)

/-- **The nearest dominator.** A node other than the root has a strict dominator that all others
dominate. -/
theorem Describes.exists_immediate {t : Dominance α} (h : Describes order preds root t) {b : α}
    (hb : b ∈ order) (hroot : b ≠ root) :
    ∃ d ∈ order, t.immediate? b = some d ∧ d ≠ b ∧ OnEveryWay order preds root d b ∧
      ∀ a, a ≠ b → OnEveryWay order preds root a b → OnEveryWay order preds root a d := by
  obtain ⟨p, hp⟩ := Option.ne_none_iff_exists'.1 fun hnone =>
    Assoc.find?_eq_none_iff.1 hnone ((h.nodes b).2 hb)
  obtain ⟨hpin, hlt⟩ := h.tree.parent hp hroot
  have hpmem := h.tree.listed hpin
  have hne : p ≠ b := by
    rintro rfl
    omega
  refine ⟨p, hpmem, ?_, hne, (h.above p b hb).1 (.up hp .here), fun a hab ha => ?_⟩
  · rw [Dominance.immediate?, hp]
    exact if_neg hne
  · -- above the node, and not the node itself, is above its parent
    exact (h.above a p hpmem).1 (((above_iff hp).1 ((h.above a b hb).2 ha)).resolve_left hab)

end Last

end ConstantTime.Dominance
