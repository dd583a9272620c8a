/-
Joins of taints, in any grouping.

A join looks through the joined taints twice, first for a chain at the highest label and then for
any chain. On arbitrary taints it matters how they are grouped: a public taint with a chain can
hand it to an unknown one, which then holds it against the chain of a later unknown taint. Coherent
taints leave the second look nothing to find, and their join is a choice: it is the first of them
that has the highest rank. Such a choice can be made in groups and among the chosen ones, and it
can be made twice.

Main statement: joins of lists may be split anywhere, joins are associative and idempotent, and a
taint improves on another just if joining it changes the label or whether there is a chain.
-/
import ConstantTime.Proofs.Rank

set_option autoImplicit false

namespace ConstantTime

namespace Taint

variable {t : Taint} {ts : List Taint}

/-! ## Chains

How the first look for a chain meets a list that grows in front. For coherent taints of equal rank
it stops at the first one. -/

/-- A taint without chain is passed over. -/
theorem firstChain_cons_of_chain_eq_nil (ht : t.chain = []) :
    firstChain (t :: ts) = firstChain ts := by
  simp [firstChain, hasOrigin, ht]

/-- One with a chain ends the look. -/
theorem firstChain_cons_of_chain_ne_nil (ht : t.chain ≠ []) :
    firstChain (t :: ts) = some t.chain := by
  simp [firstChain, hasOrigin, ht]

theorem label_eq_of_rank_eq {a b : Taint} (h : a.rank = b.rank) : a.label = b.label := by
  rw [← label_rank a, ← label_rank b, h]

/-- A taint is told by its rank and its chain. -/
theorem eq_of_rank_eq {a b : Taint} (hrank : a.rank = b.rank) (hchain : a.chain = b.chain) :
    a = b := by
  have hlabel := label_eq_of_rank_eq hrank
  cases a
  cases b
  simp_all

/-- Only the label and whether there is a chain count for the rank. -/
theorem rank_congr {a b : Taint} (hlabel : a.label = b.label)
    (hchain : a.chain = [] ↔ b.chain = []) :
    a.rank = b.rank := by
  simp only [rank, hlabel, hchain]

/-- Among coherent taints of which one is secret, the first look finds a chain. -/
theorem exists_firstChain_secret (hts : ∀ x ∈ ts, x.Coherent) (h : highest ts = .secret) :
    ∃ c, firstChain (ts.filter fun t => decide (t.label = .secret)) = some c := by
  obtain ⟨x, hx, hle⟩ := (le_highest_iff (l := .secret) nofun).1 (Label.secret_le_iff.2 h)
  have hsecret := Label.secret_le_iff.1 hle
  apply Option.ne_none_iff_exists'.1
  intro hnone
  have hmem : x ∈ ts.filter fun t => decide (t.label = .secret) :=
    List.mem_filter.2 ⟨hx, decide_eq_true hsecret⟩
  exact (hts x hx).secret hsecret (firstChain_eq_none_iff.1 hnone x hmem)

/-! ## A join is a choice

The two cases of adding a taint in front: it ranks as high as the rest, or lower. In the first case
it is chosen, and in the second it leaves no trace. -/

/-- A taint in front that ranks at least as high as the others is their join. -/
theorem joinAll_cons_of_le (ht : t.Coherent) (hts : ∀ x ∈ ts, x.Coherent)
    (hle : (joinAll ts).rank ≤ t.rank) :
    joinAll (t :: ts) = t := by
  have hall : ∀ x ∈ t :: ts, x.Coherent := List.forall_mem_cons.2 ⟨ht, hts⟩
  have hrank : (joinAll (t :: ts)).rank = t.rank := by
    rw [rank_joinAll hts] at hle
    rw [rank_joinAll hall, List.map_cons, Rank.joinAll_cons, max_eq_left hle]
  refine eq_of_rank_eq hrank ?_
  by_cases hchain : t.chain = []
  · -- no chain among the others either, for it would show in their rank
    by_contra hne
    rw [hchain] at hne
    have htraced := (traced_le_rank_iff (coherent_joinAll hall)).2 hne
    rw [hrank] at htraced
    exact (traced_le_rank_iff ht).1 htraced hchain
  · -- the chain in front is the first one at the highest label
    have hlabel : highest (t :: ts) = t.label := label_eq_of_rank_eq hrank
    rw [joinAll, hlabel, List.filter_cons_of_pos (by simp), firstChain_cons_of_chain_ne_nil hchain]
    rfl

/-- A taint in front that ranks below the join of the others changes nothing. -/
theorem joinAll_cons_of_lt (ht : t.Coherent) (hts : ∀ x ∈ ts, x.Coherent)
    (hlt : t.rank < (joinAll ts).rank) :
    joinAll (t :: ts) = joinAll ts := by
  have hall : ∀ x ∈ t :: ts, x.Coherent := List.forall_mem_cons.2 ⟨ht, hts⟩
  have hrank : (joinAll (t :: ts)).rank = (joinAll ts).rank := by
    rw [rank_joinAll hts] at hlt
    rw [rank_joinAll hall, rank_joinAll hts, List.map_cons, Rank.joinAll_cons,
      max_eq_right (le_of_lt hlt)]
  have hlabel : highest (t :: ts) = highest ts := label_eq_of_rank_eq hrank
  refine eq_of_rank_eq hrank ?_
  by_cases hchain : t.chain = []
  · -- both looks pass over a taint without a chain
    rw [joinAll, joinAll, hlabel, firstChain_cons_of_chain_eq_nil hchain, List.filter_cons]
    split
    · rw [firstChain_cons_of_chain_eq_nil hchain]
    · rfl
  · -- above a taint with a chain there are only the secret ones, and these have chains themselves
    have hsecret : highest ts = .secret := by
      have htraced := (traced_le_rank_iff ht).2 hchain
      have habove : Rank.traced < (joinAll ts).rank := lt_of_le_of_lt htraced hlt
      have hrank : (joinAll ts).rank = .secret := by
        revert habove
        cases (joinAll ts).rank <;> decide
      exact rank_eq_secret_iff.1 hrank
    have hnot : ¬ t.label = .secret := by
      intro hlabel
      rw [rank_eq_secret_iff.2 hlabel] at hlt
      exact not_lt.2 (Rank.le_secret _) hlt
    obtain ⟨c, hc⟩ := exists_firstChain_secret hts hsecret
    rw [joinAll, joinAll, hlabel, hsecret, List.filter_cons_of_neg (by simpa using hnot), hc]
    rfl

/-- **The join of coherent taints is the first one of the highest rank**, here between the taint in
front and the others. -/
theorem joinAll_cons_eq_ite (ht : t.Coherent) (hts : ∀ x ∈ ts, x.Coherent) :
    joinAll (t :: ts) = if (joinAll ts).rank ≤ t.rank then t else joinAll ts := by
  split
  · next hle => exact joinAll_cons_of_le ht hts hle
  · next hlt => exact joinAll_cons_of_lt ht hts (not_le.1 hlt)

theorem joinAll_singleton (ht : t.Coherent) : joinAll [t] = t :=
  joinAll_cons_of_le ht (fun _ hx => absurd hx List.not_mem_nil) (Rank.pub_le t.rank)

variable {a b c : Taint}

/-- The join of two taints is one of them, the second only if it ranks higher. -/
theorem join_eq_ite (ha : a.Coherent) (hb : b.Coherent) :
    a.join b = if b.rank ≤ a.rank then a else b := by
  rw [join, joinAll_cons_eq_ite ha (List.forall_mem_singleton.2 hb), joinAll_singleton hb]

theorem join_of_le (ha : a.Coherent) (hb : b.Coherent) (h : b.rank ≤ a.rank) : a.join b = a := by
  rw [join_eq_ite ha hb, if_pos h]

theorem join_of_lt (ha : a.Coherent) (hb : b.Coherent) (h : a.rank < b.rank) : a.join b = b := by
  rw [join_eq_ite ha hb, if_neg (not_le.2 h)]

/-- The join of a list, one taint at a time. -/
theorem joinAll_cons (ht : t.Coherent) (hts : ∀ x ∈ ts, x.Coherent) :
    joinAll (t :: ts) = t.join (joinAll ts) := by
  rw [joinAll_cons_eq_ite ht hts, join_eq_ite ht (coherent_joinAll hts)]

/-! ## The laws

They follow from the choice by comparing ranks. -/

theorem pub_join (ha : a.Coherent) : pub.join a = a := by
  by_cases hpub : a.rank ≤ .pub
  · have hlabel := rank_eq_pub_iff.1 (le_antisymm hpub (Rank.pub_le _))
    have heq : pub = a := eq_of_rank_eq (le_antisymm (Rank.pub_le _) hpub) (ha.pub hlabel).symm
    rw [join_of_le coherent_pub ha hpub, heq]
  · exact join_of_lt coherent_pub ha (not_le.1 hpub)

theorem join_pub (ha : a.Coherent) : a.join pub = a := join_of_le ha coherent_pub (Rank.pub_le _)

/-- Joins may be grouped in any way. -/
theorem join_assoc (ha : a.Coherent) (hb : b.Coherent) (hc : c.Coherent) :
    (a.join b).join c = a.join (b.join c) := by
  by_cases hba : b.rank ≤ a.rank
  · rw [join_of_le ha hb hba]
    by_cases hcb : c.rank ≤ b.rank
    · rw [join_of_le hb hc hcb, join_of_le ha hb hba, join_of_le ha hc (le_trans hcb hba)]
    · rw [join_of_lt hb hc (not_le.1 hcb)]
  · rw [join_of_lt ha hb (not_le.1 hba)]
    by_cases hcb : c.rank ≤ b.rank
    · rw [join_of_le hb hc hcb, join_of_lt ha hb (not_le.1 hba)]
    · have hac := lt_trans (not_le.1 hba) (not_le.1 hcb)
      rw [join_of_lt hb hc (not_le.1 hcb), join_of_lt ha hc hac]

/-- Joining a taint with itself changes nothing, coherent or not. -/
theorem join_self (a : Taint) : a.join a = a := by
  have hlabel : highest [a, a] = a.label := by
    rw [highest, highest, highest]
    cases a.label <;> rfl
  have hboth : [a, a].filter (fun t => decide (t.label = a.label)) = [a, a] := by simp
  rw [join, joinAll, hlabel, hboth]
  by_cases hchain : a.chain = []
  · have hnone : firstChain [a, a] = none := firstChain_eq_none_iff.2 (by simp [hchain])
    rw [hnone]
    exact congrArg (Taint.mk a.label) hchain.symm
  · rw [firstChain_cons_of_chain_ne_nil hchain]
    rfl

/-- **A join may be split anywhere.** -/
theorem joinAll_append {xs ys : List Taint} (hxs : ∀ t ∈ xs, t.Coherent)
    (hys : ∀ t ∈ ys, t.Coherent) :
    joinAll (xs ++ ys) = (joinAll xs).join (joinAll ys) := by
  induction xs with
  | nil => exact (pub_join (coherent_joinAll hys)).symm
  | cons x xs ih =>
    obtain ⟨hx, hrest⟩ := List.forall_mem_cons.1 hxs
    have hboth : ∀ t ∈ xs ++ ys, t.Coherent := List.forall_mem_append.2 ⟨hrest, hys⟩
    calc joinAll (x :: xs ++ ys)
        = x.join (joinAll (xs ++ ys)) := joinAll_cons hx hboth
      _ = x.join ((joinAll xs).join (joinAll ys)) := by rw [ih hrest]
      _ = (x.join (joinAll xs)).join (joinAll ys) :=
        (join_assoc hx (coherent_joinAll hrest) (coherent_joinAll hys)).symm
      _ = (joinAll (x :: xs)).join (joinAll ys) := by rw [joinAll_cons hx hrest]

/-- A taint improves on another exactly when joining it shows. -/
theorem improves_iff_join {old new : Taint} (hold : old.Coherent) (hnew : new.Coherent) :
    old.improves new = true ↔
      (old.join new).label ≠ old.label ∨ ¬ ((old.join new).chain = [] ↔ old.chain = []) := by
  rw [improves_iff hold hnew]
  constructor
  · intro hlt
    rw [join_of_lt hold hnew hlt]
    by_cases hlabel : new.label = old.label
    · exact .inr fun hchain => ne_of_gt hlt (rank_congr hlabel hchain)
    · exact .inl hlabel
  · intro hdiffers
    by_contra hnot
    rw [join_of_le hold hnew (not_lt.1 hnot)] at hdiffers
    rcases hdiffers with hlabel | hchain
    · exact hlabel rfl
    · exact hchain Iff.rfl

/-- **Joins of coherent taints may be regrouped**, with their chains: a join of a list may be split
anywhere, joins are associative and idempotent, and a taint improves on another exactly when
joining it changes the label or whether there is a chain. -/
theorem joinAll_append_and_laws :
    (∀ xs ys : List Taint, (∀ t ∈ xs, t.Coherent) → (∀ t ∈ ys, t.Coherent) →
      joinAll (xs ++ ys) = (joinAll xs).join (joinAll ys)) ∧
    (∀ a b c : Taint, a.Coherent → b.Coherent → c.Coherent →
      (a.join b).join c = a.join (b.join c)) ∧
    (∀ a : Taint, a.join a = a) ∧
    ∀ old new : Taint, old.Coherent → new.Coherent →
      (old.improves new = true ↔
        (old.join new).label ≠ old.label ∨ ¬ ((old.join new).chain = [] ↔ old.chain = [])) :=
  ⟨fun _ _ => joinAll_append, fun _ _ _ => join_assoc, join_self, fun _ _ => improves_iff_join⟩

/-- An unknown taint without a chain, one with a chain and a secret one: the later chain is
preferred to none, and the secret one to both. -/
theorem joinAll_append_unknowns :
    joinAll ([unknown, ⟨.unknown, ["a", "b"]⟩] ++ [source "k", ⟨.unknown, ["c"]⟩]) =
        (joinAll [unknown, ⟨.unknown, ["a", "b"]⟩]).join (joinAll [source "k", ⟨.unknown, ["c"]⟩]) ∧
      (unknown.join ⟨.unknown, ["a", "b"]⟩).join (source "k") =
        unknown.join (Taint.join ⟨.unknown, ["a", "b"]⟩ (source "k")) ∧
      (source "k").join (source "k") = source "k" ∧
      ((unknown.join ⟨.unknown, ["a"]⟩).label ≠ unknown.label ∨
        ¬ ((unknown.join ⟨.unknown, ["a"]⟩).chain = [] ↔ unknown.chain = [])) := by
  obtain ⟨happend, hassoc, hself, himproves⟩ := joinAll_append_and_laws
  have hbare : unknown.Coherent := coherent_unknown []
  refine ⟨happend _ _ ?_ ?_, ?_, hself _, ?_⟩
  · exact List.forall_mem_cons.2 ⟨hbare, List.forall_mem_singleton.2 (coherent_unknown _)⟩
  · exact List.forall_mem_cons.2
      ⟨coherent_source "k", List.forall_mem_singleton.2 (coherent_unknown _)⟩
  · exact hassoc _ _ _ hbare (coherent_unknown _) (coherent_source "k")
  · exact (himproves _ _ hbare (coherent_unknown _)).1 rfl

/-- With a public taint that has a chain the grouping shows. -/
example : (unknown.join ⟨.pub, ["p"]⟩).join ⟨.unknown, ["q"]⟩ = ⟨.unknown, ["p"]⟩ ∧
    unknown.join (Taint.join ⟨.pub, ["p"]⟩ ⟨.unknown, ["q"]⟩) = ⟨.unknown, ["q"]⟩ := by decide

end Taint

end ConstantTime
