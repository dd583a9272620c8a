/-
Ranks: how much a taint says, without saying where the secret came from.

A taint counts for its label, and an unknown one also for whether it has a chain: public, unknown,
unknown with a chain, secret. The iteration compares taints by nothing else. Ranks are linearly
ordered and joining taints takes the highest rank, provided that the taints are coherent: a public
one has no chain and a secret one has. Without that the join of an unknown taint without and a
public one with a chain would be above both.
-/
import Mathlib.Order.Lattice
import ConstantTime.Taint.Label

set_option autoImplicit false

namespace ConstantTime

/-! ## The order

Ranks are ordered by their levels. Labels are the coarser view of them: they do not tell whether an
unknown taint has a chain. -/

namespace Label

theorem rank_injective {a b : Label} (h : a.rank = b.rank) : a = b := by
  revert h
  cases a <;> cases b <;> decide

/-- Unknown and above is all but public. -/
theorem unknown_le_iff {l : Label} : .unknown ≤ l ↔ l ≠ .pub := by
  cases l <;> decide

theorem secret_le_iff {l : Label} : .secret ≤ l ↔ l = .secret := by
  cases l <;> decide

end Label

/-- How much a taint says. -/
inductive Rank
  | pub
  | unknown
  /-- Unknown, with a chain. -/
  | traced
  | secret
  deriving DecidableEq

namespace Rank

def level : Rank → Nat
  | .pub => 0
  | .unknown => 1
  | .traced => 2
  | .secret => 3

/-- Ranks with the same level are the same, which is what makes the order linear. -/
theorem level_injective : Function.Injective level := by
  intro a b
  cases a <;> cases b <;> decide

instance : LinearOrder Rank := LinearOrder.lift' level level_injective

theorem level_le_three (r : Rank) : r.level ≤ 3 := by
  cases r <;> decide

@[simp] theorem pub_le (r : Rank) : .pub ≤ r := Nat.zero_le r.level

@[simp] theorem le_secret (r : Rank) : r ≤ .secret := level_le_three r

@[simp] theorem secret_le_iff {r : Rank} : .secret ≤ r ↔ r = .secret := by
  cases r <;> decide

/-- The rank of what is declared. -/
def ofSensitivity : Sensitivity → Rank
  | .pub => .pub
  | .unknown => .unknown
  | .secret => .secret

/-- The label of a rank. -/
def label : Rank → Label
  | .pub => .pub
  | .unknown | .traced => .unknown
  | .secret => .secret

/-- The coarser view keeps the order. -/
theorem label_mono {a b : Rank} (h : a ≤ b) : a.label ≤ b.label := by
  revert h
  cases a <;> cases b <;> decide

/-- It loses nothing about whether a rank is at least unknown. -/
theorem unknown_le_iff {r : Rank} : .unknown ≤ r ↔ .unknown ≤ r.label := by
  cases r <;> decide

/-- Nor about being secret. -/
theorem eq_secret_iff {r : Rank} : r = .secret ↔ r.label = .secret := by
  cases r <;> decide

/-- Nor about being public. -/
theorem eq_pub_iff {r : Rank} : r = .pub ↔ r.label = .pub := by
  cases r <;> decide

/-! ## Joins of lists

The join of a list is its highest rank. It is characterised by what lies above it and by what it
lies above. -/

/-- The highest rank of a list, public for none. -/
def joinAll (rs : List Rank) : Rank := rs.foldr max .pub

@[simp] theorem joinAll_nil : joinAll [] = .pub := rfl

@[simp] theorem joinAll_cons (r : Rank) (rs : List Rank) :
    joinAll (r :: rs) = max r (joinAll rs) := rfl

/-- The join of a list is its least upper bound. -/
theorem joinAll_le_iff {rs : List Rank} {r : Rank} : joinAll rs ≤ r ↔ ∀ x ∈ rs, x ≤ r := by
  induction rs with
  | nil => simp
  | cons x rs ih => simp [ih]

theorem le_joinAll {rs : List Rank} {r : Rank} (h : r ∈ rs) :
    r ≤ joinAll rs := joinAll_le_iff.1 (le_refl _) r h

/-- A rank above public is below a join exactly when it is below one of the joined ranks. -/
theorem le_joinAll_iff {rs : List Rank} {r : Rank} (hr : r ≠ .pub) :
    r ≤ joinAll rs ↔ ∃ x ∈ rs, r ≤ x := by
  induction rs with
  | nil =>
    have hpub : ¬ r ≤ .pub := fun h => hr (le_antisymm h (pub_le r))
    simp [hpub]
  | cons x rs ih => simp [ih]

/-- Lists may be joined in parts. -/
@[simp] theorem joinAll_append (rs rs' : List Rank) :
    joinAll (rs ++ rs') = max (joinAll rs) (joinAll rs') := by
  induction rs with
  | nil => simp
  | cons r rs ih => rw [List.cons_append, joinAll_cons, joinAll_cons, ih, max_assoc]

/-- Two ranks are equal if the same ranks above public are below them. -/
theorem eq_of_le_iff {a b : Rank} (h : ∀ r, r ≠ .pub → (r ≤ a ↔ r ≤ b)) : a = b := by
  refine le_antisymm ?_ ?_
  · by_cases ha : a = .pub
    · rw [ha]
      exact pub_le b
    · exact (h a ha).1 (le_refl a)
  · by_cases hb : b = .pub
    · rw [hb]
      exact pub_le a
    · exact (h b hb).2 (le_refl b)

end Rank

/-! ## The rank of a taint

Coherence is what makes the rank tell the label and whether there is a chain. Every taint that the
analysis makes is coherent. -/

namespace Taint

def rank (t : Taint) : Rank :=
  match t.label with
  | .pub => .pub
  | .unknown => if t.chain = [] then .unknown else .traced
  | .secret => .secret

/-- A public taint has no chain, a secret one has. -/
structure Coherent (t : Taint) : Prop where
  pub : t.label = .pub → t.chain = []
  secret : t.label = .secret → t.chain ≠ []

/-- A public taint has no chain. -/
theorem coherent_pub : Taint.pub.Coherent := ⟨fun _ => rfl, nofun⟩

/-- An unknown one may or may not have one. -/
theorem coherent_unknown (chain : List String) : Coherent ⟨.unknown, chain⟩ := ⟨nofun, nofun⟩

/-- A source is its own chain. -/
theorem coherent_source (v : String) :
    (source v).Coherent := ⟨nofun, fun _ => List.cons_ne_nil v []⟩

@[simp] theorem rank_pub : Taint.pub.rank = .pub := rfl

@[simp] theorem rank_bare_unknown : Taint.unknown.rank = .unknown := rfl

/-- Ranks refine labels. -/
theorem label_rank (t : Taint) : t.rank.label = t.label := by
  unfold rank
  cases t.label with
  | pub => rfl
  | unknown => by_cases hc : t.chain = [] <;> simp only [hc, if_true, if_false] <;> rfl
  | secret => rfl

/-- A higher rank has no lower label. -/
theorem label_le_of_rank_le {a b : Taint} (h : a.rank ≤ b.rank) : a.label ≤ b.label := by
  rw [← label_rank a, ← label_rank b]
  exact Rank.label_mono h

/-- A higher label is a higher rank, with or without chains. -/
theorem rank_lt_of_label_lt {a b : Taint} (h : a.label < b.label) : a.rank < b.rank := by
  rw [← not_le]
  intro hle
  exact Nat.not_le.2 h (label_le_of_rank_le hle)

/-- A taint has the highest rank exactly if its label is secret. -/
theorem rank_eq_secret_iff {t : Taint} : t.rank = .secret ↔ t.label = .secret := by
  rw [Rank.eq_secret_iff, label_rank]

/-- And the lowest exactly if it is public. -/
theorem rank_eq_pub_iff {t : Taint} : t.rank = .pub ↔ t.label = .pub := by
  rw [Rank.eq_pub_iff, label_rank]

/-- In a coherent taint the chain shows in the rank. -/
theorem traced_le_rank_iff {t : Taint} (ht : t.Coherent) : .traced ≤ t.rank ↔ t.chain ≠ [] := by
  obtain ⟨label, chain⟩ := t
  cases label with
  | pub =>
    have hc : chain = [] := ht.pub rfl
    simp only [rank, hc, ne_eq, not_true_eq_false, iff_false]
    decide
  | unknown =>
    by_cases hc : chain = []
    · simp only [rank, hc, if_true, ne_eq, not_true_eq_false, iff_false]
      decide
    · simp [rank, hc]
  | secret =>
    have hc : chain ≠ [] := ht.secret rfl
    simp only [rank, hc, ne_eq, not_false_eq_true, iff_true]
    decide

/-! ## Joining taints

A join takes the highest label and the first chain of a taint that has one. For coherent taints the
rank of the result is the highest rank; this is where coherence is used. -/

/-- A label above public is below the highest of a list exactly when it is below one of them. -/
theorem le_highest_iff {ts : List Taint} {l : Label} (hl : l ≠ .pub) :
    l ≤ highest ts ↔ ∃ t ∈ ts, l ≤ t.label := by
  have hjoin : ∀ a b : Label, l ≤ a.join b ↔ l ≤ a ∨ l ≤ b := by
    intro a b
    cases l <;> cases a <;> cases b <;> decide
  induction ts with
  | nil =>
    have hpub : ¬ l ≤ .pub := by
      cases l with
      | pub => exact absurd rfl hl
      | unknown => decide
      | secret => decide
    simp [highest, hpub]
  | cons t ts ih =>
    simp only [highest, hjoin, ih, List.mem_cons, exists_eq_or_imp]

/-- An origin is the first value of a chain. -/
theorem hasOrigin_iff {t : Taint} : t.hasOrigin = true ↔ t.chain ≠ [] := by
  simp [hasOrigin]

/-- No chain is found exactly if none of the taints has one. -/
theorem firstChain_eq_none_iff {ts : List Taint} :
    firstChain ts = none ↔ ∀ t ∈ ts, t.chain = [] := by
  simp [firstChain, hasOrigin]

/-- A chain that is found is not empty. -/
theorem ne_nil_of_firstChain_eq_some {ts : List Taint} {c : List String}
    (h : firstChain ts = some c) : c ≠ [] := by
  obtain ⟨t, ht, rfl⟩ := Option.map_eq_some_iff.1 h
  exact hasOrigin_iff.1 (List.find?_some ht)

/-- A join has a chain exactly when one of the joined taints has. -/
theorem chain_joinAll_ne_nil_iff {ts : List Taint} :
    (joinAll ts).chain ≠ [] ↔ ∃ t ∈ ts, t.chain ≠ [] := by
  change (firstChain (ts.filter fun t => decide (t.label = highest ts)) <|> firstChain ts).getD
    [] ≠ [] ↔ _
  cases hbest : firstChain (ts.filter fun t => decide (t.label = highest ts)) with
  | some c =>
    refine ⟨fun _ => ?_, fun _ => ne_nil_of_firstChain_eq_some hbest⟩
    by_contra hnone
    have hempty : ∀ t ∈ ts.filter fun t => decide (t.label = highest ts), t.chain = [] := by
      intro t ht
      by_contra hc
      exact hnone ⟨t, (List.mem_filter.1 ht).1, hc⟩
    rw [firstChain_eq_none_iff.2 hempty] at hbest
    cases hbest
  | none =>
    cases hany : firstChain ts with
    | some c =>
      refine ⟨fun _ => ?_, fun _ => ne_nil_of_firstChain_eq_some hany⟩
      by_contra hnone
      have hempty : ∀ t ∈ ts, t.chain = [] := fun t ht => by_contra fun hc => hnone ⟨t, ht, hc⟩
      rw [firstChain_eq_none_iff.2 hempty] at hany
      cases hany
    | none =>
      refine ⟨fun h => absurd rfl h, ?_⟩
      rintro ⟨t, ht, hc⟩
      exact absurd (firstChain_eq_none_iff.1 hany t ht) hc

/-- Joining keeps coherence: a secret among the taints brings its chain along. -/
theorem coherent_joinAll {ts : List Taint} (h : ∀ t ∈ ts, t.Coherent) : (joinAll ts).Coherent := by
  constructor
  · intro hlabel
    by_contra hchain
    obtain ⟨t, ht, hc⟩ := chain_joinAll_ne_nil_iff.1 hchain
    -- the taint with a chain is above public, and so is the join
    have hle : .unknown ≤ t.label := Label.unknown_le_iff.2 fun hpub => hc ((h t ht).pub hpub)
    have hhighest : .unknown ≤ highest ts := (le_highest_iff (l := .unknown) nofun).2 ⟨t, ht, hle⟩
    exact Label.unknown_le_iff.1 hhighest hlabel
  · intro hlabel
    have hhighest : .secret ≤ highest ts := Label.secret_le_iff.2 hlabel
    obtain ⟨t, ht, hle⟩ := (le_highest_iff (l := .secret) nofun).1 hhighest
    exact chain_joinAll_ne_nil_iff.2 ⟨t, ht, (h t ht).secret (Label.secret_le_iff.1 hle)⟩

/-- **Joining coherent taints takes the highest rank.** -/
theorem rank_joinAll {ts : List Taint} (h : ∀ t ∈ ts, t.Coherent) :
    (joinAll ts).rank = Rank.joinAll (ts.map rank) := by
  refine Rank.eq_of_le_iff fun r hr => ?_
  rw [Rank.le_joinAll_iff hr]
  simp only [List.mem_map, exists_exists_and_eq_and]
  -- the three ranks above public ask for a label, for a chain, and for a label again
  cases r with
  | pub => exact absurd rfl hr
  | unknown =>
    simp only [Rank.unknown_le_iff, label_rank]
    exact le_highest_iff nofun
  | traced =>
    rw [traced_le_rank_iff (coherent_joinAll h), chain_joinAll_ne_nil_iff]
    exact exists_congr fun t => and_congr_right fun ht => (traced_le_rank_iff (h t ht)).symm
  | secret =>
    simp only [Rank.secret_le_iff, rank_eq_secret_iff, ← Label.secret_le_iff]
    exact le_highest_iff nofun

/-- The same of two taints. -/
theorem coherent_join {a b : Taint} (ha : a.Coherent) (hb : b.Coherent) : (a.join b).Coherent :=
  coherent_joinAll (by simp [ha, hb])

/-- Two taints join to the higher rank. -/
theorem rank_join {a b : Taint} (ha : a.Coherent) (hb : b.Coherent) :
    (a.join b).rank = max a.rank b.rank := by
  rw [join, rank_joinAll (by simp [ha, hb])]
  simp

/-! ## Chains and improvements

A chain that grows keeps the rank. A taint improves on another one exactly if its rank is
higher. -/

@[simp] theorem label_extended (t : Taint) (v : String) : (t.extended v).label = t.label := by
  unfold extended
  split <;> rfl

/-- There is a chain after a step if there was one before it. -/
theorem chain_extended_eq_nil_iff (t : Taint) (v : String) :
    (t.extended v).chain = [] ↔ t.chain = [] := by
  unfold extended
  split
  · exact Iff.rfl
  · next h => simp [not_or.1 h]

/-- A step of the chain does not change the rank. -/
@[simp] theorem rank_extended (t : Taint) (v : String) : (t.extended v).rank = t.rank := by
  simp only [rank, label_extended, chain_extended_eq_nil_iff]

/-- Nor does it lose coherence. -/
theorem Coherent.extended {t : Taint} (ht : t.Coherent) (v : String) : (t.extended v).Coherent := by
  constructor
  · intro h
    exact (chain_extended_eq_nil_iff t v).2 (ht.pub (by rwa [label_extended] at h))
  · intro h hc
    exact ht.secret (by rwa [label_extended] at h) ((chain_extended_eq_nil_iff t v).1 hc)

/-- **A coherent taint improves on another exactly when it ranks higher.** -/
theorem improves_iff {old new : Taint} (hold : old.Coherent) (hnew : new.Coherent) :
    old.improves new = true ↔ old.rank < new.rank := by
  have hiff : old.improves new = true ↔
      old.label < new.label ∨ new.label = old.label ∧ old.chain = [] ∧ new.chain ≠ [] := by
    simp [improves, hasOrigin, and_assoc]
  rw [hiff]
  rcases Nat.lt_trichotomy old.label.rank new.label.rank with hlt | heq | hgt
  · exact iff_of_true (.inl hlt) (rank_lt_of_label_lt hlt)
  · -- at one label only a first chain counts, and only an unknown taint can get one
    have hlabel : new.label = old.label := Label.rank_injective heq.symm
    have hirrefl : ¬ old.label < new.label := Nat.not_lt.2 (Nat.le_of_eq heq.symm)
    rw [or_iff_right hirrefl, and_iff_right hlabel, rank, rank, hlabel]
    cases hl : old.label with
    | pub => simp [hnew.pub (hlabel.trans hl)]
    | unknown =>
      by_cases ho : old.chain = [] <;> by_cases hn : new.chain = [] <;> simp [ho, hn] <;> decide
    | secret => simp [hold.secret hl]
  · have hnot : ¬ old.label < new.label := Nat.not_lt.2 (Nat.le_of_lt hgt)
    have hne : new.label ≠ old.label := fun h => Nat.ne_of_lt hgt (congrArg Label.rank h)
    have hrank : ¬ old.rank < new.rank := not_lt.2 (le_of_lt (rank_lt_of_label_lt hgt))
    exact iff_of_false (not_or.2 ⟨hnot, fun h => hne h.1⟩) hrank

end Taint

end ConstantTime
