/-
Findings by their places.

A rule looks at instructions one after the other and gives at most one finding for each, with the
block and the position of the instruction. Instructions of a function are told apart by their
places, so findings are too, and to count those at a place is to ask whether the instruction there
was reported.
-/
import ConstantTime.Proofs.Faultless

set_option autoImplicit false

namespace ConstantTime

/-! ## Keys of what is collected

If each result carries the key of its item, the keys of the results are those of the items, in
order and without new repetitions. -/

/-- The results stand in the order of the elements, if a key tells which one each was given for. -/
theorem map_eq_map_of_collect {ε α β γ : Type} {f : α → Except ε β} (key : α → γ) (key' : β → γ)
    {xs : List α} {ys : List β} (h : collect f xs = .ok ys)
    (hkey : ∀ x ∈ xs, ∀ y, f x = .ok y → key' y = key x) :
    ys.map key' = xs.map key := by
  have hall := forall₂_of_collect_eq_ok h
  clear h
  induction hall with
  | nil => rfl
  | @cons x y xs ys hx _ ih =>
    rw [List.map_cons, List.map_cons, hkey x List.mem_cons_self y hx,
      ih fun z hz => hkey z (List.mem_cons_of_mem x hz)]

/-- What is collected stands in the order of the elements, if a key tells which one it was given
for. -/
theorem map_sublist_of_collectSome {ε α β γ : Type} {f : α → Except ε (Option β)} (key : α → γ)
    (key' : β → γ) {xs : List α} {ys : List β} (h : collectSome f xs = .ok ys)
    (hkey : ∀ x ∈ xs, ∀ y, f x = .ok (some y) → key' y = key x) :
    (ys.map key').Sublist (xs.map key) := by
  unfold collectSome at h
  split at h
  · cases h
  · next found hfound =>
    cases h
    have hall := forall₂_of_collect_eq_ok hfound
    clear hfound
    induction hall with
    | nil => exact .slnil
    | @cons x o xs found hx _ ih =>
      have hrest := ih fun z hz => hkey z (List.mem_cons_of_mem x hz)
      cases o with
      | none => exact hrest.cons (key x)
      | some y =>
        change (key' y :: (found.filterMap id).map key').Sublist (key x :: xs.map key)
        rw [hkey x List.mem_cons_self y hx]
        exact hrest.cons_cons (key x)

/-! ## Places

A place is a block with a position in it. It determines the instruction, and a finding has the
place of the instruction that it reports. -/

/-- Where an instruction stands, as findings say it. -/
def Placed.place (p : Placed) : String × Int := (p.block.id, p.index)

/-- Where the names of blocks are distinct, instructions are told apart by their places. -/
theorem Function.nodup_places {f : Function} (hf : (f.blocks.map Block.id).Nodup) :
    (f.placed.map Placed.place).Nodup := by
  rw [placed, List.map_flatMap, List.nodup_flatMap]
  constructor
  · intro b _
    rw [List.map_map]
    have hplace : (Placed.place ∘ fun p : Instr × Nat => (⟨b, p.2, p.1⟩ : Placed)) =
        (fun k : Nat => (b.id, (k : Int))) ∘ Prod.snd := rfl
    rw [hplace, ← List.map_map, List.zipIdx_map_snd]
    exact (List.nodup_range').map fun k k' h => Int.ofNat.inj (Prod.mk.inj h).2
  · have hne : f.blocks.Pairwise fun a b => a.id ≠ b.id := List.pairwise_map.1 hf
    refine hne.imp fun {a b} hab x ha hb => hab ?_
    obtain ⟨p, hp, rfl⟩ := List.mem_map.1 ha
    obtain ⟨q, hq, hplace⟩ := List.mem_map.1 hb
    obtain ⟨_, _, rfl⟩ := List.mem_map.1 hp
    obtain ⟨_, _, rfl⟩ := List.mem_map.1 hq
    exact (Prod.mk.inj hplace).1.symm

/-- Instructions at one place are one instruction. -/
theorem Function.eq_of_place_eq {f : Function} (hf : (f.blocks.map Block.id).Nodup) {p q : Placed}
    (hp : p ∈ f.placed) (hq : q ∈ f.placed) (h : p.place = q.place) : p = q :=
  List.inj_on_of_nodup_map (nodup_places hf) hp hq h

/-- The place of the instruction that a finding is about. -/
def Finding.instrPlace (x : Finding) : String × Int := (x.block, x.index)

/-- An instruction that was reported has one finding, if findings are told apart by their places. -/
theorem countP_place_eq_one {found : List Finding} (hfound : (found.map Finding.instrPlace).Nodup)
    {p : Placed} {x : Finding} (hx : x ∈ found) (hat : x.instrPlace = p.place) :
    (found.countP fun x => x.block = p.block.id ∧ x.index = (p.index : Int)) = 1 := by
  have hplace : p.place ∈ found.map Finding.instrPlace := List.mem_map.2 ⟨x, hx, hat⟩
  rw [← List.count_eq_one_of_mem hfound hplace, List.count, List.countP_map]
  refine List.countP_congr fun y _ => ?_
  simp [Placed.place, Finding.instrPlace]

/-- An instruction that was not reported has no finding. -/
theorem countP_place_eq_zero {found : List Finding} {p : Placed}
    (h : ∀ x ∈ found, x.instrPlace ≠ p.place) :
    (found.countP fun x => x.block = p.block.id ∧ x.index = (p.index : Int)) = 0 := by
  rw [List.countP_eq_zero]
  intro x hx hat
  rw [decide_eq_true_iff] at hat
  exact h x hx (Prod.ext hat.1 hat.2)

namespace Context

variable {c : Context}

/-- A finding of a rule at a place of the function. -/
structure IsFindingAt (c : Context) (rule : Rule) (place : String × Int) (x : Finding) : Prop where
  rule : x.rule = rule
  function : x.function = c.function.id
  place : x.instrPlace = place

/-- A finding has the place that it was made for. -/
theorem isFindingAt_of_finding {rule : Rule} {block : String} {index : Nat} {chain : List String}
    {description : String} {detail : Detail} {x : Finding}
    (h : c.finding rule block index chain description detail = .ok x) :
    c.IsFindingAt rule (block, index) x := by
  unfold finding at h
  split at h
  · cases h
  · cases h
    exact ⟨rfl, rfl, rfl⟩

/-! ### Findings by rule

Every rule makes its findings in one way, with its own code and severity. What is found is traced
back to the place at which it was made. -/

/-- A finding that a rule made at an instruction of a block. -/
def MadeAt (c : Context) (rule : Rule) (block : String) (index : Nat) (x : Finding) : Prop :=
  ∃ chain description detail, c.finding rule block index chain description detail = .ok x

theorem madeAt_of_map_eq_ok {rule : Rule} {block : String} {index : Nat} {chain : List String}
    {description : String} {detail : Detail} {x : Finding}
    (h : (c.finding rule block index chain description detail).map some = .ok (some x)) :
    c.MadeAt rule block index x := by
  obtain ⟨y, hy, heq⟩ := exists_of_map_eq_ok h
  cases heq
  exact ⟨_, _, _, hy⟩

theorem MadeAt.isFindingAt {rule : Rule} {block : String} {index : Nat} {x : Finding}
    (h : c.MadeAt rule block index x) : c.IsFindingAt rule (block, index) x := by
  obtain ⟨_, _, _, h⟩ := h
  exact isFindingAt_of_finding h

/-- The severity of a finding is that of its rule. -/
theorem MadeAt.severity {rule : Rule} {block : String} {index : Nat} {x : Finding}
    (h : c.MadeAt rule block index x) : x.severity = rule.severity := by
  obtain ⟨_, _, _, h⟩ := h
  unfold finding at h
  split at h
  · cases h
  · cases h
    rfl

/-- Secret paths are reported at the last instruction of a block. -/
theorem madeAt_of_pathFinding? {i : Inspector} {post : Dominance String}
    {branch : Block × Option String} {x : Finding}
    (h : c.pathFinding? i post branch = .ok (some x)) :
    c.MadeAt .secretPath branch.1.id (branch.1.instrs.length - 1) x := by
  unfold pathFinding? at h
  dsimp only at h
  split at h
  · cases h
  · split at h
    · exact madeAt_of_map_eq_ok h
    · cases h

/-- Indirect branches are reported at their sites. -/
theorem madeAt_of_siteFinding {s : IndirectSite} {x : Finding} (h : c.siteFinding s = .ok x) :
    c.MadeAt .indirectBranch s.block s.index x := by
  unfold siteFinding at h
  dsimp only at h
  split at h
  · cases h
  · exact ⟨_, _, _, h⟩

/-- Scrubs are reported where they stand. -/
theorem madeAt_of_scrubbedFinding? {reachable exits : List String} {sites : Table Site} {p : Placed}
    {x : Finding} (h : c.scrubbedFinding? reachable exits sites p = .ok (some x)) :
    c.MadeAt .conditionalScrub p.block.id p.index x := by
  unfold scrubbedFinding? at h
  split at h
  · cases h
  · unfold scrubFinding? at h
    dsimp only at h
    split at h
    · cases h
    · split at h
      · cases h
      · split at h
        · cases h
        · exact madeAt_of_map_eq_ok h

/-- And so are stores. -/
theorem madeAt_of_storeFinding? {locations : Table Location} {p : Placed} {x : Finding}
    (h : c.storeFinding? locations p = .ok (some x)) :
    c.MadeAt .globalStorage p.block.id p.index x := by
  unfold storeFinding? at h
  split at h
  · cases h
  · split at h
    · split at h
      · cases h
      · unfold secretStoreFinding? at h
        dsimp only at h
        split at h
        · exact madeAt_of_map_eq_ok h
        · cases h
    · cases h

/-- What the check of a rule finds was made by the rule. -/
theorem exists_madeAt_of_mem_check {rule : Rule} {found : List Finding}
    (h : c.check rule = .ok found) {x : Finding} (hx : x ∈ found) :
    ∃ block index, c.MadeAt rule block index x := by
  cases rule with
  | secretPath =>
    change c.secretPaths = .ok found at h
    unfold secretPaths at h
    split at h
    · cases h
    · cases h
      cases hx
    · unfold pathFindings at h
      split at h
      · cases h
      · cases h
      · obtain ⟨branch, -, hfinding⟩ := (mem_collectSome_iff h).1 hx
        exact ⟨_, _, madeAt_of_pathFinding? hfinding⟩
  | indirectBranch =>
    obtain ⟨s, -, hfinding⟩ := (mem_collect_iff h).1 hx
    exact ⟨_, _, madeAt_of_siteFinding hfinding⟩
  | conditionalScrub =>
    obtain ⟨p, -, hfinding⟩ := (mem_collectSome_iff h).1 hx
    exact ⟨_, _, madeAt_of_scrubbedFinding? hfinding⟩
  | globalStorage =>
    obtain ⟨p, -, hfinding⟩ := (mem_collectSome_iff h).1 hx
    exact ⟨_, _, madeAt_of_storeFinding? hfinding⟩

/-- All findings are those of the chosen rules. -/
theorem mem_checkAll_iff {rules : List Rule} {found : List Finding}
    (h : c.checkAll rules = .ok found) {x : Finding} :
    x ∈ found ↔ ∃ rule ∈ rules, ∃ ofRule, c.check rule = .ok ofRule ∧ x ∈ ofRule := by
  unfold checkAll at h
  split at h
  · cases h
  · next lists hlists =>
    cases h
    rw [List.mem_flatten]
    constructor
    · rintro ⟨ofRule, hofRule, hx⟩
      obtain ⟨rule, hrule, hcheck⟩ := (mem_collect_iff hlists).1 hofRule
      exact ⟨rule, hrule, ofRule, hcheck, hx⟩
    · rintro ⟨rule, hrule, ofRule, hcheck, hx⟩
      exact ⟨ofRule, (mem_collect_iff hlists).2 ⟨rule, hrule, hcheck⟩, hx⟩

end Context

end ConstantTime
