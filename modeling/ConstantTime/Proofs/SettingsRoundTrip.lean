/-
Settings that are written and read back.

Settings are written as an object with all seven fields. Main statement: settings that were read
from any data at all are read back from what is written for them, and it does not matter how a list
of rules is given. A list with the same codes, in any order, each of them any number of times and
with a small or a capital letter, is read as the same settings, or is refused just as well.
-/
import ConstantTime.Proofs.Faultless
import ConstantTime.Proofs.Settings

set_option autoImplicit false

namespace ConstantTime

/-- What is taken apart again element by element is the list it was made of. -/
theorem collect_map_eq_ok_self {ε α β : Type} {f : β → Except ε α} {g : α → β}
    (h : ∀ x, f (g x) = .ok x) (xs : List α) :
    collect f (xs.map g) = .ok xs := by
  induction xs with
  | nil => rfl
  | cons x xs ih => rw [List.map_cons, collect, h x, ih]

/-- A key is looked up in the first list, and in the second if it is not there. -/
theorem Assoc.find?_append {κ α : Type} [DecidableEq κ] (k : κ) (l l' : List (κ × α)) :
    find? k (l ++ l') = (find? k l).or (find? k l') := by
  induction l with
  | nil => rfl
  | cons p l ih =>
    rw [List.cons_append, find?, find?, ih]
    split <;> rfl

/-! ## Codes of rules

The first letter of a code may be written small or capital. `folded` removes the difference, and
what is left determines the rule. -/

namespace Rule

/-- A text with the letter of the codes made small. -/
def folded (s : String) : List Char := s.toList.map fun c => if c = 'R' then 'r' else c

/-- The case of the letter does not tell rules apart, and the digit does. -/
theorem folded_code_injective {r s : Rule} (h : folded r.code = folded s.code) : r = s := by
  revert h
  cases r <;> cases s <;> decide

/-- Behind the letter, which may be small, a code is written as it is. -/
theorem folded_eq_pair_iff {s : String} {d : Char} (hsmall : d ≠ 'r') (hcapital : d ≠ 'R') :
    folded s = ['r', d] ↔ s.toList = ['R', d] ∨ s.toList = ['r', d] := by
  unfold folded
  rcases s.toList with _ | ⟨a, _ | ⟨b, _ | ⟨c, rest⟩⟩⟩
  · simp
  · simp
  · -- only a text of two characters can be alike
    have hfirst : (if a = 'R' then 'r' else a) = 'r' ↔ a = 'R' ∨ a = 'r' := by
      split <;> simp_all
    have hsecond : (if b = 'R' then 'r' else b) = d ↔ b = d := by
      split
      · next hb =>
        rw [hb]
        exact iff_of_false hsmall.symm hcapital.symm
      · rfl
    simp only [List.map_cons, List.map_nil, List.cons.injEq, and_true, hfirst, hsecond]
    exact or_and_right
  · simp

/-- A text is read as a rule exactly if it is the code of the rule, with a small or a capital
letter. -/
theorem ofCode?_eq_some_iff {s : String} {r : Rule} :
    ofCode? s = some r ↔ folded s = folded r.code := by
  obtain ⟨p, hp, htest⟩ : ∃ p : Rule → Bool, ofCode? s = all.find? p ∧
      ∀ r, p r = true ↔ folded s = folded r.code := by
    refine ⟨_, rfl, fun r => ?_⟩
    rw [Bool.or_eq_true, beq_iff_eq, beq_iff_eq, ← String.toList_inj, ← String.toList_inj]
    cases r with
    | secretPath | indirectBranch | conditionalScrub | globalStorage =>
      exact (folded_eq_pair_iff (by decide) (by decide)).symm
  rw [hp]
  constructor
  · intro h
    exact (htest r).1 (List.find?_some h)
  · intro h
    obtain ⟨r', hr'⟩ :=
      Option.isSome_iff_exists.1 (List.find?_isSome.2 ⟨r, mem_all r, (htest r).2 h⟩)
    -- no two codes are alike, so what is found is this rule
    have hfolded := (htest r').1 (List.find?_some hr')
    rw [folded_code_injective (h.symm.trans hfolded)]
    exact hr'

/-- Every code has a letter and a digit. -/
theorem exists_folded_code_eq (r : Rule) : ∃ d, folded r.code = ['r', d] := by
  cases r <;> exact ⟨_, rfl⟩

end Rule

namespace Config

/-- A value whose text is a code can be written, since it is short and no list or object. -/
theorem isWritable_of_folded_eq {raw : Json} {r : Rule}
    (h : Rule.folded raw.text = Rule.folded r.code) : raw.isWritable = true := by
  obtain ⟨d, hd⟩ := Rule.exists_folded_code_eq r
  rw [hd] at h
  cases raw with
  | null | bool | float | str => rfl
  | int n =>
    have hlength : (toString n).length = 2 := by
      have := congrArg List.length h
      rwa [Rule.folded, List.length_map, String.length_toList] at this
    rw [Json.isWritable_int, Text.isWritable_iff_length_le]
    refine (Text.length_natAbs_le_length_toString n).trans ?_
    rw [hlength]
    decide
  | arr items => simp [Rule.folded, Json.text, Json.shown] at h
  | obj fields => simp [Rule.folded, Json.text, Json.shown] at h

/-- A rule is read exactly from the spellings of its code. -/
theorem rule_eq_ok_iff {raw : Json} {r : Rule} :
    rule raw = .ok r ↔ Rule.folded raw.text = Rule.folded r.code := by
  rw [← Rule.ofCode?_eq_some_iff, rule]
  split
  · next hlong =>
    -- what cannot be written is no code
    refine iff_of_false nofun fun hr => ?_
    rw [Json.text?_eq_none_iff, isWritable_of_folded_eq (Rule.ofCode?_eq_some_iff.1 hr)] at hlong
    cases hlong
  · next code hcode =>
    rw [(Json.text?_eq_some_iff.1 hcode).2]
    split
    · next r' hr' => rw [hr', Except.ok.injEq, Option.some.injEq]
    · next hnone =>
      rw [hnone]
      exact iff_of_false nofun nofun

/-! ## Reading back

Each field is written in a form that its reader accepts. The time limit is kept as a number with
fraction and written as one, so nothing is rounded a second time. -/

variable {c : Config}

theorem textOf_str (s : String) : textOf (.str s) = .ok s := rfl

/-- A severity is read back from its name. -/
theorem severityOf_name (s : Severity) : severityOf (.str s.name) = .ok s := by
  have hname : Severity.ofName? (Text.lower s.name) = some s := by cases s <;> decide +kernel
  rw [severityOf, textOf_str, ok_bind, hname]
  rfl

/-- The fields that are written are read as what was written. -/
theorem Decoded.readFrom_toJson (h : c.Decoded) :
    ∃ fields, c.toJson? = some (.obj fields) ∧ c.ReadFrom fields := by
  obtain ⟨depth, hdepth, hdepth'⟩ := h.depth
  obtain ⟨workers, hworkers, hworkers'⟩ := h.workers
  obtain ⟨names, hnames⟩ := h.routines
  obtain ⟨switch, hswitch⟩ := h.switch
  have hrules : rulesOf (Json.strs (c.rules.map Rule.code)) = .ok c.rules := by
    rw [Json.strs, List.map_map, rulesOf_arr, collect_map_eq_ok_self fun r => rule_eq_ok_iff.2 rfl]
    exact congrArg Except.ok h.rules
  have htimeout : limitOf ((c.timeout.map Quantity.toJson).getD .null) = .ok c.timeout := by
    cases hlimit : c.timeout with
    | none => rfl
    | some q =>
      obtain ⟨x, -, rfl⟩ := h.timeout q hlimit
      rfl
  have hroutines : (routinesOf (.arr (names.map .str))).map some = .ok c.routines := by
    rw [hnames, routinesOf, collect_map_eq_ok_self textOf_str]
    rfl
  -- the fields in the order in which they are read, and then the bounds
  rw [toJson?, hnames]
  refine ⟨_, rfl, fun k hk => hk, hrules, ?_, ?_, htimeout, hroutines, ?_,
    severityOf_name c.minSeverity, ?_, ?_, fun q hq => ?_⟩
  · rw [hdepth']
    rfl
  · rw [hworkers']
    rfl
  · rw [hswitch]
    rfl
  · rw [hdepth']
    exact decide_eq_false (not_lt.2 hdepth)
  · rw [hworkers']
    exact decide_eq_false (not_lt.2 hworkers)
  · obtain ⟨x, hx, rfl⟩ := h.timeout q hq
    exact decide_eq_false hx

/-- Settings that were read can be written, and are read back. -/
theorem exists_toJson?_of_ofJson {raw : Json} (h : ofJson raw = .ok c) :
    ∃ j, c.toJson? = some j ∧ ofJson j = .ok c := by
  obtain ⟨fields, hfields, hread⟩ := (decoded_of_ofJson h).readFrom_toJson
  exact ⟨.obj fields, hfields, ofJson_obj_eq_ok_iff.2 hread⟩

/-! ## Lists of rules

Two lists are compared by their folded codes, as sets. The rules are put in order when they are
read, so equal sets give equal settings. -/

/-- Two lists name the same codes: whatever their order, however often each of them stands there,
and whether its letter is small or not. -/
def SameCodes (xs ys : List Json) : Prop :=
  (∀ x ∈ xs, ∃ y ∈ ys, Rule.folded x.text = Rule.folded y.text) ∧
    ∀ y ∈ ys, ∃ x ∈ xs, Rule.folded y.text = Rule.folded x.text

instance (xs ys : List Json) : Decidable (SameCodes xs ys) := inferInstanceAs (Decidable (_ ∧ _))

theorem SameCodes.symm {xs ys : List Json} (h : SameCodes xs ys) : SameCodes ys xs := ⟨h.2, h.1⟩

/-- Lists with the same codes are read as the same rules. -/
theorem SameCodes.rulesOf_eq_ok {xs ys : List Json} {rules : List Rule} (h : SameCodes xs ys)
    (hrules : rulesOf (.arr xs) = .ok rules) : rulesOf (.arr ys) = .ok rules := by
  rw [rulesOf_arr] at hrules
  obtain ⟨found, hfound, rfl⟩ := exists_of_map_eq_ok hrules
  -- what one list names, the other names too
  have hto : ∀ y ∈ ys, ∃ r ∈ found, rule y = .ok r := by
    intro y hy
    obtain ⟨x, hx, hxy⟩ := h.2 y hy
    obtain ⟨r, hr, hrule⟩ := exists_of_mem_of_forall₂ (forall₂_of_collect_eq_ok hfound) hx
    exact ⟨r, hr, rule_eq_ok_iff.2 (hxy.trans (rule_eq_ok_iff.1 hrule))⟩
  have hfrom : ∀ r ∈ found, ∃ y ∈ ys, rule y = .ok r := by
    intro r hr
    obtain ⟨x, hx, hrule⟩ := (mem_collect_iff hfound).1 hr
    obtain ⟨y, hy, hxy⟩ := h.1 x hx
    exact ⟨y, hy, rule_eq_ok_iff.2 (hxy.symm.trans (rule_eq_ok_iff.1 hrule))⟩
  obtain ⟨found', hfound'⟩ := exists_collect_eq_ok fun y hy => (hto y hy).imp fun _ => And.right
  have hsame : ∀ r, r ∈ found' ↔ r ∈ found := by
    intro r
    rw [mem_collect_iff hfound']
    refine ⟨?_, hfrom r⟩
    rintro ⟨y, hy, hrule⟩
    obtain ⟨r', hr', hrule'⟩ := hto y hy
    cases hrule.symm.trans hrule'
    exact hr'
  rw [rulesOf_arr, hfound', ← Rule.ordered_congr hsame]
  rfl

/-- What one field holds says nothing about the others. -/
theorem get?_replace {before after : List (String × Json)} {name key : String} (h : name ≠ key)
    (v w : Json) :
    (Json.obj (before ++ (name, v) :: after)).get? key =
      (Json.obj (before ++ (name, w) :: after)).get? key := by
  change Assoc.find? key _ = Assoc.find? key _
  rw [Assoc.find?_append, Assoc.find?_append, Assoc.find?, Assoc.find?, if_neg h, if_neg h]

/-- A field is read from its own entry only. -/
theorem optional_congr {α : Type} {raw raw' : Json} {key : String} {unset : α}
    {read : Json → Except ConfigError α} (h : raw.get? key = raw'.get? key) :
    optional raw key unset read = optional raw' key unset read := by
  rw [optional, optional, h]

/-- The rules of an object may be given in another way that is read as the same rules. -/
theorem ReadFrom.replace_rules {before after : List (String × Json)} {v w : Json}
    (h : c.ReadFrom (before ++ ("enabled_rules", v) :: after))
    (hvw : ∀ rules, rulesOf v = .ok rules → rulesOf w = .ok rules) :
    c.ReadFrom (before ++ ("enabled_rules", w) :: after) := by
  -- the other fields are found as before
  have hother : ∀ {α : Type} {key : String} {unset : α} {read : Json → Except ConfigError α},
      "enabled_rules" ≠ key →
      optional (.obj (before ++ ("enabled_rules", w) :: after)) key unset read =
        optional (.obj (before ++ ("enabled_rules", v) :: after)) key unset read :=
    fun hkey => optional_congr (get?_replace hkey w v)
  refine ⟨?_, ?_, (hother (by decide)).trans h.depth, (hother (by decide)).trans h.workers,
    (hother (by decide)).trans h.timeout, (hother (by decide)).trans h.routines,
    (hother (by decide)).trans h.switch,
    (hother (by decide)).trans h.severity, h.depth_below, h.workers_below, h.timeout_atMost⟩
  · have hknown := h.known
    rw [List.map_append, List.map_cons] at hknown ⊢
    exact hknown
  · have hget : ∀ u, (Json.obj (before ++ ("enabled_rules", u) :: after)).get? "enabled_rules" =
        (Assoc.find? "enabled_rules" before).or (some u) := by
      intro u
      change Assoc.find? _ _ = _
      rw [Assoc.find?_append, Assoc.find?, if_pos rfl]
    have hrules := h.rules
    rw [optional, hget] at hrules ⊢
    -- a field of the same name in front hides the one that was replaced
    cases hbefore : Assoc.find? "enabled_rules" before with
    | none =>
      rw [hbefore] at hrules
      exact hvw _ hrules
    | some u =>
      rw [hbefore] at hrules
      exact hrules

/-- **Settings survive being written**: what was read from any data is read back from what is
written for it. And lists that name the same codes are read as the same settings, or both are
refused. -/
theorem ofJson_written_and_relisted :
    (∀ raw c, ofJson raw = .ok c → ∃ j, c.toJson? = some j ∧ ofJson j = .ok c) ∧
      ∀ before after xs ys, SameCodes xs ys → ∀ c,
        ofJson (.obj (before ++ ("enabled_rules", .arr xs) :: after)) = .ok c ↔
          ofJson (.obj (before ++ ("enabled_rules", .arr ys) :: after)) = .ok c := by
  refine ⟨fun raw c => exists_toJson?_of_ofJson, fun before after xs ys h c => ?_⟩
  rw [ofJson_obj_eq_ok_iff, ofJson_obj_eq_ok_iff]
  constructor
  · intro hread
    exact hread.replace_rules fun rules => h.rulesOf_eq_ok
  · intro hread
    exact hread.replace_rules fun rules => h.symm.rulesOf_eq_ok

theorem ofJson_relisted_shuffled : ∃ c j,
    ofJson (.obj shuffled) = .ok c ∧ c.toJson? = some j ∧ ofJson j = .ok c ∧
      SameCodes [.str "r3", .str "R1", .str "R3"] [.str "R1", .str "r3"] ∧
        ofJson (.obj [("enabled_rules", .arr [.str "R1", .str "r3"]), ("max_workers", .int 2)]) =
          .ok c := by
  obtain ⟨hback, hlist⟩ := ofJson_written_and_relisted
  obtain ⟨c, hc, -⟩ : ∃ c, ofJson (.obj shuffled) = .ok c ∧ c.maxWorkers = .int 2 := ⟨_, rfl, rfl⟩
  have hcodes : SameCodes [.str "r3", .str "R1", .str "R3"] [.str "R1", .str "r3"] := by decide
  obtain ⟨j, hj, hread⟩ := hback _ c hc
  exact ⟨c, j, hc, hj, hread, hcodes, (hlist [] [("max_workers", .int 2)] _ _ hcodes c).1 hc⟩

end Config

end ConstantTime
