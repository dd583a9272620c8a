/-
Settings that are read from data.

Settings that come from data have whole limits of at least one, a time limit that is positive, and
rules that stand in the order of their codes. Main statement: reading ends with such settings or
with an error in the settings, with two exceptions. A whole number of seconds is made a number with
fraction, and one that is out of range is reported as such. And a value that is wrong has to be
shown, which fails if a whole number in it has too many digits. For both it is said exactly when
they happen.
-/
import ConstantTime.Proofs.IntegerRange
import ConstantTime.Proofs.SettingsFields
import ConstantTime.Proofs.WritableValues

set_option autoImplicit false

namespace ConstantTime

/-! ## Rules in order

Putting rules in order depends only on which rules there are, so it does not matter how often or in
which order they were named. -/

namespace Rule

/-- The codes of the rules increase, so the list of all rules is in order. -/
theorem pairwise_all : all.Pairwise fun r s => r.code < s.code := by decide

theorem mem_all (r : Rule) : r ∈ all := by cases r <;> decide

@[simp] theorem mem_ordered {r : Rule} {rules : List Rule} : r ∈ ordered rules ↔ r ∈ rules := by
  rw [ordered, List.mem_filter, decide_eq_true_eq]
  exact and_iff_right (mem_all r)

/-- Rules are put in order by what is among them. -/
theorem ordered_congr {rules rules' : List Rule} (h : ∀ r, r ∈ rules ↔ r ∈ rules') :
    ordered rules = ordered rules' :=
  List.filter_congr fun r _ => decide_eq_decide.2 (h r)

/-- What is in order stays as it is. -/
theorem ordered_ordered (rules : List Rule) : ordered (ordered rules) = ordered rules :=
  ordered_congr fun _ => mem_ordered

theorem ordered_all :
    ordered all = all := List.filter_eq_self.2 fun r _ => decide_eq_true (mem_all r)

/-- Chosen rules are in order, too, and no rule is there twice. -/
theorem pairwise_ordered (rules : List Rule) :
    (ordered rules).Pairwise fun r s => r.code < s.code :=
  pairwise_all.sublist List.filter_sublist

end Rule

namespace Config

/-! ## What the settings hold

Each field is followed from its reader to the settings. What all fields have in common is said by
`Decoded`; `InRange` is the part of it that the main statement is about. -/

variable {fields : List (String × Json)} {c : Config} {e : ConfigError}

/-- A limit is a whole number, and its check says that it is at least one. -/
theorem exists_int_of_integerOf {raw : Json} {key : String} {unset : Int} {q : Quantity}
    (h : optional raw key (.int unset) (integerOf key) = .ok q) (hq : q.below 1 = false) :
    ∃ n : Int, 1 ≤ n ∧ q = .int n := by
  obtain ⟨n, rfl⟩ : ∃ n : Int, q = .int n := by
    rcases optional_eq_ok h with rfl | ⟨v, hv⟩
    · exact ⟨unset, rfl⟩
    · unfold integerOf at hv
      split at hv
      · cases hv
        exact ⟨_, rfl⟩
      · cases hv
  exact ⟨n, not_lt.1 (of_decide_eq_false hq), rfl⟩

/-- The rules of a list are those of its items, put in order. -/
theorem rulesOf_arr (items : List Json) :
    rulesOf (.arr items) = (collect rule items).map Rule.ordered := by
  unfold rulesOf
  dsimp only
  cases collect rule items <;> rfl

/-- Rules are read from a list of codes, or not at all. -/
theorem exists_rulesOf_eq_or (raw : Json) :
    (∃ items, rulesOf raw = (collect rule items).map Rule.ordered) ∨
      rulesOf raw = .error .rulesNotList := by
  cases raw with
  | str s => exact .inl ⟨[.str s], rulesOf_arr [.str s]⟩
  | arr items => exact .inl ⟨items, rulesOf_arr items⟩
  | null | bool | int | float | obj => exact .inr rfl

/-- Rules that were read are in order. -/
theorem exists_ordered_of_rulesOf {raw : Json} {rules : List Rule} (h : rulesOf raw = .ok rules) :
    ∃ chosen, Rule.ordered chosen = rules := by
  rcases exists_rulesOf_eq_or raw with ⟨items, hitems⟩ | hnone
  · rw [hitems] at h
    obtain ⟨chosen, -, hchosen⟩ := exists_of_map_eq_ok h
    exact ⟨chosen, hchosen⟩
  · rw [hnone] at h
    cases h

theorem exists_bool_of_switchOf {raw v : Json} (h : switchOf raw = .ok v) : ∃ b, v = .bool b := by
  unfold switchOf at h
  split at h
  · cases h
    exact ⟨_, rfl⟩
  · cases h

/-- Settings as they come from data. -/
structure Decoded (c : Config) : Prop where
  rules : Rule.ordered c.rules = c.rules
  depth : ∃ n : Int, 1 ≤ n ∧ c.maxCallDepth = .int n
  workers : ∃ n : Int, 1 ≤ n ∧ c.maxWorkers = .int n
  timeout : ∀ q, c.timeout = some q → ∃ x : Float, ¬ x ≤ 0 ∧ q = .float x
  routines : ∃ names : List String, c.routines = some (names.map .str)
  switch : ∃ b, c.unresolvedIsVariableTime = .bool b

theorem decoded_default : default.Decoded :=
  ⟨Rule.ordered_all, ⟨32, by decide, rfl⟩, ⟨4, by decide, rfl⟩, nofun,
    usable_default.routines, ⟨true, rfl⟩⟩

/-- Settings that were read have the form that `Decoded` says, whatever the data was. -/
theorem decoded_of_ofJson {raw : Json} (h : ofJson raw = .ok c) : c.Decoded := by
  have husable := usable_of_ofJson h
  rcases readFrom_of_ofJson h with ⟨-, rfl⟩ | ⟨fields, -, hread⟩
  · exact decoded_default
  · refine ⟨?_, exists_int_of_integerOf hread.depth hread.depth_below,
      exists_int_of_integerOf hread.workers hread.workers_below, fun q hq => ?_,
      husable.routines, ?_⟩
    · rcases optional_eq_ok hread.rules with hrules | ⟨v, hv⟩
      · rw [hrules]
        exact Rule.ordered_all
      · obtain ⟨chosen, hchosen⟩ := exists_ordered_of_rulesOf hv
        rw [← hchosen, Rule.ordered_ordered]
    · obtain ⟨x, rfl⟩ := husable.timeout q hq
      exact ⟨x, of_decide_eq_false (hread.timeout_atMost _ hq), rfl⟩
    · rcases optional_eq_ok hread.switch with hswitch | ⟨v, hv⟩
      · exact ⟨true, hswitch⟩
      · exact exists_bool_of_switchOf hv

/-- The limits of settings that were read from `raw`, and the order of their rules. -/
structure InRange (c : Config) (raw : Json) : Prop where
  depth : ∃ n : Int, 1 ≤ n ∧ c.maxCallDepth = .int n
  workers : ∃ n : Int, 1 ≤ n ∧ c.maxWorkers = .int n
  /-- JSON itself has no way to write what is no number. -/
  timeout : ∀ q, c.timeout = some q → ∃ x : Float, q = .float x ∧
    (0 < x ∨ x.isNaN = true ∧ raw.get? "timeout_seconds" = some (.float x))
  rules : c.rules.Pairwise fun r s => r.code < s.code

/-- A time limit that is no number was given as such, since every whole number is one. -/
theorem get?_of_isNaN {raw : Json} {x : Float}
    (h : optional raw "timeout_seconds" default.timeout limitOf = .ok (some (.float x)))
    (hx : x.isNaN = true) :
    raw.get? "timeout_seconds" = some (.float x) := by
  unfold optional at h
  split at h
  · next v hv =>
    rw [hv]
    cases v with
    | null => cases h
    | int n =>
      obtain ⟨q, hq, hqx⟩ := exists_of_map_eq_ok h
      unfold secondsOf at hq
      dsimp only at hq
      split at hq
      · next y hy =>
        cases hq
        cases hqx
        rw [Decimal.isNaN_of_ofInt? hy] at hx
        cases hx
      · cases hq
    | float y =>
      cases h
      rfl
    | bool | str | arr | obj => cases h
  · cases h

/-- The part of `Decoded` that says what the limits are. -/
theorem inRange_of_ofJson {raw : Json} (h : ofJson raw = .ok c) : c.InRange raw := by
  have hc := decoded_of_ofJson h
  refine ⟨hc.depth, hc.workers, fun q hq => ?_, hc.rules ▸ Rule.pairwise_ordered c.rules⟩
  obtain ⟨x, hx, rfl⟩ := hc.timeout q hq
  refine ⟨x, rfl, (Decimal.pos_or_isNaN hx).imp_right fun hnan => ⟨hnan, ?_⟩⟩
  rcases readFrom_of_ofJson h with ⟨-, rfl⟩ | ⟨fields, rfl, hread⟩
  · cases hq
  · exact get?_of_isNaN (hread.timeout.trans (congrArg _ hq)) hnan

/-! ## Errors of a field

A field is wrong in its settings, or the wrong value cannot be written and so cannot be shown. For a
time limit there is a third case, since a whole number of seconds may be out of range. -/

/-- A field that cannot be read is there. -/
theorem optional_eq_error {α : Type} {raw : Json} {key : String} {unset : α}
    {read : Json → Except ConfigError α} (h : optional raw key unset read = .error e) :
    ∃ v, raw.get? key = some v ∧ read v = .error e := by
  unfold optional at h
  split at h
  · next v hv => exact ⟨v, hv, h⟩
  · cases h

/-- A field that is there is read by its reader. -/
theorem optional_of_get? {α : Type} {raw v : Json} {key : String} (unset : α)
    (read : Json → Except ConfigError α) (h : raw.get? key = some v) :
    optional raw key unset read = read v := by
  unfold optional
  rw [h]

/-- An error that shows a value is in the settings, unless there is nothing to show. -/
theorem isInSettings_showing {error : String → ConfigError} {text : Option String}
    (h : ∀ s, (error s).isInSettings = true) :
    (ConfigError.showing error text).isInSettings = true ∨
      ConfigError.showing error text = .unwritable ∧ text = none := by
  cases text with
  | none => exact .inr ⟨rfl, rfl⟩
  | some s => exact .inl (h s)

/-- Rules are wrong in the settings only: a rule that cannot be written is reported like an unknown
one. -/
theorem isInSettings_of_rulesOf {raw : Json} (h : rulesOf raw = .error e) :
    e.isInSettings = true := by
  rcases exists_rulesOf_eq_or raw with ⟨items, hitems⟩ | hnone
  · rw [hitems] at h
    obtain ⟨item, -, hitem⟩ := exists_of_collect_eq_error (eq_error_of_map_eq_error h)
    unfold rule at hitem
    split at hitem
    · cases hitem
      rfl
    · split at hitem
      · cases hitem
      · cases hitem
        rfl
  · rw [hnone] at h
    cases h
    rfl

/-- The value is no whole number, and it cannot be written. -/
structure Unshowable (v : Json) : Prop where
  not_int : ∀ n : Int, v ≠ .int n
  long : v.isWritable = false

/-- A limit that is no whole number is shown in the error, if that can be done. -/
theorem integerOf_eq_error {key : String} {v : Json} (h : integerOf key v = .error e) :
    e.isInSettings = true ∨ e = .unwritable ∧ Unshowable v := by
  unfold integerOf at h
  split at h
  · cases h
  · next hint =>
    cases h
    refine (isInSettings_showing fun s => rfl).imp_right fun ⟨he, hnone⟩ => ?_
    exact ⟨he, fun n hn => hint n hn, Json.shown?_eq_none_iff.1 hnone⟩

/-- A limit that cannot be shown is reported as such. -/
theorem Unshowable.integerOf_eq {v : Json} (h : Unshowable v) (key : String) :
    integerOf key v = .error .unwritable := by
  unfold integerOf
  split
  · next n => exact absurd rfl (h.not_int n)
  · rw [Json.shown?_eq_none_iff.2 h.long]
    rfl

/-- A time limit is not read because it is no number, or because it is out of range. -/
theorem limitOf_eq_error {v : Json} (h : limitOf v = .error e) :
    e.isInSettings = true ∨
      (e = .timeOutOfRange ∧ ∃ n : Int, v = .int n ∧ Decimal.ofInt? n = none) ∨
      e = .unwritable ∧ Unshowable v := by
  unfold limitOf at h
  split at h
  · cases h
  · have hv := eq_error_of_map_eq_error h
    unfold secondsOf at hv
    split at hv
    · next n _ =>
      split at hv
      · cases hv
      · next hnone =>
        cases hv
        exact .inr (.inl ⟨rfl, n, rfl, hnone⟩)
    · cases hv
    · next hint _ =>
      cases hv
      refine (isInSettings_showing fun s => rfl).imp_right fun ⟨he, hnone⟩ => .inr ?_
      exact ⟨he, fun n hn => hint n hn, Json.shown?_eq_none_iff.1 hnone⟩

/-- A whole number of seconds that is out of range is not read. -/
theorem limitOf_int {n : Int} (h : Decimal.ofInt? n = none) :
    limitOf (.int n) = .error .timeOutOfRange := by
  change (secondsOf (.int n)).map some = _
  unfold secondsOf
  dsimp only
  rw [h]
  rfl

/-- A time limit that cannot be shown is reported as such, just like the other limits. -/
theorem Unshowable.limitOf_eq {v : Json} (h : Unshowable v) : limitOf v = .error .unwritable := by
  unfold limitOf
  split
  · cases h.long
  · unfold secondsOf
    split
    · next n _ => exact absurd rfl (h.not_int n)
    · cases h.long
    · rw [Json.shown?_eq_none_iff.2 h.long]
      rfl

/-- A value has no text only if it cannot be written. -/
theorem textOf_eq_error {v : Json} (h : textOf v = .error e) :
    e = .unwritable ∧ v.isWritable = false := by
  unfold textOf at h
  split at h
  · cases h
  · next hnone =>
    cases h
    exact ⟨rfl, Json.text?_eq_none_iff.1 hnone⟩

theorem textOf_eq_unwritable {v : Json} (h : v.isWritable = false) :
    textOf v = .error .unwritable := by
  unfold textOf
  rw [Json.text?_eq_none_iff.2 h]

/-- The names of routines are wrong if they are no list, or if a name cannot be written. -/
theorem routinesOf_eq_error {v : Json} (h : routinesOf v = .error e) :
    e.isInSettings = true ∨ e = .unwritable ∧ ∃ items, v = .arr items ∧ v.isWritable = false := by
  unfold routinesOf at h
  split at h
  · next items =>
    obtain ⟨item, hitem, herror⟩ := exists_of_collect_eq_error (eq_error_of_map_eq_error h)
    obtain ⟨rfl, hlong⟩ := textOf_eq_error herror
    exact .inr ⟨rfl, items, rfl, Json.isWritable_arr_eq_false_iff.2 ⟨item, hitem, hlong⟩⟩
  · split at h
    · cases h
      exact .inl rfl
    · cases h

/-- A list with an item that cannot be written is not read, since nothing else can be wrong with
it. -/
theorem routinesOf_eq_unwritable {items : List Json} (h : (Json.arr items).isWritable = false) :
    routinesOf (.arr items) = .error .unwritable := by
  change (collect textOf items).map _ = _
  obtain ⟨item, hitem, hlong⟩ := Json.isWritable_arr_eq_false_iff.1 h
  cases hcollect : collect textOf items with
  | error e =>
    obtain ⟨other, -, herror⟩ := exists_of_collect_eq_error hcollect
    rw [(textOf_eq_error herror).1]
    rfl
  | ok names =>
    obtain ⟨name, -, hname⟩ := exists_of_mem_of_forall₂ (forall₂_of_collect_eq_ok hcollect) hitem
    rw [textOf_eq_unwritable hlong] at hname
    cases hname

theorem isInSettings_of_switchOf {v : Json} (h : switchOf v = .error e) :
    e.isInSettings = true := by
  unfold switchOf at h
  split at h
  · cases h
  · cases h
    rfl

/-- A severity is unknown, or its name cannot be written. -/
theorem severityOf_eq_error {v : Json} (h : severityOf v = .error e) :
    e.isInSettings = true ∨ e = .unwritable ∧ v.isWritable = false := by
  obtain htext | ⟨name, -, h⟩ := eq_error_or_of_bind_eq_error h
  · exact .inr (textOf_eq_error htext)
  · split at h
    · cases h
    · cases h
      exact .inl rfl

theorem severityOf_eq_unwritable {v : Json} (h : v.isWritable = false) :
    severityOf v = .error .unwritable := by
  unfold severityOf
  rw [textOf_eq_unwritable h, error_bind]

theorem text?_int_eq_none_iff {n : Int} :
    (Quantity.int n).text? = none ↔ Text.isWritable n = false := by
  rw [Quantity.text?, Quantity.toJson, Json.text?_eq_none_iff, Json.isWritable_int]

/-- A limit below one cannot be shown if it is far enough below. -/
theorem atLeastOne_eq_error {key : String} {n : Int} (h : atLeastOne key (.int n) = .error e) :
    e.isInSettings = true ∨ e = .unwritable ∧ n ≤ -10 ^ Text.maxDigits := by
  unfold atLeastOne at h
  split at h
  · next hbelow =>
    rw [← Except.error.inj h]
    refine (isInSettings_showing fun s => rfl).imp_right fun ⟨he, hnone⟩ => ⟨he, ?_⟩
    exact Text.le_neg_pow_iff.2 ⟨of_decide_eq_true hbelow, text?_int_eq_none_iff.1 hnone⟩
  · cases h

/-- The converse: a limit that far below one is wrong, and the error cannot show it. -/
theorem atLeastOne_eq_unwritable (key : String) {n : Int} (h : n ≤ -10 ^ Text.maxDigits) :
    atLeastOne key (.int n) = .error .unwritable := by
  obtain ⟨hbelow, hlong⟩ := Text.le_neg_pow_iff.1 h
  have htext := text?_int_eq_none_iff.2 hlong
  have hone : (Quantity.int n).below 1 = true := decide_eq_true hbelow
  unfold atLeastOne
  rw [if_pos hone, htext]
  rfl

/-- A time limit that was read is a number with fraction, and can be shown. -/
theorem isInSettings_of_positiveLimit {limit : Option Quantity}
    (hfloat : ∀ q, limit = some q → ∃ x, q = .float x) (h : positiveLimit limit = .error e) :
    e.isInSettings = true := by
  cases limit with
  | none => cases h
  | some q =>
    obtain ⟨x, rfl⟩ := hfloat q rfl
    have hq := eq_error_of_map_eq_error h
    unfold positive at hq
    split at hq
    · cases hq
      rfl
    · cases hq

/-! ## Errors of the settings

Two errors are not in the settings: a time that is out of range, and a wrong value that cannot be
shown. Each has a condition on the fields that says exactly when it comes. -/

/-- The settings in front of the time limit can be read, and it is a whole number that is out of
range. -/
structure TimeOutOfRange (fields : List (String × Json)) : Prop extends ReadsWorkers fields where
  seconds : ∃ n : Int, (Json.obj fields).get? "timeout_seconds" = some (.int n) ∧
    2 ^ 1024 - 2 ^ 970 ≤ n.natAbs

/-- A value that is wrong, or a name among the routines, cannot be written, and everything that is
read or checked in front of it is right. -/
inductive Unwritable (fields : List (String × Json)) : Prop
  | depth (front : ReadsRules fields) {v : Json}
      (given : (Json.obj fields).get? "max_call_depth" = some v) (wrong : Unshowable v)
  | workers (front : ReadsDepth fields) {v : Json}
      (given : (Json.obj fields).get? "max_workers" = some v) (wrong : Unshowable v)
  | timeout (front : ReadsWorkers fields) {v : Json}
      (given : (Json.obj fields).get? "timeout_seconds" = some v) (wrong : Unshowable v)
  | routines (front : ReadsTimeout fields) {items : List Json}
      (given : (Json.obj fields).get? "non_constant_time_functions" = some (.arr items))
      (long : (Json.arr items).isWritable = false)
  | severity (front : ReadsSwitch fields) {v : Json}
      (given : (Json.obj fields).get? "min_severity" = some v) (long : v.isWritable = false)
  | depthBound (front : ReadsAll fields) {n : Int}
      (given : (Json.obj fields).get? "max_call_depth" = some (.int n))
      (low : n ≤ -10 ^ Text.maxDigits)
  | workersBound (front : ReadsAll fields)
      (depth : ∃ q, optional (.obj fields) "max_call_depth" default.maxCallDepth
        (integerOf "max_call_depth") = .ok q ∧ q.below 1 = false) {n : Int}
      (given : (Json.obj fields).get? "max_workers" = some (.int n))
      (low : n ≤ -10 ^ Text.maxDigits)

/-- A limit that fails its check is not the default, and it is a whole number. -/
theorem bound_eq_error {raw : Json} {key : String} {unset : Int} {q : Quantity} (hunset : 1 ≤ unset)
    (hread : optional raw key (.int unset) (integerOf key) = .ok q)
    (h : atLeastOne key q = .error e) :
    e.isInSettings = true ∨ e = .unwritable ∧
      ∃ n : Int, raw.get? key = some (.int n) ∧ n ≤ -10 ^ Text.maxDigits := by
  cases hget : raw.get? key with
  | none =>
    rw [optional, hget] at hread
    cases hread
    rw [atLeastOne, if_neg (by simpa [Quantity.below] using hunset)] at h
    cases h
  | some v =>
    rw [optional_of_get? _ _ hget] at hread
    unfold integerOf at hread
    split at hread
    · next n =>
      cases hread
      exact (atLeastOne_eq_error h).imp_right fun ⟨he, low⟩ => ⟨he, n, rfl, low⟩
    · cases hread

/-- Every way to fail is an error in the settings or one of the two exceptions, with its
condition. -/
theorem Fails.cases (h : Fails fields e) :
    e.isInSettings = true ∨ (e = .timeOutOfRange ∧ TimeOutOfRange fields) ∨
      e = .unwritable ∧ Unwritable fields := by
  cases h with
  | unknown h he =>
    rw [he]
    exact .inl rfl
  | rules known h =>
    obtain ⟨v, -, hv⟩ := optional_eq_error h
    exact .inl (isInSettings_of_rulesOf hv)
  | depth front h =>
    obtain ⟨v, given, hv⟩ := optional_eq_error h
    exact (integerOf_eq_error hv).imp_right fun ⟨he, wrong⟩ => .inr ⟨he, .depth front given wrong⟩
  | workers front h =>
    obtain ⟨v, given, hv⟩ := optional_eq_error h
    exact (integerOf_eq_error hv).imp_right fun ⟨he, wrong⟩ => .inr ⟨he, .workers front given wrong⟩
  | timeout front h =>
    obtain ⟨v, given, hv⟩ := optional_eq_error h
    rcases limitOf_eq_error hv with hin | ⟨he, n, rfl, hn⟩ | ⟨he, wrong⟩
    · exact .inl hin
    · exact .inr (.inl ⟨he, front, n, given, (Decimal.ofInt?_eq_none_iff n).1 hn⟩)
    · exact .inr (.inr ⟨he, .timeout front given wrong⟩)
  | routines front h =>
    obtain ⟨v, given, hv⟩ := optional_eq_error h
    refine (routinesOf_eq_error (eq_error_of_map_eq_error hv)).imp_right ?_
    rintro ⟨he, items, rfl, long⟩
    exact .inr ⟨he, .routines front given long⟩
  | switch front h =>
    obtain ⟨v, -, hv⟩ := optional_eq_error h
    exact .inl (isInSettings_of_switchOf hv)
  | severity front h =>
    obtain ⟨v, given, hv⟩ := optional_eq_error h
    exact (severityOf_eq_error hv).imp_right fun ⟨he, long⟩ => .inr ⟨he, .severity front given long⟩
  | depthBound front hdepth h =>
    refine (bound_eq_error (by decide) hdepth h).imp_right ?_
    rintro ⟨he, n, given, low⟩
    exact .inr ⟨he, .depthBound front given low⟩
  | workersBound front hdepth hworkers hbelow h =>
    refine (bound_eq_error (by decide) hworkers h).imp_right ?_
    rintro ⟨he, n, given, low⟩
    exact .inr ⟨he, .workersBound front ⟨_, hdepth, hbelow⟩ given low⟩
  | timeoutBound front hdepth hworkers hlimit hbelow hbelow' h =>
    -- a time limit that was read has a fraction, so it can be shown
    refine .inl (isInSettings_of_positiveLimit (fun q hq => ?_) h)
    subst hq
    rcases optional_eq_ok hlimit with hnone | ⟨v, hv⟩
    · cases hnone
    · exact exists_float_of_limitOf hv

/-- The first condition is sufficient. -/
theorem TimeOutOfRange.fails (h : TimeOutOfRange fields) : Fails fields .timeOutOfRange := by
  obtain ⟨n, given, hlarge⟩ := h.seconds
  refine .timeout h.toReadsWorkers ?_
  rw [optional_of_get? _ _ given]
  exact limitOf_int ((Decimal.ofInt?_eq_none_iff n).2 hlarge)

/-- The second condition is sufficient, in each of its cases. -/
theorem Unwritable.fails (h : Unwritable fields) : Fails fields .unwritable := by
  cases h with
  | depth front given wrong =>
    refine .depth front ?_
    rw [optional_of_get? _ _ given]
    exact wrong.integerOf_eq _
  | workers front given wrong =>
    refine .workers front ?_
    rw [optional_of_get? _ _ given]
    exact wrong.integerOf_eq _
  | timeout front given wrong =>
    refine .timeout front ?_
    rw [optional_of_get? _ _ given]
    exact wrong.limitOf_eq
  | routines front given long =>
    refine .routines front ?_
    rw [optional_of_get? _ _ given, routinesOf_eq_unwritable long]
    rfl
  | severity front given long =>
    refine .severity front ?_
    rw [optional_of_get? _ _ given]
    exact severityOf_eq_unwritable long
  | depthBound front given low =>
    refine .depthBound front (optional_of_get? _ _ given) ?_
    exact atLeastOne_eq_unwritable _ low
  | workersBound front depth given low =>
    obtain ⟨q, hdepth, hbelow⟩ := depth
    refine .workersBound front hdepth (optional_of_get? _ _ given) hbelow ?_
    exact atLeastOne_eq_unwritable _ low

/-- **What reading settings ends with**: settings with limits in range and rules in order, an error
in the settings, or one of two other errors. A time out of range is reported exactly where the
settings in front of the time limit can be read and the limit is a whole number of at least
`2 ^ 1024 - 2 ^ 970`, with either sign. A value that cannot be written is reported exactly where it
has to be shown, or taken as a name, and nothing in front of it is wrong. -/
theorem ofJson_inRange_or_isInSettings (raw : Json) :
    (∀ c, ofJson raw = .ok c → c.InRange raw) ∧
      (∀ e, ofJson raw = .error e → e.isInSettings = true ∨ e = .timeOutOfRange ∨ e = .unwritable) ∧
        (ofJson raw = .error .timeOutOfRange ↔ ∃ fields, raw = .obj fields ∧
          TimeOutOfRange fields) ∧
          (ofJson raw = .error .unwritable ↔ ∃ fields, raw = .obj fields ∧ Unwritable fields) := by
  refine ⟨fun c => inRange_of_ofJson, fun e he => ?_, ⟨fun h => ?_, ?_⟩, ⟨fun h => ?_, ?_⟩⟩
  · cases raw with
    | null => cases he
    | obj fields =>
      exact (ofJson_obj_eq_error_iff.1 he).cases.imp_right fun h => h.imp And.left And.left
    | bool | int | float | str | arr =>
      cases he
      exact .inl rfl
  · cases raw with
    | obj fields =>
      rcases (ofJson_obj_eq_error_iff.1 h).cases with hin | ⟨-, hrange⟩ | ⟨he, -⟩
      · cases hin
      · exact ⟨fields, rfl, hrange⟩
      · cases he
    | null | bool | int | float | str | arr => cases h
  · rintro ⟨fields, rfl, hrange⟩
    exact hrange.fails.ofJson_eq
  · cases raw with
    | obj fields =>
      rcases (ofJson_obj_eq_error_iff.1 h).cases with hin | ⟨he, -⟩ | ⟨-, hlong⟩
      · cases hin
      · cases he
      · exact ⟨fields, rfl, hlong⟩
    | null | bool | int | float | str | arr => cases h
  · rintro ⟨fields, rfl, hlong⟩
    exact hlong.fails.ofJson_eq

/-- Settings with rules out of order and twice, and with one limit. -/
def shuffled : List (String × Json) :=
  [("enabled_rules", .arr [.str "r3", .str "R1", .str "R3"]), ("max_workers", .int 2)]

/-- The rules come out in order and once each; what is not given has its default. -/
theorem inRange_shuffled :
    ∃ c, ofJson (.obj shuffled) = .ok c ∧ c.rules = [.secretPath, .conditionalScrub] ∧
      c.InRange (.obj shuffled) :=
  ⟨_, rfl, rfl, (ofJson_inRange_or_isInSettings (.obj shuffled)).1 _ rfl⟩

/-- A time limit of `10 ^ 400` seconds is an error, but not one in the settings. -/
theorem ofJson_timeout_unlimited :
    ofJson (.obj [("timeout_seconds", .int (10 ^ 400))]) = .error .timeOutOfRange ∧
      ConfigError.timeOutOfRange.isInSettings = false := by
  have front : ReadsWorkers [("timeout_seconds", .int (10 ^ 400))] :=
    ⟨⟨⟨by decide, _, rfl⟩, _, rfl⟩, _, rfl⟩
  refine ⟨TimeOutOfRange.fails ⟨front, 10 ^ 400, rfl, ?_⟩ |>.ofJson_eq, rfl⟩
  decide +kernel

/-- A depth far below one is wrong, but the error cannot show it. -/
example : ofJson (.obj [("max_call_depth", .int (-10 ^ Text.maxDigits))]) = .error .unwritable :=
  have front : ReadsAll [("max_call_depth", .int (-10 ^ Text.maxDigits))] :=
    ⟨⟨⟨⟨⟨⟨⟨by decide, _, rfl⟩, _, rfl⟩, _, rfl⟩, _, rfl⟩, _, rfl⟩, _, rfl⟩, _, rfl⟩
  (Unwritable.depthBound front rfl (Int.le_refl _)).fails.ofJson_eq

end Config

end ConstantTime
