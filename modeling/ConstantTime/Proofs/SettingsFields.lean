/-
Settings, field by field.

The fields of an object are read one after the other, each by a rule of its own and with a default
if it is not there; the limits are checked behind that. `ReadFrom` says all of this at once, and an
object gives the settings that its fields tell and no others. `Fails` says the same of errors: the
first field that cannot be read tells the error. What an analysis relies on follows: the routines
are names, and a time limit is a number with fraction.
-/
import ConstantTime.Config
import ConstantTime.Proofs.CallComponents
import ConstantTime.Proofs.Flow

set_option autoImplicit false

namespace ConstantTime

/-- The steps of a computation that succeed are passed by one after the other. -/
theorem ok_bind {ε α β : Type} (a : α) (f : α → Except ε β) : (Except.ok a >>= f) = f a := rfl

/-- A step that fails ends the computation. -/
theorem error_bind {ε α β : Type} (e : ε) (f : α → Except ε β) :
    ((Except.error e : Except ε α) >>= f) = .error e := rfl

namespace Config

/-! ## The fields of an object

Reading an object is one long computation. It is taken apart once, in `ofJson_obj_eq_ok_iff`; from
there on only the readers of the fields matter. -/

variable {fields : List (String × Json)} {c : Config}

/-- A field that is read has its default, or a value that was given for it. -/
theorem optional_eq_ok {α : Type} {raw : Json} {key : String} {unset a : α}
    {read : Json → Except ConfigError α} (h : optional raw key unset read = .ok a) :
    a = unset ∨ ∃ v, read v = .ok a := by
  unfold optional at h
  split at h
  · exact .inr ⟨_, h⟩
  · cases h
    exact .inl rfl

/-- No key is unknown if all are names of settings. -/
theorem unknownKeys_eq_nil_iff : unknownKeys fields = [] ↔ ∀ k ∈ fields.map Prod.fst, k ∈ keys := by
  rw [List.eq_nil_iff_forall_not_mem]
  simp only [unknownKeys, mem_sortNames, mem_distinct, List.mem_filter, decide_eq_true_eq,
    not_and, not_not]

/-- How settings come from the fields of an object. -/
structure ReadFrom (c : Config) (fields : List (String × Json)) : Prop where
  known : ∀ k ∈ fields.map Prod.fst, k ∈ keys
  rules : optional (.obj fields) "enabled_rules" default.rules rulesOf = .ok c.rules
  depth : optional (.obj fields) "max_call_depth" default.maxCallDepth
    (integerOf "max_call_depth") =
    .ok c.maxCallDepth
  workers : optional (.obj fields) "max_workers" default.maxWorkers (integerOf "max_workers") =
    .ok c.maxWorkers
  timeout : optional (.obj fields) "timeout_seconds" default.timeout limitOf = .ok c.timeout
  routines : (optional (.obj fields) "non_constant_time_functions" default.routines fun v =>
    (routinesOf v).map some) = .ok c.routines
  switch : optional (.obj fields) "unresolved_indirect_call_is_non_constant_time"
    default.unresolvedIsVariableTime
    switchOf = .ok c.unresolvedIsVariableTime
  severity : optional (.obj fields) "min_severity" default.minSeverity severityOf =
    .ok c.minSeverity
  depth_below : c.maxCallDepth.below 1 = false
  workers_below : c.maxWorkers.below 1 = false
  timeout_atMost : ∀ q, c.timeout = some q → q.atMost 0 = false

/-- The check of a limit changes nothing. -/
theorem atLeastOne_eq_ok_iff {key : String} {q q' : Quantity} :
    atLeastOne key q = .ok q' ↔ q = q' ∧ q'.below 1 = false := by
  unfold atLeastOne
  split
  · next h =>
    refine ⟨nofun, fun h' => ?_⟩
    rw [← h'.1, h] at h'
    cases h'.2
  · next h =>
    constructor
    · intro h'
      cases h'
      exact ⟨rfl, Bool.eq_false_iff.2 h⟩
    · rintro ⟨rfl, -⟩
      rfl

/-- The check of a time limit changes nothing, either. -/
theorem positiveLimit_eq_ok_iff {limit limit' : Option Quantity} :
    positiveLimit limit = .ok limit' ↔ limit = limit' ∧ ∀ q, limit' = some q →
      q.atMost 0 = false := by
  cases limit with
  | none =>
    constructor
    · intro h
      cases h
      exact ⟨rfl, nofun⟩
    · rintro ⟨rfl, -⟩
      rfl
  | some q =>
    change (positive q).map some = _ ↔ _
    unfold positive
    split
    · next h =>
      refine ⟨nofun, fun h' => ?_⟩
      have hq := h'.2 q h'.1.symm
      rw [h] at hq
      cases hq
    · next h =>
      constructor
      · intro h'
        cases h'
        refine ⟨rfl, fun q' hq' => ?_⟩
        cases hq'
        exact Bool.eq_false_iff.2 h
      · rintro ⟨rfl, -⟩
        rfl

/-- An object gives the settings that its fields tell, and no others. -/
theorem ofJson_obj_eq_ok_iff : ofJson (.obj fields) = .ok c ↔ c.ReadFrom fields := by
  unfold ofJson
  dsimp only
  constructor
  · intro h
    split at h
    · cases h
    · next hknown =>
      -- one step for each field, then one for each check, which gives back what it was given
      obtain ⟨rules, hrules, h⟩ := exists_of_bind_eq_ok h
      obtain ⟨depth, hdepth, h⟩ := exists_of_bind_eq_ok h
      obtain ⟨workers, hworkers, h⟩ := exists_of_bind_eq_ok h
      obtain ⟨timeout, htimeout, h⟩ := exists_of_bind_eq_ok h
      obtain ⟨routines, hroutines, h⟩ := exists_of_bind_eq_ok h
      obtain ⟨switch, hswitch, h⟩ := exists_of_bind_eq_ok h
      obtain ⟨severity, hseverity, h⟩ := exists_of_bind_eq_ok h
      obtain ⟨depth', hdepth', h⟩ := exists_of_bind_eq_ok h
      obtain ⟨workers', hworkers', h⟩ := exists_of_bind_eq_ok h
      obtain ⟨timeout', htimeout', h⟩ := exists_of_bind_eq_ok h
      obtain ⟨rfl, hdepth'⟩ := atLeastOne_eq_ok_iff.1 hdepth'
      obtain ⟨rfl, hworkers'⟩ := atLeastOne_eq_ok_iff.1 hworkers'
      obtain ⟨rfl, htimeout'⟩ := positiveLimit_eq_ok_iff.1 htimeout'
      cases h
      exact ⟨unknownKeys_eq_nil_iff.1 (not_not.1 hknown), hrules, hdepth, hworkers, htimeout,
        hroutines, hswitch, hseverity, hdepth', hworkers', htimeout'⟩
  · intro h
    have hknown : ¬ unknownKeys fields ≠ [] := not_not.2 (unknownKeys_eq_nil_iff.2 h.known)
    rw [if_neg hknown, h.rules, ok_bind, h.depth, ok_bind, h.workers, ok_bind, h.timeout, ok_bind,
      h.routines, ok_bind, h.switch, ok_bind, h.severity, ok_bind,
      atLeastOne_eq_ok_iff.2 ⟨rfl, h.depth_below⟩, ok_bind,
      atLeastOne_eq_ok_iff.2 ⟨rfl, h.workers_below⟩, ok_bind,
      positiveLimit_eq_ok_iff.2 ⟨rfl, h.timeout_atMost⟩, ok_bind]
    rfl

/-- An object and null are all that settings are read from. -/
theorem readFrom_of_ofJson {raw : Json} (h : ofJson raw = .ok c) :
    (raw = .null ∧ c = default) ∨ ∃ fields, raw = .obj fields ∧ c.ReadFrom fields := by
  cases raw with
  | null =>
    cases h
    exact .inl ⟨rfl, rfl⟩
  | obj fields => exact .inr ⟨fields, rfl, ofJson_obj_eq_ok_iff.1 h⟩
  | bool | int | float | str | arr => cases h

/-! ## Errors

An error comes from the first field that cannot be read, or else from the first limit that is out of
range. So each way to fail says which fields stand in front and that they can be read. -/

/-- The field is not there, or it is and can be read. -/
def Readable {α : Type} (fields : List (String × Json)) (key : String) (unset : α)
    (read : Json → Except ConfigError α) : Prop :=
  ∃ a, optional (.obj fields) key unset read = .ok a

/-- All names are those of settings, and the rules can be read. -/
structure ReadsRules (fields : List (String × Json)) : Prop where
  known : ∀ k ∈ fields.map Prod.fst, k ∈ keys
  rules : Readable fields "enabled_rules" default.rules rulesOf

structure ReadsDepth (fields : List (String × Json)) : Prop extends ReadsRules fields where
  depth : Readable fields "max_call_depth" default.maxCallDepth (integerOf "max_call_depth")

structure ReadsWorkers (fields : List (String × Json)) : Prop extends ReadsDepth fields where
  workers : Readable fields "max_workers" default.maxWorkers (integerOf "max_workers")

structure ReadsTimeout (fields : List (String × Json)) : Prop extends ReadsWorkers fields where
  timeout : Readable fields "timeout_seconds" default.timeout limitOf

structure ReadsRoutines (fields : List (String × Json)) : Prop extends ReadsTimeout fields where
  routines : Readable fields "non_constant_time_functions" default.routines fun v =>
    (routinesOf v).map some

structure ReadsSwitch (fields : List (String × Json)) : Prop extends ReadsRoutines fields where
  switch : Readable fields "unresolved_indirect_call_is_non_constant_time"
    default.unresolvedIsVariableTime switchOf

/-- All fields can be read. -/
structure ReadsAll (fields : List (String × Json)) : Prop extends ReadsSwitch fields where
  severity : Readable fields "min_severity" default.minSeverity severityOf

/-- How settings fail to come from the fields of an object. -/
inductive Fails (fields : List (String × Json)) (e : ConfigError) : Prop
  | unknown (h : unknownKeys fields ≠ []) (he : e = .unknownKeys (unknownKeys fields))
  | rules (known : ∀ k ∈ fields.map Prod.fst, k ∈ keys)
      (h : optional (.obj fields) "enabled_rules" default.rules rulesOf = .error e)
  | depth (front : ReadsRules fields)
      (h : optional (.obj fields) "max_call_depth" default.maxCallDepth
        (integerOf "max_call_depth") = .error e)
  | workers (front : ReadsDepth fields)
      (h : optional (.obj fields) "max_workers" default.maxWorkers (integerOf "max_workers") =
        .error e)
  | timeout (front : ReadsWorkers fields)
      (h : optional (.obj fields) "timeout_seconds" default.timeout limitOf = .error e)
  | routines (front : ReadsTimeout fields)
      (h : (optional (.obj fields) "non_constant_time_functions" default.routines fun v =>
        (routinesOf v).map some) = .error e)
  | switch (front : ReadsRoutines fields)
      (h : optional (.obj fields) "unresolved_indirect_call_is_non_constant_time"
        default.unresolvedIsVariableTime switchOf = .error e)
  | severity (front : ReadsSwitch fields)
      (h : optional (.obj fields) "min_severity" default.minSeverity severityOf = .error e)
  | depthBound (front : ReadsAll fields) {depth : Quantity}
      (hdepth : optional (.obj fields) "max_call_depth" default.maxCallDepth
        (integerOf "max_call_depth") = .ok depth)
      (h : atLeastOne "max_call_depth" depth = .error e)
  | workersBound (front : ReadsAll fields) {depth workers : Quantity}
      (hdepth : optional (.obj fields) "max_call_depth" default.maxCallDepth
        (integerOf "max_call_depth") = .ok depth)
      (hworkers : optional (.obj fields) "max_workers" default.maxWorkers
        (integerOf "max_workers") = .ok workers)
      (hbelow : depth.below 1 = false) (h : atLeastOne "max_workers" workers = .error e)
  | timeoutBound (front : ReadsAll fields) {depth workers : Quantity} {limit : Option Quantity}
      (hdepth : optional (.obj fields) "max_call_depth" default.maxCallDepth
        (integerOf "max_call_depth") = .ok depth)
      (hworkers : optional (.obj fields) "max_workers" default.maxWorkers
        (integerOf "max_workers") = .ok workers)
      (hlimit : optional (.obj fields) "timeout_seconds" default.timeout limitOf = .ok limit)
      (hbelow : depth.below 1 = false) (hbelow' : workers.below 1 = false)
      (h : positiveLimit limit = .error e)

/-- An error is told by the first field that cannot be read, or else by the first limit that is out
of range. -/
theorem fails_of_ofJson {e : ConfigError} (h : ofJson (.obj fields) = .error e) :
    Fails fields e := by
  unfold ofJson at h
  dsimp only at h
  split at h
  · next hunknown =>
    cases h
    exact .unknown hunknown rfl
  · next hknown =>
    -- one step for each field; where it is read, it stands in front of the next
    have known := unknownKeys_eq_nil_iff.1 (not_not.1 hknown)
    obtain hrules | ⟨rules, hrules, h⟩ := eq_error_or_of_bind_eq_error h
    · exact .rules known hrules
    have front : ReadsRules fields := ⟨known, rules, hrules⟩
    obtain hdepth | ⟨depth, hdepth, h⟩ := eq_error_or_of_bind_eq_error h
    · exact .depth front hdepth
    have front : ReadsDepth fields := ⟨front, depth, hdepth⟩
    obtain hworkers | ⟨workers, hworkers, h⟩ := eq_error_or_of_bind_eq_error h
    · exact .workers front hworkers
    have front : ReadsWorkers fields := ⟨front, workers, hworkers⟩
    obtain hlimit | ⟨limit, hlimit, h⟩ := eq_error_or_of_bind_eq_error h
    · exact .timeout front hlimit
    have front : ReadsTimeout fields := ⟨front, limit, hlimit⟩
    obtain hroutines | ⟨routines, hroutines, h⟩ := eq_error_or_of_bind_eq_error h
    · exact .routines front hroutines
    have front : ReadsRoutines fields := ⟨front, routines, hroutines⟩
    obtain hswitch | ⟨switch, hswitch, h⟩ := eq_error_or_of_bind_eq_error h
    · exact .switch front hswitch
    have front : ReadsSwitch fields := ⟨front, switch, hswitch⟩
    obtain hseverity | ⟨severity, hseverity, h⟩ := eq_error_or_of_bind_eq_error h
    · exact .severity front hseverity
    have front : ReadsAll fields := ⟨front, severity, hseverity⟩
    -- then one for each limit
    obtain hbound | ⟨depth', hdepth', h⟩ := eq_error_or_of_bind_eq_error h
    · exact .depthBound front hdepth hbound
    obtain ⟨rfl, hbelow⟩ := atLeastOne_eq_ok_iff.1 hdepth'
    obtain hbound | ⟨workers', hworkers', h⟩ := eq_error_or_of_bind_eq_error h
    · exact .workersBound front hdepth hworkers hbelow hbound
    obtain ⟨rfl, hbelow'⟩ := atLeastOne_eq_ok_iff.1 hworkers'
    obtain hbound | ⟨limit', -, h⟩ := eq_error_or_of_bind_eq_error h
    · exact .timeoutBound front hdepth hworkers hlimit hbelow hbelow' hbound
    cases h

/-- A field that can be read is passed by, if the rest fails whatever was read. -/
theorem Readable.bind_eq_error {α β : Type} {key : String} {unset : α}
    {read : Json → Except ConfigError α} {next : α → Except ConfigError β} {e : ConfigError}
    (h : Readable fields key unset read) (hnext : ∀ a, next a = .error e) :
    (optional (.obj fields) key unset read >>= next) = .error e := by
  obtain ⟨a, ha⟩ := h
  rw [ha, ok_bind]
  exact hnext a

/-- Conversely, what stands in front is passed by, so the error comes through. -/
theorem Fails.ofJson_eq {e : ConfigError} (h : Fails fields e) :
    ofJson (.obj fields) = .error e := by
  have hno (known : ∀ k ∈ fields.map Prod.fst, k ∈ keys) : ¬ unknownKeys fields ≠ [] :=
    not_not.2 (unknownKeys_eq_nil_iff.2 known)
  unfold ofJson
  dsimp only
  -- what can be read in front is passed by, unless a limit is to be checked
  cases h with
  | unknown h he => rw [if_pos h, he]
  | rules known h => rw [if_neg (hno known), h, error_bind]
  | depth front h =>
    rw [if_neg (hno front.known)]
    refine front.rules.bind_eq_error fun _ => ?_
    rw [h, error_bind]
  | workers front h =>
    rw [if_neg (hno front.known)]
    refine front.rules.bind_eq_error fun _ => front.depth.bind_eq_error fun _ => ?_
    rw [h, error_bind]
  | timeout front h =>
    rw [if_neg (hno front.known)]
    refine front.rules.bind_eq_error fun _ => front.depth.bind_eq_error fun _ => ?_
    refine front.workers.bind_eq_error fun _ => ?_
    rw [h, error_bind]
  | routines front h =>
    rw [if_neg (hno front.known)]
    refine front.rules.bind_eq_error fun _ => front.depth.bind_eq_error fun _ => ?_
    refine front.workers.bind_eq_error fun _ => front.timeout.bind_eq_error fun _ => ?_
    rw [h, error_bind]
  | switch front h =>
    rw [if_neg (hno front.known)]
    refine front.rules.bind_eq_error fun _ => front.depth.bind_eq_error fun _ => ?_
    refine front.workers.bind_eq_error fun _ => front.timeout.bind_eq_error fun _ => ?_
    refine front.routines.bind_eq_error fun _ => ?_
    rw [h, error_bind]
  | severity front h =>
    rw [if_neg (hno front.known)]
    refine front.rules.bind_eq_error fun _ => front.depth.bind_eq_error fun _ => ?_
    refine front.workers.bind_eq_error fun _ => front.timeout.bind_eq_error fun _ => ?_
    refine front.routines.bind_eq_error fun _ => front.switch.bind_eq_error fun _ => ?_
    rw [h, error_bind]
  | depthBound front hdepth h =>
    rw [if_neg (hno front.known), hdepth]
    refine front.rules.bind_eq_error fun _ => ?_
    rw [ok_bind]
    refine front.workers.bind_eq_error fun _ => front.timeout.bind_eq_error fun _ => ?_
    refine front.routines.bind_eq_error fun _ => front.switch.bind_eq_error fun _ => ?_
    refine front.severity.bind_eq_error fun _ => ?_
    rw [h, error_bind]
  | workersBound front hdepth hworkers hbelow h =>
    rw [if_neg (hno front.known), hdepth, hworkers]
    refine front.rules.bind_eq_error fun _ => ?_
    rw [ok_bind, ok_bind]
    refine front.timeout.bind_eq_error fun _ => front.routines.bind_eq_error fun _ => ?_
    refine front.switch.bind_eq_error fun _ => front.severity.bind_eq_error fun _ => ?_
    rw [atLeastOne_eq_ok_iff.2 ⟨rfl, hbelow⟩, ok_bind, h, error_bind]
  | timeoutBound front hdepth hworkers hlimit hbelow hbelow' h =>
    rw [if_neg (hno front.known), hdepth, hworkers, hlimit]
    refine front.rules.bind_eq_error fun _ => ?_
    rw [ok_bind, ok_bind, ok_bind]
    refine front.routines.bind_eq_error fun _ => front.switch.bind_eq_error fun _ => ?_
    refine front.severity.bind_eq_error fun _ => ?_
    rw [atLeastOne_eq_ok_iff.2 ⟨rfl, hbelow⟩, ok_bind, atLeastOne_eq_ok_iff.2 ⟨rfl, hbelow'⟩,
      ok_bind, h, error_bind]

/-- An object gives the error that its fields tell, and no other. -/
theorem ofJson_obj_eq_error_iff {e : ConfigError} :
    ofJson (.obj fields) = .error e ↔ Fails fields e :=
  ⟨fails_of_ofJson, Fails.ofJson_eq⟩

/-! ## What an analysis relies on

An analysis needs the names of the routines and, if time is limited, a number of seconds. -/

/-- The settings that an analysis relies on. -/
structure Usable (c : Config) : Prop where
  routines : ∃ names : List String, c.routines = some (names.map .str)
  timeout : ∀ limit, c.timeout = some limit → ∃ seconds, limit = .float seconds

theorem usable_default : default.Usable := ⟨⟨defaultRoutines, rfl⟩, nofun⟩

/-- Routines that were read are names. -/
theorem exists_names_of_routinesOf {raw : Json} {items : List Json}
    (h : routinesOf raw = .ok items) :
    ∃ names : List String, items = names.map .str := by
  unfold routinesOf at h
  split at h
  · obtain ⟨names, -, hnames⟩ := exists_of_map_eq_ok h
    exact ⟨names, hnames.symm⟩
  · split at h
    · cases h
    · cases h
      exact ⟨[], rfl⟩

/-- A time limit that was read is a number with fraction, even if it was given as a whole
number. -/
theorem exists_float_of_limitOf {raw : Json} {limit : Quantity}
    (h : limitOf raw = .ok (some limit)) :
    ∃ seconds, limit = .float seconds := by
  unfold limitOf at h
  split at h
  · cases h
  · obtain ⟨q, hq, hlimit⟩ := exists_of_map_eq_ok h
    cases hlimit
    unfold secondsOf at hq
    split at hq
    · split at hq
      · cases hq
        exact ⟨_, rfl⟩
      · cases hq
    · cases hq
      exact ⟨_, rfl⟩
    · cases hq

/-- Settings that are read from data can be used. -/
theorem usable_of_ofJson {raw : Json} (h : ofJson raw = .ok c) : c.Usable := by
  rcases readFrom_of_ofJson h with ⟨-, rfl⟩ | ⟨fields, -, hread⟩
  · exact usable_default
  · refine ⟨?_, fun q hq => ?_⟩
    · rcases optional_eq_ok hread.routines with hdefault | ⟨v, hv⟩
      · exact ⟨defaultRoutines, hdefault⟩
      · obtain ⟨items, hitems, hsome⟩ := exists_of_map_eq_ok hv
        obtain ⟨names, rfl⟩ := exists_names_of_routinesOf hitems
        exact ⟨names, hsome.symm⟩
    · have htimeout := hread.timeout
      rw [hq] at htimeout
      rcases optional_eq_ok htimeout with hnone | ⟨v, hv⟩
      · cases hnone
      · exact exists_float_of_limitOf hv

end Config

end ConstantTime
