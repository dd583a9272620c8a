/-
How reading a module from data can fail.

Reading looks at the data part by part and either rejects what it finds or goes on. The one thing
that can go wrong besides is that a name is given by a value that cannot be written. Main statement:
a module is read or the data is malformed, unless some whole number in the data has too many
digits.
-/
import ConstantTime.Program.Load
import ConstantTime.Proofs.Flow
import ConstantTime.Proofs.WritableValues

set_option autoImplicit false

namespace ConstantTime

/-! ## The only fault

A computation is taken apart along its steps: if a step has the fault, it does so because of `P`. -/

/-- The computation has no fault but that of a value that cannot be written, and this only if
`P`. -/
def FaultsOnlyIf {α : Type} (P : Prop) (x : Except Abort α) : Prop :=
  ∀ e, x = .error (.fault e) → e = .unwritable ∧ P

namespace FaultsOnlyIf

variable {α β : Type} {P Q : Prop} {x : Except Abort α}

theorem ok (a : α) : FaultsOnlyIf P (.ok a) := by
  intro e h
  cases h

/-- Data that is rejected is malformed, which is no fault. -/
theorem reject (cause : Cause) (f b : String) :
    FaultsOnlyIf P (Decode.reject cause f b : Except Abort α) := by
  intro e h
  cases h

/-- The condition may be weakened, say from a part of the data to all of it. -/
theorem imp (h : FaultsOnlyIf P x) (hPQ : P → Q) : FaultsOnlyIf Q x := by
  intro e he
  obtain ⟨hfault, hP⟩ := h e he
  exact ⟨hfault, hPQ hP⟩

/-- One step after the other: neither has another fault. -/
theorem bind {next : α → Except Abort β} (h : FaultsOnlyIf P x)
    (hnext : ∀ a, FaultsOnlyIf P (next a)) : FaultsOnlyIf P (x >>= next) := by
  intro e he
  rcases eq_error_or_of_bind_eq_error he with hx | ⟨a, -, ha⟩
  · exact h e hx
  · exact hnext a e ha

theorem map {f : α → β} (h : FaultsOnlyIf P x) : FaultsOnlyIf P (x.map f) := by
  intro e he
  exact h e (eq_error_of_map_eq_error he)

/-- A list is read item by item, so the fault is that of an item. -/
theorem collect {f : α → Except Abort β} {xs : List α} (h : ∀ x ∈ xs, FaultsOnlyIf P (f x)) :
    FaultsOnlyIf P (collect f xs) := by
  intro e he
  obtain ⟨x, hx, hfx⟩ := exists_of_collect_eq_error he
  exact h x hx e hfx

/-- The same of a field that may hold no list. -/
theorem listed {part : Json → Except Abort α} {field f b : String} {found : Option (List Json)}
    (h : ∀ items, found = some items → ∀ v ∈ items, FaultsOnlyIf P (part v)) :
    FaultsOnlyIf P (Decode.listed part field f b found) := by
  cases found with
  | none => exact reject _ _ _
  | some items => exact collect (h items rfl)

end FaultsOnlyIf

/-! ## Parts of the data

What is found in a field or an item cannot be written only if the data cannot be written. -/

namespace Decode

variable {raw v : Json} {field : String} {items : List Json}

/-- A field that is present is there. -/
theorem get?_of_present (h : present raw field = some v) : raw.get? field = some v := by
  unfold present at h
  split at h
  · cases h
  · exact h

theorem isWritable_eq_false_of_present (h : present raw field = some v)
    (hlong : v.isWritable = false) : raw.isWritable = false :=
  Json.isWritable_eq_false_of_get? (get?_of_present h) hlong

/-- An item of a list in a field. -/
theorem isWritable_eq_false_of_mem (h : raw.get? field = some (.arr items)) (hv : v ∈ items)
    (hlong : v.isWritable = false) : raw.isWritable = false :=
  Json.isWritable_eq_false_of_get? h (Json.isWritable_arr_eq_false_iff.2 ⟨v, hv, hlong⟩)

/-- An item of a list that may be left out in any way. -/
theorem isWritable_eq_false_of_items? (h : items? raw field = some items) (hv : v ∈ items)
    (hlong : v.isWritable = false) : raw.isWritable = false := by
  unfold items? at h
  split at h
  · cases h
    cases hv
  · next hget =>
    cases h
    exact isWritable_eq_false_of_mem hget hv hlong
  · split at h
    · cases h
    · cases h
      cases hv

/-- An item of a list that may be left out or null. -/
theorem isWritable_eq_false_of_optItems? (h : optItems? raw field = some items) (hv : v ∈ items)
    (hlong : v.isWritable = false) : raw.isWritable = false := by
  unfold optItems? at h
  split at h
  · cases h
    cases hv
  · next hpresent =>
    cases h
    exact isWritable_eq_false_of_mem (get?_of_present hpresent) hv hlong
  · cases h

/-- A field with a word for the case that it is not there. -/
theorem isWritable_eq_false_of_getD {word : String}
    (hlong : ((raw.get? field).getD (.str word)).isWritable = false) : raw.isWritable = false := by
  cases h : raw.get? field with
  | none =>
    rw [h] at hlong
    cases hlong
  | some v =>
    rw [h] at hlong
    exact Json.isWritable_eq_false_of_get? h hlong

/-- The name of a function or a location. -/
theorem isWritable_eq_false_of_givenId (h : givenId raw = some v) (hlong : v.isWritable = false) :
    raw.isWritable = false := by
  unfold givenId at h
  split at h
  · next hget =>
    split at h
    · cases h
      exact Json.isWritable_eq_false_of_get? hget hlong
    · cases h
  · cases h

/-! ## Names and words

Every name and every word is a text first, and that is where the fault comes from. -/

/-- A value has a text unless it cannot be written, and this is the only fault that there is. -/
theorem faultsOnlyIf_text (v : Json) : FaultsOnlyIf (v.isWritable = false) (text v) := by
  unfold text
  split
  · exact .ok _
  · next hnone =>
    intro e he
    cases he
    exact ⟨rfl, Json.text?_eq_none_iff.1 hnone⟩

/-- A text that may be missing, or null. -/
theorem faultsOnlyIf_optText (raw : Json) (field : String) :
    FaultsOnlyIf (raw.isWritable = false) (optText raw field) := by
  unfold optText
  split
  · exact .ok _
  · next v hv => exact ((faultsOnlyIf_text v).imp (isWritable_eq_false_of_present hv)).map

/-- A list of names is as good as its names. -/
theorem faultsOnlyIf_names (raw : Json) (field f b : String) :
    FaultsOnlyIf (raw.isWritable = false) (names raw field f b) := by
  unfold names
  split
  · exact .ok _
  · exact .ok _
  · next items hitems =>
    refine .collect fun v hv => (faultsOnlyIf_text v).imp ?_
    exact isWritable_eq_false_of_mem (get?_of_present hitems) hv
  · exact .reject _ _ _

/-- Once a word is read it is known or rejected. Sensitivities, opcodes and storages are such
words. -/
theorem faultsOnlyIf_word {α : Type} (ofName? : String → Option α) (unknown : String → Cause)
    (f b : String) (v : Json) :
    FaultsOnlyIf (v.isWritable = false) (word ofName? unknown f b v) := by
  refine (faultsOnlyIf_text v).bind fun word => ?_
  split
  · exact .ok _
  · exact .reject _ _ _

/-! ## Parts of a module

Each decoder is followed step by step; a step that rejects has no fault, and a step that reads a
part has only that of the part. -/

/-- A parameter is a name, or an object with one. -/
theorem faultsOnlyIf_param (f : String) (raw : Json) :
    FaultsOnlyIf (raw.isWritable = false) (param f raw) := by
  unfold param
  split
  · exact .ok _
  · split
    · exact .reject _ _ _
    · next v hv =>
      refine ((faultsOnlyIf_text v).imp (Json.isWritable_eq_false_of_get? hv)).bind fun value => ?_
      refine ((faultsOnlyIf_word _ _ f "" _).imp isWritable_eq_false_of_getD).bind fun s => ?_
      exact .ok _

/-- All six parts of an instruction are names or lists of names. -/
theorem faultsOnlyIf_instr (f b : String) (raw : Json) :
    FaultsOnlyIf (raw.isWritable = false) (instr f b raw) := by
  unfold instr
  split
  · exact .reject _ _ _
  · next op hop =>
    refine ((faultsOnlyIf_word _ _ f b op).imp (Json.isWritable_eq_false_of_get? hop)).bind
      fun op => ?_
    refine (faultsOnlyIf_names raw "inputs" f b).bind fun inputs => ?_
    refine (faultsOnlyIf_optText raw "output").bind fun output => ?_
    refine (faultsOnlyIf_names raw "targets" f b).bind fun targets => ?_
    refine (faultsOnlyIf_optText raw "location").bind fun location => ?_
    refine (faultsOnlyIf_optText raw "callee").bind fun callee => ?_
    exact .ok _

/-- The instructions are read after the name of the block, which their errors tell. -/
theorem faultsOnlyIf_block (f : String) (raw : Json) :
    FaultsOnlyIf (raw.isWritable = false) (block f raw) := by
  unfold block
  split
  · exact .reject _ _ _
  · next id hid =>
    refine ((faultsOnlyIf_text id).imp (isWritable_eq_false_of_present hid)).bind fun id => ?_
    refine .bind (.listed fun items hitems v hv => ?_) fun instrs => .ok _
    exact (faultsOnlyIf_instr f id v).imp (isWritable_eq_false_of_items? hitems hv)

/-- A location has a name and up to three words more. -/
theorem faultsOnlyIf_location (f : String) (raw : Json) :
    FaultsOnlyIf (raw.isWritable = false) (location f raw) := by
  unfold location
  split
  · exact .reject _ _ _
  · next id hid =>
    refine ((faultsOnlyIf_word _ _ f "" _).imp isWritable_eq_false_of_getD).bind fun s => ?_
    refine ((faultsOnlyIf_text id).imp (isWritable_eq_false_of_givenId hid)).bind fun id => ?_
    refine (faultsOnlyIf_optText raw "base").bind fun base => ?_
    exact .ok _

theorem faultsOnlyIf_locations (f : String) (raw : Json) :
    FaultsOnlyIf (raw.isWritable = false) (locations f raw) := by
  refine .listed fun items hitems v hv => (faultsOnlyIf_location f v).imp ?_
  exact isWritable_eq_false_of_optItems? hitems hv

theorem faultsOnlyIf_params (f : String) (raw : Json) :
    FaultsOnlyIf (raw.isWritable = false) (params f raw) := by
  refine .listed fun items hitems v hv => (faultsOnlyIf_param f v).imp ?_
  exact isWritable_eq_false_of_optItems? hitems hv

theorem faultsOnlyIf_returns (f : String) (raw : Json) :
    FaultsOnlyIf (raw.isWritable = false) (returns f raw) := by
  unfold returns
  split
  · exact .ok _
  · next v hv =>
    exact ((faultsOnlyIf_word _ _ f "" v).imp (isWritable_eq_false_of_present hv)).map

/-- The blocks of a function, in order; one that is wrong ends the reading. -/
theorem faultsOnlyIf_blocks (f : String) (raw : Json) :
    FaultsOnlyIf (raw.isWritable = false) (blocks f raw) := by
  refine .listed fun items hitems v hv => (faultsOnlyIf_block f v).imp ?_
  exact isWritable_eq_false_of_items? hitems hv

/-- The parts of a function are read after its name, which their errors tell. -/
theorem faultsOnlyIf_function (raw : Json) :
    FaultsOnlyIf (raw.isWritable = false) (function raw) := by
  unfold function
  split
  · exact .reject _ _ _
  · next id hid =>
    refine ((faultsOnlyIf_text id).imp (isWritable_eq_false_of_givenId hid)).bind fun id => ?_
    refine (faultsOnlyIf_params id raw).bind fun params => ?_
    refine (faultsOnlyIf_returns id raw).bind fun returns => ?_
    refine (faultsOnlyIf_blocks id raw).bind fun blocks => ?_
    refine (faultsOnlyIf_locations id raw).bind fun locations => ?_
    exact .ok _

theorem faultsOnlyIf_moduleName (defaultName : String) (raw : Json) :
    FaultsOnlyIf (raw.isWritable = false) (moduleName defaultName raw) := by
  unfold moduleName
  split
  · next v hv =>
    split
    · exact (faultsOnlyIf_text v).imp (Json.isWritable_eq_false_of_get? hv)
    · exact .ok _
  · exact .ok _

end Decode

/-! ## Modules

The parts together, with the data as a whole. -/

namespace Module

/-- Reading a module faults only if the data cannot be written. -/
theorem faultsOnlyIf_decode (defaultName : String) (raw : Json) :
    FaultsOnlyIf (raw.isWritable = false) (decode defaultName raw) := by
  unfold decode
  split
  · split
    · exact .reject _ _ _
    · next items hitems =>
      refine (Decode.faultsOnlyIf_moduleName defaultName _).bind fun name => ?_
      refine .bind (.collect fun v hv => ?_) fun functions => ?_
      · exact (Decode.faultsOnlyIf_function v).imp (Decode.isWritable_eq_false_of_items? hitems hv)
      · exact (Decode.faultsOnlyIf_locations "" _).bind fun locations => .ok _
  · exact .reject _ _ _

end Module

end ConstantTime
