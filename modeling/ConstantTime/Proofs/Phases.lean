/-
What a phase gives, whatever the clock says and in whatever order results arrive.

A computation that asks for the time has one outcome for each clock. `Timed.Always` states a
property of all of them, and it goes through the steps of a computation. With it the outcome of a
phase is described once for every schedule: a phase fails only with the error of one of its tasks;
what it gives came out of a task; if no task was late it gives something for every function; and
without a deadline no task is late.
-/
import Mathlib.Data.List.Nodup
import ConstantTime.Analysis.Phase
import ConstantTime.Proofs.Flow

set_option autoImplicit false

namespace ConstantTime

/-! ## All outcomes of a computation

The laws of `Always`, one for each way to build a computation. -/

namespace Timed

variable {τ α β : Type} {P : α → Prop} {Q : β → Prop}

/-- Every clock leads to an outcome with the property. -/
def Always (P : α → Prop) (c : Timed τ α) : Prop := ∀ clock n, P (c.answer clock n).1

theorem always_done {a : α} (h : P a) : (done a : Timed τ α).Always P := fun _ _ => h

/-- A computation that asks has the outcomes of all the answers that it may get. -/
theorem always_ask {left : RunState} {next : τ → Timed τ α} (h : ∀ t, (next t).Always P) :
    (ask left next).Always P :=
  fun clock n => h (clock n) clock (n + 1)

/-- Two computations, one after the other. -/
theorem Always.bind {c : Timed τ α} {next : α → Timed τ β} (hc : c.Always P)
    (hnext : ∀ a, P a → (next a).Always Q) :
    (c.bind next).Always Q := by
  intro clock n
  rw [answer_bind]
  exact hnext _ (hc clock n) clock _

theorem Always.map {c : Timed τ α} {f : α → β} (hc : c.Always P) (hf : ∀ a, P a → Q (f a)) :
    (c.map f).Always Q :=
  hc.bind fun a ha => always_done (hf a ha)

/-- What is true of all that may follow is true in the end, whatever comes first. -/
theorem always_bind (c : Timed τ α) {next : α → Timed τ β} (hnext : ∀ a, (next a).Always Q) :
    (c.bind next).Always Q := by
  have hany : c.Always fun _ => True := fun _ _ => trivial
  exact hany.bind fun a _ => hnext a

end Timed

/-! ## Tables of results

Results are entered by name. The names of functions are distinct, so none is overwritten. -/

namespace Table

variable {α : Type}

/-- What a table holds was entered. -/
theorem mem_of_get?_ofList {l : List (String × α)} {name : String} {v : α}
    (h : (ofList l).get? name = some v) :
    (name, v) ∈ l := by
  induction l using List.reverseRecOn with
  | nil => cases h
  | append_singleton l e ih =>
    rw [ofList, List.foldl_append, List.foldl_cons, List.foldl_nil, get?_set] at h
    split at h
    · next hname =>
      cases h
      subst hname
      exact List.mem_append_right l (List.mem_singleton.2 rfl)
    · exact List.mem_append_left [e] (ih h)

/-- A name that was entered is found. -/
theorem exists_get?_ofList {l : List (String × α)} {name : String} (h : name ∈ l.map Prod.fst) :
    ∃ v, (ofList l).get? name = some v := by
  induction l using List.reverseRecOn with
  | nil => cases h
  | append_singleton l e ih =>
    rw [ofList, List.foldl_append, List.foldl_cons, List.foldl_nil, get?_set]
    by_cases hname : e.1 = name
    · exact ⟨e.2, if_pos hname⟩
    · rw [if_neg hname]
      rw [List.map_append, List.mem_append] at h
      exact ih (h.resolve_right fun hlast => hname (List.mem_singleton.1 hlast).symm)

end Table

/-! ## Tasks

A task is late, fails or is done. The first is possible only with a deadline. -/

namespace Phase

variable {τ ε β : Type} {deadline : Deadline τ} {task : Function → Except ε β}
    {functions : List Function}

/-- What may become of the task of `f`. -/
inductive Possible (deadline : Deadline τ) (task : Function → Except ε β) (f : Function) :
    Slot ε β → Prop
  | done {v : β} (h : task f = .ok v) : Possible deadline task f (.done v)
  | failed {e : ε} (h : task f = .error e) : Possible deadline task f (.failed e)
  | late (h : deadline ≠ none) : Possible deadline task f .late

/-- A task that runs fails or is done. -/
theorem possible_attempt (deadline : Deadline τ) (task : Function → Except ε β) (f : Function) :
    Possible deadline task f (attempt task f) := by
  unfold attempt
  split
  · next v h => exact .done h
  · next e h => exact .failed h

/-- A task that is given a reading of the clock may be late as well. -/
theorem always_slot (deadline : Deadline τ) (task : Function → Except ε β) (f : Function) :
    (slot deadline task f).Always (Possible deadline task f) := by
  cases deadline with
  | none => exact Timed.always_done (possible_attempt none task f)
  | some late =>
    refine Timed.always_ask fun t => Timed.always_done ?_
    by_cases ht : late t = true
    · rw [if_pos ht]
      exact .late (Option.some_ne_none late)
    · rw [if_neg ht]
      exact possible_attempt (some late) task f

/-! ## Phases

`Covers` is what a phase that did not fail guarantees, and `Outcome` adds the ways to fail. -/

/-- What a phase says is right, and nothing is missing unless a task was late. -/
structure Covers (deadline : Deadline τ) (task : Function → Except ε β) (functions : List Function)
    (p : Phase β) :
    Prop where
  output : ∀ name v, (name, v) ∈ p.outputs → ∃ f ∈ functions, f.id = name ∧ task f = .ok v
  complete : p.timedOut = false → ∀ f ∈ functions, ∃ v, task f = .ok v ∧ (f.id, v) ∈ p.outputs
  timely : deadline = none → p.timedOut = false

/-- What a phase may give. -/
inductive Outcome (deadline : Deadline τ) (task : Function → Except ε β)
    (functions : List Function) : Except (Stop ε) (Phase β) → Prop
  | failed {f : Function} {s : Stop ε} (hf : f ∈ functions) (h : task f = .error s.error)
    (htimely : deadline = none → s.timedOut = false) : Outcome deadline task functions (.error s)
  | ran {p : Phase β} (h : p.Covers deadline task functions) :
    Outcome deadline task functions (.ok p)

/-- One more task that was done. -/
theorem Covers.add {p : Phase β} (h : p.Covers deadline task functions) {f : Function} {v : β}
    (hv : task f = .ok v) : (p.add f.id v).Covers deadline task (f :: functions) where
  output := by
    intro name w hmem
    rcases List.mem_cons.1 hmem with heq | hmem
    · cases heq
      exact ⟨f, List.mem_cons_self, rfl, hv⟩
    · obtain ⟨f', hf', hout⟩ := h.output name w hmem
      exact ⟨f', List.mem_cons_of_mem f hf', hout⟩
  complete := by
    intro htime f' hf'
    rcases List.mem_cons.1 hf' with rfl | hf'
    · exact ⟨v, hv, List.mem_cons_self⟩
    · obtain ⟨w, hw, hmem⟩ := h.complete htime f' hf'
      exact ⟨w, hw, List.mem_cons_of_mem _ hmem⟩
  timely := h.timely

/-- The result of one more function may be put in front. -/
theorem Outcome.map_add {o : Except (Stop ε) (Phase β)} (h : Outcome deadline task functions o)
    {f : Function} {v : β} (hv : task f = .ok v) :
    Outcome deadline task (f :: functions) (o.map (Phase.add f.id v)) := by
  cases h with
  | failed hf' he htimely => exact .failed (List.mem_cons_of_mem f hf') he htimely
  | ran hp => exact .ran (hp.add hv)

/-- A phase that stops at a late task. -/
theorem covers_late (h : deadline ≠ none) : (⟨[], true⟩ : Phase β).Covers deadline task functions :=
  ⟨fun _ _ hmem => absurd hmem List.not_mem_nil, fun htime => absurd htime.symm Bool.false_ne_true,
    fun hnone => absurd hnone h⟩

/-- One after the other: a late task ends the phase, and so does a failed one. -/
theorem always_sequentially (deadline : Deadline τ) (task : Function → Except ε β)
    (functions : List Function) :
    (sequentially deadline task functions).Always (Outcome deadline task functions) := by
  induction functions with
  | nil =>
    refine Timed.always_done
      (.ran ⟨fun _ _ hmem => absurd hmem List.not_mem_nil, fun _ f hf => ?_, fun _ => rfl⟩)
    exact absurd hf List.not_mem_nil
  | cons f rest ih =>
    refine (always_slot deadline task f).bind fun s hs => ?_
    cases hs with
    | done hv => exact ih.map fun others hothers => hothers.map_add hv
    | failed he => exact Timed.always_done (.failed List.mem_cons_self he fun _ => rfl)
    | late hlate => exact Timed.always_done (.ran (covers_late hlate))

/-! ### Side by side

The results are gathered in the order in which they arrive. A failed task ends the gathering, and a
late one is noted, so the outcome is that of some task whatever the order. -/

/-- All tasks get a slot. -/
theorem always_slots (deadline : Deadline τ) (task : Function → Except ε β)
    (functions : List Function) :
    (slots deadline task functions).Always
      (List.Forall₂ (fun f x => x.1 = f.id ∧ Possible deadline task f x.2) functions) := by
  induction functions with
  | nil => exact Timed.always_done .nil
  | cons f rest ih =>
    exact (always_slot deadline task f).bind fun s hs => ih.map fun others hothers =>
      .cons ⟨rfl, hs⟩ hothers

/-- A task that was late leaves results as they are. -/
theorem exists_of_setLate_eq_ok {o : Except (Stop ε) (Phase β)} {p : Phase β}
    (h : setLate o = .ok p) : ∃ q, o = .ok q ∧ p = { q with timedOut := true } := by
  cases o with
  | error s => cases h
  | ok q =>
    cases h
    exact ⟨q, rfl, rfl⟩

/-- A task that was late leaves a failure as it is. -/
theorem exists_of_setLate_eq_error {o : Except (Stop ε) (Phase β)} {s : Stop ε}
    (h : setLate o = .error s) : ∃ s', o = .error s' ∧ s = { s' with timedOut := true } := by
  cases o with
  | ok q => cases h
  | error s' =>
    cases h
    exact ⟨s', rfl, rfl⟩

/-- What is gathered is what was done, provided nothing failed. -/
theorem gather_eq_ok {all : List (String × Slot ε β)} {p : Phase β} (h : gather all = .ok p) :
    (∀ name v, (name, v) ∈ p.outputs ↔ (name, .done v) ∈ all) ∧
      (p.timedOut = true ↔ ∃ name, (name, Slot.late) ∈ all) ∧
        ∀ name e, (name, .failed e) ∉ all := by
  induction all generalizing p with
  | nil =>
    cases h
    simp
  | cons x rest ih =>
    obtain ⟨f, s⟩ := x
    cases s with
    | failed e => cases h
    | done v =>
      obtain ⟨q, hrest, rfl⟩ := exists_of_map_eq_ok h
      obtain ⟨houtputs, htime, hfailed⟩ := ih hrest
      simp [add, houtputs, htime, hfailed]
    | late =>
      obtain ⟨q, hrest, rfl⟩ := exists_of_setLate_eq_ok h
      obtain ⟨houtputs, -, hfailed⟩ := ih hrest
      simp [houtputs, hfailed]

/-- A failure that ends a phase has arrived, and a task counts as late if it did so before. -/
theorem gather_eq_error {all : List (String × Slot ε β)} {s : Stop ε} (h : gather all = .error s) :
    ∃ before name after, all = before ++ (name, Slot.failed s.error) :: after ∧
      (s.timedOut = true ↔ ∃ late, (late, Slot.late) ∈ before) := by
  induction all generalizing s with
  | nil => cases h
  | cons x rest ih =>
    obtain ⟨f, slot⟩ := x
    cases slot with
    | failed e =>
      cases h
      exact ⟨[], f, rest, rfl, by simp⟩
    | done v =>
      obtain ⟨before, name, after, rfl, hlate⟩ := ih (eq_error_of_map_eq_error h)
      exact ⟨(f, .done v) :: before, name, after, rfl, by simp [hlate]⟩
    | late =>
      obtain ⟨s', hrest, rfl⟩ := exists_of_setLate_eq_error h
      obtain ⟨before, name, after, rfl, -⟩ := ih hrest
      exact ⟨(f, .late) :: before, name, after, rfl, by simp⟩

/-- Gathering fails with the error of one of the tasks. -/
theorem exists_failed_of_gather {all : List (String × Slot ε β)} {s : Stop ε}
    (h : gather all = .error s) : ∃ name, (name, Slot.failed s.error) ∈ all := by
  obtain ⟨before, name, after, rfl, -⟩ := gather_eq_error h
  exact ⟨name, List.mem_append_right before List.mem_cons_self⟩

/-- If none of the tasks was late, a failure says so. -/
theorem timedOut_eq_false_of_gather {all : List (String × Slot ε β)} {s : Stop ε}
    (h : gather all = .error s) (hlate : ∀ name, (name, Slot.late) ∉ all) : s.timedOut = false := by
  obtain ⟨before, name, after, rfl, hbefore⟩ := gather_eq_error h
  rw [← Bool.not_eq_true, hbefore]
  rintro ⟨late, hmem⟩
  exact hlate late (List.mem_append_left _ hmem)

/-- The order in which slots arrive does not matter for what is true of them. -/
theorem outcome_gather {all arrived : List (String × Slot ε β)} (hperm : arrived.Perm all)
    (hall : List.Forall₂ (fun f x => x.1 = f.id ∧ Possible deadline task f x.2) functions all) :
    Outcome deadline task functions (gather arrived) := by
  -- every slot belongs to a function, and every function has a slot
  have hback : ∀ x ∈ arrived, ∃ f ∈ functions, x.1 = f.id ∧ Possible deadline task f x.2 :=
    fun x hx => exists_of_mem_of_forall₂ hall.flip (hperm.mem_iff.1 hx)
  have hlate : deadline = none → ∀ name, (name, Slot.late) ∉ arrived := by
    intro hnone name hname
    obtain ⟨f, -, -, hpossible⟩ := hback _ hname
    cases hpossible with
    | late hlate => exact hlate hnone
  cases hgather : gather arrived with
  | error s =>
    obtain ⟨name, hname⟩ := exists_failed_of_gather hgather
    obtain ⟨f, hf, -, hpossible⟩ := hback _ hname
    cases hpossible with
    | failed he =>
      exact .failed hf he fun hnone => timedOut_eq_false_of_gather hgather (hlate hnone)
  | ok p =>
    obtain ⟨houtputs, htime, hfailed⟩ := gather_eq_ok hgather
    refine .ran ⟨fun name v hmem => ?_, fun hintime f hf => ?_, fun hnone => ?_⟩
    · obtain ⟨f, hf, hid, hpossible⟩ := hback _ ((houtputs name v).1 hmem)
      cases hpossible with
      | done hv => exact ⟨f, hf, hid.symm, hv⟩
    · obtain ⟨x, hx, hid, hpossible⟩ := exists_of_mem_of_forall₂ hall hf
      obtain ⟨name, s⟩ := x
      change name = f.id at hid
      subst hid
      have harrived := hperm.mem_iff.2 hx
      cases hpossible with
      | done hv => exact ⟨_, hv, (houtputs f.id _).2 harrived⟩
      | failed he => exact absurd harrived (hfailed f.id _)
      | late _ =>
        have htrue := htime.2 ⟨f.id, harrived⟩
        rw [hintime] at htrue
        cases htrue
    · rw [← Bool.not_eq_true, htime]
      rintro ⟨name, hname⟩
      exact hlate hnone name hname

/-- **What a phase gives**, under every schedule and for every clock. -/
theorem always_run (s : Schedule) (stage : Stage) (deadline : Deadline τ)
    (task : Function → Except ε β) (functions : List Function) :
    (run s stage deadline task functions).Always (Outcome deadline task functions) := by
  cases s with
  | sequential => exact always_sequentially deadline task functions
  | parallel arrival =>
    rw [run]
    split
    · exact (always_slots deadline task functions).map fun all hall =>
        outcome_gather ((arrival stage).perm all) hall
    · exact always_sequentially deadline task functions

/-- Where functions have names of their own, what is found for a function is the result of its
task. -/
theorem Covers.task_eq_ok {p : Phase β} (h : p.Covers deadline task functions)
    (hnames : (functions.map Function.id).Nodup) {f : Function} (hf : f ∈ functions) {v : β}
    (hv : p.table.get? f.id = some v) : task f = .ok v := by
  obtain ⟨f', hf', hid, hout⟩ := h.output f.id v (Table.mem_of_get?_ofList hv)
  rw [List.inj_on_of_nodup_map hnames hf' hf hid] at hout
  exact hout

/-- If no task was late, the result of every task is found. -/
theorem Covers.exists_get? {p : Phase β} (h : p.Covers deadline task functions)
    (htime : p.timedOut = false) (hnames : (functions.map Function.id).Nodup) {f : Function}
    (hf : f ∈ functions) :
    ∃ v, p.table.get? f.id = some v ∧ task f = .ok v := by
  obtain ⟨w, -, hw⟩ := h.complete htime f hf
  obtain ⟨v, hv⟩ := Table.exists_get?_ofList (List.mem_map.2 ⟨_, hw, rfl⟩)
  exact ⟨v, hv, h.task_eq_ok hnames hf hv⟩

end Phase

end ConstantTime
