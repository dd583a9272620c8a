/-
What a phase gives, by which of its readings of the clock are past the deadline.

Function number `i` of a phase gets the reading that follows those of the functions before it. So
which tasks run is a matter of these readings alone: one after the other, the tasks before the
first late one; side by side, all that are not late. Main statement: a phase fails with the error
of a task that ran, or it gives the results of exactly the tasks that ran and says whether one was
late.
-/
import Mathlib.Data.List.TakeWhile
import ConstantTime.Proofs.Phases

set_option autoImplicit false

namespace ConstantTime

/-- From reading `n` of the clock on, the readings are late where `late` says so from `k` on.
Without a deadline there are no readings, and none is late. -/
def Deadline.Reads {τ : Type} (deadline : Deadline τ) (clock : Nat → τ) (late : Nat → Bool)
    (n k : Nat) : Prop :=
  match deadline with
  | none => ∀ i, late (k + i) = false
  | some past => ∀ i, past (clock (n + i)) = late (k + i)

namespace Phase

/-! ## Which tasks run

`ran` and `struck` are determined by the late readings. With one task after the other the first
late reading stops all that follow. -/

/-- The functions whose tasks run in a phase, when the readings from `k` on are late where `late`
says so. -/
def ran (s : Schedule) (late : Nat → Bool) (k : Nat) (functions : List Function) : List Function :=
  match s with
  | .sequential => ((functions.zipIdx k).takeWhile fun p => !late p.2).map Prod.fst
  | .parallel _ => ((functions.zipIdx k).filter fun p => !late p.2).map Prod.fst

/-- Whether some reading of a phase is late. -/
def struck (late : Nat → Bool) (k : Nat) (functions : List Function) : Bool :=
  (functions.zipIdx k).any fun p => late p.2

variable {τ ε β : Type} {deadline : Deadline τ} {clock : Nat → τ} {late : Nat → Bool} {n k : Nat}
  {task : Function → Except ε β} {functions : List Function}

/-- Some reading is late if the first is or a later one. -/
theorem struck_cons (late : Nat → Bool) (k : Nat) (f : Function) (rest : List Function) :
    struck late k (f :: rest) = (late k || struck late (k + 1) rest) := by
  simp only [struck, List.zipIdx_cons, List.any_cons]

/-- The readings of a phase are as many as its functions. -/
theorem struck_eq_true_iff :
    struck late k functions = true ↔ ∃ i < functions.length, late (k + i) = true := by
  induction functions generalizing k with
  | nil => simp [struck]
  | cons f rest ih =>
    rw [struck_cons, Bool.or_eq_true, ih]
    constructor
    · rintro (h | ⟨i, hi, h⟩)
      · exact ⟨0, Nat.zero_lt_succ _, h⟩
      · refine ⟨i + 1, Nat.succ_lt_succ hi, ?_⟩
        rwa [Nat.add_comm i 1, ← Nat.add_assoc]
    · rintro ⟨i, hi, h⟩
      cases i with
      | zero => exact .inl h
      | succ i =>
        refine .inr ⟨i, Nat.lt_of_succ_lt_succ hi, ?_⟩
        rwa [Nat.add_assoc, Nat.add_comm 1 i]

/-- The functions whose tasks ran stand in the old order. -/
theorem ran_sublist (s : Schedule) (late : Nat → Bool) (k : Nat) (functions : List Function) :
    (ran s late k functions).Sublist functions := by
  have hfst : (functions.zipIdx k).map Prod.fst = functions := List.zipIdx_map_fst k functions
  cases s with
  | sequential =>
    have h := (List.takeWhile_sublist (l := functions.zipIdx k) fun p => !late p.2).map Prod.fst
    rwa [hfst] at h
  | parallel arrival =>
    have h := (List.filter_sublist (l := functions.zipIdx k) (p := fun p => !late p.2)).map Prod.fst
    rwa [hfst] at h

/-- If no reading is late, all tasks run. -/
theorem ran_eq_of_struck_eq_false (s : Schedule) (h : struck late k functions = false) :
    ran s late k functions = functions := by
  have hfst : (functions.zipIdx k).map Prod.fst = functions := List.zipIdx_map_fst k functions
  have hall : ∀ p ∈ functions.zipIdx k, (!late p.2) = true := by
    intro p hp
    rw [struck, List.any_eq_false] at h
    simpa using h p hp
  cases s with
  | sequential => rw [ran, List.takeWhile_eq_self_iff.2 hall, hfst]
  | parallel arrival => rw [ran, List.filter_eq_self.2 hall, hfst]

/-- A late reading stops all that follow. -/
theorem ran_sequential_cons (late : Nat → Bool) (k : Nat) (f : Function) (rest : List Function) :
    ran .sequential late k (f :: rest) = if late k then []
      else f :: ran .sequential late (k + 1) rest := by
  simp only [ran, List.zipIdx_cons, List.takeWhile_cons]
  cases late k <;> rfl

/-- A late reading stops one task only. -/
theorem mem_ran_parallel_iff {arrival : Stage → Arrival} {f : Function} :
    f ∈ ran (.parallel arrival) late k functions ↔ ∃ i, (f, i) ∈ functions.zipIdx k ∧
      late i = false := by
  simp [ran]

/-- A single function does not notice the schedule. -/
theorem ran_eq_of_length_le_one (s s' : Schedule) (h : functions.length ≤ 1) :
    ran s late k functions = ran s' late k functions := by
  have hboth : ∀ s : Schedule, ran s late k functions = if struck late k functions then []
      else functions := by
    intro s
    match functions, h with
    | [], _ => cases s <;> rfl
    | [f], _ => cases s <;> cases hk : late k <;> simp [ran, struck, hk]
  rw [hboth s, hboth s']

/-! ## What comes of the tasks that run

The result of a phase in terms of the tasks that ran: all their results, or the error of one of
them. -/

/-- A phase gives the results of exactly the tasks of `ran`. -/
structure Gives (task : Function → Except ε β) (ran : List Function) (timedOut : Bool)
    (p : Phase β) : Prop where
  outputs : ∀ name v, (name, v) ∈ p.outputs ↔ ∃ f ∈ ran, f.id = name ∧ task f = .ok v
  tasks : ∀ f ∈ ran, ∃ v, task f = .ok v
  timedOut : p.timedOut = timedOut

/-- What comes of a phase in which the tasks of `ran` run. -/
inductive Returns (task : Function → Except ε β) (ran : List Function) (timedOut : Bool) :
    Except (Stop ε) (Phase β) → Prop
  | failed {f : Function} {s : Stop ε} (hf : f ∈ ran) (h : task f = .error s.error) :
    Returns task ran timedOut (.error s)
  | gives {p : Phase β} (h : p.Gives task ran timedOut) : Returns task ran timedOut (.ok p)

variable {ran : List Function} {timedOut : Bool}

theorem gives_nil (task : Function → Except ε β) (timedOut : Bool) :
    (⟨[], timedOut⟩ : Phase β).Gives task [] timedOut :=
  ⟨fun _ _ => by simp, fun _ hf => absurd hf List.not_mem_nil, rfl⟩

theorem Gives.add {p : Phase β} (h : p.Gives task ran timedOut) {f : Function} {v : β}
    (hv : task f = .ok v) :
    (p.add f.id v).Gives task (f :: ran) timedOut where
  outputs := by
    intro name w
    rw [Phase.add, List.mem_cons, h.outputs]
    constructor
    · rintro (heq | ⟨f', hf', hout⟩)
      · cases heq
        exact ⟨f, List.mem_cons_self, rfl, hv⟩
      · exact ⟨f', List.mem_cons_of_mem f hf', hout⟩
    · rintro ⟨f', hf', rfl, hout⟩
      rcases List.mem_cons.1 hf' with rfl | hf'
      · cases hv.symm.trans hout
        exact .inl rfl
      · exact .inr ⟨f', hf', rfl, hout⟩
  tasks := List.forall_mem_cons.2 ⟨⟨v, hv⟩, h.tasks⟩
  timedOut := h.timedOut

/-- The result of one more task may be put in front. -/
theorem Returns.map_add {o : Except (Stop ε) (Phase β)} (h : Returns task ran timedOut o)
    {f : Function} {v : β} (hv : task f = .ok v) :
    Returns task (f :: ran) timedOut (o.map (Phase.add f.id v)) := by
  cases h with
  | failed hf he => exact .failed (List.mem_cons_of_mem f hf) he
  | gives hp => exact .gives (hp.add hv)

/-! ## One task

A task takes one reading and leaves the clock at the next one. -/

/-- What becomes of a task, by its reading. -/
def slotAt (late : Nat → Bool) (task : Function → Except ε β) (f : Function) (k : Nat) : Slot ε β :=
  if late k then .late else attempt task f

/-- A task is done if it was in time and has a result. -/
theorem slotAt_eq_done_iff {f : Function} {v : β} :
    slotAt late task f k = .done v ↔ late k = false ∧ task f = .ok v := by
  unfold slotAt attempt
  cases late k <;> cases task f <;> simp

/-- It fails if it was in time and has an error. -/
theorem slotAt_eq_failed_iff {f : Function} {e : ε} :
    slotAt late task f k = .failed e ↔ late k = false ∧ task f = .error e := by
  unfold slotAt attempt
  cases late k <;> cases task f <;> simp

/-- Otherwise it was late. -/
theorem slotAt_eq_late_iff {f : Function} : slotAt late task f k = .late ↔ late k = true := by
  unfold slotAt attempt
  cases late k <;> cases task f <;> simp

/-- The slot of a task, by its reading. -/
theorem answer_slot (h : deadline.Reads clock late n k) (task : Function → Except ε β)
    (f : Function) :
    ∃ n', (slot deadline task f).answer clock n = (slotAt late task f k, n') ∧
      deadline.Reads clock late n' (k + 1) := by
  cases deadline with
  | none =>
    refine ⟨n, ?_, fun i => ?_⟩
    · rw [slotAt, if_neg (by rw [show late k = false from h 0]; exact Bool.false_ne_true)]
      rfl
    · rw [Nat.add_assoc]
      exact h (1 + i)
  | some past =>
    refine ⟨n + 1, ?_, fun i => ?_⟩
    · show (if past (clock n) = true then Slot.late else attempt task f, n + 1) = _
      rw [show past (clock n) = late k from h 0, slotAt]
    · rw [Nat.add_assoc, Nat.add_assoc]
      exact h (1 + i)

/-! ## One after the other

After a late reading the clock is not asked again, so where it stands matters only if none was
late. -/

/-- What the tasks give one after the other. -/
theorem answer_sequentially (h : deadline.Reads clock late n k) (task : Function → Except ε β)
    (functions : List Function) :
    ∃ o n', (sequentially deadline task functions).answer clock n = (o, n') ∧
      Returns task (Phase.ran .sequential late k functions) (struck late k functions) o ∧
      (struck late k functions = false → (∃ p, o = .ok p) →
        deadline.Reads clock late n' (k + functions.length)) := by
  induction functions generalizing n k with
  | nil => exact ⟨_, n, rfl, .gives (gives_nil task false), fun _ _ => h⟩
  | cons f rest ih =>
    obtain ⟨m, hslot, hreads⟩ := answer_slot h task f
    rw [sequentially, Timed.answer_bind, hslot, ran_sequential_cons, struck_cons, slotAt]
    by_cases hlate : late k = true
    · -- nothing runs from here on, and nothing is said of where the clock stands
      rw [if_pos hlate, if_pos hlate, hlate]
      exact ⟨_, m, rfl, .gives (gives_nil task true),
        fun hfalse => absurd hfalse.symm Bool.false_ne_true⟩
    · rw [if_neg hlate, if_neg hlate, Bool.eq_false_iff.2 hlate, Bool.false_or, attempt]
      cases htask : task f with
      | error e => exact ⟨_, m, rfl, .failed List.mem_cons_self htask, fun _ ⟨p, hp⟩ => by cases hp⟩
      | ok v =>
        obtain ⟨o, n', hrest, hreturns, hnext⟩ := ih hreads
        refine ⟨o.map (Phase.add f.id v), n', ?_, hreturns.map_add htask, fun hfalse hp => ?_⟩
        · show ((sequentially deadline task rest).bind _).answer clock m = _
          rw [Timed.answer_bind, hrest]
          rfl
        · obtain ⟨p, hp⟩ := hp
          obtain ⟨q, hq, -⟩ := exists_of_map_eq_ok hp
          rw [List.length_cons, Nat.add_comm rest.length 1, ← Nat.add_assoc]
          exact hnext hfalse ⟨q, hq⟩

/-! ## Side by side

All tasks take their readings, in the order of the functions. The arrival of the results changes
which error is reported, and nothing else. -/

/-- What becomes of all tasks, by their readings. -/
def slotsAt (late : Nat → Bool) (task : Function → Except ε β) (k : Nat)
    (functions : List Function) : List (String × Slot ε β) :=
  (functions.zipIdx k).map fun p => (p.1.id, slotAt late task p.1 p.2)

/-- The slots of all tasks, by their readings. -/
theorem answer_slots (h : deadline.Reads clock late n k) (task : Function → Except ε β)
    (functions : List Function) :
    ∃ n', (slots deadline task functions).answer clock n = (slotsAt late task k functions, n') ∧
      deadline.Reads clock late n' (k + functions.length) := by
  induction functions generalizing n k with
  | nil => exact ⟨n, rfl, h⟩
  | cons f rest ih =>
    obtain ⟨m, hslot, hreads⟩ := answer_slot h task f
    obtain ⟨n', hrest, hnext⟩ := ih hreads
    refine ⟨n', ?_, ?_⟩
    · rw [slots, Timed.answer_bind, hslot]
      show ((slots deadline task rest).bind _).answer clock m = _
      rw [Timed.answer_bind, hrest]
      rfl
    · rw [List.length_cons, Nat.add_comm rest.length 1, ← Nat.add_assoc]
      exact hnext

/-- A slot belongs to a function and to the reading with its number. -/
theorem mem_slotsAt_iff {name : String} {slot : Slot ε β} :
    (name, slot) ∈ slotsAt late task k functions ↔
      ∃ f i, (f, i) ∈ functions.zipIdx k ∧ f.id = name ∧ slotAt late task f i = slot := by
  rw [slotsAt, List.mem_map]
  constructor
  · rintro ⟨⟨f, i⟩, hp, heq⟩
    cases heq
    exact ⟨f, i, hp, rfl, rfl⟩
  · rintro ⟨f, i, hp, rfl, rfl⟩
    exact ⟨(f, i), hp, rfl⟩

/-- A slot that only a task in time can have belongs to a task that ran. -/
theorem mem_slotsAt_iff_exists_ran (arrival : Stage → Arrival) {name : String} {slot : Slot ε β}
    {P : Function → Prop}
    (hslot : ∀ f i, slotAt late task f i = slot ↔ late i = false ∧ P f) :
    (name, slot) ∈ slotsAt late task k functions ↔
      ∃ f ∈ Phase.ran (.parallel arrival) late k functions, f.id = name ∧ P f := by
  simp only [mem_slotsAt_iff, hslot, mem_ran_parallel_iff]
  constructor
  · rintro ⟨f, i, hp, hid, hi, hf⟩
    exact ⟨f, ⟨i, hp, hi⟩, hid, hf⟩
  · rintro ⟨f, ⟨i, hp, hi⟩, hid, hf⟩
    exact ⟨f, i, hp, hid, hi, hf⟩

/-- The tasks that are done are those that ran and gave a result. -/
theorem mem_slotsAt_done_iff (arrival : Stage → Arrival) {name : String} {v : β} :
    (name, .done v) ∈ slotsAt late task k functions ↔
      ∃ f ∈ Phase.ran (.parallel arrival) late k functions, f.id = name ∧ task f = .ok v :=
  mem_slotsAt_iff_exists_ran arrival fun _ _ => slotAt_eq_done_iff

/-- The tasks that failed are those that ran and gave an error. -/
theorem mem_slotsAt_failed_iff (arrival : Stage → Arrival) {name : String} {e : ε} :
    (name, .failed e) ∈ slotsAt late task k functions ↔
      ∃ f ∈ Phase.ran (.parallel arrival) late k functions, f.id = name ∧ task f = .error e :=
  mem_slotsAt_iff_exists_ran arrival fun _ _ => slotAt_eq_failed_iff

/-- Some task is late if the deadline strikes. -/
theorem exists_late_mem_slotsAt_iff :
    (∃ name, (name, Slot.late) ∈ slotsAt late task k functions) ↔
      struck late k functions = true := by
  simp only [mem_slotsAt_iff, slotAt_eq_late_iff, struck, List.any_eq_true]
  constructor
  · rintro ⟨name, f, i, hp, -, hi⟩
    exact ⟨(f, i), hp, hi⟩
  · rintro ⟨⟨f, i⟩, hp, hi⟩
    exact ⟨f.id, f, i, hp, rfl, hi⟩

/-- What is gathered from the slots of all functions, in whatever order they arrive. -/
theorem returns_gather (arrival : Stage → Arrival) {all : List (String × Slot ε β)}
    (hperm : all.Perm (slotsAt late task k functions)) :
    Returns task (Phase.ran (.parallel arrival) late k functions) (struck late k functions)
      (gather all) := by
  cases hgather : gather all with
  | error s =>
    obtain ⟨name, hname⟩ := exists_failed_of_gather hgather
    obtain ⟨f, hf, -, he⟩ := (mem_slotsAt_failed_iff arrival).1 (hperm.mem_iff.1 hname)
    exact .failed hf he
  | ok p =>
    obtain ⟨houtputs, htime, hfailed⟩ := gather_eq_ok hgather
    refine .gives ⟨fun name v => ?_, fun f hf => ?_, ?_⟩
    · rw [houtputs, hperm.mem_iff, mem_slotsAt_done_iff arrival]
    · cases htask : task f with
      | ok v => exact ⟨v, rfl⟩
      | error e =>
        have hmem := (mem_slotsAt_failed_iff arrival).2 ⟨f, hf, rfl, htask⟩
        exact absurd (hperm.mem_iff.2 hmem) (hfailed f.id e)
    · have hlate : (∃ name, (name, Slot.late) ∈ all) ↔ struck late k functions = true := by
        simp only [hperm.mem_iff, exists_late_mem_slotsAt_iff]
      rw [Bool.eq_iff_iff, htime, hlate]

/-- **What a phase gives**, by which of its readings are late. If none is, the readings of the next
phase follow. -/
theorem answer_run (h : deadline.Reads clock late n k) (s : Schedule) (stage : Stage)
    (task : Function → Except ε β) (functions : List Function) :
    ∃ o n', (run s stage deadline task functions).answer clock n = (o, n') ∧
      Returns task (Phase.ran s late k functions) (struck late k functions) o ∧
      (struck late k functions = false → (∃ p, o = .ok p) →
        deadline.Reads clock late n' (k + functions.length)) := by
  cases s with
  | sequential => exact answer_sequentially h task functions
  | parallel arrival =>
    rw [run]
    split
    · obtain ⟨n', hslots, hnext⟩ := answer_slots h task functions
      refine ⟨gather _, n', ?_, returns_gather arrival ((arrival stage).perm _), fun _ _ => hnext⟩
      rw [sideBySide, Timed.map, Timed.answer_bind, hslots]
      rfl
    · next hlength =>
      rw [ran_eq_of_length_le_one (.parallel arrival) .sequential (Nat.le_of_not_lt hlength)]
      exact answer_sequentially h task functions

/-! ## Tables of results

What a later phase finds in the table is the result of the task of that function. -/

/-- Of the functions of a phase, those whose tasks ran have a result in the table. -/
theorem Gives.get?_table {p : Phase β} (h : p.Gives task ran timedOut) (hran : ran ⊆ functions)
    (hnames : (functions.map Function.id).Nodup) {f : Function} (hf : f ∈ functions) (v : β) :
    p.table.get? f.id = some v ↔ f ∈ ran ∧ task f = .ok v := by
  have hsame : ∀ {w}, p.table.get? f.id = some w → f ∈ ran ∧ task f = .ok w := by
    intro w hw
    obtain ⟨f', hf', hid, hout⟩ := (h.outputs _ _).1 (Table.mem_of_get?_ofList hw)
    cases List.inj_on_of_nodup_map hnames (hran hf') hf hid
    exact ⟨hf', hout⟩
  refine ⟨hsame, ?_⟩
  rintro ⟨hmem, hv⟩
  obtain ⟨w, hw⟩ : ∃ w, p.table.get? f.id = some w :=
    Table.exists_get?_ofList (List.mem_map.2 ⟨(f.id, v), (h.outputs _ _).2 ⟨f, hmem, rfl, hv⟩, rfl⟩)
  cases hv.symm.trans (hsame hw).2
  exact hw

end Phase

end ConstantTime
