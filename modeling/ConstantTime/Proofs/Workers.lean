/-
The number of workers does not matter.

Tasks that run one after the other stop at the first late one; tasks that run side by side are left
out one by one. By a clock that goes on evenly there is no difference. If it does not run
backwards, what is late stays late; if it does, a late reading means that the first one was late
already, and then nothing is checked at all. Main statement: with such a clock, one worker and
several workers give the same result, apart from how long they took.
-/
import Mathlib.Algebra.Order.Monoid.WithTop
import Mathlib.Algebra.Order.Ring.Rat
import Mathlib.Data.Rat.Cast.Order
import ConstantTime.Proofs.TimeLimits

set_option autoImplicit false

namespace ConstantTime

/-! ## Steady clocks

A clock that goes on evenly makes readings late from some point on, or late up to some point. In
both cases the tasks that run do not depend on the schedule, where it counts. -/

/-- What is late stays late, or what is late was so before. -/
def Steady (late : Nat → Bool) : Prop := Monotone late ∨ Antitone late

namespace Phase

variable {late : Nat → Bool} {functions : List Function}

/-- When late readings stay late, the tasks before the first late one are all that are not late. -/
theorem ran_sequential_eq (hlate : Monotone late) (arrival : Stage → Arrival) (k : Nat)
    (functions : List Function) :
    ran .sequential late k functions = ran (.parallel arrival) late k functions := by
  induction functions generalizing k with
  | nil => rfl
  | cons f rest ih =>
    rw [ran_sequential_cons]
    cases hk : late k with
    | false =>
      rw [if_neg Bool.false_ne_true, ih (k + 1)]
      simp only [ran, List.zipIdx_cons, List.filter_cons, hk, Bool.not_false, if_true,
        List.map_cons]
    | true =>
      rw [if_pos rfl]
      symm
      rw [ran, List.map_eq_nil_iff, List.filter_eq_nil_iff]
      rintro ⟨g, i⟩ hmem
      have hki : k ≤ i := (List.mem_zipIdx hmem).1
      have hi : late i = true := Bool.eq_true_of_true_le (hk ▸ hlate hki)
      rw [hi]
      exact Bool.false_ne_true

/-- If the first phase is in time, then by a steady clock every phase runs the same tasks under
both schedules. -/
theorem ran_eq_of_steady (hlate : Steady late) (hfirst : struck late 0 functions = false)
    (arrival : Stage → Arrival) (k : Nat) :
    ran .sequential late k functions = ran (.parallel arrival) late k functions := by
  rcases hlate with hlate | hlate
  · exact ran_sequential_eq hlate arrival k functions
  · have hstruck : struck late k functions = false := by
      rw [Bool.eq_false_iff, Ne, struck_eq_true_iff]
      rintro ⟨i, hi, hki⟩
      -- a late reading was late at the very first function
      have hzero : late 0 = true := Bool.eq_true_of_true_le (hki ▸ hlate (Nat.zero_le (k + i)))
      rw [struck_eq_true_iff.2 ⟨0, Nat.lt_of_le_of_lt (Nat.zero_le i) hi, hzero⟩] at hfirst
      cases hfirst
    rw [ran_eq_of_struck_eq_false _ hstruck, ran_eq_of_struck_eq_false _ hstruck]

end Phase

/-! ## Runs that agree

Two runs agree if both are rejected or if they are equal. Rejected ones may name different
defects. -/

namespace Analysis

variable {c : Config} {m : Module} {late : Nat → Bool} {arrival : Stage → Arrival}
    {o o' : Except RunError Result}

/-- A run that was rejected. -/
def Rejected (o : Except RunError Result) : Prop := ∃ r, o = .ok r ∧ r.state = .failed

/-- Two runs are both rejected, or they give the same. -/
def Agree (o o' : Except RunError Result) : Prop := Rejected o ∧ Rejected o' ∨ ¬ Rejected o ∧ o = o'

theorem agree_of_eq {r : Result} (hr : r.state ≠ .failed) (h : o = .ok r) (h' : o' = .ok r) :
    Agree o o' := by
  refine .inr ⟨?_, h.trans h'.symm⟩
  rintro ⟨r', hr', hfailed⟩
  cases h.symm.trans hr'
  exact hr hfailed

/-- The checks agree if the same tasks run. -/
theorem Checks.agree {k : Nat}
    (hran : Phase.ran .sequential late k m.sortedFunctions =
      Phase.ran (.parallel arrival) late k m.sortedFunctions)
    (h : Checks c .sequential m late k o) (h' : Checks c (.parallel arrival) m late k o') :
    Agree o o' := by
  cases hp : policy c with
  | error e =>
    have ho := h.unusable e hp
    refine .inr ⟨?_, ho.trans (h'.unusable e hp).symm⟩
    rintro ⟨r, hr, -⟩
    cases ho.symm.trans hr
  | ok p =>
    obtain ⟨known, hknown, hmodule, hpolicy, ho⟩ := h.checked p hp
    obtain ⟨known', hknown', hmodule', hpolicy', ho'⟩ := h'.checked p hp
    have hsub : Phase.ran (.parallel arrival) late k m.sortedFunctions ⊆
        known.module.sortedFunctions := by
      rw [hmodule]
      exact (Phase.ran_sublist _ _ _ _).subset
    rw [hran, hknown.report_eq hknown' (hmodule.trans hmodule'.symm)
      (hpolicy.trans hpolicy'.symm) hsub] at ho
    exact agree_of_eq (by simp) ho ho'

/-- By a steady clock, what is left out does not depend on the schedule. -/
theorem Yields.agree (hlate : Steady late) (h : Yields c .sequential m late o)
    (h' : Yields c (.parallel arrival) m late o') : Agree o o' := by
  cases hfirst : Phase.struck late 0 m.sortedFunctions with
  | true => exact agree_of_eq (by simp) (h.stopped hfirst) (h'.stopped hfirst)
  | false =>
    have hran := Phase.ran_eq_of_steady hlate hfirst arrival
    have hc := h.classifies hfirst
    have hc' := h'.classifies hfirst
    by_cases hbad : ∃ f ∈ Phase.ran .sequential late m.sortedFunctions.length m.sortedFunctions,
        f.HasMalformedRegions
    · exact .inl ⟨hc.rejected hbad, hc'.rejected (hran _ ▸ hbad)⟩
    · have hgood := fun f hf hf' => hbad ⟨f, hf, hf'⟩
      cases hsecond : Phase.struck late m.sortedFunctions.length m.sortedFunctions with
      | true =>
        exact agree_of_eq (by simp) (hc.stopped hgood hsecond)
          (hc'.stopped (hran _ ▸ hgood) hsecond)
      | false =>
        rw [Phase.ran_eq_of_struck_eq_false _ hsecond] at hgood
        have hgood' : ¬ m.HasMalformedRegions :=
          fun ⟨f, hf, hf'⟩ => hgood f (Module.mem_sortedFunctions.2 hf) hf'
        exact (hc.checks hgood' hsecond).agree (hran _) (hc'.checks hgood' hsecond)

end Analysis

/-! ## The analyzer

Exact time is needed here: readings and limits are compared as rational numbers, so that an even
clock gives steady readings. -/

/-- A result without how long it took. -/
def Result.timeless (r : Result) : Result := { r with duration := 0 }

/-- Readings that are exact numbers. A time limit stands for a number or for no limit at all,
unless it is out of range. -/
def Timing.exact (value : Quantity → Option (WithTop ℚ)) (elapsed : ℚ → ℚ → Float) : Timing ℚ where
  expiry? now limit :=
    (value limit).map fun seconds t => decide ((now : WithTop ℚ) + seconds < (t : WithTop ℚ))
  elapsed := elapsed

/-- A clock that goes on by the same whole number of seconds from reading to reading. -/
def evenClock (step : ℤ) (k : Nat) : ℚ := k * step

/-- Whatever the deadline, such a clock is steady. -/
theorem steady_evenClock (deadline : WithTop ℚ) (step : ℤ) (n : Nat) :
    Steady fun k => decide (deadline < (evenClock step (n + k) : WithTop ℚ)) := by
  rcases le_total 0 step with hstep | hstep
  · refine .inl fun i j hij => ?_
    have hle : evenClock step (n + i) ≤ evenClock step (n + j) := by
      have hnonneg : (0 : ℚ) ≤ step := Int.cast_nonneg hstep
      exact mul_le_mul_of_nonneg_right (Nat.cast_le.2 (Nat.add_le_add_left hij n)) hnonneg
    exact Bool.le_iff_imp.2 fun h =>
      decide_eq_true ((of_decide_eq_true h).trans_le (WithTop.coe_le_coe.2 hle))
  · refine .inr fun i j hij => ?_
    have hle : evenClock step (n + j) ≤ evenClock step (n + i) := by
      have hnonpos : (step : ℚ) ≤ 0 := Int.cast_nonpos.2 hstep
      exact mul_le_mul_of_nonpos_right (Nat.cast_le.2 (Nat.add_le_add_left hij n)) hnonpos
    exact Bool.le_iff_imp.2 fun h =>
      decide_eq_true ((of_decide_eq_true h).trans_le (WithTop.coe_le_coe.2 hle))

namespace Analyzer

/-- The same analyzer with another number of workers. -/
def withWorkers (a : Analyzer) (workers : Quantity) : Analyzer :=
  { a with config := { a.config with maxWorkers := workers } }

/-- A step whose result is failed. -/
def Failed (s : Step) : Prop := ∃ r, s.1 = .ok r ∧ r.state = .failed

/-- Two steps both fail, or they give the same apart from how long they took and leave the same
state. -/
def SameStep (s s' : Step) : Prop :=
  (Failed s ↔ Failed s') ∧
    (¬ Failed s → s.1.map Result.timeless = s'.1.map Result.timeless ∧ s.2.state = s'.2.state)

variable {τ : Type} {a a' : Analyzer} {m : Module}

/-- A step fails exactly if its run is rejected. -/
theorem Concludes.failed_iff {o : Except RunError Result} {s : Step} (h : Concludes a o s) :
    Failed s ↔ Analysis.Rejected o := by
  cases h with
  | error e =>
    constructor <;> rintro ⟨r, hr, -⟩ <;> cases hr
  | failed hr => exact ⟨fun _ => ⟨_, rfl, hr⟩, fun _ => ⟨_, rfl, hr⟩⟩
  | @reported r hr duration =>
    refine ⟨fun ⟨r', hr', hfailed⟩ => ?_, fun ⟨r', hr', hfailed⟩ => ?_⟩
    · cases hr'
      cases hfailed
    · cases hr'
      exact absurd hfailed hr

/-- Runs that agree are concluded in the same way. -/
theorem sameStep_of_agree {o o' : Except RunError Result} {s s' : Step} (h : Analysis.Agree o o')
    (hs : Concludes a o s) (hs' : Concludes a' o' s') : SameStep s s' := by
  rcases h with ⟨hrejected, hrejected'⟩ | ⟨hrejected, rfl⟩
  · have hfailed := hs.failed_iff.2 hrejected
    exact ⟨⟨fun _ => hs'.failed_iff.2 hrejected', fun _ => hfailed⟩,
      fun hnot => absurd hfailed hnot⟩
  · refine ⟨hs.failed_iff.trans hs'.failed_iff.symm, fun _ => ?_⟩
    cases hs with
    | error e =>
      cases hs'
      exact ⟨rfl, rfl⟩
    | failed hr => exact absurd ⟨_, rfl, hr⟩ hrejected
    | reported hr duration =>
      cases hs' with
      | failed hr' => exact absurd hr' hr
      | reported _ duration' => exact ⟨rfl, rfl⟩

/-- By a steady clock, runs with one worker and with several are concluded in the same way. -/
theorem sameStep_run {timing : Timing τ} {workers : Quantity} (hworkers : workers.atMost 1 = false)
    (arrival arrival' : Stage → Arrival) (m : Module) {deadline : Deadline τ} {clock : Nat → τ}
    {late : Nat → Bool} {n : Nat} (hreads : deadline.Reads clock late (n + 1) 0)
    (hlate : Steady late) :
    SameStep (((a.withWorkers (.int 1)).run timing arrival m deadline).answer clock n).1
      (((a.withWorkers workers).run timing arrival' m deadline).answer clock n).1 := by
  refine sameStep_of_agree ?_ (concludes_run timing _ arrival m deadline clock n)
    (concludes_run timing _ arrival' m deadline clock n)
  have hmany : Analysis.schedule (a.withWorkers workers).config arrival' = .parallel arrival' := by
    rw [Analysis.schedule]
    exact if_neg (by rw [withWorkers, hworkers]; exact Bool.false_ne_true)
  cases hm : m.violation? with
  | some e =>
    obtain ⟨r, hr, hfailed⟩ := Analysis.failed_run_of_violation hm arrival deadline
    obtain ⟨r', hr', hfailed'⟩ := Analysis.failed_run_of_violation hm arrival' deadline
    rw [hr, hr']
    exact .inl ⟨⟨r, rfl, hfailed⟩, ⟨r', rfl, hfailed'⟩⟩
  | none =>
    have hone := Analysis.yields_run (c := (a.withWorkers (.int 1)).config) hm arrival hreads
    have hmany' := Analysis.yields_run (c := (a.withWorkers workers).config) hm arrival' hreads
    rw [hmany] at hmany'
    exact hone.agree hlate hmany'

/-- **One worker and several workers give the same**, apart from how long they took, by every clock
that goes on by a fixed whole number of seconds and in whatever order the results of several
workers arrive. -/
theorem sameStep_withWorkers (a : Analyzer) {workers : Quantity}
    (hworkers : workers.atMost 1 = false) (value : Quantity → Option (WithTop ℚ))
    (elapsed : ℚ → ℚ → Float) (step : ℤ) (arrival arrival' : Stage → Arrival)
    (m : Module) (n : Nat) :
    SameStep
      (((a.withWorkers (.int 1)).analyzeBy (.exact value elapsed) arrival m).answer
        (evenClock step) n).1
      (((a.withWorkers workers).analyzeBy (.exact value elapsed) arrival' m).answer
        (evenClock step) n).1 := by
  by_cases hready : a.isReady = true
  · have hready' : ∀ w, (a.withWorkers w).isReady = true := fun _ => hready
    cases hlimit : a.config.timeout with
    | none =>
      have hlimit' : ∀ w, (a.withWorkers w).config.timeout = none := fun _ => hlimit
      rw [analyzeBy_of_timeout_eq_none (hready' _) (hlimit' _),
        analyzeBy_of_timeout_eq_none (hready' _) (hlimit' _)]
      exact @sameStep_run _ a _ _ hworkers arrival arrival' m none _ (fun _ => false) n
        (fun _ => rfl)
        (.inl fun _ _ _ => le_rfl)
    | some limit =>
      have hlimit' : ∀ w, (a.withWorkers w).config.timeout = some limit := fun _ => hlimit
      cases hvalue : value limit with
      | none =>
        -- no deadline can be set, whoever works
        have hpast : (Timing.exact value elapsed).expiry? (evenClock step n) limit = none := by
          simp only [Timing.exact, hvalue, Option.map_none]
        rw [analyzeBy, analyzeBy, if_pos (hready' _), if_pos (hready' _), hlimit', hlimit']
        simp only [Timed.answer_ask, hpast]
        exact ⟨Iff.rfl, fun _ => ⟨rfl, rfl⟩⟩
      | some seconds =>
        have hpast : (Timing.exact value elapsed).expiry? (evenClock step n) limit =
            some fun t : ℚ =>
              decide ((evenClock step n : WithTop ℚ) + seconds < (t : WithTop ℚ)) := by
          simp only [Timing.exact, hvalue, Option.map_some]
        rw [answer_analyzeBy (hready' _) (hlimit' _) hpast,
          answer_analyzeBy (hready' _) (hlimit' _) hpast]
        refine sameStep_run hworkers arrival arrival' m (fun i => ?_)
          (steady_evenClock ((evenClock step n : WithTop ℚ) + seconds) step (n + 2))
        rw [Nat.zero_add]
  · have hready' : ∀ w, ¬ (a.withWorkers w).isReady = true := fun _ => hready
    rw [analyzeBy, analyzeBy, if_neg (hready' _), if_neg (hready' _)]
    exact ⟨Iff.rfl, fun _ => ⟨rfl, rfl⟩⟩

end Analyzer

/-- Whole seconds as exact numbers; any other time limit is taken to be out of range. -/
def Quantity.wholeSeconds? : Quantity → Option (WithTop ℚ)
  | .int n => some ((n : ℚ) : WithTop ℚ)
  | _ => none

/-- Exact seconds, with no regard to durations. -/
def Timing.wholeSeconds : Timing ℚ := .exact Quantity.wholeSeconds? fun _ _ => 0

/-- An analyzer that has six seconds, as a whole number. -/
def Analyzer.brief : Analyzer := .ofConfig { Config.default with timeout := some (.int 6) }

/-- With six seconds, one worker checks the first function only, and four workers do the same. -/
theorem Analyzer.sameStep_withWorkers_bookkeeping :
    (Quantity.int 4).atMost 1 = false ∧
      ((((brief.withWorkers (.int 1)).analyzeBy .wholeSeconds
        (fun _ => .inOrder) bookkeeping).answer
        (evenClock 1) 0).1.1.toOption.map fun r => (r.state, r.functionsAnalyzed, r.timedOut)) =
          some (.reported, 1, true) ∧
      ∀ arrival, SameStep
        (((brief.withWorkers (.int 1)).analyzeBy .wholeSeconds
          (fun _ => .inOrder) bookkeeping).answer (evenClock 1) 0).1
        (((brief.withWorkers (.int 4)).analyzeBy .wholeSeconds arrival bookkeeping).answer
          (evenClock 1) 0).1 := by
  refine ⟨rfl, by decide +kernel, fun arrival => ?_⟩
  exact sameStep_withWorkers brief rfl Quantity.wholeSeconds? _ 1 _ arrival bookkeeping 0

end ConstantTime
