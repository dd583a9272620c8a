/-
A time limit only removes functions.

If the deadline passes in one of the first two phases, no function is checked and nothing is
reported; otherwise the functions whose checks ran are reported on as if there were no time limit.
Main statement: if a run without a time limit is not rejected, then with one it reports the same
findings and declassifications, in the same order, for exactly the functions whose checks ran.
-/
import ConstantTime.Proofs.FindingPlaces
import ConstantTime.Proofs.SortedFindings
import ConstantTime.Proofs.TimedRuns

set_option autoImplicit false

namespace ConstantTime

/-! ## Reports on some functions

A report on some functions is the full report with all other functions left out. Findings and
declassifications name their function, so they can be told apart. -/

/-- Where all contributions of an item share an answer, items may be filtered in their place. -/
theorem filter_flatMap_eq {α β : Type} {g : α → List β} {p : β → Bool} {q : α → Bool} {l : List α}
    (h : ∀ a ∈ l, ∀ b ∈ g a, p b = q a) : (l.flatMap g).filter p = (l.filter q).flatMap g := by
  induction l with
  | nil => rfl
  | cons a l ih =>
    have ha := h a List.mem_cons_self
    rw [List.flatMap_cons, List.filter_append, ih fun a' ha' => h a' (List.mem_cons_of_mem a ha'),
      List.filter_cons]
    cases hq : q a with
    | true =>
      rw [if_pos rfl, List.flatMap_cons, List.filter_eq_self.2 fun b hb => (ha b hb).trans hq]
    | false =>
      rw [if_neg Bool.false_ne_true, List.filter_eq_nil_iff.2 fun b hb => ?_, List.nil_append]
      rw [ha b hb, hq]
      exact Bool.false_ne_true

namespace Analysis

variable {c : Config} {m : Module}

/-- Whether a name is that of one of some functions. -/
def isOf (functions : List Function) (name : String) : Bool :=
  decide (name ∈ functions.map Function.id)

/-- What is listed function by function, restricted to some of the functions. -/
theorem filter_flatMap_isOf {β : Type} {all checked : List Function}
    (hchecked : checked.Sublist all) (hnames : (all.map Function.id).Nodup) {g : Function → List β}
    {key : β → String} (hkey : ∀ f ∈ all, ∀ x ∈ g f, key x = f.id) :
    (all.flatMap g).filter (fun x => isOf checked (key x)) = checked.flatMap g := by
  rw [filter_flatMap_eq (q := fun f => isOf checked f.id) fun f hf x hx => by rw [hkey f hf x hx]]
  rw [filter_eq_of_sublist hchecked hnames.of_map fun f hf => ?_]
  rw [isOf, decide_eq_true_iff, List.mem_map]
  constructor
  · rintro ⟨f', hf', hid⟩
    rwa [← List.inj_on_of_nodup_map hnames (hchecked.subset hf') hf hid]
  · exact fun hf' => ⟨f, hf', rfl⟩

/-- What is found in a function names it. -/
theorem Known.Complete.function_of_mem_found {k : Known} (hk : k.Complete) {rules : List Rule}
    {f : Function} (hf : f ∈ k.module.functions) {x : Finding} (hx : x ∈ k.found rules f) :
    x.function = f.id := by
  obtain ⟨ctx, -, -, rfl, -, hcheck⟩ := hk.exists_context hf
  obtain ⟨found, hfound⟩ := hk.full.exists_checkTask rules hf
  rw [Known.found, hfound] at hx
  obtain ⟨rule, -, ofRule, hofRule, hx⟩ :=
    (Context.mem_checkAll_iff ((hcheck rules found).1 hfound)).1 hx
  obtain ⟨_, _, hmade⟩ := Context.exists_madeAt_of_mem_check hofRule hx
  exact hmade.isFindingAt.function

/-- A declassification names the function it was found in. -/
theorem Known.Complete.function_of_mem_declassifications {k : Known} (hk : k.Complete)
    {f : Function} (hf : f ∈ k.module.functions) {x : Declassification}
    (hx : x ∈ ((k.taints.get? f.id).map Taints.declassifications).getD []) : x.function = f.id := by
  obtain ⟨g, t, -, ht, hget⟩ := hk.taints f hf
  rw [hget, Option.map_some, Option.getD_some] at hx
  have hrecord : t.declassifications = Taints.declassified f t.values := by
    unfold Taints.ofFunction at ht
    dsimp only at ht
    split at ht
    · cases ht
    · split at ht
      · cases ht
      · cases ht
        rfl
  rw [hrecord, Taints.declassified, List.mem_filterMap] at hx
  obtain ⟨p, -, hp⟩ := hx
  split at hp
  · cases hp
    rfl
  · cases hp

/-- A report on some functions has what the report on all says of them. -/
theorem Known.Complete.report_filter {k : Known} (hk : k.Complete) {checked : List Function}
    (hchecked : checked.Sublist k.module.sortedFunctions) (r r' : Result) :
    let all := k.report c k.module.sortedFunctions r
    (k.report c checked r').findings = all.findings.filter (fun x => isOf checked x.function) ∧
      (k.report c checked r').declassifications = all.declassifications.filter
        (fun x => isOf checked x.function) ∧
      (k.report c checked r').anomalies = all.anomalies := by
  have hnames := hk.full.module.nodup_sortedFunctions
  refine ⟨?_, ?_, rfl⟩
  · simp only [Known.report]
    rw [filter_sortFindings, filter_flatMap_isOf hchecked hnames fun f hf x hx => ?_]
    exact hk.function_of_mem_found (Module.mem_sortedFunctions.1 hf) (List.mem_filter.1 hx).1
  · simp only [Known.report]
    rw [filter_flatMap_isOf hchecked hnames fun f hf x hx => ?_]
    exact hk.function_of_mem_declassifications (Module.mem_sortedFunctions.1 hf) hx

/-! ## Runs with and without a time limit

The late readings of the clock decide which functions are checked. A run without a limit has
none. -/

/-- Whether a run ends before its last phase, when its readings are late where `late` says so. -/
def endsEarly (late : Nat → Bool) (m : Module) : Bool :=
  Phase.struck late 0 m.sortedFunctions ||
    Phase.struck late m.sortedFunctions.length m.sortedFunctions

/-- Whether a reading of the last phase is late, when readings are late where `late` says so. -/
def endsLate (late : Nat → Bool) (m : Module) : Bool :=
  Phase.struck late (m.sortedFunctions.length + m.sortedFunctions.length) m.sortedFunctions

/-- The functions whose checks run, when the readings of a run are late where `late` says so. -/
def checked (s : Schedule) (late : Nat → Bool) (m : Module) : List Function :=
  if endsEarly late m then []
  else Phase.ran s late (m.sortedFunctions.length + m.sortedFunctions.length) m.sortedFunctions

/-- If no reading is late, no phase is cut short. -/
theorem struck_never (k : Nat) (functions : List Function) :
    Phase.struck (fun _ => false) k functions = false := by
  rw [Bool.eq_false_iff, Ne, Phase.struck_eq_true_iff]
  rintro ⟨i, -, hi⟩
  cases hi

variable {s : Schedule} {late : Nat → Bool} {o : Except RunError Result}

/-- A run without late readings that is not rejected reports on all functions. -/
theorem Yields.exists_report (h : Yields c s m (fun _ => false) o) {r : Result} (ho : o = .ok r)
    (hr : r.state ≠ .failed) :
    ¬ m.HasMalformedRegions ∧ ∃ k : Known, k.Complete ∧ k.module = m ∧ policy c = .ok k.policy ∧
      r = k.report c m.sortedFunctions (inspected c m false) := by
  have hclassifies := h.classifies (struck_never 0 _)
  have hran : ∀ k, Phase.ran s (fun _ => false) k m.sortedFunctions = m.sortedFunctions := fun k =>
    Phase.ran_eq_of_struck_eq_false s (struck_never k _)
  have hgood : ¬ m.HasMalformedRegions := by
    rintro ⟨f, hf, hbad⟩
    obtain ⟨r', ho', hfailed⟩ :=
      hclassifies.rejected ⟨f, (hran _).symm ▸ Module.mem_sortedFunctions.2 hf, hbad⟩
    cases ho.symm.trans ho'
    exact hr hfailed
  have hchecks := hclassifies.checks hgood (struck_never _ _)
  cases hp : policy c with
  | error e => cases ho.symm.trans (hchecks.unusable e hp)
  | ok p =>
    obtain ⟨k, hk, hmodule, rfl, ho'⟩ := hchecks.checked p hp
    rw [hran, struck_never] at ho'
    cases ho.symm.trans ho'
    exact ⟨hgood, k, hk, hmodule, rfl, rfl⟩

/-- What a run says of the functions that it checked, compared with the report on all of them. -/
structure Restricts (s : Schedule) (late : Nat → Bool) (m : Module) (all r : Result) : Prop where
  findings : r.findings = all.findings.filter fun x => isOf (checked s late m) x.function
  declassifications : r.declassifications = all.declassifications.filter fun x =>
    isOf (checked s late m) x.function
  functionsAnalyzed : r.functionsAnalyzed = (checked s late m).length
  early : endsEarly late m = true → r.findings = [] ∧ r.anomalies = [] ∧ r.declassifications = []
  anomalies : endsEarly late m = false → r.anomalies = all.anomalies
  timedOut : r.timedOut = (endsEarly late m || endsLate late m)

theorem isOf_nil (name : String) : isOf [] name = false := rfl

/-- A run that ends early has nothing to say. -/
theorem restricts_of_endsEarly (h : endsEarly late m = true) (all : Result) {r : Result}
    (hr : r.findings = [] ∧ r.anomalies = [] ∧ r.declassifications = [])
    (hcount : r.functionsAnalyzed = 0) (htime : r.timedOut = true) : Restricts s late m all r := by
  have hchecked : checked s late m = [] := by rw [checked, if_pos h]
  refine ⟨?_, ?_, ?_, fun _ => hr, fun hfalse => ?_, by rw [htime, h, Bool.true_or]⟩
  · rw [hr.1, hchecked,
      List.filter_eq_nil_iff.2 fun x _ => by rw [isOf_nil]; exact Bool.false_ne_true]
  · rw [hr.2.2, hchecked,
      List.filter_eq_nil_iff.2 fun x _ => by rw [isOf_nil]; exact Bool.false_ne_true]
  · rw [hcount, hchecked]
    rfl
  · rw [h] at hfalse
    cases hfalse

/-- A run over a module without malformed regions gives what the report on all functions says of
those it checked. -/
theorem Yields.restricts (h : Yields c s m late o) (hgood : ¬ m.HasMalformedRegions) {k : Known}
    (hk : k.Complete) (hmodule : k.module = m) (hpolicy : policy c = .ok k.policy)
    (begun : Result) :
    ∃ r, o = .ok r ∧ r.state ≠ .failed ∧
      Restricts s late m (k.report c m.sortedFunctions begun) r := by
  -- one case for each phase in which the first late reading can be
  cases hfirst : Phase.struck late 0 m.sortedFunctions with
  | true =>
    have hearly : endsEarly late m = true := by rw [endsEarly, hfirst, Bool.true_or]
    exact ⟨_, h.stopped hfirst, by simp, restricts_of_endsEarly hearly _ ⟨rfl, rfl, rfl⟩ rfl rfl⟩
  | false =>
    have hclassifies := h.classifies hfirst
    cases hsecond : Phase.struck late m.sortedFunctions.length m.sortedFunctions with
    | true =>
      have hearly : endsEarly late m = true := by rw [endsEarly, hsecond, Bool.or_true]
      have hgood' : ∀ f ∈ Phase.ran s late m.sortedFunctions.length m.sortedFunctions,
          ¬ f.HasMalformedRegions :=
        fun f hf hbad =>
          hgood ⟨f, Module.mem_sortedFunctions.1 ((Phase.ran_sublist s _ _ _).subset hf), hbad⟩
      exact ⟨_, hclassifies.stopped hgood' hsecond, by simp,
        restricts_of_endsEarly hearly _ ⟨rfl, rfl, rfl⟩ rfl rfl⟩
    | false =>
      have hearly : endsEarly late m = false := by rw [endsEarly, hfirst, hsecond, Bool.or_false]
      have hchecked : checked s late m = Phase.ran s late _ m.sortedFunctions :=
        if_neg (by rw [hearly]; exact Bool.false_ne_true)
      have hsub : (checked s late m).Sublist k.module.sortedFunctions := by
        rw [hchecked, hmodule]
        exact Phase.ran_sublist s late _ _
      obtain ⟨k', hk', hmodule', hpolicy', ho⟩ :=
        (hclassifies.checks hgood hsecond).checked k.policy hpolicy
      rw [← hchecked, ← hk.report_eq hk' (hmodule.trans hmodule'.symm) hpolicy'.symm hsub.subset]
        at ho
      obtain ⟨hfindings, hdeclassified, hanomalies⟩ :=
        hk.report_filter (c := c) hsub begun (inspected c m (endsLate late m))
      rw [hmodule] at hfindings hdeclassified hanomalies
      refine ⟨_, ho, by simp, hfindings, hdeclassified, rfl, fun htrue => ?_,
        fun _ => hanomalies, ?_⟩
      · rw [hearly] at htrue
        cases htrue
      · rw [hearly, Bool.false_or]
        rfl

end Analysis

/-! ## The analyzer

Both analyzers report, and the one with the limit reports on the functions whose checks ran. -/

namespace Analyzer

variable {τ : Type}

/-- The same analyzer without a time limit. -/
def untimed (a : Analyzer) : Analyzer := { a with config := { a.config with timeout := none } }

/-- A run without a time limit that is not failed reports on all functions of a well-formed
module. -/
theorem exists_report_of_untimed {timing : Timing τ} {a : Analyzer} (hready : a.isReady = true)
    (hlimit : a.config.timeout = none) {arrival : Stage → Arrival} {m : Module} {clock : Nat → τ}
    {n : Nat} {r : Result} (hr : ((a.analyzeBy timing arrival m).answer clock n).1.1 = .ok r)
    (hok : r.state ≠ .failed) :
    m.violation? = none ∧ ¬ m.HasMalformedRegions ∧ ∃ k : Analysis.Known, k.Complete ∧
      k.module = m ∧
      Analysis.policy a.config.unscheduled = .ok k.policy ∧ ∃ duration,
        r = { (k.report a.config.unscheduled m.sortedFunctions
          (Analysis.inspected a.config.unscheduled m false)).enter .reported with duration :=
  duration } := by
  rw [analyzeBy_of_timeout_eq_none hready hlimit] at hr
  obtain ⟨run, duration, hrun, hrunning, rfl⟩ :=
    (concludes_run timing a arrival m none clock n).exists_of_ok hr hok
  cases hm : m.violation? with
  | some e =>
    obtain ⟨r', hr', hfailed⟩ :=
      Analysis.failed_run_of_violation (c := a.config) hm arrival (none : Deadline τ)
    rw [hr'] at hrun
    cases hrun
    exact absurd hfailed hrunning
  | none =>
    have hreads : Deadline.Reads none clock (fun _ => false) (n + 1) 0 := fun _ => rfl
    obtain ⟨hgood, k, hk, hmodule, hpolicy, rfl⟩ :=
      (Analysis.yields_run (c := a.config) hm arrival hreads).exists_report hrun hrunning
    exact ⟨rfl, hgood, k, hk, hmodule, hpolicy, duration, rfl⟩

/-- **A time limit only removes functions.** If a run without the time limit is not failed, the run
with it is reported, and it has the findings and declassifications of exactly the functions whose
checks ran. Two readings are taken before those of the phases: one for the deadline and one for the
start. -/
theorem exists_restricts_of_untimed (timing : Timing τ) {a : Analyzer} (hready : a.isReady = true)
    {limit : Quantity} (hlimit : a.config.timeout = some limit) (m : Module)
    (arrival : Stage → Arrival) (clock : Nat → τ) (n : Nat) {past : τ → Bool}
    (hpast : timing.expiry? (clock n) limit = some past) {untimedArrival : Stage → Arrival}
    {untimedClock : Nat → τ} {untimedFirst : Nat} {all : Result}
    (hall : ((a.untimed.analyzeBy timing untimedArrival m).answer untimedClock untimedFirst).1.1 =
      .ok all) (hok : all.state ≠ .failed) :
    ∃ r, ((a.analyzeBy timing arrival m).answer clock n).1 = (.ok r, { a with state := .idle }) ∧
      r.state = .reported ∧
      Analysis.Restricts (Analysis.schedule a.config arrival) (fun k => past (clock (n + 2 + k)))
        m all r := by
  obtain ⟨hm, hgood, k, hk, hmodule, hpolicy, duration, rfl⟩ :=
    exists_report_of_untimed (a := a.untimed) hready rfl hall hok
  have hreads : Deadline.Reads (some past) clock (fun k => past (clock (n + 2 + k))) (n + 2) 0 := by
    intro i
    rw [Nat.zero_add]
  obtain ⟨run, hrun, hrunning, hrestricts⟩ :=
    (Analysis.yields_run (c := a.config) hm arrival hreads).restricts hgood hk hmodule hpolicy
      (Analysis.inspected a.config.unscheduled m false)
  have hconcludes := concludes_run timing a arrival m (some past) clock (n + 1)
  rw [hrun] at hconcludes
  obtain ⟨duration', hstep⟩ := hconcludes.exists_of_run hrunning
  rw [answer_analyzeBy hready hlimit hpast, hstep]
  exact ⟨_, rfl, rfl, hrestricts.findings, hrestricts.declassifications,
    hrestricts.functionsAnalyzed, hrestricts.early, hrestricts.anomalies, hrestricts.timedOut⟩

end Analyzer

/-- A function that shows an amount and adds it to a total that everyone can read. -/
def booking (name : String) : Function :=
  ⟨name,
    [⟨"entry", [⟨.declassify, ["amount"], some "shown", [], none, none⟩,
      ⟨.store, ["amount"], none, [], some "total", none⟩, ⟨.ret, [], none, [], none, none⟩]⟩],
    [⟨"amount", .secret⟩], none, []⟩

def bookkeeping : Module :=
  ⟨"bookkeeping", [booking "debit", booking "credit"], [⟨"total", .global, none, false⟩]⟩

/-- An analyzer that has six seconds. -/
def Analyzer.hurried : Analyzer := .ofConfig { Config.default with timeout := some (.float 6) }

/-- With one second from reading to reading, six seconds are enough for the checks of the first
function only. -/
theorem Analyzer.exists_restricts_of_untimed_bookkeeping :
    hurried.isReady = true ∧ ∀ arrival : Stage → Arrival,
      ∃ r, ((hurried.analyzeBy .seconds arrival bookkeeping).answer Float.ofNat 0).1 =
          (.ok r, { hurried with state := .idle }) ∧ r.state = .reported ∧
        r.findings.map Finding.function = ["credit"] ∧
          r.declassifications.map Declassification.function = ["credit"] ∧
        r.functionsAnalyzed = 1 ∧ r.timedOut = true := by
  refine ⟨rfl, fun arrival => ?_⟩
  have hcomputed :
    (((hurried.untimed.analyzeBy .seconds (fun _ => .inOrder) bookkeeping).answer
      Float.ofNat 0).1.1.map fun r =>
        (r.state, r.findings.map Finding.function,
          r.declassifications.map Declassification.function)) =
        .ok (.reported, ["credit", "debit"], ["credit", "debit"]) := by rfl
  obtain ⟨all, hall, heq⟩ := exists_of_map_eq_ok hcomputed
  simp only [Prod.mk.injEq] at heq
  obtain ⟨hstate, hfindings, hdeclassified⟩ := heq
  obtain ⟨r, hr, hreported, hrestricts⟩ :=
    exists_restricts_of_untimed .seconds (a := hurried) rfl rfl bookkeeping arrival
    Float.ofNat 0 rfl hall (by rw [hstate]; decide)
  have hkept : ["credit", "debit"].filter
      (Analysis.isOf (Analysis.checked (Analysis.schedule hurried.config arrival)
      (fun k => decide ((0 : Float) + 6 < Float.ofNat (0 + 2 + k))) bookkeeping)) = ["credit"] := by
        rfl
  refine ⟨r, hr, hreported, ?_, ?_, ?_, ?_⟩
  · rw [hrestricts.findings]
    exact List.filter_map.symm.trans ((congrArg _ hfindings).trans hkept)
  · rw [hrestricts.declassifications]
    exact List.filter_map.symm.trans ((congrArg _ hdeclassified).trans hkept)
  · rw [hrestricts.functionsAnalyzed]
    rfl
  · rw [hrestricts.timedOut]
    rfl

end ConstantTime
