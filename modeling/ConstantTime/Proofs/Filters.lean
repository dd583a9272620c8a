/-
The filters of a report.

A rule finds the same in a function whichever other rules are checked, and a finding names the rule
that made it. So to check some of the rules only, and to report severe findings only, is to leave
out the other findings of a full report. Main statement: without a time limit, a step gives the
result that the same step gives with all rules and all severities, with the other findings left
out; nothing else changes.
-/
import ConstantTime.Proofs.SortedFindings
import ConstantTime.Proofs.StrongerAnnotations
import ConstantTime.Proofs.Untimed

set_option autoImplicit false

namespace ConstantTime

/-! ## Some rules of many

Rules are checked one after the other and do not see each other. Leaving out a rule leaves out its
findings. -/

namespace Context

variable {c : Context}

/-- Checks of several rules are made one after the other. -/
theorem checkAll_cons_eq_ok_iff {rule : Rule} {rest : List Rule} {found : List Finding} :
    c.checkAll (rule :: rest) = .ok found ↔
      ∃ first others, c.check rule = .ok first ∧ c.checkAll rest = .ok others ∧
        found = first ++ others := by
  simp only [checkAll, collect]
  cases c.check rule with
  | error e => simp
  | ok first =>
    cases collect c.check rest with
    | error e => simp
    | ok lists => simp [eq_comm]

/-- A finding names the rule that made it. -/
theorem rule_of_mem_check {rule : Rule} {found : List Finding} (h : c.check rule = .ok found)
    {x : Finding} (hx : x ∈ found) : x.rule = rule := by
  obtain ⟨block, index, hmade⟩ := exists_madeAt_of_mem_check h hx
  exact hmade.isFindingAt.rule

/-- **Rules are independent**: to check some of the rules is to leave out the findings of the
others. -/
theorem checkAll_filter (p : Rule → Bool) {rules : List Rule} {found : List Finding}
    (h : c.checkAll rules = .ok found) :
    c.checkAll (rules.filter p) = .ok (found.filter fun x => p x.rule) := by
  induction rules generalizing found with
  | nil =>
    cases h
    rfl
  | cons rule rest ih =>
    obtain ⟨first, others, hfirst, hothers, rfl⟩ := checkAll_cons_eq_ok_iff.1 h
    -- the findings of one rule stay or go together
    have hsame : ∀ x ∈ first, p x.rule = p rule := by
      intro x hx
      rw [rule_of_mem_check hfirst hx]
    rw [List.filter_append, List.filter_congr hsame]
    by_cases hrule : p rule = true
    · rw [List.filter_cons_of_pos hrule, checkAll_cons_eq_ok_iff]
      refine ⟨first, _, hfirst, ih hothers, ?_⟩
      simp [hrule]
    · rw [List.filter_cons_of_neg hrule, ih hothers]
      simp [hrule]

end Context

namespace Analysis

variable {k : Known}

/-- Some of the rules find in a function what all of them find, without the findings of the
others. -/
theorem Known.Complete.found_ordered (hk : k.Complete) (rules : List Rule) {f : Function}
    (hf : f ∈ k.module.functions) :
    k.found (Rule.ordered rules) f = (k.found Rule.all f).filter fun x =>
      decide (x.rule ∈ rules) := by
  obtain ⟨c, hproper, -, -, -, hcheck⟩ := hk.exists_context hf
  obtain ⟨found, hfound⟩ := hproper.exists_checkAll Rule.all
  have hsome := Context.checkAll_filter (fun r => decide (r ∈ rules)) hfound
  rw [Known.found, Known.found, (hcheck _ _).2 hfound, Rule.ordered, (hcheck _ _).2 hsome]

end Analysis

/-! ## Full reports

The full report has all rules and all severities. Any other report is it with some findings left
out, in the same order. -/

/-- The settings with all rules checked and all findings reported. -/
def Config.unfiltered (c : Config) : Config := { c with rules := Rule.all, minSeverity := .info }

/-- The same analyzer with all rules checked and all findings reported. -/
def Analyzer.unfiltered (a : Analyzer) : Analyzer := { a with config := a.config.unfiltered }

/-- A result without the findings of other rules and those that are not severe enough. -/
def Result.restrict (rules : List Rule) (severity : Severity) (r : Result) : Result :=
  { r with
    findings :=
      r.findings.filter fun x => decide (x.rule ∈ rules ∧ severity.priority ≤ x.severity.priority)
    rules := Rule.ordered rules }

theorem Finding.isAtLeast_info (x : Finding) : x.isAtLeast .info = true := by
  rw [isAtLeast, decide_eq_true_iff]
  cases x.severity <;> decide

/-- A report is the full report with the other findings left out. -/
theorem Analysis.Known.Complete.report_eq_restrict {k : Known} (hk : k.Complete) (c : Config) :
    k.report c k.module.sortedFunctions (inspected c k.module false) =
      (k.report c.unfiltered k.module.sortedFunctions
        (inspected c.unfiltered k.module false)).restrict c.rules
        c.minSeverity := by
  have hfull : c.unfiltered.checkedRules = Rule.all := rfl
  have hkeeps : ∀ x : Finding,
      (decide (x.rule ∈ c.rules ∧ c.minSeverity.priority ≤ x.severity.priority) &&
      x.isAtLeast c.unfiltered.minSeverity) =
        (x.isAtLeast c.minSeverity && decide (x.rule ∈ c.rules)) := by
    intro x
    have hinfo : x.isAtLeast c.unfiltered.minSeverity = true := x.isAtLeast_info
    rw [hinfo, Bool.and_true, Finding.isAtLeast, Bool.decide_and, Bool.and_comm]
  have hfound : ∀ f ∈ k.module.sortedFunctions,
      (k.found c.checkedRules f).filter (Finding.isAtLeast c.minSeverity) =
        ((k.found c.unfiltered.checkedRules f).filter
          (Finding.isAtLeast c.unfiltered.minSeverity)).filter fun x =>
          decide (x.rule ∈ c.rules ∧ c.minSeverity.priority ≤ x.severity.priority) := by
    intro f hf
    rw [Config.checkedRules, hk.found_ordered c.rules (Module.mem_sortedFunctions.1 hf), hfull,
      List.filter_filter, List.filter_filter]
    exact List.filter_congr fun x _ => (hkeeps x).symm
  simp only [Known.report, Result.restrict, filter_sortFindings, List.filter_flatMap,
    List.flatMap_congr hfound]
  rfl

namespace Analyzer

variable {τ : Type}

/-- **Rules are independent and the filters of a report are exact.** Without a time limit, a step
gives what the step with all rules and all severities gives, with only the findings of its rules
that are severe enough left in, in the same order. The text of an error may differ, if several
functions have a defect and their results arrive in another order. -/
theorem givesSame_unfiltered (timing : Timing τ) {a : Analyzer} (hlimit : a.config.timeout = none)
    (arrival arrival' : Stage → Arrival) (m : Module) (clock clock' : Nat → τ) (n n' : Nat) :
    GivesSame (Result.restrict a.config.rules a.config.minSeverity)
      (a.config.SameDefect arrival arrival' m) ((a.analyzeBy timing arrival m).answer clock n).1
      ((a.unfiltered.analyzeBy timing arrival' m).answer clock' n').1 := by
  by_cases hready : a.isReady = true
  · have hready' : a.unfiltered.isReady = true := hready
    have hsettled := settled_analyzeBy timing hready hlimit arrival m clock n
    have hsettled' := settled_analyzeBy timing hready' hlimit arrival' m clock' n'
    refine (hsettled.givesSame hsettled' _ rfl Iff.rfl rfl (fun _ => rfl) (fun _ => rfl) ?_).imp
      fun hdefect => hdefect.rejectsAlike
    rintro k k' hk hk' rfl hmodule hpolicy duration duration'
    rw [hk'.report_eq hk hmodule hpolicy (hmodule ▸ List.Subset.refl _)]
    rw [hk.report_eq_restrict]
    rfl
  · have hready' : ¬ a.unfiltered.isReady = true := hready
    rw [analyzeBy, analyzeBy, if_neg hready, if_neg hready']
    exact ⟨.error _ _ _, rfl⟩

/-- An analyzer that reports critical findings of two rules. -/
def selective : Analyzer :=
  .ofConfig
    { Config.default with rules := [.globalStorage, .conditionalScrub], minSeverity := .critical }

/-- A store and a scrub are found in full; only the scrub is critical. -/
theorem givesSame_unfiltered_discarding :
    selective.config.timeout = none ∧ ∀ arrival clock n, ∃ full r,
      ((selective.unfiltered.analyzeBy .seconds arrival (discarding .secret)).answer clock n).1.1 =
        .ok full ∧
      ((selective.analyzeBy .seconds arrival (discarding .secret)).answer clock n).1.1 = .ok r ∧
      full.findings.map (fun x => (x.rule, x.block)) =
        [(.conditionalScrub, "wipe"), (.globalStorage, "out")] ∧
      r.findings.map (fun x => (x.rule, x.block)) = [(.conditionalScrub, "wipe")] := by
  refine ⟨rfl, fun arrival clock n => ?_⟩
  have hcomputed :
    (((selective.unfiltered.analyzeBy .seconds arrival (discarding .secret)).answer clock n).1.1.map
      fun r => (r.findings.map (fun x => (x.rule, x.block)),
        (r.restrict selective.config.rules selective.config.minSeverity).findings.map fun x =>
          (x.rule, x.block))) =
      .ok ([(.conditionalScrub, "wipe"), (.globalStorage, "out")],
        [(.conditionalScrub, "wipe")]) := by rfl
  obtain ⟨full, hfull, heq⟩ := exists_of_map_eq_ok hcomputed
  have hsame :=
    (givesSame_unfiltered .seconds (a := selective) rfl arrival arrival
      (discarding .secret) clock clock n n).result.timeless (.inl (.inr rfl))
  rw [hfull] at hsame
  obtain ⟨r, hr, htimeless⟩ := exists_of_map_eq_ok hsame
  have hfindings : r.findings =
      (full.restrict selective.config.rules selective.config.minSeverity).findings := by
    have hfields := congrArg Result.findings htimeless
    exact hfields
  refine ⟨full, r, hfull, hr, (Prod.mk.inj heq).1, ?_⟩
  rw [hfindings]
  exact (Prod.mk.inj heq).2

/-- Of two defects the one that arrives first is reported, so the errors may differ. -/
theorem errors_unfiltered_gates :
    ((selective.analyzeBy .seconds (fun _ => .inOrder) gates).answer (fun _ => 0) 0).1.1.map
        Result.errors = .ok ["[a:e] nested region_start in a single block"] ∧
      ((selective.unfiltered.analyzeBy .seconds (fun _ => .reversed) gates).answer
        (fun _ => 0) 0).1.1.map
        Result.errors = .ok ["[b:0] region opened at '0' has no exit"] :=
  ⟨rfl, rfl⟩

end Analyzer

end ConstantTime
