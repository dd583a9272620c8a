/-
What the judging of functions leaves behind.

Functions are judged one after the other, and what was said of a function is never changed: the
tables only grow. So each function was judged in a state between the first and the last one, and
that state already knew the functions which it calls outside its component. `Verdict` states this
of a component in terms of the final tables alone, and it holds of every component in the end. From
then on nothing has to be known about the order of the judging.
-/
import ConstantTime.Proofs.Faultless

set_option autoImplicit false

namespace ConstantTime.Shapes

variable {facts : Facts} {calls : CallGraph} {s s' : Shapes}

/-! ## Tables that grow

What is in the tables stays there, so anything that was found true of an earlier state is true of
the last one. -/

/-- The later state says the same of all that the earlier one knows. -/
structure Extends (s s' : Shapes) : Prop where
  table : ∀ f shape, s.table.get? f = some shape → s'.table.get? f = some shape
  depths : ∀ f d, s.depths.get? f = some d → s'.depths.get? f = some d

theorem Extends.refl (s : Shapes) : s.Extends s := ⟨fun _ _ h => h, fun _ _ h => h⟩

theorem Extends.trans {s'' : Shapes} (h : s.Extends s') (h' : s'.Extends s'') : s.Extends s'' :=
  ⟨fun f shape hf => h'.table f shape (h.table f shape hf),
    fun f d hf => h'.depths f d (h.depths f d hf)⟩

/-- A function is variable-time when something was said against it. -/
theorem isVariableTime_iff {f : String} :
    s.isVariableTime f = true ↔ ∃ shape, s.table.get? f = some shape ∧ shape.evidence ≠ [] := by
  unfold isVariableTime
  cases s.table.get? f with
  | none => simp
  | some shape => simp [Shape.isVariableTime]

/-- A function that was variable-time stays so. -/
theorem Extends.isVariableTime (h : s.Extends s') {f : String} (hf : s.isVariableTime f = true) :
    s'.isVariableTime f = true := by
  obtain ⟨shape, hshape, hne⟩ := isVariableTime_iff.1 hf
  exact isVariableTime_iff.2 ⟨shape, h.table f shape hshape, hne⟩

theorem depth_eq_ok_iff {f : String} {d : Nat} : s.depth f = .ok d ↔ s.depths.get? f = some d := by
  unfold depth
  cases s.depths.get? f <;> simp

/-- Depths that were known stay what they were. -/
theorem Extends.collect_depth (h : s.Extends s') {names : List String} {depths : List Nat}
    (hdepths : collect s.depth names = .ok depths) : collect s'.depth names = .ok depths := by
  rw [← hdepths]
  refine collect_congr fun name hname => ?_
  obtain ⟨d, -, hd⟩ := exists_of_mem_of_forall₂ (forall₂_of_collect_eq_ok hdepths) hname
  rw [hd, depth_eq_ok_iff]
  exact h.depths name d (depth_eq_ok_iff.1 hd)

/-! ## Judging the functions of a component

Functions of a component are judged one after the other, and each is entered once. The states in
between are extended by all later ones. -/

/-- Entering a new name extends a table. -/
theorem get?_set_of_eq_none {α : Type} {t : Table α} {name other : String} {v w : α}
    (hname : t.get? name = none) (h : t.get? other = some w) :
    (t.set name v).get? other = some w := by
  rw [Table.get?_set_of_ne _ _ (fun heq => by rw [heq, h] at hname; cases hname), h]

/-- Each function is judged in a state between. -/
theorem judge_eq_ok {common : List Evidence} {tooDeep : Option Nat} {component : List String}
    (hnodup : component.Nodup) (hfresh : ∀ f ∈ component, s.table.get? f = none)
    (h : judge facts common tooDeep s component = .ok s') :
    s.Extends s' ∧ s'.depths = s.depths ∧
      (∀ f shape, s'.table.get? f = some shape → f ∈ component ∨ s.table.get? f = some shape) ∧
      ∀ f ∈ component, ∃ between body, s.Extends between ∧ between.Extends s' ∧
        bodyEvidence facts between f = .ok body ∧ s'.table.get? f = some ⟨f, common ++ body⟩ := by
  -- the state in which a function was judged is the one at which the induction comes to it
  induction component generalizing s with
  | nil =>
    cases h
    exact ⟨.refl _, rfl, fun f shape hf => .inr hf, fun f hf => absurd hf List.not_mem_nil⟩
  | cons f rest ih =>
    rw [judge] at h
    split at h
    · cases h
    · next body hbody =>
      obtain ⟨hf, hrest⟩ := List.nodup_cons.1 hnodup
      have hnew := hfresh f List.mem_cons_self
      obtain ⟨hext, hdepths, hnames, hjudged⟩ := ih hrest (fun g hg => by
        rw [Table.get?_set_of_ne _ _ fun heq => hf (by rw [heq]; exact hg)]
        exact hfresh g (List.mem_cons_of_mem f hg)) h
      have hstep : s.Extends { s with
          table := s.table.set f ⟨f, common ++ body⟩
          anomalies := s.anomalies ++ (tooDeep.map (depthAnomaly facts f)).toList } :=
        ⟨fun g shape hg => get?_set_of_eq_none hnew hg, fun g d hg => hg⟩
      refine ⟨hstep.trans hext, hdepths, fun g shape hg => ?_, fun g hg => ?_⟩
      · rcases hnames g shape hg with hg | hg
        · exact .inl (List.mem_cons_of_mem f hg)
        · rw [Table.get?_set] at hg
          split at hg
          · next heq => exact .inl (List.mem_cons.2 (.inl heq.symm))
          · exact .inr hg
      · rcases List.mem_cons.1 hg with rfl | hg
        · exact ⟨s, body, .refl s, hstep.trans hext, hbody,
            hext.table g _ (Table.get?_set_self _ _ _)⟩
        · obtain ⟨between, body', hbefore, hafter, hbody', hshape⟩ := hjudged g hg
          exact ⟨between, body', hstep.trans hbefore, hafter, hbody', hshape⟩

/-- The depths after those of a component were entered. -/
theorem get?_foldl_set (depth : Nat) (component : List String) (t : Table Nat) (f : String) :
    (component.foldl (fun t f => t.set f depth) t).get? f = if f ∈ component then some depth
      else t.get? f := by
  induction component generalizing t with
  | nil => simp
  | cons first rest ih =>
    rw [List.foldl_cons, ih, Table.get?_set]
    by_cases hrest : f ∈ rest
    · simp [hrest]
    · by_cases hfirst : first = f
      · simp [hfirst]
      · simp [hrest, hfirst, Ne.symm hfirst]

/-! ## Verdicts

A verdict speaks of the final tables: the depths of the callees, the evidence shared by the
component, and the evidence of each function. -/

/-- What the tables say of a component: whether it is a circle, the depths below it, and for each
member the evidence that it shares with the others and that of its body, which was found when the
functions called outside were known. -/
structure Verdict (facts : Facts) (calls : CallGraph) (s : Shapes) (component : List String)
    (recursive : Bool) (depths : List Nat) : Prop where
  circle : isCircle calls component = .ok recursive
  below : collect s.depth (outside calls component) = .ok depths
  depth : ∀ f ∈ component, s.depths.get? f = some (chainLength component recursive depths)
  shape : ∀ f ∈ component, ∃ between body, between.Extends s ∧
    (∀ c ∈ outside calls component, ∃ shape, between.table.get? c = some shape) ∧
    bodyEvidence facts between f = .ok body ∧
    s.table.get? f = some ⟨f, sharedEvidence facts.policy component recursive
      (exceeds facts.policy (chainLength component recursive depths) depths)
      (chainLength component recursive depths) ++ body⟩

/-- The tables settle a component. -/
def Settles (facts : Facts) (calls : CallGraph) (s : Shapes) (component : List String) : Prop :=
  ∃ recursive depths, Verdict facts calls s component recursive depths

/-- A verdict holds of all later tables. -/
theorem Verdict.extend {component : List String} {recursive : Bool} {depths : List Nat}
    (h : Verdict facts calls s component recursive depths) (hext : s.Extends s') :
    Verdict facts calls s' component recursive depths where
  circle := h.circle
  below := hext.collect_depth h.below
  depth f hf := hext.depths f _ (h.depth f hf)
  shape f hf := by
    obtain ⟨between, body, hbetween, houtside, hbody, hshape⟩ := h.shape f hf
    exact ⟨between, body, hbetween.trans hext, houtside, hbody, hext.table f _ hshape⟩

/-- A component that was settled has a shape for each function. -/
theorem Settles.exists_shape {component : List String} (h : Settles facts calls s component)
    {f : String} (hf : f ∈ component) : ∃ shape, s.table.get? f = some shape := by
  obtain ⟨recursive, depths, hverdict⟩ := h
  obtain ⟨_, _, -, -, -, hshape⟩ := hverdict.shape f hf
  exact ⟨_, hshape⟩

/-- The names that a state knows are among the given ones. -/
structure KnownIn (s : Shapes) (names : List String) : Prop where
  table : ∀ f shape, s.table.get? f = some shape → f ∈ names
  depths : ∀ f d, s.depths.get? f = some d → f ∈ names

/-- Nothing is known of functions that were not judged. -/
theorem KnownIn.get?_table {names : List String} (h : s.KnownIn names) {f : String}
    (hf : f ∉ names) :
    s.table.get? f = none := by
  cases hshape : s.table.get? f with
  | none => rfl
  | some shape => exact absurd (h.table f shape hshape) hf

theorem KnownIn.get?_depths {names : List String} (h : s.KnownIn names) {f : String}
    (hf : f ∉ names) :
    s.depths.get? f = none := by
  cases hd : s.depths.get? f with
  | none => rfl
  | some d => exact absurd (h.depths f d hd) hf

/-- Judging a component that was not known settles it, provided that what it calls outside was
judged. -/
theorem judgeComponent_eq_ok {names component : List String} (hnodup : component.Nodup)
    (hknown : s.KnownIn names) (hnew : ∀ f ∈ component, f ∉ names)
    (houtside : ∀ c ∈ outside calls component, ∃ shape, s.table.get? c = some shape)
    (h : judgeComponent facts calls s component = .ok s') :
    s.Extends s' ∧ s'.KnownIn (names ++ component) ∧ Settles facts calls s' component := by
  unfold judgeComponent at h
  split at h
  · cases h
  · cases h
  · next recursive depths hcircle hbelow =>
    dsimp only at h
    have hjudge := fun hfresh => judge_eq_ok hnodup hfresh h
    obtain ⟨hext, hdepths, hnames, hjudged⟩ := hjudge fun f hf => hknown.get?_table (hnew f hf)
    have hget : ∀ f, s'.depths.get? f =
        if f ∈ component then some (chainLength component recursive depths)
          else s.depths.get? f := by
      intro f
      rw [hdepths]
      exact get?_foldl_set _ component s.depths f
    -- the depths entered are of functions that were not known, so nothing is overwritten
    have hextends : s.Extends s' := by
      refine ⟨hext.table, fun f d hf => ?_⟩
      rw [hget, if_neg fun hin => ?_, hf]
      rw [hknown.get?_depths (hnew f hin)] at hf
      cases hf
    refine ⟨hextends, ⟨fun f shape hf => ?_, fun f d hf => ?_⟩, recursive, depths, hcircle,
      hextends.collect_depth hbelow, fun f hf => ?_, fun f hf => ?_⟩
    · rcases hnames f shape hf with hf | hf
      · exact List.mem_append_right _ hf
      · exact List.mem_append_left _ (hknown.table f shape hf)
    · rw [hget] at hf
      split at hf
      · next hin => exact List.mem_append_right _ hin
      · exact List.mem_append_left _ (hknown.depths f d hf)
    · rw [hget, if_pos hf]
    · obtain ⟨between, body, hbefore, hafter, hbody, hshape⟩ := hjudged f hf
      refine ⟨between, body, hafter, fun c hc => ?_, hbody, hshape⟩
      obtain ⟨shape, hshape⟩ := houtside c hc
      exact ⟨shape, hbefore.table c shape hshape⟩

/-- Components that come in order are settled one after the other. -/
theorem judgeAll_eq_ok (before after : List (List String))
    (hsplit : calls.components = before ++ after)
    (hs : ∀ component ∈ before, Settles facts calls s component) (hknown : s.KnownIn before.flatten)
    (h : judgeAll facts calls s after = .ok s') :
    (∀ component ∈ calls.components, Settles facts calls s' component) ∧
      s'.KnownIn calls.components.flatten := by
  induction after generalizing before s with
  | nil =>
    cases h
    rw [hsplit, List.append_nil]
    exact ⟨hs, hknown⟩
  | cons component rest ih =>
    rw [judgeAll] at h
    split at h
    · cases h
    · next s₁ hs₁ =>
      have hnodup := calls.nodup_flatten_components
      rw [hsplit, List.flatten_append, List.flatten_cons, List.nodup_append, List.nodup_append]
        at hnodup
      have hnew : ∀ f ∈ component, f ∉ before.flatten := fun f hf hin =>
        hnodup.2.2 f hin f (List.mem_append_left _ hf) rfl
      have houtside : ∀ c ∈ outside calls component, ∃ shape, s.table.get? c = some shape := by
        intro c hc
        -- callees outside come in an earlier component, which is settled
        obtain ⟨⟨f, hf, hcallee⟩, hout⟩ := mem_outside_iff.1 hc
        obtain ⟨earlier, hearlier, hmem⟩ :=
          CallGraph.exists_earlier_of_callee hsplit hf hcallee hout
        exact (hs earlier hearlier).exists_shape hmem
      obtain ⟨hext, hknown', hsettles⟩ := judgeComponent_eq_ok hnodup.2.1.1 hknown hnew houtside hs₁
      refine ih (before ++ [component])
        (by rw [hsplit, List.append_assoc, List.singleton_append]) ?_ ?_ h
      · intro c hc
        rcases List.mem_append.1 hc with hc | hc
        · obtain ⟨recursive, depths, hverdict⟩ := hs c hc
          exact ⟨recursive, depths, hverdict.extend hext⟩
        · rw [List.mem_singleton.1 hc]
          exact hsettles
      · rw [List.flatten_append, List.flatten_singleton]
        exact hknown'

/-- **In the end every component is settled**, and nothing but functions of the graph was judged. -/
theorem settles_of_ofModule (h : ofModule facts calls = .ok s) :
    (∀ component ∈ calls.components, Settles facts calls s component) ∧
      s.KnownIn calls.functions := by
  obtain ⟨hsettles, hknown⟩ :=
    judgeAll_eq_ok [] calls.components rfl (fun _ hc => absurd hc List.not_mem_nil)
    ⟨fun _ _ hf => absurd hf (by simp), fun _ _ hf => absurd hf (by simp)⟩ h
  exact ⟨hsettles, fun f shape hf => calls.mem_flatten_components_iff.1 (hknown.table f shape hf),
    fun f d hf => calls.mem_flatten_components_iff.1 (hknown.depths f d hf)⟩

end ConstantTime.Shapes
