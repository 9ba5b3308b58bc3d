import FlowFacts.Check.Report
import FlowFacts.Proofs.Flow.Analysis

/-!
# What reports say

A report asks the environments that were noted.  A point is reported as reachable if its flow
condition can be satisfied.  An argument is reported as true or false if the flow condition
implies so, and as unknown if it can be satisfied either way.  The questions enter formulas into
the table, but this does not change the answers to later ones.

## Main definitions

* `Environment.Knows` — what an environment knows of a formula.
* `FactOn`, `ReportOn` — a fact and a report are right.

## Main results

* `yields_truth`, `yields_annotationReport` — answers to one question.
* `yields_annotationReports` — the reports on all points are right.
-/

namespace FlowFacts

open FormulaM FormulaTable

variable {t t' T : FormulaTable} {p : Program} {f : FunctionId} {e : Environment} {v : ValueId}
  {g : Formula} {name : String} {points : List (String × Environment)}

/-- What is known of the formula `g` where the flow condition of `e` holds. -/
def Environment.Knows (e : Environment) (T : FormulaTable) (g : Formula) : Truth → Prop
  | .provenTrue => ∀ ρ, T.holds ρ e.flow = true → T.holds ρ g = true
  | .provenFalse => (∃ ρ, T.holds ρ e.flow = true ∧ T.holds ρ g = false) ∧
      ∀ ρ, T.holds ρ e.flow = true → T.holds ρ g = false
  | .unknown => (∃ ρ, T.holds ρ e.flow = true ∧ T.holds ρ g = false) ∧
      ∃ ρ, T.holds ρ e.flow = true ∧ T.holds ρ g = true

/-- What `e` knows of `g` does not change if the table grows. -/
theorem Environment.knows_iff {x : Truth} (hg : t.Grows T) (ht : t.WellFormed)
    (hT : T.WellFormed) (he : e.Within t) (hhas : t.Has g) : e.Knows T g x ↔ e.Knows t g x := by
  have hflow : ∀ ρ, T.holds ρ e.flow = t.holds ρ e.flow := fun ρ => hg.holds ht hT he.flow
  have hformula : ∀ ρ, T.holds ρ g = t.holds ρ g := fun ρ => hg.holds ht hT hhas
  cases x <;> simp only [Environment.Knows, hflow, hformula]

theorem Environment.Knows.mono {x : Truth} (h : e.Knows t g x) (hg : t.Grows T)
    (ht : t.WellFormed) (hT : T.WellFormed) (he : e.Within t) (hhas : t.Has g) :
    e.Knows T g x :=
  (Environment.knows_iff hg ht hT he hhas).2 h

theorem yields_truth (ht : t.WellFormed) (he : e.Within t) (hg : t.Has g) :
    Yields (e.truth g) t fun x _ => e.Knows t g x := by
  -- what is not proved is false under some assignment
  have hnot : ∀ {φ : (Atom → Bool) → Bool}, ¬ (∀ ρ, t.holds ρ e.flow = true → φ ρ = true) →
      ∃ ρ, t.holds ρ e.flow = true ∧ φ ρ = false := by
    intro φ h
    by_contra hnone
    refine h fun ρ hρ => ?_
    by_contra hφ
    exact hnone ⟨ρ, hρ, by simpa using hφ⟩
  unfold Environment.truth
  apply (yields_proves ht he hg).bind
  intro proved t₁ ht₁ hg₁ hproved
  cases proved with
  | true => exact yields_pure ht₁ (hproved.1 rfl)
  | false =>
    have hfalse := hnot fun h => Bool.false_ne_true (hproved.2 h)
    apply (yields_mkNot ht₁ (hg.means.mono hg₁ ht ht₁)).bind
    intro n t₂ ht₂ hg₂ hn
    -- the questions are asked of a table that has grown
    have hflow : ∀ ρ, t₂.holds ρ e.flow = t.holds ρ e.flow := fun ρ =>
      (hg₁.trans hg₂).holds ht ht₂ he.flow
    apply (yields_proves ht₂ (he.mono (hg₁.trans hg₂)) hn.has).bind
    intro refuted t₃ ht₃ hg₃ hrefuted
    simp only [hflow, hn.holds] at hrefuted
    cases refuted with
    | true =>
      refine yields_pure ht₃ ⟨hfalse, fun ρ hρ => ?_⟩
      simpa using hrefuted.1 rfl ρ hρ
    | false =>
      refine yields_pure ht₃ ⟨hfalse, ?_⟩
      obtain ⟨ρ, hρ, htrue⟩ := hnot fun h => Bool.false_ne_true (hrefuted.2 h)
      exact ⟨ρ, hρ, by simpa using htrue⟩

/-! ### Facts on arguments -/

/-- The formula `g` that the argument `v` is asked for: the one that it is bound to, or its atom. -/
def ArgumentFormula (T : FormulaTable) (e : Environment) (v : ValueId) (g : Formula) : Prop :=
  e.values.get? v = some g ∨
    e.values.get? v = none ∧ ∃ a, T.valueAtom? v = some a ∧ T.node g = .atom a

theorem yields_argumentFormula (ht : t.WellFormed) (he : e.Within t) (v : ValueId) :
    Yields (e.argumentFormula v) t fun g t' => t'.Has g ∧
      t'.Henceforth fun T => ArgumentFormula T e v g := by
  unfold Environment.argumentFormula
  cases hget : e.values.get? v with
  | some g => exact yields_pure ht ⟨he.values v g hget, fun T _ _ => Or.inl hget⟩
  | none =>
    apply (yields_valueAtom ht v).bind
    intro a t₁ ht₁ _ ha
    refine (yields_mkAtom ht₁ (ht₁.valueAtom_lt ha.1)).mono fun g t₂ ht₂ hg₂ hg => ?_
    have hhas : t₂.Has g := has_of_node_atom hg
    refine ⟨hhas, fun T hT hgT => Or.inr ⟨hget, a, (hg₂.trans hgT).valueAtom ha.1, ?_⟩⟩
    rw [hgT.node hhas, hg]

/-- The `fact` says what `e` knows of the argument `x`. -/
def FactOn (T : FormulaTable) (e : Environment) (x : String × ValueId) (fact : ArgumentFact) :
    Prop :=
  fact.name = x.1 ∧ ∃ g, ArgumentFormula T e x.2 g ∧ e.Knows T g fact.truth

/-- The arguments of `f` that are truth values, with their names. -/
def Program.namedBoolArgs (p : Program) (f : FunctionId) : List (String × ValueId) :=
  (p.function f).args.filter fun x => p.isBool x.2

theorem Program.mem_boolArgs_of_named (p : Program) {x : String × ValueId}
    (hx : x ∈ p.namedBoolArgs f) : x.2 ∈ p.boolArgs f := by
  obtain ⟨hmem, hbool⟩ := List.mem_filter.1 hx
  exact List.mem_filter.2 ⟨List.mem_map_of_mem hmem, hbool⟩

theorem yields_argumentFacts (ht : t.WellFormed) (he : e.Within t) (p : Program)
    (f : FunctionId) : Yields (argumentFacts p f e) t fun facts t' =>
      t'.Henceforth fun T => List.Forall₂ (FactOn T e) (p.namedBoolArgs f) facts := by
  refine yields_mapM ht fun x _ t₀ ht₀ hg₀ => ?_
  apply (yields_argumentFormula ht₀ (he.mono hg₀) x.2).bind
  intro g t₁ ht₁ hg₁ hg
  have he₁ := (he.mono hg₀).mono hg₁
  apply (yields_truth ht₁ he₁ hg.1).bind
  intro truth t₂ ht₂ hg₂ htruth
  refine yields_pure ht₂ fun T hT hgT => ⟨rfl, g, hg.2 T hT (hg₂.trans hgT), ?_⟩
  exact htruth.mono (hg₂.trans hgT) ht₁ hT he₁ hg.1

/-! ### Reports -/

/-- The report `r` says what the environment of the point `x` knows. -/
structure ReportOn (T : FormulaTable) (p : Program) (f : FunctionId) (x : String × Environment)
    (r : AnnotationReport) : Prop where
  /-- It has the name of the point. -/
  name : r.name = x.1
  /-- A point can be reached if its flow condition can be satisfied. -/
  reachable : r.reachable = true ↔ ∃ ρ, T.holds ρ x.2.flow = true
  /-- Then there is a fact on each argument that is a truth value. -/
  arguments : r.reachable = true → List.Forall₂ (FactOn T x.2) (p.namedBoolArgs f) r.arguments
  /-- Otherwise there are none. -/
  nothing : r.reachable = false → r.arguments = []

theorem yields_annotationReport (ht : t.WellFormed) (he : e.Within t) (p : Program)
    (f : FunctionId) (name : String) : Yields (annotationReport p f name e) t fun r t' =>
      t'.Henceforth fun T => ReportOn T p f (name, e) r := by
  unfold annotationReport
  apply (yields_feasible ht e).bind
  intro feasible t₁ ht₁ hg₁ hfeasible
  -- the answer holds of every later table
  have hsame : ∀ {T : FormulaTable}, T.WellFormed → t₁.Grows T →
      (feasible = true ↔ ∃ ρ, T.holds ρ e.flow = true) := by
    intro T hT hgT
    simp only [(hg₁.trans hgT).holds ht hT he.flow]
    exact hfeasible
  cases feasible with
  | true =>
    apply (yields_argumentFacts ht₁ (he.mono hg₁) p f).bind
    intro facts t₂ ht₂ hg₂ hfacts
    exact yields_pure ht₂ fun T hT hgT =>
      ⟨rfl, hsame hT (hg₂.trans hgT), fun _ => hfacts T hT hgT, by simp⟩
  | false =>
    exact yields_pure ht₁ fun T hT hgT => ⟨rfl, hsame hT hgT, by simp, fun _ => rfl⟩

/-- The reports on all `points` that were noted are right. -/
theorem yields_annotationReports (ht : t.WellFormed) (hpoints : ∀ x ∈ points, x.2.Within t)
    (p : Program) (f : FunctionId) :
    Yields (annotationReports p f points) t fun reports t' =>
      t'.Henceforth fun T => List.Forall₂ (ReportOn T p f) points reports := by
  refine yields_mapM ht fun x hx t' ht' hg' => ?_
  exact yields_annotationReport ht' ((hpoints x hx).mono hg') p f x.1

/-- The report on a point is found by its `name`. -/
theorem exists_find?_of_forall₂ {reports : List AnnotationReport}
    (h : List.Forall₂ (ReportOn T p f) points reports) (he : points.lookup name = some e) :
    ∃ r, reports.find? (·.name == name) = some r ∧ ReportOn T p f (name, e) r := by
  induction h with
  | nil => cases he
  | @cons x r points reports hr _ ih =>
    rw [List.lookup_cons] at he
    rw [List.find?_cons, hr.name]
    by_cases hx : x.1 = name
    · simp only [hx, beq_self_eq_true, Option.some.injEq] at he ⊢
      refine ⟨r, rfl, ?_⟩
      rw [← hx, ← he]
      exact hr
    · have hne : (x.1 == name) = false := by simpa using hx
      have hne' : (name == x.1) = false := by simpa using Ne.symm hx
      rw [hne'] at he
      rw [hne]
      exact ih he

/-- After an analysis with a `result`, the report on the point `name` says what the environment
`e` knows that was noted there. -/
theorem Analysed.exists_report {task : Task} {R : Model.Rule} {start : Environment} {s : Sweep}
    {result : Analysis} {events events' : Array Event} (hT : T.WellFormed)
    (ha : Analysed R task T start s result)
    (hresult : task.analyse events t = ((.ok result, events'), T))
    (he : result.points.lookup name = some e) :
    ∃ r T', (task.reportSteps events t).1.1.annotation? name = some r ∧ T.Grows T' ∧
      T'.WellFormed ∧ ReportOn T' task.program task.function (name, e) r := by
  have hdistinct : (result.points.map Prod.fst).Nodup := ha.noted.distinct List.nodup_nil
  have hwithin : ∀ x ∈ result.points, x.2.Within T := fun x hx =>
    ha.within x.1 x.2 ((lookup_eq_some_iff_mem hdistinct).2 hx)
  obtain ⟨hT', hg, hreports⟩ := yields_annotationReports hT hwithin task.program task.function
  obtain ⟨r, hr, hon⟩ := exists_find?_of_forall₂ (hreports _ hT' (.refl _)) he
  refine ⟨r, _, ?_, hg, hT', hon⟩
  have hreport : (task.reportSteps events t).1.1 =
      { function := task.name,
        outcome := .ok (annotationReports task.program task.function result.points T).1 } := by
    simp only [Task.reportSteps, bind, StateT.bind, hresult]
    rfl
  rw [hreport]
  exact hr

end FlowFacts
