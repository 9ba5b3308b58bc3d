import FlowFacts.Proofs.Flow.Operations

/-!
# Answers are exact and last

Questions to environments enter formulas into the table that all environments share.  The answers
say what they should about the assignments that satisfy the flow conditions, and these assignments
stay the same while the table grows.  So it does not matter which questions were asked before, in
which order, or what else was done with the table: environments are what they were, and every
question has the answer that it had.

## Main definitions

* `Question`, `Question.ask`, `askAll` — questions to environments.
* `Question.Holds` — what a question asks.
* `Environment.written` — an environment written out.
* `Undisturbed` — environments and answers are the same in a later table.

## Main results

* `yields_ask` — the answer to a question is right.
* `undisturbed_of_grows` — growth of the table disturbs nothing.
* `yields_askAll` — questions asked one after another have the answers that they have alone.
* `answers_exact` — all this holds on every table that operations lead to.
-/

namespace FlowFacts

open FormulaM FormulaTable

variable {t T : FormulaTable} {e e₁ e₂ : Environment} {q : Question}

/-! ### Questions -/

/-- A question to environments. -/
inductive Question where
  /-- Whether a formula holds on every path to the point. -/
  | proves (e : Environment) (f : Formula)
  /-- Whether a formula holds on some path to the point. -/
  | allows (e : Environment) (f : Formula)
  /-- Whether any path leads to the point. -/
  | feasible (e : Environment)
  /-- Whether two environments say the same. -/
  | equivalent (e₁ e₂ : Environment)
  deriving DecidableEq

namespace Question

/-- The answer to a question: the function of its kind, applied to its environments. -/
def ask : Question → FormulaM Bool
  | proves e f => e.proves f
  | allows e f => e.allows f
  | feasible e => e.feasible
  | equivalent e₁ e₂ => e₁.equivalent e₂

/-- A question is about environments and formulas of the table `t`. -/
def Within (t : FormulaTable) : Question → Prop
  | proves e f | allows e f => e.Within t ∧ t.Has f
  | feasible e => e.Within t
  | equivalent e₁ e₂ => e₁.Within t ∧ e₂.Within t

instance (t : FormulaTable) : DecidablePred (Within t)
  | proves _ _ | allows _ _ | equivalent _ _ => inferInstanceAs (Decidable (_ ∧ _))
  | feasible e => inferInstanceAs (Decidable (e.Within t))

/-- What a question asks, in terms of the assignments that satisfy flow conditions in `t`. -/
def Holds (t : FormulaTable) : Question → Prop
  | proves e f => ∀ ρ, t.holds ρ e.flow = true → t.holds ρ f = true
  | allows e f => ∃ ρ, t.holds ρ e.flow = true ∧ t.holds ρ f = true
  | feasible e => ∃ ρ, t.holds ρ e.flow = true
  | equivalent e₁ e₂ => (∀ v, e₁.values.get? v = e₂.values.get? v) ∧
      ∀ ρ, t.holds ρ e₁.flow = true ↔ t.holds ρ e₂.flow = true

end Question

/-- The answers to the questions `qs`, asked one after another. -/
def askAll (qs : List Question) : FormulaM (List Bool) := qs.mapM Question.ask

/-! ### Answers -/

theorem Question.Within.mono (hq : q.Within t) (hg : t.Grows T) : q.Within T := by
  cases q with
  | proves e f | allows e f => exact ⟨hq.1.mono hg, hg.has hq.2⟩
  | feasible e => exact Environment.Within.mono hq hg
  | equivalent e₁ e₂ => exact ⟨hq.1.mono hg, hq.2.mono hg⟩

/-- The question `q` asks the same in a larger table. -/
theorem Question.Within.holds_iff (hq : q.Within t) (hg : t.Grows T) (ht : t.WellFormed)
    (hT : T.WellFormed) : q.Holds T ↔ q.Holds t := by
  cases q with
  | proves e f | allows e f => simp only [Holds, hg.holds ht hT hq.1.flow, hg.holds ht hT hq.2]
  | feasible e => simp only [Holds, hg.holds ht hT (Environment.Within.flow hq)]
  | equivalent e₁ e₂ =>
    simp only [Holds, hg.holds ht hT hq.1.flow, hg.holds ht hT hq.2.flow]

theorem saysTheSame_iff : SaysTheSame t e₁ e₂ ↔ (Question.equivalent e₁ e₂).Holds t := by
  refine and_congr ⟨fun h v => by rw [h], fun h => ?_⟩ (forall_congr' fun ρ => Bool.eq_iff_iff)
  exact Bindings.eq_of_get? fun v g => by rw [h]

/-- The answer to the question `q` is right. -/
theorem yields_ask (ht : t.WellFormed) (hq : q.Within t) :
    Yields q.ask t fun answer _ => answer = true ↔ q.Holds t := by
  cases q with
  | proves e f => exact yields_proves ht hq.1 hq.2
  | allows e f => exact yields_allows ht hq.1 hq.2
  | feasible e => exact yields_feasible ht e
  | equivalent e₁ e₂ =>
    apply (yields_equivalent ht hq.1 hq.2).mono
    intro answer t' ht' hg hanswer
    -- what the answer says of the table that the question leaves holds of the one it met
    have hlater : answer = true ↔ SaysTheSame t' e₁ e₂ := hanswer t' ht' (.refl t')
    rw [hlater, saysTheSame_iff]
    exact Question.Within.holds_iff hq hg ht ht'

/-! ### Later tables -/

/-- The environment `e` written out: its values with their formulas, and the flow condition. -/
def Environment.written (e : Environment) (t : FormulaTable) : List (ValueId × Expr) × Expr :=
  (e.values.entries.map fun x => (x.1, t.expr x.2), t.expr e.flow)

theorem Environment.Within.written_eq (he : e.Within t) (hg : t.Grows T) (ht : t.WellFormed)
    (hT : T.WellFormed) : e.written T = e.written t := by
  refine Prod.ext (List.map_congr_left fun x hx => ?_) (hg.expr ht hT he.flow)
  rw [hg.expr ht hT ((Environment.within_iff.1 he).2 x hx)]

/-- The environments of `t` are in the later table `T` what they were, and questions have the
answers that they had. -/
structure Undisturbed (t T : FormulaTable) : Prop where
  /-- Environments are written out alike. -/
  written : ∀ e : Environment, e.Within t → e.Within T ∧ e.written T = e.written t
  /-- Answers are the same. -/
  answer : ∀ q : Question, q.Within t → (q.ask T).1 = (q.ask t).1

/-- Growth of the table from `t` to `T` disturbs nothing, since what is asked does not depend on
it. -/
theorem undisturbed_of_grows (ht : t.WellFormed) (hT : T.WellFormed) (hg : t.Grows T) :
    Undisturbed t T where
  written e he := ⟨he.mono hg, he.written_eq hg ht hT⟩
  answer q hq := by
    have hlater : (q.ask T).1 = true ↔ q.Holds T := (yields_ask hT (hq.mono hg)).2.2
    have hnow : (q.ask t).1 = true ↔ q.Holds t := (yields_ask ht hq).2.2
    rw [Bool.eq_iff_iff, hlater, hnow]
    exact hq.holds_iff hg ht hT

/-- The questions `qs`, asked one after another, have the answers that they have alone. -/
theorem yields_askAll {qs : List Question} (ht : t.WellFormed) (hqs : ∀ q ∈ qs, q.Within t) :
    Yields (askAll qs) t fun answers _ => answers = qs.map fun q => (q.ask t).1 := by
  apply Yields.mono (yields_mapM (P := fun _ q answer => (q.ask t).1 = answer) ht ?_)
  · intro answers t' ht' _ hanswers
    have hall := List.forall₂_map_left_iff.2 (hanswers t' ht' (.refl t'))
    rw [List.forall₂_eq_eq_eq] at hall
    exact hall.symm
  · -- each question meets a table that the ones before it have left
    intro q hq t₁ ht₁ hg₁
    have hsame := (undisturbed_of_grows ht ht₁ hg₁).answer q (hqs q hq)
    obtain ⟨ht₂, hg₂, -⟩ := yields_ask ht₁ ((hqs q hq).mono hg₁)
    exact ⟨ht₂, hg₂, fun _ _ _ => hsame.symm⟩

/-- **Answers are exact and last.**  On a table `t` that operations lead to, take any questions
to environments of it.  The answers are right.  Asked one after another, in whatever order, each
has the answer that it has alone.  Afterwards, and also after any other operations, environments
are what they were and every question has the answer that it had. -/
theorem answers_exact (h : Relation.ReflTransGen Operates {} t) :
    (∀ q : Question, q.Within t → ((q.ask t).1 = true ↔ q.Holds t)) ∧
    (∀ qs : List Question, (∀ q ∈ qs, q.Within t) →
      (askAll qs t).1 = (qs.map fun q => (q.ask t).1) ∧ Undisturbed t (askAll qs t).2) ∧
    ∀ T, Relation.ReflTransGen Operates t T → Undisturbed t T := by
  have ht := wellFormed_of_operates h
  refine ⟨fun q hq => (yields_ask ht hq).2.2, fun qs hqs => ?_, fun T hops => ?_⟩
  · obtain ⟨hT, hg, hanswers⟩ := yields_askAll ht hqs
    exact ⟨hanswers, undisturbed_of_grows ht hT hg⟩
  · obtain ⟨hT, hg⟩ := kept_of_reflTransGen ht hops
    exact undisturbed_of_grows ht hT hg

/-- A table with a disjunction of two atoms, and the negation of the conjunction of their
negations. -/
def alternativesTable : FormulaTable :=
  List.foldl push atomPairTable [.or ⟨0⟩ ⟨1⟩, .not ⟨0⟩, .not ⟨1⟩, .and ⟨3⟩ ⟨4⟩, .not ⟨5⟩]

/-- An environment that knows the formula `f` and nothing else. -/
def alternative (f : Formula) : Environment where
  values := .empty
  flow := f

/-- Questions of every kind, the first of them asked again at the end. -/
def alternativesQuestions : List Question :=
  [.equivalent (alternative ⟨2⟩) (alternative ⟨6⟩), .proves (alternative ⟨2⟩) ⟨0⟩,
    .allows (alternative ⟨6⟩) ⟨4⟩, .feasible (alternative ⟨5⟩),
    .equivalent (alternative ⟨2⟩) (alternative ⟨6⟩)]

theorem reachable_alternativesTable : Relation.ReflTransGen Operates {} alternativesTable :=
  ((((reachable_atomPairTable.tail
    (.mkOr (x := ⟨0⟩) (y := ⟨1⟩) (by decide) (by decide))).tail
    (.mkNot (x := ⟨0⟩) (by decide))).tail (.mkNot (x := ⟨1⟩) (by decide))).tail
    (.mkAnd (x := ⟨3⟩) (y := ⟨4⟩) (by decide) (by decide))).tail
    (.mkNot (x := ⟨5⟩) (by decide))

/-- The flow conditions `⟨2⟩` and `⟨6⟩` are of different form and have the same models.  The
answer is the same at the end, although the questions in between enter formulas. -/
theorem alternatives_answered :
    Relation.ReflTransGen Operates {} alternativesTable ∧
      (∀ q ∈ alternativesQuestions, q.Within alternativesTable) ∧
      (askAll alternativesQuestions alternativesTable).1 = [true, false, true, true, true] ∧
      ∀ ρ, alternativesTable.holds ρ ⟨2⟩ = true ↔ alternativesTable.holds ρ ⟨6⟩ = true := by
  have hwithin : ∀ q ∈ alternativesQuestions, q.Within alternativesTable := by decide
  obtain ⟨hexact, hall, -⟩ := answers_exact reachable_alternativesTable
  have hsame := (hexact _ (hwithin _ List.mem_cons_self)).1 (by decide +kernel)
  refine ⟨reachable_alternativesTable, hwithin, ?_, hsame.2⟩
  rw [(hall _ hwithin).1]
  decide +kernel

end FlowFacts
