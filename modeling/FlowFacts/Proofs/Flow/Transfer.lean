import FlowFacts.Check.Model
import FlowFacts.Proofs.Flow.Environment
import FlowFacts.Proofs.Logic.Repeated
import FlowFacts.Proofs.Program.Body

/-!
# What instructions and edges do to environments

Every step of the analysis is inverted once: a relation says all that the step can have
done, in terms of the relations for environments.  The relations refer to a table that the
table after the step develops into, so those of different steps can be put together.

## Main definitions

* `Fetched` — the formula of an operand.
* `Transferred`, `Refined` — the effect of an instruction, and what a check adds to it.
* `Entered`, `LeadsOut` — edges.

## Main results

* `yields_operandFormula`, `yields_transfer`, `leadsTo_refine`, `yields_outgoing` — the steps
  are described by the relations.
-/

namespace FlowFacts

open FormulaM FormulaTable

variable {t t' T : FormulaTable} {p : Program} {e e₁ e₂ e' : Environment} {v w : ValueId}
  {f g : Formula} {a : Atom} {ρ : Atom → Bool}

/-! ### Truth values -/

/-- The truth value of a logical operation, for operands `x` and `y`. -/
def BinaryOp.onBools : BinaryOp → Bool → Bool → Bool
  | .and, x, y => x && y
  | .or, x, y => x || y
  | _, x, y => !(x == y)

/-- The truth value of a comparison of the truth values `x` and `y`. -/
def Comparison.onBools (predicate : Comparison) (x y : Bool) : Bool :=
  if predicate = .eq then x == y else !(x == y)

theorem computes_binaryOp (op : BinaryOp) : Computes op.formula op.onBools := by
  intro t x y φ ψ S S' ht hx hy
  cases op with
  | and => exact yields_mkAnd ht hx hy
  | or => exact yields_mkOr ht hx hy
  | xor | add | sub | mul =>
    exact (yields_mkEquals ht hx hy).bind fun q t₁ ht₁ _ hq => yields_mkNot ht₁ hq

theorem computes_comparison (predicate : Comparison) :
    Computes predicate.formula predicate.onBools := by
  intro t x y φ ψ S S' ht hx hy
  refine (yields_mkEquals ht hx hy).bind fun q t₁ ht₁ _ hq => ?_
  unfold Comparison.onBools
  split
  · exact yields_pure ht₁ hq
  · exact yields_mkNot ht₁ hq

/-- The constructor `mk` may be asked again. -/
def Repeatable (mk : Formula → Formula → FormulaM Formula) : Prop :=
  ∀ {t : FormulaTable} {x y : Formula}, t.WellFormed → t.Has x → t.Has y → Repeats (mk x y) t

theorem repeats_mkEquals_mkNot (ht : t.WellFormed) {x y : Formula} (hx : t.Has x)
    (hy : t.Has y) : Repeats (do mkNot (← mkEquals x y)) t := by
  obtain ⟨ht₁, -, hq⟩ := yields_mkEquals ht hx.means hy.means
  exact (repeats_mkEquals ht hx hy).bind (repeats_mkNot ht₁ hq.has) (yields_mkNot ht₁ hq).2.1

theorem repeatable_binaryOp (op : BinaryOp) : Repeatable op.formula := by
  intro t x y ht hx hy
  cases op with
  | and => exact repeats_mkAnd ht hx hy
  | or => exact repeats_mkOr ht hx hy
  | xor | add | sub | mul => exact repeats_mkEquals_mkNot ht hx hy

theorem repeatable_comparison (predicate : Comparison) : Repeatable predicate.formula := by
  intro t x y ht hx hy
  unfold Comparison.formula
  split
  · exact repeats_mkEquals ht hx hy
  · exact repeats_mkEquals_mkNot ht hx hy

/-! ### Operands -/

/-- The formula of the operand `v`, if it is a truth value, and the environment with it. -/
inductive Fetched (T : FormulaTable) (p : Program) (e : Environment) (v : ValueId) :
    Option Formula → Environment → Prop
  /-- It is bound. -/
  | bound {f : Formula} : e.values.get? v = some f → Fetched T p e v (some f) e
  /-- It is a constant. -/
  | constant {b : Bool} {f : Formula} : e.values.get? v = none →
      p.constant? v = some (.bool b) → T.Means f (fun _ => b) ∅ → T.Makes (mkLiteral b) f →
      Fetched T p e v (some f) e
  /-- Nothing is known of it. -/
  | renewed {a : Atom} {f : Formula} {e' : Environment} : e.values.get? v = none →
      p.constant? v = none → p.isBool v = true → Renewed T e v a f e' →
      Fetched T p e v (some f) e'
  /-- It is no truth value. -/
  | other : e.values.get? v = none → p.isBool v = false → Fetched T p e v none e

/-- A truth value `v` has a formula. -/
theorem Fetched.exists_some {r : Option Formula} (h : Fetched T p e v r e')
    (hbool : p.isBool v = true) : ∃ g, r = some g := by
  cases h with
  | bound _ | constant _ _ _ _ | renewed _ _ _ _ => exact ⟨_, rfl⟩
  | other _ hother => simp [hother] at hbool

/-- A truth value `v` is a boolean constant or no constant at all. -/
theorem constant?_eq_none (hbool : p.isBool v = true)
    (h : (p.constant? v).bind Constant.asBool? = none) : p.constant? v = none := by
  cases hc : p.constant? v with
  | none => rfl
  | some c =>
    rw [hc, Option.bind_some] at h
    rw [Program.isBool, Program.typeOf_of_constant? hc, beq_iff_eq, Option.some.injEq] at hbool
    cases c <;> simp_all [Constant.ty, Constant.asBool?]

theorem yields_operandFormula (ht : t.WellFormed) (he : e.Within t) (p : Program) (v : ValueId) :
    Yields (operandFormula p e v) t fun r t' => r.2.Within t' ∧ (∀ f ∈ r.1, t'.Has f) ∧
      t'.Henceforth fun T => Fetched T p e v r.1 r.2 := by
  unfold operandFormula
  split
  · -- it is bound
    rename_i f hf
    exact yields_pure ht ⟨he, by simpa using he.values v f hf, fun T _ _ => .bound hf⟩
  · -- it is a constant
    rename_i b hnone hconst
    have hb : p.constant? v = some (.bool b) := by
      obtain ⟨c, hc, hcb⟩ := Option.bind_eq_some_iff.1 hconst
      cases c <;> simp_all [Constant.asBool?]
    apply ((yields_mkLiteral ht b).repeated (repeats_mkLiteral ht b)).bind
    rintro f t₁ ht₁ hg₁ ⟨hf, hmade⟩
    refine yields_pure ht₁ ⟨he.mono hg₁, by simpa using hf.has, fun T hT hgT => ?_⟩
    exact .constant hnone hb (hf.mono hgT ht₁ hT) (hmade T hT hgT)
  · -- nothing is known of it; only a truth value gets an atom
    rename_i hnone hconst
    split
    · rename_i hbool
      refine (yields_renew ht he v).bind ?_
      rintro ⟨f, e'⟩ t₁ ht₁ _ ⟨he', hrenewed⟩
      refine yields_pure ht₁ ⟨he', ?_, fun T hT hgT => ?_⟩
      · obtain ⟨a, ha⟩ := hrenewed t₁ ht₁ (.refl t₁)
        simpa using has_of_node_atom ha.formula
      · obtain ⟨a, ha⟩ := hrenewed T hT hgT
        exact .renewed hnone (constant?_eq_none hbool hconst) hbool ha
    · rename_i hbool
      exact yields_pure ht ⟨he, by simp, fun T _ _ => .other hnone (by simpa using hbool)⟩

/-- The operands `lhs` and `rhs` are fetched and combined, if both have a formula. -/
inductive Combined (T : FormulaTable) (p : Program) (e : Environment) (lhs rhs : ValueId)
    (mk : Formula → Formula → FormulaM Formula) (op : Bool → Bool → Bool) :
    Option Formula → Environment → Prop
  /-- Both have one. -/
  | both {x y f : Formula} {e₁ e' : Environment} : Fetched T p e lhs (some x) e₁ →
      Fetched T p e₁ rhs (some y) e' →
      T.Means f (fun ρ => op (T.holds ρ x) (T.holds ρ y)) {a | T.Occurs a x ∨ T.Occurs a y} →
      T.Makes (mk x y) f → Combined T p e lhs rhs mk op (some f) e'
  /-- One has none. -/
  | missing {x y : Option Formula} {e₁ e' : Environment} : Fetched T p e lhs x e₁ →
      Fetched T p e₁ rhs y e' → x = none ∨ y = none → Combined T p e lhs rhs mk op none e'

theorem yields_combineOperands (ht : t.WellFormed) (he : e.Within t) (p : Program)
    (lhs rhs : ValueId) {mk : Formula → Formula → FormulaM Formula} {op : Bool → Bool → Bool}
    (hmk : Computes mk op) (hrepeat : Repeatable mk) :
    Yields (combineOperands p e lhs rhs mk) t fun r t' => r.2.Within t' ∧
      (∀ f ∈ r.1, t'.Has f) ∧ t'.Henceforth fun T => Combined T p e lhs rhs mk op r.1 r.2 := by
  refine (yields_operandFormula ht he p lhs).bind ?_
  rintro ⟨x, e₁⟩ t₁ ht₁ _ ⟨he₁, hx, hfetched₁⟩
  refine (yields_operandFormula ht₁ he₁ p rhs).bind ?_
  rintro ⟨y, e₂⟩ t₂ ht₂ hg₂ ⟨he₂, hy, hfetched₂⟩
  have hmissing : x = none ∨ y = none →
      t₂.Henceforth fun T => Combined T p e lhs rhs mk op none e₂ := fun hnone T hT hgT =>
    .missing (hfetched₁ T hT (hg₂.trans hgT)) (hfetched₂ T hT hgT) hnone
  cases x with
  | none => exact yields_pure ht₂ ⟨he₂, by simp, hmissing (Or.inl rfl)⟩
  | some x =>
    cases y with
    | none => exact yields_pure ht₂ ⟨he₂, by simp, hmissing (Or.inr rfl)⟩
    | some y =>
      have hx₂ : t₂.Has x := hg₂.has (hx x rfl)
      have hy₂ : t₂.Has y := hy y rfl
      apply ((hmk ht₂ hx₂.means hy₂.means).repeated (hrepeat ht₂ hx₂ hy₂)).bind
      rintro f t₃ ht₃ hg₃ ⟨hf, hmade⟩
      refine yields_pure ht₃ ⟨he₂.mono hg₃, by simpa using hf.has, fun T hT hgT => ?_⟩
      have hgrow := hg₃.trans hgT
      refine .both (hfetched₁ T hT (hg₂.trans hgrow)) (hfetched₂ T hT hgrow) ?_ (hmade T hT hgT)
      refine (hf.mono hgT ht₃ hT).weaken (fun ρ => ?_) fun b hb => ?_
      · rw [hgrow.holds ht₂ hT hx₂, hgrow.holds ht₂ hT hy₂]
      · exact hb.imp (hgrow.occurs ht₂ hT hx₂).2 (hgrow.occurs ht₂ hT hy₂).2

/-! ### Results -/

/-- The formula of the result of an operation in `e`, if it has one. -/
inductive Resulted (T : FormulaTable) (p : Program) (e : Environment) :
    Operation → Option Formula → Environment → Prop
  /-- A negation. -/
  | not {arg : ValueId} {x f : Formula} {e' : Environment} : Fetched T p e arg (some x) e' →
      T.Means f (fun ρ => !T.holds ρ x) {a | T.Occurs a x} → T.Makes (mkNot x) f →
      Resulted T p e (.not arg) (some f) e'
  /-- A negation of something without a formula. -/
  | notOther {arg : ValueId} {e' : Environment} : Fetched T p e arg none e' →
      Resulted T p e (.not arg) none e'
  /-- A logical operation. -/
  | logical {op : BinaryOp} {lhs rhs : ValueId} {r : Option Formula} {e' : Environment} :
      op.isLogical = true → Combined T p e lhs rhs op.formula op.onBools r e' →
      Resulted T p e (.binary op lhs rhs) r e'
  /-- An arithmetic operation. -/
  | arithmetic {op : BinaryOp} {lhs rhs : ValueId} : op.isLogical = false →
      Resulted T p e (.binary op lhs rhs) none e
  /-- A comparison of truth values. -/
  | equality {predicate : Comparison} {lhs rhs : ValueId} {r : Option Formula}
      {e' : Environment} : predicate.isOrder = false → p.isBool lhs = true →
      Combined T p e lhs rhs predicate.formula predicate.onBools r e' →
      Resulted T p e (.compare predicate lhs rhs) r e'
  /-- Another comparison. -/
  | comparison {predicate : Comparison} {lhs rhs : ValueId} :
      predicate.isOrder = true ∨ p.isBool lhs = false →
      Resulted T p e (.compare predicate lhs rhs) none e

/-- The operations whose result may be computed. -/
def Operation.isComputation : Operation → Bool
  | .not _ | .binary .. | .compare .. => true
  | _ => false

theorem yields_resultFormula (ht : t.WellFormed) (he : e.Within t) (p : Program) {op : Operation}
    (hop : op.isComputation = true) :
    Yields (resultFormula p e op) t fun r t' => r.2.Within t' ∧ (∀ f ∈ r.1, t'.Has f) ∧
      t'.Henceforth fun T => Resulted T p e op r.1 r.2 := by
  cases op with
  | not arg =>
    refine (yields_operandFormula ht he p arg).bind ?_
    rintro ⟨x, e'⟩ t₁ ht₁ _ ⟨he', hx, hfetched⟩
    cases x with
    | none => exact yields_pure ht₁ ⟨he', by simp, fun T hT hgT => .notOther (hfetched T hT hgT)⟩
    | some x =>
      have hx₁ : t₁.Has x := hx x rfl
      apply ((yields_mkNot ht₁ hx₁.means).repeated (repeats_mkNot ht₁ hx₁)).bind
      rintro f t₂ ht₂ hg₂ ⟨hf, hmade⟩
      refine yields_pure ht₂ ⟨he'.mono hg₂, by simpa using hf.has, fun T hT hgT => ?_⟩
      have hgrow := hg₂.trans hgT
      refine .not (hfetched T hT hgrow)
        ((hf.mono hgT ht₂ hT).weaken (fun ρ => ?_) fun b hb => ?_) (hmade T hT hgT)
      · rw [hgrow.holds ht₁ hT hx₁]
      · exact (hgrow.occurs ht₁ hT hx₁).2 hb
  | binary op lhs rhs =>
    rw [resultFormula]
    split
    · rename_i hlogical
      refine (yields_combineOperands ht he p lhs rhs (computes_binaryOp op)
        (repeatable_binaryOp op)).mono ?_
      exact fun r t' _ _ h => ⟨h.1, h.2.1, fun T hT hgT => .logical hlogical (h.2.2 T hT hgT)⟩
    · rename_i hlogical
      exact yields_pure ht ⟨he, by simp, fun T _ _ => .arithmetic (by simpa using hlogical)⟩
  | compare predicate lhs rhs =>
    rw [resultFormula]
    split
    · rename_i hbool
      rw [Bool.and_eq_true, Bool.not_eq_true'] at hbool
      refine (yields_combineOperands ht he p lhs rhs (computes_comparison predicate)
        (repeatable_comparison predicate)).mono ?_
      exact fun r t' _ _ h =>
        ⟨h.1, h.2.1, fun T hT hgT => .equality hbool.1 hbool.2 (h.2.2 T hT hgT)⟩
    · rename_i hbool
      refine yields_pure ht ⟨he, by simp, fun T _ _ => .comparison ?_⟩
      simpa [Classical.or_iff_not_imp_left] using hbool
  | _ => simp [Operation.isComputation] at hop

/-! ### Instructions -/

/-- The operations that assign nothing. -/
def Operation.isQuiet : Operation → Bool
  | .annotate _ | .branch _ | .condBranch .. | .nop | .ret .. => true
  | _ => false

/-- The effect of the instruction `v` on `e`. -/
inductive Transferred (T : FormulaTable) (p : Program) (v : ValueId) (e : Environment) :
    Environment → Prop
  /-- Nothing is assigned. -/
  | quiet : (∀ op ∈ p.operation? v, op.isQuiet = true) → Transferred T p v e e
  /-- A call that returns a truth value. -/
  | call {callee : FunctionId} {args : List ValueId} {a : Atom} {f : Formula}
      {e' : Environment} : p.operation? v = some (.call callee args) → p.isBool v = true →
      Renewed T e v a f e' → Transferred T p v e e'
  /-- Another call. -/
  | callOther {callee : FunctionId} {args : List ValueId} :
      p.operation? v = some (.call callee args) → p.isBool v = false →
      Transferred T p v e (e.erase v)
  /-- A result with a formula. -/
  | computed {op : Operation} {f : Formula} {e' : Environment} : p.operation? v = some op →
      Resulted T p e op (some f) e' → Transferred T p v e (e'.set v f)
  /-- A result without one. -/
  | forgotten {op : Operation} {e' : Environment} : p.operation? v = some op →
      Resulted T p e op none e' → Transferred T p v e (e'.erase v)

theorem yields_computation (ht : t.WellFormed) (he : e.Within t) {p : Program} {v : ValueId}
    {op : Operation} (hop : p.operation? v = some op) (hcomp : op.isComputation = true) :
    Yields (do
      match ← resultFormula p e op with
      | (some f, e) => return e.set v f
      | (none, e) => return e.erase v) t fun e' t' => e'.Within t' ∧
        t'.Henceforth fun T => Transferred T p v e e' := by
  refine (yields_resultFormula ht he p hcomp).bind ?_
  rintro ⟨r, e'⟩ t₁ ht₁ _ ⟨he', hr, hresulted⟩
  cases r with
  | none =>
    exact yields_pure ht₁ ⟨he'.erase v, fun T hT hgT => .forgotten hop (hresulted T hT hgT)⟩
  | some f =>
    exact yields_pure ht₁
      ⟨he'.set (hr f rfl) v, fun T hT hgT => .computed hop (hresulted T hT hgT)⟩

theorem yields_transfer (ht : t.WellFormed) (he : e.Within t) (p : Program) (v : ValueId) :
    Yields (transfer p v e) t fun e' t' => e'.Within t' ∧
      t'.Henceforth fun T => Transferred T p v e e' := by
  have hquiet : (∀ op ∈ p.operation? v, op.isQuiet = true) → Yields (pure e) t
      fun e' t' => e'.Within t' ∧ t'.Henceforth fun T => Transferred T p v e e' :=
    fun hq => yields_pure ht ⟨he, fun T _ _ => .quiet hq⟩
  unfold transfer
  cases hop : p.operation? v with
  | none => exact hquiet (by simp [hop])
  | some op =>
    cases op with
    | annotate | branch | condBranch | nop | ret =>
      exact hquiet (by simp [hop, Operation.isQuiet])
    | call callee args =>
      simp only
      split
      · rename_i hbool
        refine (yields_renew ht he v).bind ?_
        rintro ⟨f, e'⟩ t₁ ht₁ _ ⟨he', hrenewed⟩
        refine yields_pure ht₁ ⟨he', fun T hT hgT => ?_⟩
        obtain ⟨a, ha⟩ := hrenewed T hT hgT
        exact .call hop hbool ha
      · rename_i hbool
        exact yields_pure ht ⟨he.erase v, fun T _ _ => .callOther hop (by simpa using hbool)⟩
    | not | binary | compare => exact yields_computation ht he hop rfl

/-! ### Edges -/

/-- What is passed for the parameters of a block that are truth values. -/
inductive PassedTo (T : FormulaTable) (p : Program) :
    Environment → List (ValueId × ValueId) → List (ValueId × Option Formula) → Environment → Prop
  /-- There is no parameter left. -/
  | nil (e : Environment) : PassedTo T p e [] [] e
  /-- A truth value is passed. -/
  | bool {e e₁ e' : Environment} {param arg : ValueId} {rest : List (ValueId × ValueId)}
      {f : Option Formula} {bound : List (ValueId × Option Formula)} : p.isBool param = true →
      Fetched T p e arg f e₁ → PassedTo T p e₁ rest bound e' →
      PassedTo T p e ((param, arg) :: rest) ((param, f) :: bound) e'
  /-- Something else is passed. -/
  | other {e e' : Environment} {param arg : ValueId} {rest : List (ValueId × ValueId)}
      {bound : List (ValueId × Option Formula)} : p.isBool param = false →
      PassedTo T p (e.erase param) rest bound e' →
      PassedTo T p e ((param, arg) :: rest) bound e'

theorem yields_passArguments (p : Program) : ∀ {pairs : List (ValueId × ValueId)}
    {t : FormulaTable} {e : Environment}, t.WellFormed → e.Within t →
      Yields (passArguments p e pairs) t fun r t' => r.2.Within t' ∧
        (∀ v f, (v, some f) ∈ r.1 → t'.Has f) ∧
        (r.1.map Prod.fst).Sublist (pairs.map Prod.fst) ∧
        t'.Henceforth fun T => PassedTo T p e pairs r.1 r.2 := by
  intro pairs
  induction pairs with
  | nil =>
    intro t e ht he
    exact yields_pure ht ⟨he, by simp, List.Sublist.slnil, fun T _ _ => .nil e⟩
  | cons x rest ih =>
    obtain ⟨param, arg⟩ := x
    intro t e ht he
    rw [passArguments]
    split
    · rename_i hbool
      refine (yields_operandFormula ht he p arg).bind ?_
      rintro ⟨f, e₁⟩ t₁ ht₁ _ ⟨he₁, hf, hfetched⟩
      refine (ih ht₁ he₁).bind ?_
      rintro ⟨bound, e'⟩ t₂ ht₂ hg₂ ⟨he', hbound, hsub, hpassed⟩
      refine yields_pure ht₂ ⟨he', fun v g hg => ?_, hsub.cons_cons param, fun T hT hgT => ?_⟩
      · rcases List.mem_cons.1 hg with heq | hg
        · cases heq
          exact hg₂.has (hf g rfl)
        · exact hbound v g hg
      · exact .bool hbool (hfetched T hT (hg₂.trans hgT)) (hpassed T hT hgT)
    · rename_i hbool
      refine (ih ht (he.erase param)).mono ?_
      rintro ⟨bound, e'⟩ t₁ _ _ ⟨he', hbound, hsub, hpassed⟩
      exact ⟨he', hbound, hsub.cons param, fun T hT hgT =>
        .other (by simpa using hbool) (hpassed T hT hgT)⟩

/-- The values that `target` passes, with the parameters they are passed for. -/
def Program.passed (p : Program) (target : Target) : List (ValueId × ValueId) :=
  (p.block target.block).params.zip target.args

/-- The environment `e'` at the end of an edge by `target`. -/
def Entered (T : FormulaTable) (p : Program) (target : Target) (e e' : Environment) : Prop :=
  ∃ params e₁, PassedTo T p e (p.passed target) params e₁ ∧ BoundTo T e₁ params e'

theorem map_fst_zip_sublist {α β : Type} (l : List α) (l' : List β) :
    ((l.zip l').map Prod.fst).Sublist l := by
  induction l generalizing l' with
  | nil => simp
  | cons x l ih =>
    cases l' with
    | nil => simp
    | cons y l' => exact (ih l').cons_cons x

theorem yields_enter (ht : t.WellFormed) (he : e.Within t) {target : Target}
    (hparams : (p.block target.block).params.Nodup) :
    Yields (enter p target e) t fun e' t' => e'.Within t' ∧
      t'.Henceforth fun T => Entered T p target e e' := by
  refine (yields_passArguments p ht he).bind ?_
  rintro ⟨params, e₁⟩ t₁ ht₁ _ ⟨he₁, hhas, hsub, hpassed⟩
  have hnodup := (hsub.trans (map_fst_zip_sublist _ _)).nodup hparams
  refine (yields_bind ht₁ he₁ hnodup hhas).mono ?_
  rintro e' t' _ hg' ⟨he', hbound⟩
  exact ⟨he', fun T hT hgT => ⟨params, e₁, hpassed T hT (hg'.trans hgT), hbound T hT hgT⟩⟩

/-- The formula `f` of the condition `cond` of a branch.  Only in programs with faults it can
lack one; then it may be anything. -/
def Decided (T : FormulaTable) (p : Program) (e : Environment) (cond : ValueId) (f : Formula)
    (e' : Environment) : Prop :=
  Fetched T p e cond (some f) e' ∨
    (Fetched T p e cond none e' ∧ ∃ a, T.Spare a ∧ T.node f = .atom a)

/-- A condition `v` that is a truth value has its formula. -/
theorem Decided.fetched (h : Decided T p e v f e') (hbool : p.isBool v = true) :
    Fetched T p e v (some f) e' := by
  rcases h with hfetched | ⟨hfetched, -⟩
  · exact hfetched
  · obtain ⟨_, ⟨⟩⟩ := hfetched.exists_some hbool

/-- The two environments `e₁` and `e₂` after a conditional branch: the condition is decided, and
each side goes its way. -/
def Forked (T : FormulaTable) (p : Program) (e : Environment) (cond : ValueId)
    (whenTrue whenFalse : Target) (e₁ e₂ : Environment) : Prop :=
  ∃ f g e₀ eT eF, Decided T p e cond f e₀ ∧
    T.Means g (fun ρ => !T.holds ρ f) {a | T.Occurs a f} ∧ Assumed T e₀ f eT ∧
    Assumed T e₀ g eF ∧ Entered T p whenTrue eT e₁ ∧ Entered T p whenFalse eF e₂

/-- The environments at the ends of the edges that leave `b`. -/
inductive LeadsOut (T : FormulaTable) (p : Program) (b : BlockId) (e : Environment) :
    List (BlockId × Environment) → Prop
  /-- There is one edge. -/
  | branch {target : Target} {e' : Environment} : p.terminator? b = some (.branch target) →
      Entered T p target e e' → LeadsOut T p b e [(target.block, e')]
  /-- There are two. -/
  | condBranch {cond : ValueId} {whenTrue whenFalse : Target} {e₁ e₂ : Environment} :
      p.terminator? b = some (.condBranch cond whenTrue whenFalse) →
      whenTrue.block ≠ whenFalse.block → Forked T p e cond whenTrue whenFalse e₁ e₂ →
      LeadsOut T p b e [(whenTrue.block, e₁), (whenFalse.block, e₂)]
  /-- There are two to the same block, which are one. -/
  | same {cond : ValueId} {whenTrue whenFalse : Target} {e₁ e₂ e' : Environment} :
      p.terminator? b = some (.condBranch cond whenTrue whenFalse) →
      whenTrue.block = whenFalse.block → Forked T p e cond whenTrue whenFalse e₁ e₂ →
      Joined T e₁ e₂ e' → LeadsOut T p b e [(whenTrue.block, e')]
  /-- There is none. -/
  | none : p.successors b = [] → LeadsOut T p b e []

/-- Both sides of a conditional branch at the end of `b`, whose condition is decided. -/
theorem yields_fork (ht : t.WellFormed) (he : e.Within t) (hf : t.Has f) {b : BlockId}
    (hparams : ∀ c, (p.block c).params.Nodup) {cond : ValueId} {whenTrue whenFalse : Target}
    (hterm : p.terminator? b = some (.condBranch cond whenTrue whenFalse))
    (hdecided : t.Henceforth fun T => Decided T p e₁ cond f e) :
    Yields (do
      let e₁ ← enter p whenTrue (← e.assume f)
      let e₂ ← enter p whenFalse (← e.assume (← mkNot f))
      if whenTrue.block = whenFalse.block then return [(whenTrue.block, ← e₁.join e₂)]
      else return [(whenTrue.block, e₁), (whenFalse.block, e₂)]) t fun edges t' =>
        (∀ x ∈ edges, x.2.Within t') ∧ t'.Henceforth fun T => LeadsOut T p b e₁ edges := by
  refine (yields_assume ht he hf).bind ?_
  rintro eT t₁ ht₁ hg₁ ⟨heT, hassumedT⟩
  refine (yields_enter ht₁ heT (hparams _)).bind ?_
  rintro e₂ t₂ ht₂ hg₂ ⟨he₂, hentered₂⟩
  have hg₁₂ := hg₁.trans hg₂
  refine (yields_mkNot ht₂ (hf.means.mono hg₁₂ ht ht₂)).bind fun g t₃ ht₃ hg₃ hg => ?_
  refine (yields_assume ht₃ (he.mono (hg₁₂.trans hg₃)) hg.has).bind ?_
  rintro eF t₄ ht₄ hg₄ ⟨heF, hassumedF⟩
  refine (yields_enter ht₄ heF (hparams _)).bind ?_
  rintro e₃ t₅ ht₅ hg₅ ⟨he₃, hentered₃⟩
  have hg₃₅ := hg₄.trans hg₅
  have hg₂₅ := hg₃.trans hg₃₅
  have hg₀₅ := hg₁₂.trans hg₂₅
  -- the steps so far, put together in one later table
  have hforked : t₅.Henceforth fun T => Forked T p e₁ cond whenTrue whenFalse e₂ e₃ := by
    intro T hT hgT
    have hgrow := hg₀₅.trans hgT
    refine ⟨f, g, e, eT, eF, hdecided T hT hgrow, ?_, hassumedT T hT ((hg₂.trans hg₂₅).trans hgT),
      hassumedF T hT (hg₅.trans hgT), hentered₂ T hT (hg₂₅.trans hgT), hentered₃ T hT hgT⟩
    refine (hg.mono (hg₃₅.trans hgT) ht₃ hT).weaken (fun ρ => ?_) fun b hb => ?_
    · rw [hgrow.holds ht hT hf]
    · exact (hgrow.occurs ht hT hf).2 hb
  split
  · rename_i hsame
    refine (yields_join ht₅ (he₂.mono hg₂₅) he₃).bind ?_
    rintro e' t₆ ht₆ hg₆ ⟨he', hjoined⟩
    refine yields_pure ht₆ ⟨by simpa using he', fun T hT hgT => ?_⟩
    exact .same hterm hsame (hforked T hT (hg₆.trans hgT)) (hjoined T hT hgT)
  · rename_i hne
    refine yields_pure ht₅ ⟨?_, fun T hT hgT => .condBranch hterm hne (hforked T hT hgT)⟩
    simp only [List.forall_mem_cons]
    exact ⟨he₂.mono hg₂₅, he₃, by simp⟩

theorem yields_outgoing (ht : t.WellFormed) (he : e.Within t) {b : BlockId}
    (hparams : ∀ c, (p.block c).params.Nodup) :
    Yields (outgoing p b e) t fun edges t' => (∀ x ∈ edges, x.2.Within t') ∧
      t'.Henceforth fun T => LeadsOut T p b e edges := by
  unfold outgoing
  split
  · rename_i target hterm
    refine (yields_enter ht he (hparams _)).bind ?_
    rintro e' t₁ ht₁ _ ⟨he', hentered⟩
    exact yields_pure ht₁ ⟨by simpa using he', fun T hT hgT => .branch hterm (hentered T hT hgT)⟩
  · rename_i cond whenTrue whenFalse hterm
    refine (yields_operandFormula ht he p cond).bind ?_
    rintro ⟨found, e'⟩ t₁ ht₁ _ ⟨he', hhas, hfetched⟩
    cases found with
    | some f =>
      exact yields_fork ht₁ he' (hhas f rfl) hparams hterm
        fun T hT hgT => Or.inl (hfetched T hT hgT)
    | none =>
      simp only [Environment.freshFormula, bind_assoc]
      refine (yields_freshAtom ht₁).bind fun a t₂ ht₂ hg₂ ha => ?_
      refine (yields_mkAtom ht₂ ha.2.lt).bind fun f t₃ ht₃ hg₃ hf => ?_
      have hhas₃ : t₃.Has f := has_of_node_atom hf
      have hg₁₃ := hg₂.trans hg₃
      refine yields_fork ht₃ (he'.mono hg₁₃) hhas₃ hparams hterm fun T hT hgT => Or.inr ?_
      refine ⟨hfetched T hT (hg₁₃.trans hgT), a, ha.2.mono (hg₃.trans hgT), ?_⟩
      rw [hgT.node hhas₃, hf]
  · rename_i hterm hterm'
    refine yields_pure ht ⟨by simp, fun T _ _ => .none ?_⟩
    rw [Program.successors]
    cases h : p.terminator? b with
    | none => rfl
    | some op => cases op <;> simp_all [Operation.targets]

/-! ### Steps with events -/

namespace AnalysisM

variable {α β : Type} {Q : α → FormulaTable → Prop}

/-- What the steps `x` of an analysis lead to, whatever has been reported before. -/
def LeadsTo (x : AnalysisM α) (t : FormulaTable) (Q : α → FormulaTable → Prop) : Prop :=
  ∀ events, Yields (x events) t fun r t' => Q r.1 t'

theorem LeadsTo.mono {x : AnalysisM α} {Q R : α → FormulaTable → Prop} (h : LeadsTo x t Q)
    (hR : ∀ a t', t'.WellFormed → t.Grows t' → Q a t' → R a t') : LeadsTo x t R :=
  fun events => (h events).mono fun r t' => hR r.1 t'

theorem leadsTo_pure {x : α} (ht : t.WellFormed) (h : Q x t) : LeadsTo (pure x) t Q :=
  fun _ => yields_pure ht h

theorem LeadsTo.bind {x : AnalysisM α} {k : α → AnalysisM β} {R : β → FormulaTable → Prop}
    (h : LeadsTo x t Q) (hk : ∀ a t', t'.WellFormed → t.Grows t' → Q a t' → LeadsTo (k a) t' R) :
    LeadsTo (x >>= k) t R :=
  fun events => (h events).bind fun r t' ht' hg hQ => hk r.1 t' ht' hg hQ r.2

/-- Steps `x` that only grow the table. -/
theorem leadsTo_lift {x : FormulaM α} (h : Yields x t Q) : LeadsTo (monadLift x) t Q :=
  fun _ => h.bind fun _ _ ht' _ hQ => yields_pure ht' hQ

theorem leadsTo_report (ht : t.WellFormed) (event : Event) :
    LeadsTo (report event) t fun _ t' => t' = t :=
  fun _ => ⟨ht, .refl t, rfl⟩

end AnalysisM

open AnalysisM

/-! ### Checks -/

/-- The condition that holds after the instruction `v`, if it is a call that `c` knows as a check
and that fits. -/
def Catalogue.condition? (c : Catalogue) (p : Program) (v : ValueId) : Option ValueId :=
  match p.operation? v with
  | some (.call callee args) =>
      match c.lookupCallee? p callee with
      | some variant =>
          match variant.locate p args with
          | .condition cond => some cond
          | _ => none
      | none => none
  | _ => none

theorem isBool_of_locate {variant : CheckVariant} {args : List ValueId}
    (h : variant.locate p args = .condition v) : v ∈ args ∧ p.isBool v = true := by
  unfold CheckVariant.locate at h
  split at h
  · simp at h
  · split at h
    · simp at h
    · rename_i w hw
      split at h
      · rename_i hbool
        cases h
        exact ⟨List.mem_of_getElem? hw, hbool⟩
      · simp at h

/-- The condition `cond` of a check is one of its arguments, and a truth value. -/
theorem mem_operands_of_condition? {c : Catalogue} {cond : ValueId}
    (h : c.condition? p v = some cond) :
    (∃ callee args, p.operation? v = some (.call callee args) ∧ cond ∈ args) ∧
      p.isBool cond = true := by
  unfold Catalogue.condition? at h
  split at h
  · rename_i callee args hop
    split at h
    · split at h
      · rename_i hloc
        cases h
        obtain ⟨hmem, hbool⟩ := isBool_of_locate hloc
        exact ⟨⟨callee, args, hop, hmem⟩, hbool⟩
      · simp at h
    · simp at h
  · simp at h

/-- What a check adds to `e` after the instruction `v`. -/
inductive Refined (T : FormulaTable) (p : Program) (c : Catalogue) (v : ValueId)
    (e : Environment) : Environment → Prop
  /-- The condition holds. -/
  | check {cond : ValueId} {f : Formula} {e₁ e' : Environment} :
      c.condition? p v = some cond → Fetched T p e cond (some f) e₁ → Assumed T e₁ f e' →
      Refined T p c v e e'
  /-- There is no check. -/
  | none : c.condition? p v = none → Refined T p c v e e

theorem yields_conditionFormula (ht : t.WellFormed) (he : e.Within t) (hbool : p.isBool v = true) :
    Yields (conditionFormula p e v) t fun r t' => r.2.Within t' ∧ t'.Has r.1 ∧
      t'.Henceforth fun T => Fetched T p e v (some r.1) r.2 := by
  refine (yields_operandFormula ht he p v).bind ?_
  rintro ⟨found, e'⟩ t₁ ht₁ _ ⟨he', hhas, hfetched⟩
  cases found with
  | some f => exact yields_pure ht₁ ⟨he', hhas f rfl, hfetched⟩
  | none =>
    -- a truth value has a formula
    cases hfetched t₁ ht₁ (.refl t₁) with
    | other _ hother => simp [hother] at hbool

theorem leadsTo_refine (ht : t.WellFormed) (he : e.Within t) (m : CheckModel) (p : Program)
    (v : ValueId) :
    LeadsTo (m.model.refine p v e) t fun e' t' => e'.Within t' ∧
      t'.Henceforth fun T => Refined T p m.catalogue v e e' := by
  have hnone : m.catalogue.condition? p v = none → e.Within t ∧
      t.Henceforth fun T => Refined T p m.catalogue v e e := fun h =>
    ⟨he, fun T _ _ => .none h⟩
  unfold CheckModel.model
  dsimp only
  split
  · rename_i callee args hop
    split
    · rename_i variant hvariant
      unfold CheckModel.afterCheck
      split
      · -- the check fits: its condition is assumed
        rename_i cond hloc
        have hcond : m.catalogue.condition? p v = some cond := by
          rw [Catalogue.condition?, hop]
          simp only [hvariant, hloc]
        refine (leadsTo_lift (yields_conditionFormula ht he (isBool_of_locate hloc).2)).bind ?_
        rintro ⟨f, e₁⟩ t₁ ht₁ _ ⟨he₁, hf, hfetched⟩
        refine (leadsTo_report ht₁ _).bind fun _ t₁' ht₁' _ heq => ?_
        subst heq
        refine (leadsTo_lift (yields_assume ht₁ he₁ hf)).mono ?_
        rintro e' t₂ _ hg₂ ⟨he', hassumed⟩
        exact ⟨he', fun T hT hgT =>
          .check hcond (hfetched T hT (hg₂.trans hgT)) (hassumed T hT hgT)⟩
      · -- a check without a condition, or one that does not fit, adds nothing
        rename_i hloc
        refine (leadsTo_report ht _).bind fun _ t₁ ht₁ _ heq => ?_
        subst heq
        exact leadsTo_pure ht₁ (hnone (by simp [Catalogue.condition?, hop, hvariant, hloc]))
      · rename_i reason hloc
        refine (leadsTo_report ht _).bind fun _ t₁ ht₁ _ heq => ?_
        subst heq
        exact leadsTo_pure ht₁ (hnone (by simp [Catalogue.condition?, hop, hvariant, hloc]))
    · rename_i hvariant
      exact leadsTo_pure ht (hnone (by simp [Catalogue.condition?, hop, hvariant]))
  · rename_i hop
    refine leadsTo_pure ht (hnone ?_)
    unfold Catalogue.condition?
    split
    · rename_i callee args hop'
      exact absurd hop' (hop callee args)
    · rfl

end FlowFacts
