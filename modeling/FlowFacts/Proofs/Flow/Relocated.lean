import FlowFacts.Proofs.Flow.Effect

/-!
# The analysis of a function at two places

The steps of an analysis look at the values, blocks and callees of the function only, and at
nothing of them but what is the same at both places.  So each step does the same at both, and
the reports are the same.

## Main results

* `follows_transfer`, `follows_outgoing`, `follows_known` — instructions, edges and checks.
* `Program.Relocates.report_eq` — the reports on a function at two places are the same.
-/

namespace FlowFacts

variable {p q : Program} {r : Relocation} {f g : FunctionId} {S : ValueId → Prop} {b : BlockId}
  {v w : ValueId} {op : Operation}

theorem follows_formula_binary {k : Nat} (op : BinaryOp) (x y : Formula) :
    Follows k id (op.formula x y) (op.formula x y) := by
  cases op with
  | and => exact follows_mkAnd x y
  | or => exact follows_mkOr x y
  | xor | add | sub | mul => exact (follows_mkEquals x y).bind fun f => follows_mkNot f

theorem follows_formula_comparison {k : Nat} (predicate : Comparison) (x y : Formula) :
    Follows k id (predicate.formula x y) (predicate.formula x y) := by
  refine (follows_mkEquals x y).bind fun f => ?_
  rw [id_eq]
  split
  · exact follows_pure rfl
  · exact follows_mkNot f

namespace Program.Relocates

variable (h : p.Relocates q r f g S)

include h

/-! ### Instructions -/

theorem follows_operandFormula (hv : S v) (e : Environment) :
    Follows r.values (Prod.map id (Environment.shift r.values)) (operandFormula p e v)
      (operandFormula q (e.shift r.values) (v.shift r.values)) := by
  unfold operandFormula
  rw [Environment.values_shift, Bindings.get?_shift, h.constant?_eq hv, h.isBool_eq hv]
  cases e.values.get? v with
  | some x => exact follows_pure rfl
  | none =>
    cases (p.constant? v).bind Constant.asBool? with
    | some x => exact (follows_mkLiteral x).bind fun _ => follows_pure rfl
    | none =>
      dsimp only
      split
      · exact (follows_renew e v).bind fun _ => follows_pure rfl
      · exact follows_pure rfl

theorem follows_combineOperands (hv : S v) (hw : S w) (e : Environment)
    {combine : Formula → Formula → FormulaM Formula}
    (hcombine : ∀ x y, Follows r.values id (combine x y) (combine x y)) :
    Follows r.values (Prod.map id (Environment.shift r.values))
      (combineOperands p e v w combine)
      (combineOperands q (e.shift r.values) (v.shift r.values) (w.shift r.values) combine) := by
  refine (h.follows_operandFormula hv e).bind ?_
  rintro ⟨x, e₁⟩
  refine (h.follows_operandFormula hw e₁).bind ?_
  rintro ⟨y, e₂⟩
  cases x with
  | none => exact follows_pure rfl
  | some x =>
    cases y with
    | none => exact follows_pure rfl
    | some y => exact (hcombine x y).bind fun _ => follows_pure rfl

theorem follows_resultFormula (hoperands : ∀ w ∈ op.operands, S w) (e : Environment) :
    Follows r.values (Prod.map id (Environment.shift r.values)) (resultFormula p e op)
      (resultFormula q (e.shift r.values) (op.relocate r)) := by
  cases op with
  | not arg =>
    refine (h.follows_operandFormula (hoperands arg (by simp [Operation.operands])) e).bind ?_
    rintro ⟨x, e₁⟩
    cases x with
    | none => exact follows_pure rfl
    | some x => exact (follows_mkNot x).bind fun _ => follows_pure rfl
  | binary op lhs rhs =>
    rw [Operation.relocate, resultFormula, resultFormula]
    split
    · exact h.follows_combineOperands (hoperands lhs (by simp [Operation.operands]))
        (hoperands rhs (by simp [Operation.operands])) e (follows_formula_binary op)
    · exact follows_pure rfl
  | compare predicate lhs rhs =>
    have hlhs := hoperands lhs (by simp [Operation.operands])
    rw [Operation.relocate, resultFormula, resultFormula, h.isBool_eq hlhs]
    split
    · exact h.follows_combineOperands hlhs (hoperands rhs (by simp [Operation.operands])) e
        (follows_formula_comparison predicate)
    · exact follows_pure rfl
  | annotate | branch | call | condBranch | nop | ret => exact follows_pure rfl

/-- The result `v` takes the formula of the operation `op`, if it has one. -/
theorem follows_computation (hoperands : ∀ w ∈ op.operands, S w) (e : Environment) :
    Follows r.values (Environment.shift r.values)
      (do match ← resultFormula p e op with
          | (some f, e) => return e.set v f
          | (none, e) => return e.erase v)
      (do match ← resultFormula q (e.shift r.values) (op.relocate r) with
          | (some f, e) => return e.set (v.shift r.values) f
          | (none, e) => return e.erase (v.shift r.values)) := by
  refine (h.follows_resultFormula hoperands e).bind ?_
  rintro ⟨x, e₁⟩
  cases x with
  | none => exact follows_pure (e₁.erase_shift v)
  | some x => exact follows_pure (e₁.set_shift v x)

theorem follows_transfer (hv : S v) (e : Environment) :
    Follows r.values (Environment.shift r.values) (transfer p v e)
      (transfer q (v.shift r.values) (e.shift r.values)) := by
  unfold transfer
  rw [h.operation?_eq hv]
  cases hop : p.operation? v with
  | none => exact follows_pure rfl
  | some op =>
    cases op with
    | annotate | branch | condBranch | nop | ret => exact follows_pure rfl
    | call callee args =>
      simp only [Option.map_some, Operation.relocate]
      rw [h.isBool_eq hv]
      split
      · exact (follows_renew e v).bind fun _ => follows_pure rfl
      · exact follows_pure (e.erase_shift v)
    | not | binary | compare => exact h.follows_computation (h.operand_mem v hv _ hop) e

/-! ### Edges -/

theorem follows_passArguments (args : List (ValueId × ValueId)) :
    ∀ e : Environment, (∀ x ∈ args, S x.1 ∧ S x.2) →
      Follows r.values (Prod.map (shiftKeys r.values) (Environment.shift r.values))
        (passArguments p e args) (passArguments q (e.shift r.values)
          (args.map (Prod.map (ValueId.shift r.values) (ValueId.shift r.values)))) := by
  induction args with
  | nil => exact fun e _ => follows_pure rfl
  | cons x args ih =>
    obtain ⟨param, arg⟩ := x
    intro e hargs
    rw [List.forall_mem_cons] at hargs
    rw [List.map_cons, Prod.map_apply, passArguments, passArguments, h.isBool_eq hargs.1.1]
    split
    · refine (h.follows_operandFormula hargs.1.2 e).bind ?_
      rintro ⟨x, e₁⟩
      exact (ih e₁ hargs.2).bind fun _ => follows_pure rfl
    · rw [Environment.erase_shift]
      exact ih _ hargs.2

theorem follows_enter {target : Target} (hblock : target.block ∈ (p.function f).blocks)
    (hargs : ∀ w ∈ target.args, S w) (e : Environment) :
    Follows r.values (Environment.shift r.values) (enter p target e)
      (enter q (target.relocate r) (e.shift r.values)) := by
  unfold enter Target.relocate
  rw [h.params _ hblock, List.zip_map]
  refine (h.follows_passArguments _ e fun x hx => ?_).bind fun x => follows_bind x.2 x.1
  obtain ⟨hparam, harg⟩ := List.of_mem_zip hx
  exact ⟨h.param_mem _ hblock _ hparam, hargs _ harg⟩

theorem follows_outgoing (hb : b ∈ (p.function f).blocks) (e : Environment) :
    Follows r.values (List.map fun x => (r.block x.1, x.2.shift r.values)) (outgoing p b e)
      (outgoing q (r.block b) (e.shift r.values)) := by
  unfold outgoing
  rw [h.terminator?_eq hb]
  cases hterm : p.terminator? b with
  | none => exact follows_pure rfl
  | some op =>
    obtain ⟨v, hv, hop, -⟩ := terminator?_eq_some hterm
    have hoperands := h.operand_mem v (h.instruction_mem b hb v hv) op hop
    have htargets : ∀ target ∈ op.targets, target.block ∈ (p.function f).blocks := fun target ht =>
      h.body.mem_blocks_of_edge hb ⟨target, mem_successors_iff.2 ⟨op, hterm, ht⟩, rfl⟩
    cases op with
    | branch target =>
      exact (h.follows_enter (htargets target (by simp [Operation.targets])) hoperands e).bind
        fun _ => follows_pure rfl
    | condBranch cond whenTrue whenFalse =>
      have htrue : ∀ e, Follows r.values (Environment.shift r.values) (enter p whenTrue e)
          (enter q (whenTrue.relocate r) (e.shift r.values)) :=
        h.follows_enter (htargets whenTrue (by simp [Operation.targets]))
          fun w hw => hoperands w (by simp [Operation.operands, hw])
      have hfalse : ∀ e, Follows r.values (Environment.shift r.values) (enter p whenFalse e)
          (enter q (whenFalse.relocate r) (e.shift r.values)) :=
        h.follows_enter (htargets whenFalse (by simp [Operation.targets]))
          fun w hw => hoperands w (by simp [Operation.operands, hw])
      refine (h.follows_operandFormula (hoperands cond (by simp [Operation.operands])) e).bind ?_
      rintro ⟨found, e₁⟩
      -- what is done with the formula of the condition
      have hrest : ∀ x : Formula, Follows r.values
          (List.map fun x => (r.block x.1, x.2.shift r.values))
          (do
            let e₂ ← enter p whenTrue (← e₁.assume x)
            let e₃ ← enter p whenFalse (← e₁.assume (← mkNot x))
            if whenTrue.block = whenFalse.block then
              return [(whenTrue.block, ← e₂.join e₃)]
            else return [(whenTrue.block, e₂), (whenFalse.block, e₃)])
          (do
            let e₂ ← enter q (whenTrue.relocate r) (← (e₁.shift r.values).assume x)
            let e₃ ← enter q (whenFalse.relocate r) (← (e₁.shift r.values).assume (← mkNot x))
            if (whenTrue.relocate r).block = (whenFalse.relocate r).block then
              return [((whenTrue.relocate r).block, ← e₂.join e₃)]
            else
              return [((whenTrue.relocate r).block, e₂), ((whenFalse.relocate r).block, e₃)]) := by
        intro x
        refine (follows_assume e₁ x).bind fun e₂ => (htrue e₂).bind fun e₂ => ?_
        refine (follows_mkNot x).bind fun y => (follows_assume e₁ y).bind fun e₃ =>
          (hfalse e₃).bind fun e₃ => ?_
        by_cases hsame : whenTrue.block = whenFalse.block
        · -- both targets lead to one block exactly if the relocated ones do
          have hsame' : (whenTrue.relocate r).block = (whenFalse.relocate r).block :=
            congrArg r.block hsame
          rw [if_pos hsame, if_pos hsame']
          exact (follows_join e₂ e₃).bind fun _ => follows_pure rfl
        · have hsame' : (whenTrue.relocate r).block ≠ (whenFalse.relocate r).block :=
            fun heq => hsame (r.injective heq)
          rw [if_neg hsame, if_neg hsame']
          exact follows_pure rfl
      cases found with
      | none => exact follows_freshFormula.bind hrest
      | some x => exact hrest x
    | annotate | not | binary | call | compare | nop | ret => exact follows_pure rfl

/-! ### Checks -/

theorem effect?_eq (c : Catalogue) {callee : FunctionId} {args : List ValueId} (hv : S v)
    (hop : p.operation? v = some (.call callee args)) :
    c.effect? q (r.callee callee) (args.map (ValueId.shift r.values)) =
      c.effect? p callee args := by
  obtain ⟨hpath, harity, -⟩ := h.callee v hv callee args hop
  -- whether an argument is a truth value is the same at both places
  have hbool : ∀ i : Nat, ((args.map (ValueId.shift r.values))[i]?).any q.isBool =
      args[i]?.any p.isBool := by
    intro i
    rw [List.getElem?_map]
    cases hi : args[i]? with
    | none => rfl
    | some w => exact h.isBool_eq (h.operand_mem v hv _ hop w (List.mem_of_getElem? hi))
  unfold Catalogue.effect? Catalogue.lookupCallee?
  simp only [hpath, harity, hbool]

theorem follows_conditionFormula (hv : S v) (e : Environment) :
    Follows r.values (Prod.map id (Environment.shift r.values)) (conditionFormula p e v)
      (conditionFormula q (e.shift r.values) (v.shift r.values)) := by
  refine (h.follows_operandFormula hv e).bind ?_
  rintro ⟨x, e₁⟩
  cases x with
  | none => exact follows_renew e₁ v
  | some x => exact follows_pure rfl

theorem follows_known (m : CheckModel) (hv : S v) (e : Environment) :
    Follows r.values (Environment.shift r.values) (m.known p v e)
      (m.known q (v.shift r.values) (e.shift r.values)) := by
  unfold CheckModel.known
  rw [h.operation?_eq hv]
  cases hop : p.operation? v with
  | none => exact follows_pure rfl
  | some op =>
    cases op with
    | call callee args =>
      simp only [Option.map_some, Operation.relocate]
      have hfound : ((m.catalogue.effect? p callee args).bind fun i =>
          (args.map (ValueId.shift r.values))[i]?) =
          ((m.catalogue.effect? p callee args).bind fun i => args[i]?).map
            (ValueId.shift r.values) := by
        cases m.catalogue.effect? p callee args <;> simp
      rw [h.effect?_eq m.catalogue hv hop, afterEffect, afterEffect, hfound]
      cases hcond : (m.catalogue.effect? p callee args).bind fun i => args[i]? with
      | none => exact follows_pure rfl
      | some cond =>
        obtain ⟨i, -, hi⟩ := Option.bind_eq_some_iff.1 hcond
        have hmem : S cond := h.operand_mem v hv _ hop cond (List.mem_of_getElem? hi)
        exact (h.follows_conditionFormula hmem e).bind fun x => follows_assume x.2 x.1
    | annotate | not | binary | branch | compare | condBranch | nop | ret => exact follows_pure rfl

theorem tracks_step (m : CheckModel) (limit : Nat) (hv : S v) (e : Environment) :
    Tracks r.values (Environment.shift r.values) ((m.model.task p f limit).step e v)
      ((m.model.task q g limit).step (e.shift r.values) (v.shift r.values)) := by
  refine (tracks_report _ _).bind fun _ => (h.follows_transfer hv e).tracks.bind fun e₁ => ?_
  exact (does_refine m p v e₁).tracks (does_refine m q _ _) (h.follows_known m hv e₁)

/-! ### The report -/

theorem mirrors (m : CheckModel) (limit : Nat) :
    (m.model.task p f limit).Mirrors r.values r.block (m.model.task q g limit) := by
  have hmem : ∀ b ∈ p.reversePostOrder f, b ∈ (p.function f).blocks := fun b hb =>
    h.body.mem_blocks_of_reaches ((mem_reversePostOrder_iff h.body.closed).1 hb)
  exact {
    injective := r.injective
    name := congrArg pathText h.path
    declaration := h.declaration
    args := h.args
    isBool_arg := fun x hx => h.isBool_eq
      (h.param_mem _ List.mem_cons_self _ (h.body.built.arg h.body.index_lt hx))
    visitLimit := rfl
    order := h.reversePostOrder_eq
    label := fun b hb => h.label b (hmem b hb)
    preds := fun b hb c hc => h.preds b (hmem b hb) c (hmem c hc)
    instructions := fun b hb => h.instructions b (hmem b hb)
    annotation := fun b hb v hv name => by
      have hop := h.operation?_eq (h.instruction_mem b (hmem b hb) v hv)
      change q.operation? (v.shift r.values) = _ ↔ p.operation? v = _
      rw [hop]
      cases p.operation? v with
      | none => simp
      | some op => cases op <;> simp [Operation.relocate]
    step := fun b hb v hv e => h.tracks_step m limit (h.instruction_mem b (hmem b hb) v hv) e
    outgoing := fun b hb e => h.follows_outgoing (hmem b hb) e }

/-- The reports on `f` and on `g` are the same. -/
theorem report_eq (m : CheckModel) (limit : Nat) :
    (m.model.task q g limit).examine.report = (m.model.task p f limit).examine.report :=
  (h.mirrors m limit).report_eq

end Program.Relocates

end FlowFacts
