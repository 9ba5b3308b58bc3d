import FlowFacts.Flow.Environment
import FlowFacts.Program.Basic

/-!
# The effect of instructions

How an environment changes from before an instruction to after it, and along the edges
to the next blocks.  Only truth values are followed: negations, logical operations and
comparisons of truth values get a formula, a call may return something new each time,
and all other results stay unknown.

## Main definitions

* `operandFormula` — the formula of a truth value that is used.
* `transfer` — the effect of one instruction.
* `outgoing` — the environments at the ends of a block's edges.
-/

namespace FlowFacts

/-- The formula of a value `v` that is used, and the environment with it.  A boolean constant is
a literal, and a truth value of which nothing is known gets its atom; other values have no
formula. -/
def operandFormula (p : Program) (e : Environment) (v : ValueId) :
    FormulaM (Option Formula × Environment) := do
  match e.values.get? v, (p.constant? v).bind Constant.asBool? with
  | some f, _ => return (some f, e)
  | none, some b => return (some (← mkLiteral b), e)
  | none, none =>
      if p.isBool v then
        let (f, e) ← e.renew v
        return (some f, e)
      else return (none, e)

/-- The formulas of `lhs` and `rhs`, put together by `combine` if both have one. -/
def combineOperands (p : Program) (e : Environment) (lhs rhs : ValueId)
    (combine : Formula → Formula → FormulaM Formula) :
    FormulaM (Option Formula × Environment) := do
  let (x, e) ← operandFormula p e lhs
  let (y, e) ← operandFormula p e rhs
  match x, y with
  | some x, some y => return (some (← combine x y), e)
  | _, _ => return (none, e)

/-- The formula of the logical operation `op`. -/
def BinaryOp.formula (op : BinaryOp) (x y : Formula) : FormulaM Formula :=
  match op with
  | .and => mkAnd x y
  | .or => mkOr x y
  | _ => do mkNot (← mkEquals x y)

/-- The formula of a comparison of truth values for equality or inequality, by `predicate`. -/
def Comparison.formula (predicate : Comparison) (x y : Formula) : FormulaM Formula := do
  let equals ← mkEquals x y
  if predicate = .eq then return equals else mkNot equals

/-- The formula of the result of an operation, if it has one. -/
def resultFormula (p : Program) (e : Environment) : Operation →
    FormulaM (Option Formula × Environment)
  | .not arg => do
      let (x, e) ← operandFormula p e arg
      match x with
      | some x => return (some (← mkNot x), e)
      | none => return (none, e)
  | .binary op lhs rhs =>
      if op.isLogical then combineOperands p e lhs rhs op.formula else return (none, e)
  | .compare predicate lhs rhs =>
      if !predicate.isOrder && p.isBool lhs then
        combineOperands p e lhs rhs predicate.formula
      else return (none, e)
  | _ => return (none, e)

/-- The effect of the instruction `v`.  Where the result has no formula, one that an earlier
instance had is forgotten. -/
def transfer (p : Program) (v : ValueId) (e : Environment) : FormulaM Environment := do
  match p.operation? v with
  | none | some (.annotate _) | some (.branch _) | some (.condBranch ..) | some .nop
  | some (.ret ..) => return e
  | some (.call ..) => if p.isBool v then return (← e.renew v).2 else return e.erase v
  | some op => do
      match ← resultFormula p e op with
      | (some f, e) => return e.set v f
      | (none, e) => return e.erase v

/-! ### Edges -/

/-- The formulas passed for the parameters of a block that are truth values; what was
known of the other parameters is forgotten. -/
def passArguments (p : Program) : Environment → List (ValueId × ValueId) →
    FormulaM (List (ValueId × Option Formula) × Environment)
  | e, [] => return ([], e)
  | e, (param, arg) :: rest => do
      if p.isBool param then
        let (f, e) ← operandFormula p e arg
        let (bound, e) ← passArguments p e rest
        return ((param, f) :: bound, e)
      else passArguments p (e.erase param) rest

/-- The environment at the end of the edge to `target`. -/
def enter (p : Program) (target : Target) (e : Environment) : FormulaM Environment := do
  let (params, e) ← passArguments p e ((p.block target.block).params.zip target.args)
  e.bind params

/-- The environments at the ends of the edges from `b`, given the one at the end of the block.
On the edges of a conditional branch the condition holds or does not hold; if both go to one
block, they are one edge. -/
def outgoing (p : Program) (b : BlockId) (e : Environment) :
    FormulaM (List (BlockId × Environment)) := do
  match p.terminator? b with
  | some (.branch target) => return [(target.block, ← enter p target e)]
  | some (.condBranch cond whenTrue whenFalse) => do
      let (found, e) ← operandFormula p e cond
      let f ← match found with
        | some f => pure f
        | none => Environment.freshFormula
      let e₁ ← enter p whenTrue (← e.assume f)
      let e₂ ← enter p whenFalse (← e.assume (← mkNot f))
      if whenTrue.block = whenFalse.block then return [(whenTrue.block, ← e₁.join e₂)]
      else return [(whenTrue.block, e₁), (whenFalse.block, e₂)]
  | _ => return []

end FlowFacts
