import FlowFacts.Check.Catalogue
import FlowFacts.Flow.Transfer

/-!
# Conditions of checks

Finding the condition among the arguments of a call, and its formula.

## Main definitions

* `Misfit` — why a call does not fit its variant.
* `CheckVariant.locate` — where the condition of a call is.
* `conditionFormula` — the formula that holds after the call.
-/

namespace FlowFacts

/-- Why a call does not fit the variant that it is recognised as. -/
inductive Misfit where
  /-- There are too few arguments for the position of the condition. -/
  | outOfRange (index count : Nat)
  /-- The condition is not a truth value. -/
  | notBoolean (index : Nat) (ty : Option Ty)
  deriving DecidableEq, Repr, Inhabited

/-- The text of a reason. -/
def Misfit.text : Misfit → String
  | outOfRange i n =>
      "condition argument " ++ toString i ++ " is out of range for " ++ toString n ++
        " argument(s)"
  | notBoolean i ty =>
      "condition argument " ++ toString i ++ " has type " ++ Ty.textOrUntyped ty ++
        " instead of bool"

/-- Where the condition of a call is. -/
inductive Located where
  /-- It is this argument. -/
  | condition (value : ValueId)
  /-- The variant has no condition. -/
  | noCondition
  /-- The call does not fit. -/
  | malformed (reason : Misfit)
  deriving DecidableEq, Repr, Inhabited

/-- Find the condition among the arguments of a call, `args`. -/
def CheckVariant.locate (p : Program) (variant : CheckVariant) (args : List ValueId) : Located :=
  match variant.condition with
  | none => .noCondition
  | some i =>
      match args[i]? with
      | none => .malformed (.outOfRange i args.length)
      | some v =>
          if p.isBool v then .condition v else .malformed (.notBoolean i (p.typeOf v))

/-- The formula of a condition `v`, and the environment with it.  A condition that has no formula
yet gets its atom, so that later uses of it mean the same. -/
def conditionFormula (p : Program) (e : Environment) (v : ValueId) :
    FormulaM (Formula × Environment) := do
  match ← operandFormula p e v with
  | (some f, e) => return (f, e)
  | (none, e) => e.renew v

end FlowFacts
