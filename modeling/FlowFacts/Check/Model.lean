import FlowFacts.Check.Condition
import FlowFacts.Flow.Sweep

/-!
# The model of checks

After a call that the catalogue knows, its condition holds.  Calls that it does not know,
and calls that do not fit, say nothing.

## Main definitions

* `CheckModel`, `CheckModel.model` — the model and its options.
-/

namespace FlowFacts

/-- What the model of checks goes by. -/
structure CheckModel where
  /-- The known checks. -/
  catalogue : Catalogue := .standard
  /-- Whether calls that do not fit are warned of. -/
  strict : Bool := false

/-! ### Events -/

/-- The condition `f` is taken to hold. -/
def CheckVariant.assuming (variant : CheckVariant) (f : Formula) : Event where
  level := .debug
  message := [.text "assuming checked condition"]
  fields := [("callee", .text variant.text), ("condition", .formula f)]

/-- A check without a condition is met. -/
def CheckVariant.unconditional (variant : CheckVariant) : Event where
  level := .trace
  message := [.text "check has no condition"]
  fields := [("callee", .text variant.text)]

/-- A `call` that does not fit, for some `reason`, is warned of. -/
def CheckVariant.misfitWarning (variant : CheckVariant) (reason : Misfit) (call : ValueId) :
    Event where
  level := .warn
  message := [.text ("call to " ++ variant.text ++ " doesn't fit its convention, " ++
    reason.text ++ ": "), .instruction call]

/-- A call that does not fit, for some `reason`, is passed over. -/
def CheckVariant.misfitIgnored (variant : CheckVariant) (reason : Misfit) : Event where
  level := .trace
  message := [.text "ignoring malformed check"]
  fields := [("callee", .text variant.text), ("reason", .text reason.text)]

/-! ### The model -/

namespace CheckModel

/-- What is known after a `call` that is recognised as a check, by `variant`. -/
def afterCheck (m : CheckModel) (p : Program) (call : ValueId) (variant : CheckVariant)
    (args : List ValueId) (e : Environment) : AnalysisM Environment := do
  match variant.locate p args with
  | .condition v =>
      let (f, e) ← conditionFormula p e v
      report (variant.assuming f)
      e.assume f
  | .noCondition =>
      report variant.unconditional
      return e
  | .malformed reason =>
      report (if m.strict then variant.misfitWarning reason call else variant.misfitIgnored reason)
      return e

/-- The model of checks. -/
def model (m : CheckModel) : Model where
  refine p v e :=
    match p.operation? v with
    | some (.call callee args) =>
        match m.catalogue.lookupCallee? p callee with
        | some variant => m.afterCheck p v variant args e
        | none => return e
    | _ => return e

end CheckModel

end FlowFacts
