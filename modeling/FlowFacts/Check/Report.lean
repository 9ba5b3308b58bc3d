import FlowFacts.Check.Model

/-!
# Reports

What an analysis found out, for every annotation of a function: whether it can be reached,
and if so which of the function's boolean arguments are known there.

## Main definitions

* `FunctionReport`, `FunctionReport.text` — a report and its printed form.
* `argumentFacts` — what is known of the arguments at a point.
* `Task.examine` — analyse a function and report.
-/

namespace FlowFacts

/-- What is known of a truth value. -/
inductive Truth where
  /-- It is true. -/
  | provenTrue
  /-- It is false. -/
  | provenFalse
  /-- It may be either. -/
  | unknown
  deriving DecidableEq, Repr, Inhabited

/-- The word for what is known. -/
def Truth.text : Truth → String
  | provenTrue => "true"
  | provenFalse => "false"
  | unknown => "unknown"

/-- What is known of an argument. -/
structure ArgumentFact where
  /-- The name of the argument. -/
  name : String
  /-- What is known. -/
  truth : Truth
  deriving DecidableEq, Repr, Inhabited

/-- What is known at an annotation. -/
structure AnnotationReport where
  /-- The name of the annotation. -/
  name : String
  /-- Whether some path leads there. -/
  reachable : Bool
  /-- What is known of the boolean arguments, if so. -/
  arguments : List ArgumentFact
  deriving DecidableEq, Repr, Inhabited

/-- The report on a function. -/
structure FunctionReport where
  /-- The name of the function. -/
  function : String
  /-- The reports on its annotations, or why there are none. -/
  outcome : Except AnalysisError (List AnnotationReport)

/-! ### Text -/

/-- The printed form of what is known of an argument. -/
def ArgumentFact.text (fact : ArgumentFact) : String :=
  "        " ++ fact.name ++ ": " ++ fact.truth.text ++ "\n"

/-- The printed form of what is known at an annotation. -/
def AnnotationReport.text (r : AnnotationReport) : String :=
  if r.reachable then
    "    " ++ r.name ++ ": reachable\n" ++ String.join (r.arguments.map ArgumentFact.text)
  else "    " ++ r.name ++ ": unreachable\n"

namespace FunctionReport

/-- The printed form of a report. -/
def text (r : FunctionReport) : String :=
  match r.outcome with
  | .error e => "fn " ++ r.function ++ ": " ++ e.message ++ "\n"
  | .ok points =>
      "fn " ++ r.function ++ ":\n" ++ String.join (points.map AnnotationReport.text)

/-- The report on the annotation called `name`. -/
def annotation? (r : FunctionReport) (name : String) : Option AnnotationReport :=
  match r.outcome with
  | .error _ => none
  | .ok points => points.find? (·.name == name)

/-- Whether the analysis had no result. -/
def isFailure (r : FunctionReport) : Bool :=
  match r.outcome with
  | .error _ => true
  | .ok _ => false

end FunctionReport

/-! ### Examination -/

/-- What `e` knows of the truth value `f`. -/
def Environment.truth (e : Environment) (f : Formula) : FormulaM Truth := do
  if ← e.proves f then return .provenTrue
  else if ← e.proves (← mkNot f) then return .provenFalse
  else return .unknown

/-- The formula of an argument `v` of a function: the one it is bound to, else its atom. -/
def Environment.argumentFormula (e : Environment) (v : ValueId) : FormulaM Formula := do
  match e.values.get? v with
  | some f => return f
  | none => mkAtom (← valueAtom v)

/-- What is known of the boolean arguments of `f` at a point. -/
def argumentFacts (p : Program) (f : FunctionId) (e : Environment) :
    FormulaM (List ArgumentFact) :=
  ((p.function f).args.filter fun x => p.isBool x.2).mapM fun x => do
    let formula ← e.argumentFormula x.2
    return { name := x.1, truth := ← e.truth formula }

/-- What is known at the annotation `name` of `f`, given the environment `e` there. -/
def annotationReport (p : Program) (f : FunctionId) (name : String) (e : Environment) :
    FormulaM AnnotationReport := do
  if ← e.feasible then
    return { name, reachable := true, arguments := ← argumentFacts p f e }
  else return { name, reachable := false, arguments := [] }

/-- What is known at several annotations of `f`, the `points`. -/
def annotationReports (p : Program) (f : FunctionId) (points : List (String × Environment)) :
    FormulaM (List AnnotationReport) :=
  points.mapM fun x => annotationReport p f x.1 x.2

/-- A report with what happened on the way to it. -/
structure Examination where
  /-- The report. -/
  report : FunctionReport
  /-- The formulas that were used. -/
  table : FormulaTable
  /-- What happened. -/
  events : Array Event

namespace Task

/-- A function was analysed, using a number of `formulas`. -/
def analysed (task : Task) (formulas : Nat) : Event where
  level := .debug
  message := [.text "analyzed"]
  fields := [("function", .text task.name), ("num_formulas", .text (toString formulas))]

/-- Analyse a function and report. -/
def reportSteps (task : Task) : AnalysisM FunctionReport := do
  let outcome ←
    match ← task.analyse with
    | .error e => pure (.error e)
    | .ok result => do
        pure (.ok (← annotationReports task.program task.function result.points))
  report (task.analysed (← getThe FormulaTable).size)
  return { function := task.name, outcome }

/-- Analyse a function and report, starting with no formulas. -/
def examine (task : Task) : Examination :=
  let ((report, events), table) := (task.reportSteps.run #[]).run {}
  { report, table, events }

/-- The lines of the log of `x` that a `threshold` shows. -/
def log (task : Task) (x : Examination) (threshold : Threshold) : List LogLine :=
  let write := task.program.instructionWriter task.function
  (x.events.toList.filter fun e => threshold.shows e.level).map fun e => e.line write x.table

end Task

/-- The functions of `p` that have a body, in the order of the modules. -/
def Program.bodies (p : Program) : List FunctionId :=
  p.modules.toList.flatten.filter fun f => !(p.function f).isDeclaration

end FlowFacts
