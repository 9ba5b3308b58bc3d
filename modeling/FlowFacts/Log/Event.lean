import FlowFacts.Log.Level
import FlowFacts.Logic.Formula
import FlowFacts.Program.Listing

/-!
# Log lines

What happens during an analysis is kept as events, which refer to instructions and
formulas; a log line is an event in characters.

## Main definitions

* `LogLine`, `LogLine.plain` — a log line and its plain form.
* `Event`, `Event.line` — an event and its log line.
-/

namespace FlowFacts

/-! ### Lines -/

/-- A log line: a message, and named details. -/
structure LogLine where
  /-- How much it matters. -/
  level : Level
  /-- What happened. -/
  message : String
  /-- The details, in order. -/
  fields : List (String × String) := []
  deriving DecidableEq, Repr, Inhabited

/-- The plain form: `LEVEL message name=detail …`. -/
def LogLine.plain (l : LogLine) : String :=
  l.level.name ++ " " ++ l.message ++
    String.join (l.fields.map fun (name, detail) => " " ++ name ++ "=" ++ detail)

/-! ### Events -/

/-- A piece of an event. -/
inductive EventPart where
  /-- A text. -/
  | text (content : String)
  /-- An instruction, as listed. -/
  | instruction (value : ValueId)
  /-- A formula. -/
  | formula (formula : Formula)
  deriving DecidableEq, Repr, Inhabited

/-- Something that happened during an analysis. -/
structure Event where
  /-- How much it matters. -/
  level : Level
  /-- What happened, in pieces. -/
  message : List EventPart
  /-- The details, in order. -/
  fields : List (String × EventPart) := []
  deriving DecidableEq, Repr, Inhabited

/-- A piece of an event in characters, given how an `instruction` is written. -/
def EventPart.render (instruction : ValueId → String) (t : FormulaTable) : EventPart → String
  | .text content => content
  | .instruction v => instruction v
  | .formula f => t.text f

/-- The log line of `e`, given how an `instruction` is written. -/
def Event.line (instruction : ValueId → String) (t : FormulaTable) (e : Event) : LogLine where
  level := e.level
  message := String.join (e.message.map fun part => part.render instruction t)
  fields := e.fields.map fun (name, part) => (name, part.render instruction t)

/-- How instructions are written in the log of the analysis of `f`.  The names that the listing
gives to the values of the function are found once. -/
def Program.instructionWriter (p : Program) (f : FunctionId) : ValueId → String :=
  let names := p.naming f
  fun v =>
    match p.value v with
    | .instruction b _ =>
        let g := (p.block b).function
        p.textUnder (if g = f then names else p.naming g) v
    | _ => ""

end FlowFacts
