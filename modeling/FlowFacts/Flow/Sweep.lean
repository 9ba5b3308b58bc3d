import FlowFacts.Flow.Transfer
import FlowFacts.Log.Event
import FlowFacts.Program.Order

/-!
# The analysis of a function

The environments at the starts of the blocks are found by visiting blocks until nothing
changes.  Blocks are visited in reverse post-order; a block is visited again only if what
its incoming edges say now differs from what they said at its last visit.  The number of
visits of each block is limited, so the search ends.  One more pass over the blocks then
gives the environments at the annotations.

After the effect of each instruction a model may add what it knows about the instruction.

## Main definitions

* `Model` — what is known beyond the effect of instructions.
* `AnalysisError` — why an analysis has no result.
* `Task.analyse` — the environments at the annotations of a function.
-/

namespace FlowFacts

/-- Steps of an analysis: they grow the table of formulas and report events. -/
abbrev AnalysisM := StateT (Array Event) FormulaM

/-- Report the event `e`. -/
def report (e : Event) : AnalysisM Unit := modify (·.push e)

/-- Knowledge about instructions beyond their effect on truth values. -/
structure Model where
  /-- The environment after an instruction, given the one that its effect leads to. -/
  refine : Program → ValueId → Environment → AnalysisM Environment

/-- The model that knows nothing. -/
def Model.trivial : Model := ⟨fun _ _ e => return e⟩

/-- Why an analysis has no result. -/
inductive AnalysisError where
  /-- The function has no body. -/
  | noBody (function : String)
  /-- A block was to be visited more often than allowed. -/
  | visitLimit (function block : String) (limit : Nat)
  deriving DecidableEq, Repr, Inhabited

/-- The text of an error. -/
def AnalysisError.message : AnalysisError → String
  | noBody f => "Analysis failed: Function " ++ f ++ " is a declaration and has no body."
  | visitLimit f b n =>
      "Analysis failed: Block " ++ b ++ " of function " ++ f ++ " was visited more than " ++
        toString n ++ " times without the analysis converging."

/-- The number of visits of a block that is allowed if nothing else is said. -/
def defaultVisitLimit : Nat := 64

/-- A function to analyse. -/
structure Task where
  /-- The program. -/
  program : Program
  /-- The function. -/
  function : FunctionId
  /-- What is known beyond the effect of instructions. -/
  model : Model
  /-- How often a block may be visited. -/
  visitLimit : Nat := defaultVisitLimit
  /-- The blocks of the function, in the order of visits. -/
  order : List BlockId := program.reversePostOrder function
  /-- The order is reverse post-order. -/
  order_eq : order = program.reversePostOrder function := by rfl

/-- The task to analyse `f` under the model `m`, with at most `limit` visits of a block. -/
def Model.task (m : Model) (p : Program) (f : FunctionId) (limit : Nat) : Task where
  program := p
  function := f
  model := m
  visitLimit := limit

/-- The state of the search.  Blocks are given by their positions in the order of visits. -/
structure Sweep where
  /-- The environments that blocks were last visited with. -/
  inputs : Array (Option Environment)
  /-- The environments at the ends of the edges from each block. -/
  edges : Array (List (BlockId × Environment))
  /-- How often blocks were visited. -/
  visits : Array Nat
  /-- The blocks to look at, in ascending order. -/
  pending : List Nat
  deriving DecidableEq, Inhabited

/-- Put the position `i` into an ascending list, unless it is there. -/
def insertPosition (i : Nat) : List Nat → List Nat
  | [] => [i]
  | j :: rest =>
      if i < j then i :: j :: rest else if j < i then j :: insertPosition i rest else j :: rest

namespace Sweep

/-- The state of a search through `n` blocks before the first visit. -/
def start (n : Nat) : Sweep where
  inputs := Array.replicate n none
  edges := Array.replicate n []
  visits := Array.replicate n 0
  pending := [0]

/-- The environment that the block at position `i` was last visited with. -/
def input? (s : Sweep) (i : Nat) : Option Environment := s.inputs[i]?.join

/-- How often the block at position `i` was visited. -/
def visitCount (s : Sweep) (i : Nat) : Nat := s.visits[i]?.getD 0

/-- The number of all visits. -/
def totalVisits (s : Sweep) : Nat := s.visits.toList.foldr (· + ·) 0

/-- The environment at the end of the edge to `b` from the block at position `i`. -/
def edge? (s : Sweep) (i : Nat) (b : BlockId) : Option Environment :=
  (s.edges[i]?.getD []).lookup b

/-- The state after a visit of the block at position `i` with the environment `input`, which led
to `edges`; the blocks at the positions in `pending` are to be looked at. -/
def visited (s : Sweep) (i : Nat) (input : Environment) (edges : List (BlockId × Environment))
    (pending : List Nat) : Sweep where
  inputs := s.inputs.setIfInBounds i (some input)
  edges := s.edges.setIfInBounds i edges
  visits := s.visits.setIfInBounds i (s.visitCount i + 1)
  pending := pending

end Sweep

/-- The result of an analysis. -/
structure Analysis where
  /-- The environments right before the annotations, by name. -/
  points : List (String × Environment)
  /-- The number of visits of blocks that were needed. -/
  visits : Nat
  deriving DecidableEq, Inhabited

namespace Task

/-- The name of the function. -/
def name (task : Task) : String := (task.program.function task.function).name

/-! ### Events -/

/-- The block `b` is visited for the given time, `count`. -/
def visiting (task : Task) (b : BlockId) (count : Nat) : Event where
  level := .debug
  message := [.text "visiting block"]
  fields := [("function", .text task.name), ("block", .text (task.program.block b).label),
    ("visit", .text (toString count))]

/-- The instruction `v` is taken into account. -/
def transferring (v : ValueId) : Event where
  level := .trace
  message := [.text "transfer"]
  fields := [("instruction", .instruction v)]

/-- The search is over, after `visits` visits. -/
def converged (task : Task) (visits : Nat) : Event where
  level := .debug
  message := [.text "analysis converged"]
  fields := [("function", .text task.name), ("num_block_visits", .text (toString visits))]

/-! ### Visits -/

/-- From before the instruction `v` to after it. -/
def step (task : Task) (e : Environment) (v : ValueId) : AnalysisM Environment := do
  report (transferring v)
  let e ← transfer task.program v e
  task.model.refine task.program v e

/-- From the start of `b` to its end. -/
def through (task : Task) (b : BlockId) (e : Environment) : AnalysisM Environment :=
  (task.program.block b).instructions.foldlM task.step e

/-- The environment at the start of the function: its arguments may be anything. -/
def atStart (task : Task) : FormulaM Environment := do
  let args := (task.program.function task.function).args.filter fun x => task.program.isBool x.2
  args.foldlM (fun e x => do return (← e.renew x.2).2) (← Environment.unknown)

/-- The environments at the ends of the edges to `b`, in the order of the blocks that they come
from. -/
def incoming (task : Task) (s : Sweep) (b : BlockId) : List Environment :=
  task.order.zipIdx.filterMap fun x =>
    if (task.program.block b).preds.contains x.1 then s.edge? x.2 b else none

/-- What the edges to `b` say now; nothing if none of them was reached.  The function is entered
at its first block, with the environment `start`, whatever edges lead there. -/
def input (task : Task) (start : Environment) (s : Sweep) (i : Nat) (b : BlockId) :
    FormulaM (Option Environment) :=
  if i = 0 then return some start else Environment.joinAll (task.incoming s b)

/-- A visit that is due. -/
structure Visit where
  /-- The position of the block. -/
  position : Nat
  /-- The block. -/
  block : BlockId
  /-- The environment at its start. -/
  input : Environment
  /-- The positions to look at afterwards. -/
  rest : List Nat
  deriving DecidableEq, Inhabited

/-- The first of some blocks at whose start something changed. -/
def nextVisit (task : Task) (start : Environment) (s : Sweep) :
    List Nat → FormulaM (Option Visit)
  | [] => return none
  | i :: rest => do
      match task.order[i]? with
      | none => task.nextVisit start s rest
      | some b =>
          match ← task.input start s i b with
          | none => task.nextVisit start s rest
          | some e =>
              let settled ←
                match s.input? i with
                | some previous => previous.equivalent e
                | none => pure false
              if settled then task.nextVisit start s rest
              else return some { position := i, block := b, input := e, rest }

/-- Visit a block; the blocks that its edges lead to are to be looked at. -/
def visit (task : Task) (s : Sweep) (v : Visit) : AnalysisM Sweep := do
  report (task.visiting v.block (s.visitCount v.position + 1))
  let e ← task.through v.block v.input
  let edges ← outgoing task.program v.block e
  let positions := edges.filterMap fun x => task.order.idxOf? x.1
  return s.visited v.position v.input edges (positions.foldl (fun l i => insertPosition i l) v.rest)

/-- Make at most `n` visits, until no block has changed. -/
def settle (task : Task) (start : Environment) : Nat → Sweep →
    AnalysisM (Except AnalysisError Sweep)
  | 0, s => return .ok s
  | n + 1, s => do
      match ← task.nextVisit start s s.pending with
      | none => return .ok { s with pending := [] }
      | some v =>
          if task.visitLimit ≤ s.visitCount v.position then
            return .error
              (.visitLimit task.name (task.program.block v.block).label task.visitLimit)
          else task.settle start n (← task.visit s v)

/-! ### Annotations -/

/-- Note the environment `e` at the annotation `name`; of two with one name the later counts. -/
def note (points : List (String × Environment)) (name : String) (e : Environment) :
    List (String × Environment) :=
  if points.any (·.1 == name) then points.map fun x => if x.1 == name then (name, e) else x
  else points ++ [(name, e)]

/-- From before the instruction `v` to after it, noting the environment at an annotation. -/
def noteStep (task : Task) (state : List (String × Environment) × Environment) (v : ValueId) :
    AnalysisM (List (String × Environment) × Environment) := do
  let points :=
    match task.program.operation? v with
    | some (.annotate name) => note state.1 name state.2
    | _ => state.1
  return (points, ← task.step state.2 v)

/-- The environments at the annotations of a block, after those noted before, `points`. -/
def noteBlock (task : Task) (s : Sweep) (points : List (String × Environment))
    (x : BlockId × Nat) : AnalysisM (List (String × Environment)) := do
  match s.input? x.2 with
  | none => return points
  | some e => do
      let (points, _) ← (task.program.block x.1).instructions.foldlM task.noteStep (points, e)
      return points

/-- Analyse a function.  Each visit counts for one block, so the limit bounds their number. -/
def analyse (task : Task) : AnalysisM (Except AnalysisError Analysis) := do
  if (task.program.function task.function).isDeclaration then return .error (.noBody task.name)
  let start ← task.atStart
  let blocks := task.order.length
  match ← task.settle start (task.visitLimit * blocks + 1) (.start blocks) with
  | .error e => return .error e
  | .ok s => do
      let points ← task.order.zipIdx.foldlM (task.noteBlock s) []
      report (task.converged s.totalVisits)
      return .ok { points, visits := s.totalVisits }

end Task

end FlowFacts
