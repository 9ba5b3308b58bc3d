import FlowFacts.Program.Basic
import FlowFacts.Text

/-!
# Listings

The printed form of a program.  Function arguments keep their names; every other
value is called `v0`, `v1`, … in the order in which the listing first mentions it.
Constants are not kept in blocks: a constant is announced by a line of its own right
before the first instruction that uses it.

## Main definitions

* `Program.listing` — the text of a whole program.
* `Program.instructionText` — one instruction with the names it has in the listing.
-/

namespace FlowFacts.Program

/-! ### Lines -/

/-- A line of a listing: blank, or a text at a depth of indentation. -/
inductive Line where
  /-- An empty line. -/
  | blank
  /-- A text, with the number of blanks before it. -/
  | text (indent : Nat) (content : String)
  deriving DecidableEq, Repr, Inhabited

/-- Move a line to the right by `n`. -/
def Line.indent (n : Nat) : Line → Line
  | .blank => .blank
  | .text m content => .text (n + m) content

/-- A line with its end. -/
def Line.render : Line → String
  | .blank => "\n"
  | .text n content => String.ofList (List.replicate n ' ') ++ content ++ "\n"

/-- All `lines`, one after another. -/
def renderLines (lines : List Line) : String := String.join (lines.map Line.render)

/-- Groups of lines with a blank line between them. -/
def separate : List (List Line) → List Line
  | [] => []
  | [group] => group
  | group :: rest => group ++ .blank :: separate rest

/-! ### Names -/

/-- The values named so far in the listing of a function, in the order of their names. -/
structure Naming where
  /-- The function whose arguments keep their names. -/
  function : Function
  /-- The value called `vN` stands at position `N`. -/
  named : List ValueId := []
  deriving DecidableEq, Repr, Inhabited

/-- The name with the number `n`. -/
def numberedName (n : Nat) : String := "v" ++ toString n

/-- The name that `v` has or now gets. -/
def nameOf (p : Program) (v : ValueId) : StateM Naming String := fun naming =>
  let argument :=
    match p.value v with
    | .parameter .. => naming.function.argName? v
    | _ => none
  match argument with
  | some name => (name, naming)
  | none =>
      match naming.named.idxOf? v with
      | some n => (numberedName n, naming)
      | none => (numberedName naming.named.length, { naming with named := naming.named ++ [v] })

/-- The names of `vs`, separated by commas. -/
def namesOf (p : Program) (vs : List ValueId) : StateM Naming String := do
  return String.intercalate ", " (← vs.mapM p.nameOf)

/-! ### Instructions -/

/-- The `target` of a branch with the values passed to it. -/
def targetText (p : Program) (target : Target) : StateM Naming String := do
  return (p.block target.block).label ++ "(" ++ (← p.namesOf target.args) ++ ")"

/-- The instruction `v`, naming its result before its operands. -/
def operationText (p : Program) (v : ValueId) : Operation → StateM Naming String
  | .annotate name => return "annotate " ++ name
  | .not arg => do
      let result ← p.nameOf v
      return result ++ " = not " ++ (← p.nameOf arg)
  | .binary op lhs rhs => do
      let result ← p.nameOf v
      let lhs ← p.nameOf lhs
      return result ++ " = " ++ op.keyword ++ " " ++ lhs ++ ", " ++ (← p.nameOf rhs)
  | .branch target => return "br " ++ (← p.targetText target)
  | .call callee args => do
      let result ← p.nameOf v
      return result ++ " = call " ++ (p.function callee).name ++ "(" ++ (← p.namesOf args) ++ ")"
  | .compare predicate lhs rhs => do
      let result ← p.nameOf v
      let lhs ← p.nameOf lhs
      return result ++ " = cmp " ++ predicate.keyword ++ " " ++ lhs ++ " " ++ (← p.nameOf rhs)
  | .condBranch cond whenTrue whenFalse => do
      let cond ← p.nameOf cond
      let whenTrue ← p.targetText whenTrue
      return "cbr " ++ cond ++ ", " ++ whenTrue ++ ", " ++ (← p.targetText whenFalse)
  | .nop => return "nop"
  | .ret value ty => return "ret " ++ ty.text ++ " " ++ (← p.nameOf value)

/-- The line that announces the operand `v`, if it is a constant without a name. -/
def constantLines (p : Program) (v : ValueId) : StateM Naming (List Line) := do
  match p.constant? v with
  | none => return []
  | some c =>
      if (← get).named.contains v then return []
      else return [.text 0 ((← p.nameOf v) ++ " = const " ++ c.text)]

/-- The lines of the instruction `v`, after those of the constants it needs. -/
def instructionLines (p : Program) (v : ValueId) : StateM Naming (List Line) := do
  match p.operation? v with
  | none => return []
  | some op =>
      let constants ← op.operands.mapM p.constantLines
      return constants.flatten ++ [.text 0 (← p.operationText v op)]

/-! ### Blocks, functions, modules -/

/-- The parameter `v` with its type. -/
def parameterText (p : Program) (v : ValueId) : StateM Naming String := do
  return (← p.nameOf v) ++ ": " ++ ((p.typeOf v).map Ty.text).getD ""

/-- The lines of the block `b`.  The parameters of an entry block stand in the head of its
function. -/
def blockLines (p : Program) (b : BlockId) : StateM Naming (List Line) := do
  let block := p.block b
  let params ←
    if (p.function block.function).entry == b then pure [] else block.params.mapM p.parameterText
  let body ← block.instructions.mapM p.instructionLines
  return .text 0 (block.label ++ "(" ++ String.intercalate ", " params ++ "):") :: body.flatten

/-- The head of the function `f`. -/
def headText (p : Program) (f : Function) : String :=
  let args := f.args.map fun (name, v) => name ++ ": " ++ ((p.typeOf v).map Ty.text).getD ""
  "fn " ++ f.name ++ "(" ++ String.intercalate ", " args ++ ") -> " ++ f.returnType.text

/-- The lines of the function `f`. -/
def functionLines (p : Program) (f : Function) : StateM Naming (List Line) := do
  if f.isDeclaration then return [.text 0 (p.headText f)]
  else
    let blocks ← f.blocks.mapM p.blockLines
    return .text 0 (p.headText f ++ " \x7b")
      :: (separate blocks).map (Line.indent 4) ++ [.text 0 "\x7d"]

/-- The lines of a module with some `functions`. -/
def moduleLines (p : Program) (functions : List FunctionId) : List Line :=
  let functions := functions.map fun id =>
    let f := p.function id
    ((p.functionLines f).run { function := f }).1
  .text 0 "module \x7b" :: (separate functions).map (Line.indent 4) ++ [.text 0 "\x7d"]

/-- The text of `p`. -/
def listing (p : Program) : String :=
  renderLines (p.modules.toList.flatMap p.moduleLines)

/-! ### Single instructions -/

/-- The names that the listing of `f` ends with. -/
def naming (p : Program) (f : FunctionId) : Naming :=
  let function := p.function f
  ((p.functionLines function).run { function }).2

/-- The instruction `v` as in the listing of its function, whose names are given by `naming`. -/
def textUnder (p : Program) (naming : Naming) (v : ValueId) : String :=
  trim (renderLines ((p.instructionLines v).run naming).1)

/-- The instruction `v` with the names that it has in the listing of its function; empty for
other values. -/
def instructionText (p : Program) (v : ValueId) : String :=
  match p.value v with
  | .instruction b _ => p.textUnder (p.naming (p.block b).function) v
  | _ => ""

end FlowFacts.Program
