import FlowFacts.Program.Builder
import FlowFacts.Program.Fault
import FlowFacts.Source.Tree

/-!
# Resolving names

A text is turned into a program function by function.  A function's arguments and the
parameters of all its blocks are declared before its instructions are read; after that
a name stands for what was declared or assigned last.  Calls may refer to functions that
come later, so a call without a callee is reported when everything else is in order.

## Main definitions

* `resolve` — the program of a text.
-/

namespace FlowFacts.Source

/-- A text that is being turned into a program. -/
structure Resolution where
  /-- The program so far. -/
  program : Program := {}
  /-- What the names of the current function stand for, the latest first. -/
  names : List (String × ValueId) := []
  /-- The first call so far without a callee. -/
  missing : Option Fault := none
  deriving DecidableEq, Repr, Inhabited

/-- Steps of resolving, which stop at the first fault. -/
abbrev ResolveM := StateT Resolution (Except Fault)

/-- A step that grows the program. -/
def build {α : Type} (step : StateM Program α) : ResolveM α := fun s =>
  let (a, program) := step s.program
  .ok (a, { s with program })

/-- Let `name` stand for `v` from now on. -/
def declare (name : String) (v : ValueId) : ResolveM Unit :=
  modify fun s => { s with names := (name, v) :: s.names }

/-- The value that `name` stands for. -/
def valueNamed (name : String) : ResolveM ValueId := do
  match (← get).names.lookup name with
  | some v => return v
  | none => throw (.undefinedName name)

/-- The values that `names` stand for. -/
def valuesNamed (names : List String) : ResolveM (List ValueId) := names.mapM valueNamed

/-- The block with a `label`, given the `labels` of the function. -/
def blockLabelled (labels : List (String × BlockId)) (label : String) : ResolveM BlockId :=
  match labels.lookup label with
  | some b => return b
  | none => throw (.branchTarget label)

/-- The function that a call with a `path` and as many arguments as `arity` means: functions are
created in the order of the text, so the position there is the position in the program.  A call
without a callee is noted, and for now calls the function it stands in, `caller`. -/
def calleeNamed (functions : List FunctionDecl) (caller : FunctionId) (path : List String)
    (arity : Nat) : ResolveM FunctionId := do
  match functions.findIdx? fun f => f.path == path && f.arity == arity with
  | some index => return ⟨index⟩
  | none =>
      modify fun s => { s with missing := s.missing <|> some (.unknownCallee path arity) }
      return caller

/-- Read an operation of the block `b`.  A constant becomes a value outside the block. -/
def resolveOperation (functions : List FunctionDecl) (labels : List (String × BlockId))
    (caller : FunctionId) (b : BlockId) : OperationDecl → ResolveM ValueId
  | .annotate name => build (Program.append b (.annotate name))
  | .not arg => do
      let arg ← valueNamed arg
      build (Program.append b (.not arg))
  | .binary op lhs rhs => do
      let lhs ← valueNamed lhs
      let rhs ← valueNamed rhs
      build (Program.append b (.binary op lhs rhs))
  | .branch label args => do
      let block ← blockLabelled labels label
      let args ← valuesNamed args
      build (Program.append b (.branch { block, args }))
  | .call path args => do
      let args ← valuesNamed args
      let callee ← calleeNamed functions caller path args.length
      build (Program.append b (.call callee args))
  | .condBranch cond trueLabel trueArgs falseLabel falseArgs => do
      let cond ← valueNamed cond
      let trueBlock ← blockLabelled labels trueLabel
      let falseBlock ← blockLabelled labels falseLabel
      let trueArgs ← valuesNamed trueArgs
      let falseArgs ← valuesNamed falseArgs
      build (Program.append b (.condBranch cond { block := trueBlock, args := trueArgs }
        { block := falseBlock, args := falseArgs }))
  | .compare predicate lhs rhs => do
      let lhs ← valueNamed lhs
      let rhs ← valueNamed rhs
      build (Program.append b (.compare predicate lhs rhs))
  | .const ty value => do
      if value.ty == ty then build (Program.addConstant value)
      else throw (.constantType ty value)
  | .nop => build (Program.append b .nop)
  | .ret ty value => do
      let value ← valueNamed value
      build (Program.append b (.ret value ty))

/-- Read an instruction and declare its name. -/
def resolveInstruction (functions : List FunctionDecl) (labels : List (String × BlockId))
    (caller : FunctionId) (b : BlockId) (instruction : InstructionDecl) : ResolveM Unit := do
  let v ← resolveOperation functions labels caller b instruction.operation
  match instruction.name with
  | some name => declare name v
  | none => return ()

/-- Create the label of the entry of `f`: the entry exists with its function, whose arguments are
its parameters, so the text gives it none. -/
def resolveEntry (f : FunctionId) (decl : BlockDecl) : ResolveM (String × BlockId) := do
  if !decl.params.isEmpty then throw (.malformedParameter decl.label)
  let entry := ((← get).program.function f).entry
  build (Program.modifyBlock entry fun block => { block with label := decl.label })
  return (decl.label, entry)

/-- Create the other blocks of `f` with their parameters. -/
def resolveBlocks (f : FunctionId) :
    List BlockDecl → List (String × BlockId) → ResolveM (List (String × BlockId))
  | [], labels => return labels
  | decl :: rest, labels => do
      let b ← build (Program.addBlock f (some decl.label))
      for (name, ty) in decl.params do
        let v ← build (Program.addParameter b ty)
        declare name v
      if (labels.lookup decl.label).isSome then throw (.repeatedLabel decl.label)
      resolveBlocks f rest (labels ++ [(decl.label, b)])

/-- Read the body of `f`. -/
def resolveBody (functions : List FunctionDecl) (f : FunctionId) :
    List BlockDecl → ResolveM Unit
  | [] => do throw (.missingEntry ((← get).program.function f).name)
  | entry :: others => do
      let args := ((← get).program.function f).args
      modify fun s => { s with names := args.reverse }
      let first ← resolveEntry f entry
      let labels ← resolveBlocks f others [first]
      for (decl, _, b) in (entry :: others).zip labels do
        for instruction in decl.body do
          resolveInstruction functions labels f b instruction

/-- Read the function `decl` of the module `m`. -/
def resolveFunction (functions : List FunctionDecl) (m : ModuleId) (decl : FunctionDecl) :
    ResolveM Unit := do
  if ((← get).program.lookup? m decl.path decl.arity).isSome then
    throw (.duplicateFunction decl.path decl.arity)
  let f ← build
    (Program.addFunction m decl.path decl.args decl.returnType decl.blocks.isNone)
  match decl.blocks with
  | none => return ()
  | some blocks => resolveBody functions f blocks

/-- Read all `functions`, then see to the calls. -/
def resolveAll (functions : List FunctionDecl) : ResolveM Unit := do
  let m ← build Program.addModule
  for decl in functions do
    resolveFunction functions m decl
  match (← get).missing with
  | some fault => throw fault
  | none => return ()

/-- The program of a text with the given `functions`. -/
def resolve (functions : List FunctionDecl) : Except Fault Program := do
  let ((), s) ← (resolveAll functions).run {}
  return s.program

end FlowFacts.Source
