import FlowFacts.Program.Fault

/-!
# Checking programs

A program that was read or built is checked before it is relied on.  `validate` goes
through modules, functions, blocks and instructions in order and reports the first
fault it meets.

## Main definitions

* `Program.validate` — the check of a whole program.
* `Program.validateOperation` — the rule of one instruction.
-/

namespace FlowFacts.Program

/-- Fail with `fault` unless `condition` holds. -/
def require (condition : Bool) (fault : Fault) : Except Fault Unit :=
  if condition then .ok () else .error fault

/-! ### The rules of the instructions -/

/-- A negation is of a truth value. -/
def validateNot (p : Program) (arg : ValueId) : Except Fault Unit :=
  require (p.typeOf arg == some .bool) .unaryOperand

/-- The logical operations are on truth values, the arithmetic ones on words. -/
def validateBinary (p : Program) (op : BinaryOp) (lhs rhs : ValueId) : Except Fault Unit :=
  let ty := if op.isLogical then Ty.bool else Ty.u64
  require (p.typeOf lhs == some ty && p.typeOf rhs == some ty) .binaryOperands

/-- As many values are passed to the block of `target` as it has parameters, of the same types. -/
def validatePassed (p : Program) (target : Target) : Except Fault Unit :=
  let block := p.block target.block
  require (target.args.map p.typeOf == block.params.map p.typeOf) (.branchArguments block.label)

/-- A branch to `target` stays in its function. -/
def validateTarget (p : Program) (f : Function) (target : Target) : Except Fault Unit :=
  require (f.blocks.contains target.block) (.branchTarget (p.block target.block).label)

/-- The types of the arguments of a call are those of the callee. -/
def validateArguments (p : Program) (callee : String) :
    List (ValueId × ValueId) → Except Fault Unit
  | [] => .ok ()
  | (passed, expected) :: rest => do
      require (p.typeOf passed == p.typeOf expected)
        (.callArgument callee (p.typeOf passed) (p.typeOf expected))
      p.validateArguments callee rest

/-- A call passes what its `callee` takes. -/
def validateCall (p : Program) (callee : FunctionId) (args : List ValueId) :
    Except Fault Unit := do
  let f := p.function callee
  require (f.arity == args.length) (.callArity f.name f.arity args.length)
  p.validateArguments f.name (args.zip (f.args.map (·.2)))

/-- Values of one type are compared, and only words are ordered. -/
def validateCompare (p : Program) (predicate : Comparison) (lhs rhs : ValueId) :
    Except Fault Unit :=
  match p.typeOf lhs, p.typeOf rhs with
  | some l, some r => do
      require (l == r) (.incomparable l r)
      require (!predicate.isOrder || l == .u64) (.unordered l r)
  | _, _ => .error .untypedComparison

/-- A return of `value` is written with the type of the function, and its operand, if it has a
type, has that one. -/
def validateReturn (p : Program) (f : Function) (value : ValueId) (ty : Ty) :
    Except Fault Unit :=
  require (f.returnType == ty && (p.typeOf value).all (· == ty)) (.returnType f.name)

/-- The rule of one instruction of `f`.  The names of the `points` met so far are passed along. -/
def validateOperation (p : Program) (f : Function) (points : List String) :
    Operation → Except Fault (List String)
  | .annotate name => do
      require (!points.contains name) (.repeatedPoint f.name name)
      return name :: points
  | .not arg => do
      p.validateNot arg
      return points
  | .binary op lhs rhs => do
      p.validateBinary op lhs rhs
      return points
  | .branch target => do
      p.validateTarget f target
      p.validatePassed target
      return points
  | .call callee args => do
      p.validateCall callee args
      return points
  | .compare predicate lhs rhs => do
      p.validateCompare predicate lhs rhs
      return points
  | .condBranch cond whenTrue whenFalse => do
      require (p.isBool cond) .conditionType
      p.validateTarget f whenTrue
      p.validateTarget f whenFalse
      p.validatePassed whenTrue
      p.validatePassed whenFalse
      return points
  | .nop => return points
  | .ret value ty => do
      p.validateReturn f value ty
      return points

/-! ### Blocks, functions, modules -/

/-- The parameter `v` at an `index` of the block `b` says so. -/
def isParameterAt (p : Program) (b : BlockId) (index : Nat) (v : ValueId) : Bool :=
  match p.value v with
  | .parameter block i _ => block == b && i == index
  | _ => false

/-- All instructions in order; a value that is no instruction is passed over. -/
def validateInstructions (p : Program) (f : Function) :
    List ValueId → List String → Except Fault (List String)
  | [], points => .ok points
  | v :: rest, points => do
      let points ←
        match p.operation? v with
        | some op => p.validateOperation f points op
        | none => .ok points
      p.validateInstructions f rest points

/-- The `block` ends in its only terminator. -/
def validateTerminators (p : Program) (block : Block) : Except Fault Unit := do
  let terminators := block.instructions.countP p.isTerminator
  require (terminators != 0) (.missingTerminator block.label)
  require (block.instructions.getLast?.any p.isTerminator && terminators == 1)
    (.misplacedTerminator block.label)

/-- The block `b` of a function. -/
def validateBlock (p : Program) (f : Function) (points : List String) (b : BlockId) :
    Except Fault (List String) := do
  let block := p.block b
  require ((block.params.zipIdx).all fun (v, index) => p.isParameterAt b index v)
    (.malformedParameter block.label)
  let points ← p.validateInstructions f block.instructions points
  p.validateTerminators block
  return points

/-- All blocks of `f` in order. -/
def validateBlocks (p : Program) (f : Function) : List BlockId → List String → Except Fault Unit
  | [], _ => .ok ()
  | b :: rest, points => do
      let points ← p.validateBlock f points b
      p.validateBlocks f rest points

/-- The function `f`. -/
def validateFunction (p : Program) (f : Function) : Except Fault Unit := do
  if f.isDeclaration then
    require (f.blocks.all fun b => (p.block b).instructions.isEmpty) (.declarationBody f.name)
  else
    let preds := (p.block f.entry).preds
    require preds.isEmpty (.entryPredecessors f.name (preds.map fun b => (p.block b).label))
    p.validateBlocks f f.blocks []

/-- The functions of a module, which are told apart by path and number of arguments. -/
def validateFunctions (p : Program) :
    List FunctionId → List (List String × Nat) → Except Fault Unit
  | [], _ => .ok ()
  | id :: rest, signatures => do
      let f := p.function id
      require (!signatures.contains (f.path, f.arity)) (.duplicateFunction f.path f.arity)
      p.validateFunction f
      p.validateFunctions rest ((f.path, f.arity) :: signatures)

/-- Modules in order. -/
def validateModules (p : Program) : List (List FunctionId) → Except Fault Unit
  | [] => .ok ()
  | functions :: rest => do
      p.validateFunctions functions []
      p.validateModules rest

/-- Check the whole program `p`, reporting the first fault. -/
def validate (p : Program) : Except Fault Unit := p.validateModules p.modules.toList

end FlowFacts.Program
