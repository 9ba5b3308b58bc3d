/-!
# Programs

A program is a list of modules, each a list of functions.  A function is named by
a qualified path and overloaded by the number of its arguments; it is a list of
blocks, the first of which is its entry.  A block has a label, parameters (the
block-argument form of phi nodes) and a list of instructions, the last of which
should be a terminator.  Parameters, constants and instructions are the *values*
of the program.

Functions, blocks and values live in three tables of the program and refer to each
other by their position there.  A position is the number of things created before,
so an instruction built from existing values always refers to smaller positions.

## Main definitions

* `Ty`, `Constant`, `Operation`, `Value`, `Block`, `Function`, `Program`.
* `Program.typeOf` — the type of a value, if it has one.
* `Program.successors` — the targets of a block's terminator.
-/

namespace FlowFacts

/-! ### Types and constants -/

/-- The scalar types. -/
inductive Ty where
  /-- The type with one value. -/
  | unit
  /-- Truth values. -/
  | bool
  /-- Unsigned 64-bit words. -/
  | u64
  /-- Byte strings. -/
  | str
  deriving DecidableEq, Repr, Inhabited

/-- The name of a type in program texts. -/
def Ty.text : Ty → String
  | .unit => "()"
  | .bool => "bool"
  | .u64 => "u64"
  | .str => "str"

/-- The name of a type that may be missing. -/
def Ty.textOrUntyped : Option Ty → String
  | some ty => ty.text
  | none => "untyped"

/-- A constant of each type. -/
inductive Constant where
  /-- The only constant of type `()`. -/
  | unit
  /-- A truth value. -/
  | bool (value : Bool)
  /-- A 64-bit word. -/
  | u64 (value : UInt64)
  /-- A string of arbitrary bytes. -/
  | str (bytes : List UInt8)
  deriving DecidableEq, Repr, Inhabited

/-- The type of a constant. -/
def Constant.ty : Constant → Ty
  | .unit => .unit
  | .bool _ => .bool
  | .u64 _ => .u64
  | .str _ => .str

/-- The truth value of a boolean constant. -/
def Constant.asBool? : Constant → Option Bool
  | .bool b => some b
  | _ => none

/-- The lower-case hexadecimal digit of `n`, which is below sixteen. -/
def hexDigit (n : Nat) : Char :=
  Char.ofNat (if n < 10 then 48 + n else 87 + n)

/-- The byte `b` inside a quoted string: printable characters stand for themselves, except the
quote and the backslash, which like every other byte are written `\xhh`. -/
def byteText (b : UInt8) : List Char :=
  let n := b.toNat
  if 32 ≤ n ∧ n < 127 ∧ n ≠ 34 ∧ n ≠ 92 then [Char.ofNat n]
  else ['\\', 'x', hexDigit (n / 16), hexDigit (n % 16)]

/-- The type and the value of a constant, as a program text writes them. -/
def Constant.text : Constant → String
  | .unit => "() ()"
  | .bool true => "bool true"
  | .bool false => "bool false"
  | .u64 n => "u64 " ++ toString n.toNat
  | .str bytes => "str \"" ++ String.ofList (bytes.flatMap byteText) ++ "\""

/-! ### Positions in the tables of a program -/

/-- A module, by its creation number. -/
structure ModuleId where
  /-- The number of modules created before. -/
  index : Nat
  deriving DecidableEq, Repr, Inhabited

/-- A function, by its creation number. -/
structure FunctionId where
  /-- The number of functions created before. -/
  index : Nat
  deriving DecidableEq, Repr, Inhabited

/-- A block, by its creation number. -/
structure BlockId where
  /-- The number of blocks created before. -/
  index : Nat
  deriving DecidableEq, Repr, Inhabited

/-- A value, by its creation number. -/
structure ValueId where
  /-- The number of values created before. -/
  index : Nat
  deriving DecidableEq, Repr, Inhabited

/-! ### Instructions -/

/-- Operations on two operands. -/
inductive BinaryOp where
  /-- Conjunction. -/
  | and
  /-- Disjunction. -/
  | or
  /-- Exclusive or. -/
  | xor
  /-- Addition. -/
  | add
  /-- Subtraction. -/
  | sub
  /-- Multiplication. -/
  | mul
  deriving DecidableEq, Repr, Inhabited

/-- The logical operations work on truth values, the others on words. -/
def BinaryOp.isLogical : BinaryOp → Bool
  | .and | .or | .xor => true
  | .add | .sub | .mul => false

/-- The keyword of a binary operation. -/
def BinaryOp.keyword : BinaryOp → String
  | .and => "and"
  | .or => "or"
  | .xor => "xor"
  | .add => "add"
  | .sub => "sub"
  | .mul => "mul"

/-- Comparison predicates. -/
inductive Comparison where
  /-- Equality. -/
  | eq
  /-- Inequality. -/
  | ne
  /-- Less than. -/
  | lt
  /-- Greater than. -/
  | gt
  deriving DecidableEq, Repr, Inhabited

/-- The keyword of a comparison predicate. -/
def Comparison.keyword : Comparison → String
  | .eq => "eq"
  | .ne => "ne"
  | .lt => "lt"
  | .gt => "gt"

/-- The predicates that need an order on their operands. -/
def Comparison.isOrder : Comparison → Bool
  | .lt | .gt => true
  | .eq | .ne => false

/-- Where a branch goes, and the values it passes to the parameters there. -/
structure Target where
  /-- The block branched to. -/
  block : BlockId
  /-- The values passed, one per parameter. -/
  args : List ValueId
  deriving DecidableEq, Repr, Inhabited

/-- What an instruction does. -/
inductive Operation where
  /-- Names the program point right before it. -/
  | annotate (name : String)
  /-- Negation. -/
  | not (arg : ValueId)
  /-- A logical or arithmetic operation. -/
  | binary (op : BinaryOp) (lhs rhs : ValueId)
  /-- An unconditional jump. -/
  | branch (target : Target)
  /-- A call; the callee is never looked into. -/
  | call (callee : FunctionId) (args : List ValueId)
  /-- A comparison. -/
  | compare (predicate : Comparison) (lhs rhs : ValueId)
  /-- A jump on a truth value. -/
  | condBranch (cond : ValueId) (whenTrue whenFalse : Target)
  /-- Nothing. -/
  | nop
  /-- Return a value, written with its type. -/
  | ret (value : ValueId) (ty : Ty)
  deriving DecidableEq, Repr, Inhabited

/-- The operands of an operation, in the order they are written. -/
def Operation.operands : Operation → List ValueId
  | .annotate _ | .nop => []
  | .not arg => [arg]
  | .binary _ lhs rhs | .compare _ lhs rhs => [lhs, rhs]
  | .branch target => target.args
  | .call _ args => args
  | .condBranch cond whenTrue whenFalse => cond :: (whenTrue.args ++ whenFalse.args)
  | .ret value _ => [value]

/-- The targets of an operation, the one for `true` first. -/
def Operation.targets : Operation → List Target
  | .branch target => [target]
  | .condBranch _ whenTrue whenFalse => [whenTrue, whenFalse]
  | _ => []

/-- Terminators end a block: branches and returns. -/
def Operation.isTerminator : Operation → Bool
  | .branch _ | .condBranch .. | .ret .. => true
  | _ => false

/-! ### Values, blocks, functions, programs -/

/-- A value of a program. -/
inductive Value where
  /-- The parameter of a block at the given index. -/
  | parameter (block : BlockId) (index : Nat) (ty : Ty)
  /-- A constant; it belongs to no block. -/
  | constant (constant : Constant)
  /-- An instruction of a block. -/
  | instruction (block : BlockId) (operation : Operation)
  deriving DecidableEq, Repr, Inhabited

/-- A basic block. -/
structure Block where
  /-- The name of the block in its function. -/
  label : String
  /-- The function the block belongs to. -/
  function : FunctionId
  /-- The parameters. -/
  params : List ValueId := []
  /-- The instructions, in order. -/
  instructions : List ValueId := []
  /-- The blocks that branch here, without repetition, in the order of the branches. -/
  preds : List BlockId := []
  deriving DecidableEq, Repr, Inhabited

/-- A function.  A declaration has an entry block too, so that its arguments are
values, but no instructions. -/
structure Function where
  /-- The qualified name. -/
  path : List String
  /-- The named arguments, which are parameters of the entry block. -/
  args : List (String × ValueId) := []
  /-- The type of the result. -/
  returnType : Ty
  /-- The entry block. -/
  entry : BlockId
  /-- The other blocks, in order. -/
  others : List BlockId := []
  /-- Whether the function has no body. -/
  isDeclaration : Bool
  /-- The number that the next generated label takes. -/
  nextLabel : Nat := 0
  deriving DecidableEq, Repr, Inhabited

/-- All blocks of `f`, the entry first. -/
def Function.blocks (f : Function) : List BlockId := f.entry :: f.others

/-- The segments of a qualified name, joined by `::`. -/
def pathText (path : List String) : String := String.intercalate "::" path

/-- The qualified name of a function. -/
def Function.name (f : Function) : String := pathText f.path

/-- The number of arguments. -/
def Function.arity (f : Function) : Nat := f.args.length

/-- The argument called `name`; the first one if several are. -/
def Function.arg? (f : Function) (name : String) : Option ValueId :=
  (f.args.find? (·.1 == name)).map (·.2)

/-- The name of the argument `v`. -/
def Function.argName? (f : Function) (v : ValueId) : Option String :=
  (f.args.find? (·.2 == v)).map (·.1)

/-- A program: its modules, and the tables of its functions, blocks and values. -/
structure Program where
  /-- The functions of each module, in order. -/
  modules : Array (List FunctionId) := #[]
  /-- All functions, in order of creation. -/
  functions : Array Function := #[]
  /-- All blocks, in order of creation. -/
  blocks : Array Block := #[]
  /-- All values, in order of creation. -/
  values : Array Value := #[]
  deriving DecidableEq, Repr, Inhabited

namespace Program

/-- The functions of the module `m`; none outside the program. -/
def functionsOf (p : Program) (m : ModuleId) : List FunctionId := p.modules[m.index]?.getD []

/-- The function `f` of the program; junk outside it. -/
def function (p : Program) (f : FunctionId) : Function := p.functions[f.index]?.getD default

/-- The block `b` of the program; junk outside it. -/
def block (p : Program) (b : BlockId) : Block := p.blocks[b.index]?.getD default

/-- The value `v` of the program; junk outside it. -/
def value (p : Program) (v : ValueId) : Value := p.values[v.index]?.getD default

/-- The operation of `v`, if it is an instruction. -/
def operation? (p : Program) (v : ValueId) : Option Operation :=
  match p.value v with
  | .instruction _ op => some op
  | _ => none

/-- The constant that `v` is, if it is one. -/
def constant? (p : Program) (v : ValueId) : Option Constant :=
  match p.value v with
  | .constant c => some c
  | _ => none

/-- Whether `v` is a terminator. -/
def isTerminator (p : Program) (v : ValueId) : Bool :=
  (p.operation? v).any Operation.isTerminator

/-- The function of the module `m` with a `path` and a number of arguments, `arity`. -/
def lookup? (p : Program) (m : ModuleId) (path : List String) (arity : Nat) : Option FunctionId :=
  (p.functionsOf m).find? fun f => (p.function f).path == path && (p.function f).arity == arity

/-! ### Types of values -/

/-- The type of a value, following at most `n` operands. -/
def typeWithin (p : Program) : Nat → ValueId → Option Ty
  | 0, _ => none
  | n + 1, v =>
      match p.value v with
      | .parameter _ _ ty => some ty
      | .constant c => some c.ty
      | .instruction _ op =>
          match op with
          | .not arg => p.typeWithin n arg
          | .binary _ lhs _ => p.typeWithin n lhs
          | .call callee _ => some (p.function callee).returnType
          | .compare .. => some .bool
          | .annotate _ | .branch _ | .condBranch .. | .nop | .ret .. => none

/-- The type of `v`.  Parameters and constants have one.  A negation and a binary operation have
that of their first operand, a call that of the result, a comparison is a truth value; other
instructions have none.  Operands are created before the instructions that use them, so the
position of a value bounds the number of steps. -/
def typeOf (p : Program) (v : ValueId) : Option Ty := p.typeWithin (v.index + 1) v

/-- Whether `v` is known to be a truth value. -/
def isBool (p : Program) (v : ValueId) : Bool := p.typeOf v == some .bool

/-! ### Control flow -/

/-- The terminator of `b`: its last instruction, if that is one. -/
def terminator? (p : Program) (b : BlockId) : Option Operation :=
  match (p.block b).instructions.getLast? with
  | none => none
  | some v => (p.operation? v).filter Operation.isTerminator

/-- The targets of the terminator of `b`. -/
def successors (p : Program) (b : BlockId) : List Target :=
  ((p.terminator? b).map Operation.targets).getD []

/-- The number of instructions of `f`. -/
def instructionCount (p : Program) (f : FunctionId) : Nat :=
  (p.function f).blocks.foldr (fun b n => (p.block b).instructions.length + n) 0

end Program

end FlowFacts
