import FlowFacts.Program.Basic

/-!
# Program texts as trees

What a program text says before its names are resolved: values, blocks and callees are
still the words that the text writes.
-/

namespace FlowFacts.Source

/-- An operation of a text. -/
inductive OperationDecl where
  /-- `annotate name` -/
  | annotate (name : String)
  /-- `not arg` -/
  | not (arg : String)
  /-- `op lhs, rhs` -/
  | binary (op : BinaryOp) (lhs rhs : String)
  /-- `br label(args)` -/
  | branch (label : String) (args : List String)
  /-- `call path(args)` -/
  | call (path : List String) (args : List String)
  /-- `cbr cond, label(args), label(args)` -/
  | condBranch (cond : String) (trueLabel : String) (trueArgs : List String)
      (falseLabel : String) (falseArgs : List String)
  /-- `cmp predicate lhs rhs` -/
  | compare (predicate : Comparison) (lhs rhs : String)
  /-- `const type value` -/
  | const (ty : Ty) (value : Constant)
  /-- `nop` -/
  | nop
  /-- `ret type value` -/
  | ret (ty : Ty) (value : String)
  deriving DecidableEq, Repr, Inhabited

/-- An instruction, with the name its result is given. -/
structure InstructionDecl where
  /-- The name of the result, if it is given one. -/
  name : Option String
  /-- The operation. -/
  operation : OperationDecl
  deriving DecidableEq, Repr, Inhabited

/-- A block: its label, its parameters and its instructions. -/
structure BlockDecl where
  /-- The label. -/
  label : String
  /-- The parameters, with their types. -/
  params : List (String × Ty)
  /-- The instructions. -/
  body : List InstructionDecl
  deriving DecidableEq, Repr, Inhabited

/-- A function; a declaration has no block list. -/
structure FunctionDecl where
  /-- The qualified name. -/
  path : List String
  /-- The arguments, with their types. -/
  args : List (String × Ty)
  /-- The type of the result. -/
  returnType : Ty
  /-- The blocks, if there is a body. -/
  blocks : Option (List BlockDecl)
  deriving DecidableEq, Repr, Inhabited

/-- The number of arguments. -/
def FunctionDecl.arity (f : FunctionDecl) : Nat := f.args.length

end FlowFacts.Source
