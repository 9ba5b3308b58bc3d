import FlowFacts.Program.Basic

/-!
# Faults of programs

What can be wrong with a program text or with a program put together by hand.  A
fault is a cause with the data that names it; `Fault.message` is the only place that
puts faults into words.
-/

namespace FlowFacts

/-- What is wrong with a program or its text. -/
inductive Fault where
  /-- The text does not follow the grammar: the position of the furthest failure, what
  could have stood there, and an excerpt of what does. -/
  | unexpected (line column : Nat) (expected : List String) (found : String)
  /-- A constant is written with a type that it does not have. -/
  | constantType (ty : Ty) (constant : Constant)
  /-- Two blocks of a function have the same label. -/
  | repeatedLabel (label : String)
  /-- Two functions of a module have the same path and number of arguments. -/
  | duplicateFunction (path : List String) (arity : Nat)
  /-- A function has a body without blocks. -/
  | missingEntry (function : String)
  /-- A name is used that no argument or earlier instruction has. -/
  | undefinedName (name : String)
  /-- A block has no terminator. -/
  | missingTerminator (label : String)
  /-- A block has a terminator that is not its last instruction. -/
  | misplacedTerminator (label : String)
  /-- A binary operation has operands of the wrong type. -/
  | binaryOperands
  /-- A negation has an operand of the wrong type. -/
  | unaryOperand
  /-- A parameter does not know its place in its block. -/
  | malformedParameter (label : String)
  /-- A branch passes values that do not fit the parameters of its target. -/
  | branchArguments (label : String)
  /-- A branch leaves the function. -/
  | branchTarget (label : String)
  /-- A call passes the wrong number of arguments. -/
  | callArity (callee : String) (expected found : Nat)
  /-- A call passes an argument of the wrong type. -/
  | callArgument (callee : String) (passed expected : Option Ty)
  /-- There is no function with the path and number of arguments of a call. -/
  | unknownCallee (path : List String) (arity : Nat)
  /-- Values of types without an order are ordered. -/
  | unordered (lhs rhs : Ty)
  /-- Values of different types are compared. -/
  | incomparable (lhs rhs : Ty)
  /-- A value without a type is compared. -/
  | untypedComparison
  /-- The condition of a branch is not a truth value. -/
  | conditionType
  /-- A declaration has instructions. -/
  | declarationBody (function : String)
  /-- A function names two points alike. -/
  | repeatedPoint (function name : String)
  /-- Blocks branch to the entry block. -/
  | entryPredecessors (function : String) (labels : List String)
  /-- A return does not fit the type of the function. -/
  | returnType (function : String)
  deriving DecidableEq, Repr, Inhabited

/-- The alternatives at a failure: nothing, one, or a list. -/
def expectedText : List String → String
  | [] => "<unreported>"
  | [one] => one
  | many => "one of " ++ String.intercalate ", " many

/-- A constant as it is shown when its type is wrong, with the bytes of a string in
decimal. -/
def Constant.shown : Constant → String
  | .unit => "Unit"
  | .bool true => "Bool(true)"
  | .bool false => "Bool(false)"
  | .u64 n => "Number(" ++ toString n.toNat ++ ")"
  | .str bytes =>
      "String([" ++ String.intercalate ", " (bytes.map fun b => toString b.toNat) ++ "])"

namespace Fault

/-- A fault of reading: what was expected, `expecting`, and what was `found`. -/
def readingText (expecting found : String) : String :=
  "Parse failure: expecting '" ++ expecting ++ "', found '" ++ found ++ "'."

/-- A fault of a program that could be read. -/
def verificationText (text : String) : String := "Verification failed: " ++ text

/-- The `labels` of the blocks that branch to the entry of a function, in the singular or in the
plural. -/
def entryPredecessorsText (function : String) (labels : List String) : String :=
  let quoted := String.intercalate ", " (labels.map fun label => "\"" ++ label ++ "\"")
  if labels.length = 1 then
    "Entry block of the function \"" ++ function ++ "\" has a predecessor. The predecessor is "
      ++ quoted ++ "."
  else
    "Entry block of the function \"" ++ function ++ "\" has predecessors. The predecessors are "
      ++ quoted ++ "."

/-- The words for a fault. -/
def message : Fault → String
  | unexpected line column expected found =>
      readingText
        ("error at " ++ toString line ++ ":" ++ toString column ++ ": expected "
          ++ expectedText expected)
        found
  | constantType ty constant => readingText ("constant of type " ++ ty.text) constant.shown
  | repeatedLabel label => readingText "unique block label" label
  | duplicateFunction path arity =>
      "Function " ++ pathText path ++ " with " ++ toString arity
        ++ " argument(s) is defined more than once."
  | missingEntry function => "Unable to find block entry of " ++ function ++ "."
  | undefinedName name => "Invalid value: '" ++ name ++ "' is not defined."
  | missingTerminator label => "Block " ++ label ++ " is missing its terminator."
  | misplacedTerminator label => "Block " ++ label ++ " has a misplaced terminator."
  | binaryOperands => verificationText "Incorrect argument type(s) for binary op."
  | unaryOperand => verificationText "Incorrect argument type for unary op."
  | malformedParameter label =>
      verificationText ("Block argument of " ++ label ++ " is malformed.")
  | branchArguments label =>
      verificationText ("Branch to block '" ++ label
        ++ "' passes arguments which don't match its parameters.")
  | branchTarget label =>
      verificationText ("Branch to block '" ++ label
        ++ "' is not a block in the current function.")
  | callArity callee expected found =>
      verificationText ("Call to '" ++ callee ++ "' expects " ++ toString expected
        ++ " argument(s), found " ++ toString found ++ ".")
  | callArgument callee passed expected =>
      verificationText ("Type mismatch found for call to '" ++ callee ++ "': "
        ++ Ty.textOrUntyped passed ++ " is not a " ++ Ty.textOrUntyped expected ++ ".")
  | unknownCallee path arity =>
      verificationText ("Call to invalid function '" ++ pathText path ++ "/" ++ toString arity
        ++ "'.")
  | unordered lhs rhs =>
      verificationText ("Cannot order values of types " ++ lhs.text ++ " and " ++ rhs.text ++ ".")
  | incomparable lhs rhs =>
      verificationText ("Cannot compare values of different types " ++ lhs.text ++ " and "
        ++ rhs.text ++ ".")
  | untypedComparison =>
      verificationText "Unable to determine type(s) of compared value(s)."
  | conditionType => verificationText "Expression used for conditional is not a boolean."
  | declarationBody function =>
      verificationText ("Declaration of " ++ function ++ " must not have instructions.")
  | repeatedPoint function name =>
      verificationText ("Function " ++ function ++ " annotates '" ++ name ++ "' more than once.")
  | entryPredecessors function labels => verificationText (entryPredecessorsText function labels)
  | returnType function =>
      verificationText ("Function " ++ function
        ++ " return type must match its RET instructions.")

end Fault

end FlowFacts
