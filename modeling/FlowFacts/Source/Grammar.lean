import FlowFacts.Source.Rule
import FlowFacts.Source.Tree

/-!
# The grammar of program texts

One rule for each phrase of the language.  Blanks, line ends and comments may follow
every token.  Words are matched as they stand: most keywords must not run on into a
name, but `unit`, the comparison predicates and the constants `true` and `false` may.

## Main definitions

* `Grammar.program` — a whole text: a module of functions.
-/

namespace FlowFacts.Source.Grammar

open Rule

/-! ### Tokens -/

/-- The number of leading characters that are blank or belong to a comment, which runs
from `//` to the end of its line. -/
def blankLength : (inComment : Bool) → List Char → Nat
  | _, [] => 0
  | true, c :: rest => 1 + blankLength (!(c == '\n' || c == '\r')) rest
  | false, c :: rest =>
      if c == ' ' || c == '\t' || c == '\n' || c == '\r' then 1 + blankLength false rest
      else if c == '/' && rest.head? == some '/' then 1 + blankLength true rest
      else 0

/-- Blanks and comments. -/
def blank : Rule Unit := fun c => succeed () (c.advance (blankLength false c.rest))

/-- The symbol `s` and the blanks after it. -/
def symbol (s : String) : Rule Unit := do
  literal s
  blank

/-- A comma; messages never ask for one. -/
def comma : Rule Unit := quiet (symbol ",")

/-- The characters a name may start with. -/
def isNameStart (c : Char) : Bool :=
  ('A' ≤ c && c ≤ 'Z') || ('a' ≤ c && c ≤ 'z') || c == '_'

/-- The characters of a name. -/
def isNameChar (c : Char) : Bool := isNameStart c || ('0' ≤ c && c ≤ '9')

/-- Any character of a name; messages never ask for one. -/
def nameChar : Rule Char := quiet (oneOf "" isNameChar)

/-- The keyword `s`, which does not run on into a name. -/
def keyword (s : String) : Rule Unit := do
  literal s
  notAhead nameChar
  blank

/-- A name: any word but the names of types.  Messages never ask for one. -/
def name : Rule String := do
  notAhead do
    choice [literal "bool", literal "u64", literal "str"]
    notAhead nameChar
  let first ← quiet (oneOf "" isNameStart)
  let others ← takeWhile isNameChar
  blank
  return String.ofList (first :: others)

/-- A qualified name. -/
def path : Rule (List String) := separated1 name (symbol "::")

/-- A type. -/
def ty : Rule Ty :=
  choice
    [ do choice [literal "unit", literal "()"]; blank; return .unit,
      do keyword "bool"; return .bool,
      do keyword "u64"; return .u64,
      do keyword "str"; return .str ]

/-! ### Constants -/

/-- A decimal digit. -/
def digit : Rule Char := oneOf "['0'..='9']" fun c => '0' ≤ c && c ≤ '9'

/-- The number that `digits` stand for. -/
def digitsValue (digits : List Char) : Nat :=
  digits.foldl (fun n c => 10 * n + (c.toNat - 48)) 0

/-- The digits of a number, which has no leading zeros. -/
def digits : Rule (List Char) :=
  choice
    [ do literal "0"; return ['0'],
      do
        let first ← oneOf "['1'..='9']" fun c => '1' ≤ c && c ≤ '9'
        let others ← many digit
        return first :: others ]

/-- A 64-bit word. -/
def word : Rule UInt64 := do
  let value := digitsValue (← digits)
  blank
  if value < UInt64.size then return UInt64.ofNat value else fail "u64 literal"

/-- The value of a hexadecimal digit. -/
def hexDigit : Rule Nat :=
  choice
    [ do return (← digit).toNat - 48,
      do
        let c ← oneOf "['a'..='f' | 'A'..='F']" fun c =>
          ('a' ≤ c && c ≤ 'f') || ('A' ≤ c && c ≤ 'F')
        return c.toLower.toNat - 87 ]

/-- A byte of a string: a printable character, or `\x` and two hexadecimal digits. -/
def stringByte : Rule UInt8 :=
  choice
    [ do
        let c ← oneOf "[' ' | '!' | '#'..='[' | ']'..='~']" fun c =>
          c == ' ' || c == '!' || ('#' ≤ c && c ≤ '[') || (']' ≤ c && c ≤ '~')
        return UInt8.ofNat c.toNat,
      do
        literal "\\x"
        let high ← hexDigit
        return UInt8.ofNat (16 * high + (← hexDigit)) ]

/-- A quotation mark. -/
def quote : Rule Char := oneOf "['\"']" (· == '"')

/-- The value of a constant. -/
def constant : Rule Constant :=
  choice
    [ do symbol "()"; return .unit,
      do symbol "true"; return .bool true,
      do symbol "false"; return .bool false,
      do return .u64 (← word),
      do
        let _ ← quote
        let bytes ← many stringByte
        let _ ← quote
        blank
        return .str bytes ]

/-! ### Instructions -/

/-- The operands of a call or a branch. -/
def operands : Rule (List String) := do
  symbol "("
  let names ← separated name comma
  symbol ")"
  return names

/-- A comparison predicate. -/
def comparison : Rule Comparison :=
  choice
    [ do symbol "eq"; return .eq,
      do symbol "ne"; return .ne,
      do symbol "gt"; return .gt,
      do symbol "lt"; return .lt ]

/-- The keyword of a binary operation. -/
def binaryOp : Rule BinaryOp :=
  choice
    [ do keyword "and"; return .and,
      do keyword "or"; return .or,
      do keyword "xor"; return .xor,
      do keyword "add"; return .add,
      do keyword "sub"; return .sub,
      do keyword "mul"; return .mul ]

/-- An operation. -/
def operation : Rule OperationDecl :=
  choice
    [ do
        keyword "annotate"
        return .annotate (← name),
      do
        keyword "br"
        let label ← name
        return .branch label (← operands),
      do
        keyword "call"
        let callee ← path
        return .call callee (← operands),
      do
        keyword "cbr"
        let cond ← name
        comma
        let trueLabel ← name
        let trueArgs ← operands
        comma
        let falseLabel ← name
        return .condBranch cond trueLabel trueArgs falseLabel (← operands),
      do
        keyword "cmp"
        let predicate ← comparison
        let lhs ← name
        return .compare predicate lhs (← name),
      do
        keyword "const"
        let ty ← ty
        return .const ty (← constant),
      do
        keyword "nop"
        return .nop,
      do
        keyword "ret"
        let ty ← ty
        return .ret ty (← name),
      do
        keyword "not"
        return .not (← name),
      do
        let op ← binaryOp
        let lhs ← name
        comma
        return .binary op lhs (← name) ]

/-- An instruction, possibly with a name for its result. -/
def instruction : Rule InstructionDecl := do
  let result ← optional do
    let result ← name
    symbol "="
    return result
  return { name := result, operation := ← operation }

/-! ### Blocks, functions, modules -/

/-- A parameter and its type. -/
def parameter : Rule (String × Ty) := do
  let param ← name
  symbol ":"
  return (param, ← ty)

/-- A list of parameters. -/
def parameters : Rule (List (String × Ty)) := do
  symbol "("
  let params ← separated parameter comma
  symbol ")"
  return params

/-- A block. -/
def block : Rule BlockDecl := do
  let label ← name
  let params ← parameters
  symbol ":"
  return { label, params, body := ← many instruction }

/-- The body of a function. -/
def body : Rule (List BlockDecl) := do
  symbol "\x7b"
  let blocks ← many block
  symbol "\x7d"
  return blocks

/-- A function. -/
def function : Rule FunctionDecl := do
  symbol "fn"
  let path ← path
  let args ← parameters
  symbol "->"
  let returnType ← ty
  return { path, args, returnType, blocks := ← optional body }

/-- A whole text. -/
def program : Rule (List FunctionDecl) := do
  blank
  symbol "module"
  symbol "\x7b"
  let functions ← many function
  symbol "\x7d"
  endOfText
  return functions

end FlowFacts.Source.Grammar
