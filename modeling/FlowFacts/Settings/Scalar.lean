import FlowFacts.Settings.Item
import FlowFacts.Source.Rule

/-!
# Simple items

The rules for texts, numbers, truth values, dates and times in a settings file.

## Main definitions

* `text`, `keyText` — quoted texts.
* `integer`, `real` — numbers.
* `moment` — dates and times.
* `scalar` — any of these.
-/

namespace FlowFacts.Settings

open Source Source.Rule

/-! ### Characters -/

/-- Blanks within a line. -/
def isBlank (c : Char) : Bool := c == ' ' || c == '\t'

/-- The characters that may stand in a comment. -/
def isCommentChar (c : Char) : Bool := c == '\t' || (32 ≤ c.toNat && c.toNat != 127)

/-- The characters that stand for themselves between double quotes. -/
def isBasicChar (c : Char) : Bool := isCommentChar c && c != '"' && c != '\\'

/-- The characters that may stand between single quotes. -/
def isLiteralChar (c : Char) : Bool := isCommentChar c && c != '\''

/-- A decimal digit. -/
def isDecimal (c : Char) : Bool := '0' ≤ c && c ≤ '9'

/-- A hexadecimal digit. -/
def isHexadecimal (c : Char) : Bool :=
  isDecimal c || ('a' ≤ c && c ≤ 'f') || ('A' ≤ c && c ≤ 'F')

/-- The value of a hexadecimal digit. -/
def digitValue (c : Char) : Nat :=
  if isDecimal c then c.toNat - 48 else if 'a' ≤ c then c.toNat - 87 else c.toNat - 55

/-- The number that `digits` write in a `base`. -/
def numberOf (base : Nat) (digits : List Char) : Nat :=
  digits.foldl (fun n c => n * base + digitValue c) 0

/-- Blanks. -/
def blanks : Rule Unit := do let _ ← takeWhile isBlank

/-- The end of a line. -/
def newline : Rule Unit := choice [literal "\n", literal "\r\n"]

/-- Nothing, where `r` would succeed. -/
def ahead {α : Type} (r : Rule α) : Rule Unit := notAhead (notAhead r)

/-- A value that may be missing. -/
def require {α : Type} (expected : String) : Option α → Rule α
  | some a => succeed a
  | none => fail expected

/-! ### Texts -/

/-- The character that a hexadecimal number of `n` digits stands for. -/
def codedChar (n : Nat) : Rule Char := do
  let digits ← (List.replicate n ()).mapM fun _ => oneOf "hexadecimal digit" isHexadecimal
  let code := numberOf 16 digits
  if code.isValidChar then return Char.ofNat code else fail "character code"

/-- What follows a backslash. -/
def escaped : Rule Char := do
  literal "\\"
  match ← oneOf "escape" fun _ => true with
  | 'b' => return '\x08'
  | 'f' => return '\x0c'
  | 'n' => return '\n'
  | 'r' => return '\r'
  | 't' => return '\t'
  | 'u' => codedChar 4
  | 'U' => codedChar 8
  | '\\' => return '\\'
  | '"' => return '"'
  | _ => fail "escape"

/-- A text in double quotes. -/
def basicText : Rule String := do
  literal "\""
  let content ← many (choice [oneOf "character" isBasicChar, escaped])
  literal "\""
  return String.ofList content

/-- A text in single quotes. -/
def literalText : Rule String := do
  literal "'"
  let content ← takeWhile isLiteralChar
  literal "'"
  return String.ofList content

/-- One or two quotes inside a text over several lines: what follows is no `quote`. -/
def innerQuotes (quote : Char) : Rule (List Char) :=
  choice <| [[quote, quote], [quote]].map fun quotes => do
    literal (String.ofList quotes)
    ahead (oneOf "character" (· != quote))
    return quotes

/-- One or two quotes at the end of a text over several lines, before the closing ones. -/
def lastQuotes (quote : Char) : Rule (List Char) :=
  choice <| [[quote, quote], [quote]].map fun quotes => do
    literal (String.ofList quotes)
    ahead (literal (String.ofList [quote, quote, quote]))
    return quotes

/-- A backslash at the end of a line: the line goes on at the next character that is not
blank. -/
def continuation : Rule (List Char) := do
  literal "\\"
  blanks
  newline
  let _ ← many (choice [do let _ ← oneOf "blank" isBlank, newline])
  return []

/-- A text over several lines, given the rule for a `piece` of it. -/
def longText (quote : Char) (piece : Rule (List Char)) : Rule String := do
  let delimiter := String.ofList [quote, quote, quote]
  literal delimiter
  let _ ← Rule.optional newline
  let content ← many (choice [piece, innerQuotes quote])
  let last ← Rule.optional (lastQuotes quote)
  literal delimiter
  return String.ofList (content.flatten ++ last.getD [])

/-- The end of a line inside a text. -/
def lineBreak : Rule (List Char) := do
  newline
  return ['\n']

/-- A text over several lines in double quotes. -/
def longBasicText : Rule String :=
  longText '"' <| choice
    [do return [← oneOf "character" isBasicChar], continuation, do return [← escaped], lineBreak]

/-- A text over several lines in single quotes. -/
def longLiteralText : Rule String :=
  longText '\'' <| choice [do return [← oneOf "character" isLiteralChar], lineBreak]

/-- A quoted text in one line, as keys may be. -/
def keyText : Rule String := choice [basicText, literalText]

/-- A quoted text. -/
def text : Rule String := choice [longBasicText, basicText, longLiteralText, literalText]

/-! ### Numbers -/

/-- Every underscore stands between two digits, and there is a digit; the flag says whether
a digit comes before. -/
def wellSpaced : Bool → List Char → Bool
  | afterDigit, [] => afterDigit
  | afterDigit, c :: rest =>
      if c = '_' then afterDigit && wellSpaced false rest else wellSpaced true rest

/-- A row of digits, those that `isDigit` accepts, with underscores between them. -/
def digitRow (isDigit : Char → Bool) : Rule (List Char) := do
  let row ← takeWhile fun c => isDigit c || c == '_'
  if wellSpaced false row then return row.filter (· != '_') else fail "digit"

/-- A sign: whether it is a minus. -/
def sign : Rule Bool :=
  choice [do literal "+"; return false, do literal "-"; return true, succeed false]

/-- A whole number: whether it is negative, and its digits, which do not start with a
needless zero. -/
def wholeNumber : Rule (Bool × List Char) := do
  let negative ← sign
  let digits ← digitRow isDecimal
  if digits.head? = some '0' ∧ digits.length ≠ 1 then fail "digit"
  else return (negative, digits)

/-- The number `n`, if it fits into 64 bits with a sign. -/
def inRange (n : Int) : Rule Item :=
  if Int64.minValue.toInt ≤ n ∧ n ≤ Int64.maxValue.toInt then return .integer n
  else fail "integer"

/-- Digits in a `base`, after the `mark` of the base. -/
def basedInteger (mark : String) (base : Nat) (isDigit : Char → Bool) : Rule Item := do
  literal mark
  inRange (numberOf base (← digitRow isDigit))

/-- A whole number. -/
def integer : Rule Item :=
  choice [
    basedInteger "0x" 16 isHexadecimal,
    basedInteger "0o" 8 fun c => '0' ≤ c && c ≤ '7',
    basedInteger "0b" 2 fun c => c == '0' || c == '1',
    do
      let (negative, digits) ← wholeNumber
      let n : Int := numberOf 10 digits
      inRange (if negative then -n else n)]

/-- The least number that is taken for infinity when numbers are kept with 53 binary places
and exponents below 1024. -/
def infinityBound : Nat := Nat.pow 2 1024 - Nat.pow 2 970

/-- Whether a decimal number, given by its `digits` and the `exponent` of ten, is taken for
infinity. -/
def isInfinite (digits : List Char) (exponent : Int) : Bool :=
  let significant := digits.dropWhile (· == '0')
  let size := exponent + significant.length
  if significant.isEmpty ∨ size < 300 then false
  else if 310 < size then true
  else if 0 ≤ exponent then infinityBound ≤ numberOf 10 significant * Nat.pow 10 exponent.toNat
  else infinityBound * Nat.pow 10 (-exponent).toNat ≤ numberOf 10 significant

/-- An exponent of ten. -/
def exponent : Rule Int := do
  choice [literal "e", literal "E"]
  let negative ← sign
  let n : Int := numberOf 10 (← digitRow isDecimal)
  return if negative then -n else n

/-- The digits after a decimal point. -/
def fraction : Rule (List Char) := do
  literal "."
  digitRow isDecimal

/-- A number with a fraction or an exponent, or a special one.  A positive number may not be
too large. -/
def real : Rule Item :=
  choice [
    do
      let (negative, digits) ← wholeNumber
      let (places, power) ← choice [
        do return ([], ← exponent),
        do return (← fraction, (← Rule.optional exponent).getD 0)]
      if !negative && isInfinite (digits ++ places) (power - places.length) then fail "number"
      else return .real,
    do
      let _ ← sign
      choice [literal "inf", literal "nan"]
      return .real]

/-- A truth value. -/
def boolean : Rule Item :=
  choice [do literal "true"; return .boolean true, do literal "false"; return .boolean false]

/-! ### Dates and times -/

/-- A number of exactly `n` digits, from `least` to `greatest`. -/
def fixedNumber (n least greatest : Nat) : Rule Nat := do
  let digits ← (List.replicate n ()).mapM fun _ => oneOf "digit" isDecimal
  let value := numberOf 10 digits
  if least ≤ value ∧ value ≤ greatest then return value else fail "number in range"

/-- The number of days of the `month` of a `year`. -/
def daysIn (year month : Nat) : Nat :=
  if month = 2 then if year % 4 = 0 ∧ (year % 100 ≠ 0 ∨ year % 400 = 0) then 29 else 28
  else if month ∈ [4, 6, 9, 11] then 30
  else 31

/-- A date. -/
def date : Rule Unit := do
  let year ← fixedNumber 4 0 9999
  literal "-"
  let month ← fixedNumber 2 1 12
  literal "-"
  let _ ← fixedNumber 2 1 (daysIn year month)

/-- Hours and minutes. -/
def hourAndMinute : Rule Unit := do
  let _ ← fixedNumber 2 0 23
  literal ":"
  let _ ← fixedNumber 2 0 59

/-- A time of day; a minute may have a leap second. -/
def timeOfDay : Rule Unit := do
  hourAndMinute
  literal ":"
  let _ ← fixedNumber 2 0 60
  let _ ← Rule.optional do
    literal "."
    let _ ← oneOf "digit" isDecimal
    takeWhile isDecimal

/-- The distance from universal time. -/
def offset : Rule Unit :=
  choice [literal "Z", literal "z", do choice [literal "+", literal "-"]; hourAndMinute]

/-- A date, a time of day or both. -/
def moment : Rule Item := do
  choice [
    do
      date
      let _ ← Rule.optional do
        choice [literal "T", literal "t", literal " "]
        timeOfDay
        Rule.optional offset,
    timeOfDay]
  return .moment

/-- An item that is neither a list nor a table. -/
def scalar : Rule Item :=
  choice [do return .text (← text), moment, real, integer, boolean]

end FlowFacts.Settings
