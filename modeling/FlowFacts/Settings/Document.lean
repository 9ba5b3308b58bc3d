import FlowFacts.Settings.Scalar

/-!
# Settings files

The rules for whole settings files: keys, lists, inline tables, headings and lines.

## Main definitions

* `item` — any item.
* `Line`, `document` — what the lines of a file say.
* `read` — the table that a file describes.
-/

namespace FlowFacts.Settings

open Source Source.Rule

/-! ### Keys -/

/-- The characters of keys without quotes. -/
def isKeyChar (c : Char) : Bool :=
  isDecimal c || ('a' ≤ c && c ≤ 'z') || ('A' ≤ c && c ≤ 'Z') || c == '_' || c == '-'

/-- A part of a key. -/
def keyPart : Rule String := do
  blanks
  let part ← choice [keyText, do
    let first ← oneOf "key" isKeyChar
    return String.ofList (first :: (← takeWhile isKeyChar))]
  blanks
  return part

/-- The number of levels that items and keys stay below. -/
def levelLimit : Nat := 80

/-- A key: its parts before the last, and the last. -/
def key : Rule (List String × String) := do
  let parts ← separated1 keyPart (literal ".")
  match parts.getLast? with
  | some last => if parts.length < levelLimit then return (parts.dropLast, last) else fail "key"
  | none => fail "key"

/-- A key and its `item`. -/
def pair (item : Rule Item) : Rule Pair := do
  let (path, key) ← key
  literal "="
  blanks
  return { path, key, item := ← item }

/-! ### Items -/

/-- A comment. -/
def comment : Rule Unit := do
  literal "#"
  let _ ← takeWhile isCommentChar

/-- Blanks, ends of lines and comments. -/
def gap : Rule Unit := do
  let _ ← many (choice [do let _ ← oneOf "blank" isBlank, newline, comment])

/-- A list whose elements are read by `item`. -/
def array (item : Rule Item) : Rule Item := do
  literal "["
  let items ← Rule.optional do
    let items ← separated1 (do gap; let x ← item; gap; return x) (literal ",")
    let _ ← Rule.optional (literal ",")
    return items
  gap
  literal "]"
  return .array (items.getD [])

/-- A table in one line, whose items are read by `item`. -/
def inlineTable (item : Rule Item) : Rule Item := do
  literal "\x7b"
  let pairs ← separated (do let x ← pair item; blanks; return x) (literal ",")
  blanks
  literal "\x7d"
  return .inlineTable (← require "other key" (addPairs pairs []))

/-- An item with at most `n` levels of lists and inline tables. -/
def itemWithin : Nat → Rule Item
  | 0 => scalar
  | n + 1 => choice [scalar, array (itemWithin n), inlineTable (itemWithin n)]

/-- An item. -/
def item : Rule Item := itemWithin (levelLimit - 1)

/-! ### Lines -/

/-- What a line says. -/
inductive Line where
  /-- Nothing. -/
  | empty
  /-- A key has an item. -/
  | pair (pair : Pair)
  /-- A table begins. -/
  | heading (heading : Heading)
  deriving Inhabited

/-- The rest of a line that says no more. -/
def lineEnd : Rule Unit := do
  blanks
  let _ ← Rule.optional comment
  choice [newline, endOfText]

/-- A heading between brackets, `opening` and `closing`. -/
def heading (opening closing : String) (isElement : Bool) : Rule Line := do
  literal opening
  let (path, key) ← key
  literal closing
  lineEnd
  return .heading { path, key, isElement }

/-- A line. -/
def line : Rule Line :=
  choice [
    do newline; return .empty,
    do comment; lineEnd; return .empty,
    heading "[[" "]]" true,
    heading "[" "]" false,
    do
      let x ← pair item
      lineEnd
      return .pair x]

/-- All lines of a file. -/
def document : Rule (List Line) := do
  let _ ← Rule.optional (literal "\ufeff")
  blanks
  let lines ← many (do let x ← line; blanks; return x)
  endOfText
  return lines

/-- The pairs before the first heading, and the tables with a heading. -/
def sections : List Line → List Pair × List (Heading × List Pair)
  | [] => ([], [])
  | .empty :: rest => sections rest
  | .pair x :: rest =>
      let (pairs, tables) := sections rest
      (x :: pairs, tables)
  | .heading h :: rest =>
      let (pairs, tables) := sections rest
      ([], (h, pairs) :: tables)

/-- The table that the `content` of a file describes, unless it cannot be read. -/
def read (content : String) : Option Entries := do
  let (lines, _) ← (document { rest := content.toList }).result
  let (pairs, tables) := sections lines
  assemble pairs tables

end FlowFacts.Settings
