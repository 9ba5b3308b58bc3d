import FlowFacts.Program.Validate
import FlowFacts.Source.Grammar
import FlowFacts.Source.Resolve

/-!
# Loading programs

A text is read, its names are resolved, and the program is checked.  If the text does not
follow the grammar, the fault gives the line and column of the furthest failure, what was
expected there in alphabetical order, and an excerpt of at most twenty bytes of what
follows.  An excerpt that would end inside a character cannot be given: loading then stops
without a fault.

## Main definitions

* `load` — the program of a text.
-/

namespace FlowFacts.Source

/-- Why loading stopped. -/
inductive LoadError where
  /-- The text has a fault. -/
  | fault (fault : Fault)
  /-- The excerpt for a message would end inside a character. -/
  | splitCharacter
  deriving DecidableEq, Repr, Inhabited

/-- The longest excerpt in a message, in bytes. -/
def excerptBytes : Nat := 20

/-- The number of bytes that `cs` takes. -/
def byteLength (cs : List Char) : Nat := cs.foldr (fun c n => c.utf8Size + n) 0

/-- The leading characters that take exactly `n` bytes, unless the last of them would be
split. -/
def takeBytes : Nat → List Char → Option (List Char)
  | _, [] => some []
  | n, c :: rest =>
      if n = 0 then some []
      else if c.utf8Size ≤ n then (takeBytes (n - c.utf8Size) rest).map (c :: ·)
      else none

/-- The excerpt for a message of the text that is left, `rest`. -/
def excerpt (rest : List Char) : Option String :=
  if byteLength rest ≤ excerptBytes then some (String.ofList rest)
  else (takeBytes excerptBytes rest).map String.ofList

/-- The line of the position behind the characters `before`, counting from one. -/
def lineAfter (before : List Char) : Nat := before.count '\n' + 1

/-- The column of the position behind the characters `before`, counting from one. -/
def columnAfter (before : List Char) : Nat :=
  (before.reverse.takeWhile (· ≠ '\n')).length + 1

/-- The fault of a `text` that cannot be read, given the furthest `failure`. -/
def unexpectedAt (text : List Char) (failure : Furthest) : LoadError :=
  match excerpt (text.drop failure.offset) with
  | none => .splitCharacter
  | some found =>
      let before := text.take failure.offset
      .fault (.unexpected (lineAfter before) (columnAfter before)
        (failure.expected.mergeSort fun a b => decide (a ≤ b)) found)

/-- The functions that `text` declares. -/
def read (text : String) : Except LoadError (List FunctionDecl) :=
  match Grammar.program { rest := text.toList } with
  | { result := some (functions, _), .. } => .ok functions
  | { result := none, failure } => .error (unexpectedAt text.toList failure)

/-- The program of `text`. -/
def load (text : String) : Except LoadError Program := do
  let functions ← read text
  let program ← (resolve functions).mapError .fault
  program.validate.mapError .fault
  return program

end FlowFacts.Source
