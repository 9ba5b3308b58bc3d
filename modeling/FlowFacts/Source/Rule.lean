/-!
# Reading rules

A rule reads from a position in a text and either gives a value and the position
behind it or fails.  Choice is ordered, repetition takes as much as it can, and nothing
is taken back from inside a repetition.  Besides its result a rule tells the *furthest*
position at which something expected was missing, and everything that was expected
there: what a message about a text that cannot be read should point at.

## Main definitions

* `Cursor`, `Furthest`, `Reading`, `Rule` — positions, failures, outcomes and rules.
* `literal`, `oneOf`, `takeWhile`, `endOfText` — the terminals.
* `choice`, `many`, `separated`, `optional`, `notAhead`, `quiet` — the combinators.
-/

namespace FlowFacts.Source

/-- A position in a text. -/
structure Cursor where
  /-- The characters from here on. -/
  rest : List Char
  /-- The number of characters before. -/
  offset : Nat := 0
  deriving DecidableEq, Repr, Inhabited

/-- Skip `n` characters. -/
def Cursor.advance (c : Cursor) (n : Nat) : Cursor :=
  { rest := c.rest.drop n, offset := c.offset + n }

/-- The furthest failure so far. -/
structure Furthest where
  /-- The position of the failure. -/
  offset : Nat := 0
  /-- What was expected there. -/
  expected : List String := []
  deriving DecidableEq, Repr, Inhabited

/-- The further of `a` and `b`; at one position, both. -/
def Furthest.merge (a b : Furthest) : Furthest :=
  if a.offset < b.offset then b
  else if b.offset < a.offset then a
  else { a with expected := a.expected ++ b.expected.filter (!a.expected.contains ·) }

/-- The outcome of a rule. -/
structure Reading (α : Type) where
  /-- The value read and the position behind it, unless the rule failed. -/
  result : Option (α × Cursor)
  /-- The furthest failure met, also inside a rule that succeeded. -/
  failure : Furthest := {}

/-- A reading rule. -/
def Rule (α : Type) : Type := Cursor → Reading α

namespace Rule

variable {α β : Type}

/-- Read nothing, with the value `a`. -/
def succeed (a : α) : Rule α := fun c => { result := some (a, c) }

/-- Read `r` and then `next`, which depends on the value of the first. -/
def andThen (r : Rule α) (next : α → Rule β) : Rule β := fun c =>
  match r c with
  | { result := none, failure } => { result := none, failure }
  | { result := some (a, c), failure } =>
      let after := next a c
      { after with failure := failure.merge after.failure }

instance : Monad Rule where
  pure := succeed
  bind := andThen

/-! ### Terminals -/

/-- Fail where something is `expected`. -/
def fail (expected : String) : Rule α := fun c =>
  { result := none, failure := { offset := c.offset, expected := [expected] } }

/-- The text `s` as it is quoted in a message. -/
def quoted (s : String) : String :=
  "\"" ++ String.ofList (s.toList.flatMap fun c => if c = '\\' then ['\\', '\\'] else [c]) ++ "\""

/-- Exactly the text `s`. -/
def literal (s : String) : Rule Unit := fun c =>
  if s.toList.isPrefixOf c.rest then succeed () (c.advance s.length) else fail (quoted s) c

/-- One character that is `ok`, which messages describe by the given words. -/
def oneOf (description : String) (ok : Char → Bool) : Rule Char := fun c =>
  match c.rest with
  | [] => fail description c
  | ch :: _ => if ok ch then succeed ch (c.advance 1) else fail description c

/-- All characters up to the first that is not `ok`. -/
def takeWhile (ok : Char → Bool) : Rule (List Char) := fun c =>
  let taken := c.rest.takeWhile ok
  succeed taken (c.advance taken.length)

/-- The end of the text. -/
def endOfText : Rule Unit := fun c =>
  if c.rest.isEmpty then succeed () c else fail "end of input" c

/-! ### Combinators -/

/-- The first rule that succeeds. -/
def choice : List (Rule α) → Rule α
  | [] => fun _ => { result := none }
  | r :: rest => fun c =>
      match r c with
      | { result := some found, failure } => { result := some found, failure }
      | { result := none, failure } =>
          let other := choice rest c
          { other with failure := failure.merge other.failure }

/-- What `r` reads, or nothing. -/
def optional (r : Rule α) : Rule (Option α) :=
  choice [do return some (← r), succeed none]

/-- What `r` reads, whose failures are not worth a message. -/
def quiet (r : Rule α) : Rule α := fun c => { r c with failure := {} }

/-- Nothing, where `r` fails. -/
def notAhead (r : Rule α) : Rule Unit := fun c =>
  match (r c).result with
  | none => { result := some ((), c) }
  | some _ => { result := none }

/-- What `r` reads as often as it succeeds, `n` times at most: the values, the position behind
the last and the furthest failure. -/
def upTo (r : Rule α) : Nat → Cursor → List α × Cursor × Furthest
  | 0, c => ([], c, {})
  | n + 1, c =>
      match r c with
      | { result := none, failure } => ([], c, failure)
      | { result := some (a, next), failure } =>
          let (others, stop, later) := upTo r n next
          (a :: others, stop, failure.merge later)

/-- What `r` reads as often as it succeeds.  The rules repeated here read something whenever they
succeed, so they do at most once per character left, and fail once. -/
def many (r : Rule α) : Rule (List α) := fun c =>
  let (values, stop, failure) := upTo r (c.rest.length + 1) c
  { result := some (values, stop), failure }

/-- One or more of what `r` reads, with a `separator` between them.  A separator that nothing
follows is left unread. -/
def separated1 (r : Rule α) (separator : Rule Unit) : Rule (List α) := do
  let first ← r
  let others ← many (do separator; r)
  return first :: others

/-- Any number of what `r` reads, with a `separator` between them. -/
def separated (r : Rule α) (separator : Rule Unit) : Rule (List α) :=
  choice [separated1 r separator, succeed []]

end Rule

end FlowFacts.Source
