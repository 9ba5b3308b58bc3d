import FlowFacts.Logic.Clause

/-!
# The search for satisfying values

The search goes through the clauses and assigns what they force, again and again until a
round changes nothing.  Then it decides that the first variable without a value is true and
goes on.  When a clause is in conflict, it takes everything back to the latest decision of
which only one side has been tried, and tries the other side.

What has been assigned is on the *trail*, in order.  A decision remembers how long the trail
was before it, so that everything behind it can be taken back.

## Main definitions

* `Search` — the state of the search: clauses, values, trail and decisions.
* `Search.sweep`, `Search.backtrack`, `Search.decideOn` — what a round consists of.
* `Search.step`, `Search.solveWithin` — a round, and the loop.
* `Search.rounds` — how many rounds are enough.
* `Clause.satisfiable` — whether some assignment satisfies all clauses.
-/

namespace FlowFacts

/-- A decision of the search. -/
structure Decision where
  /-- The length of the trail before it. -/
  trailLength : Nat
  /-- The literal that was made true. -/
  literal : SatLiteral
  /-- Whether the opposite literal was tried before. -/
  flipped : Bool
  deriving DecidableEq, Repr, Inhabited

/-- The state of the search. -/
structure Search where
  /-- The clauses. -/
  clauses : List Clause
  /-- The values so far. -/
  values : PartialAssignment
  /-- The literals that were made true, the latest first. -/
  trail : List SatLiteral := []
  /-- The decisions, the latest first. -/
  decisions : List Decision := []
  deriving DecidableEq, Repr, Inhabited

namespace Search

/-- The search for values of variables below `vars` before it begins: no variable has a value. -/
def start (vars : Nat) (clauses : List Clause) : Search where
  clauses
  values := Array.replicate vars none

/-- Make `l` true. -/
def assign (s : Search) (l : SatLiteral) : Search :=
  { s with values := l.assign s.values, trail := l :: s.trail }

/-- Take the latest `n` literals of the trail back. -/
def undo : Nat → Search → Search
  | 0, s => s
  | n + 1, s =>
      match s.trail with
      | [] => s
      | l :: trail => undo n { s with values := l.unassign s.values, trail }

/-- Take back what makes the trail longer than `length`. -/
def undoTo (s : Search) (length : Nat) : Search := s.undo (s.trail.length - length)

/-- Go through clauses, making true what they force.  The result says whether anything was, if
no clause is in conflict. -/
def sweep : List Clause → Search → Bool → Option Bool × Search
  | [], s, changed => (some changed, s)
  | c :: rest, s, changed =>
      match c.demand s.values with
      | .conflict => (none, s)
      | .forced l => sweep rest (s.assign l) true
      | .satisfied | .unresolved => sweep rest s changed

/-- Go back to the latest of some decisions of which only one side has been tried, and try the
other; nothing if there is none. -/
def backtrack : List Decision → Search → Option Search
  | [], _ => none
  | d :: earlier, s =>
      let s := s.undoTo d.trailLength
      if d.flipped then backtrack earlier s
      else
        let other := d.literal.negate
        some (assign { s with
          decisions := { d with literal := other, flipped := true } :: earlier } other)

/-- Decide that the variable `v` is true. -/
def decideOn (s : Search) (v : Nat) : Search :=
  let l : SatLiteral := { var := v, positive := true }
  assign { s with
    decisions :=
      { trailLength := s.trail.length, literal := l, flipped := false } :: s.decisions } l

/-- One round: go through the clauses, and if nothing is forced, decide on a variable.  Gives the
answer if there is no decision left to go back to, or no variable left to decide on. -/
def step (s : Search) : Search ⊕ Bool :=
  match sweep s.clauses s false with
  | (none, s) =>
      match backtrack s.decisions s with
      | none => .inr false
      | some s => .inl s
  | (some true, s) => .inl s
  | (some false, s) =>
      match s.values.idxOf? none with
      | none => .inr true
      | some v => .inl (s.decideOn v)

/-- Go on until there is an answer, for `n` rounds at most. -/
def solveWithin : Nat → Search → Option Bool
  | 0, _ => none
  | n + 1, s =>
      match s.step with
      | .inl s => solveWithin n s
      | .inr answer => some answer

/-- Rounds that are enough for `k` variables without a value: one, and those for both sides of a
decision. -/
def rounds : Nat → Nat
  | 0 => 1
  | k + 1 => 2 * rounds k + 1

end Search

/-- Whether some values of variables below `vars` satisfy all clauses.  A round that gives no
answer makes what is left to try smaller, so the bound is never reached. -/
def Clause.satisfiable (vars : Nat) (clauses : List Clause) : Bool :=
  ((Search.start vars clauses).solveWithin (Search.rounds vars)).getD false

end FlowFacts
