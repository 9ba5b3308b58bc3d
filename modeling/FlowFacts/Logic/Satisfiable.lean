import FlowFacts.Logic.Search
import FlowFacts.Logic.Formula

/-!
# Satisfiability of formulas

A formula is turned into clauses with one variable for each atom and each connective in
it, except negations: the clauses say that the variable of a connective has the value
that its operands give it.  The formula is satisfiable exactly if these clauses are,
together with the one that asks for the formula itself.

## Main definitions

* `FormulaTable.encode` — the clauses of a formula.
* `FormulaTable.satisfiable`, `isValid` — the two questions.
-/

namespace FlowFacts

/-- Clauses made so far. -/
structure Encoding where
  /-- The number of variables in use. -/
  vars : Nat := 0
  /-- The clauses, the latest first. -/
  clauses : List Clause := []
  /-- The literals of the formulas done, by position. -/
  literals : Array (Option SatLiteral) := #[]
  deriving DecidableEq, Repr, Inhabited

namespace Encoding

/-- A new variable, as a literal. -/
def newVar (e : Encoding) : SatLiteral × Encoding :=
  ({ var := e.vars, positive := true }, { e with vars := e.vars + 1 })

/-- Add `clauses` behind those made so far. -/
def add (e : Encoding) (clauses : List Clause) : Encoding :=
  { e with clauses := clauses ++ e.clauses }

/-- A variable for the truth value `b`. -/
def literal (b : Bool) (e : Encoding) : SatLiteral × Encoding :=
  let (v, e) := e.newVar
  (if b then v else v.negate, e.add [[v]])

/-- A variable for the conjunction of `x` and `y`. -/
def and (x y : SatLiteral) (e : Encoding) : SatLiteral × Encoding :=
  let (v, e) := e.newVar
  (v, e.add [[v.negate, x], [v.negate, y], [v, x.negate, y.negate]])

/-- A variable for the disjunction of `x` and `y`. -/
def or (x y : SatLiteral) (e : Encoding) : SatLiteral × Encoding :=
  let (v, e) := e.newVar
  (v, e.add [[v.negate, x, y], [v, x.negate], [v, y.negate]])

/-- A variable for the equivalence of `x` and `y`. -/
def equals (x y : SatLiteral) (e : Encoding) : SatLiteral × Encoding :=
  let (v, e) := e.newVar
  (v, e.add [[v.negate, x.negate, y], [v.negate, x, y.negate], [v, x, y],
    [v, x.negate, y.negate]])

/-- Remember the literal `found` for `f`. -/
def remember (f : Formula) (found : SatLiteral × Encoding) : SatLiteral × Encoding :=
  (found.1, { found.2 with literals := found.2.literals.setIfInBounds f.index (some found.1) })

end Encoding

namespace FormulaTable

/-- Make clauses for the first `n` levels of a formula. -/
def encodeWithin (t : FormulaTable) : Nat → Formula → Encoding → SatLiteral × Encoding
  | 0, _, e => e.newVar
  | n + 1, f, e =>
      match e.literals[f.index]?.join with
      | some l => (l, e)
      | none =>
          Encoding.remember f <|
            match t.node f with
            | .atom _ => e.newVar
            | .literal b => e.literal b
            | .not x =>
                let (x, e) := t.encodeWithin n x e
                (x.negate, e)
            | .and x y =>
                let (x, e) := t.encodeWithin n x e
                let (y, e) := t.encodeWithin n y e
                e.and x y
            | .or x y =>
                let (x, e) := t.encodeWithin n x e
                let (y, e) := t.encodeWithin n y e
                e.or x y
            | .implies x y =>
                let (x, e) := t.encodeWithin n x e
                let (y, e) := t.encodeWithin n y e
                e.or x.negate y
            | .equals x y =>
                let (x, e) := t.encodeWithin n x e
                let (y, e) := t.encodeWithin n y e
                e.equals x y

/-- The literal of `f`, with the clauses that give it its meaning. -/
def encode (t : FormulaTable) (f : Formula) : SatLiteral × Encoding :=
  t.encodeWithin (f.index + 1) f { literals := Array.replicate (f.index + 1) none }

/-- Whether some assignment of the atoms makes `f` true.  The search gets the clauses in the
order in which they were made. -/
def satisfiable (t : FormulaTable) (f : Formula) : Bool :=
  match t.literal? f with
  | some b => b
  | none =>
      let (root, e) := t.encode f
      Clause.satisfiable e.vars ([root] :: e.clauses).reverse

end FormulaTable

/-- Whether some assignment of the atoms makes `f` true. -/
def isSatisfiable (f : Formula) : FormulaM Bool := do return (← get).satisfiable f

/-- Whether every assignment of the atoms makes `f` true. -/
def isValid (f : Formula) : FormulaM Bool := do return !(← isSatisfiable (← mkNot f))

end FlowFacts
