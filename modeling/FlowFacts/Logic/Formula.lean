import FlowFacts.Program.Basic

/-!
# Formulas

Propositional formulas over atoms, shared in a table.  A formula is a position in the
table, and the entry there is a connective whose operands are earlier positions.  Beside the
entries the table keeps an index that leads from an entry back to its position.  `intern`
asks the index first and adds to both, so an entry is added only once, and two formulas are
equal exactly if they look equal.  The constructors simplify locally on the way; questions
about meaning are left to `FlowFacts.Logic.Satisfiable`.

Some atoms stand for values of a program: each value has one atom for what it is and one
for what it is where paths meet that disagree about it.  All other atoms are fresh.

## Main definitions

* `Atom`, `Formula`, `Node`, `FormulaTable` — formulas and their table.
* `intern` — the formula with an entry, by the index of the table.
* `FormulaTable.expr`, `Expr.eval` — the formula that a position stands for, and its
  truth value under an assignment.
* `mkNot`, `mkAnd`, `mkOr`, `mkImplies`, `mkEquals` — the simplifying constructors.
-/

namespace FlowFacts

/-- A propositional variable. -/
structure Atom where
  /-- The number of atoms created before. -/
  index : Nat
  deriving DecidableEq, Repr, Inhabited

/-- A formula, by its position in the table. -/
structure Formula where
  /-- The number of formulas entered before. -/
  index : Nat
  deriving DecidableEq, Repr, Inhabited

namespace Formula

/-- The earlier of `x` and `y`. -/
def earlier (x y : Formula) : Formula := if x.index ≤ y.index then x else y

/-- The later of `x` and `y`. -/
def later (x y : Formula) : Formula := if x.index ≤ y.index then y else x

end Formula

/-- An entry of the table. -/
inductive Node where
  /-- An atom. -/
  | atom (a : Atom)
  /-- A truth value. -/
  | literal (value : Bool)
  /-- A negation. -/
  | not (x : Formula)
  /-- A conjunction. -/
  | and (x y : Formula)
  /-- A disjunction. -/
  | or (x y : Formula)
  /-- An implication. -/
  | implies (x y : Formula)
  /-- An equivalence. -/
  | equals (x y : Formula)
  deriving DecidableEq, Repr, Inhabited

/-- The operands of an entry. -/
def Node.children : Node → List Formula
  | .atom _ | .literal _ => []
  | .not x => [x]
  | .and x y | .or x y | .implies x y | .equals x y => [x, y]

/-- The table of formulas and atoms. -/
structure FormulaTable where
  /-- The entries. -/
  nodes : Array Node := #[]
  /-- The index: the formula of every entry. -/
  interned : List (Node × Formula) := []
  /-- The number of atoms created. -/
  atomCount : Nat := 0
  /-- The atoms of values. -/
  valueAtoms : List (ValueId × Atom) := []
  /-- The atoms of values where disagreeing paths meet. -/
  mergeAtoms : List (ValueId × Atom) := []
  deriving DecidableEq, Repr, Inhabited

/-- Steps that grow a table of formulas. -/
abbrev FormulaM := StateM FormulaTable

namespace FormulaTable

/-- The number of formulas. -/
def size (t : FormulaTable) : Nat := t.nodes.size

/-- The entry of `f`; junk outside the table. -/
def node (t : FormulaTable) (f : Formula) : Node := t.nodes[f.index]?.getD (.literal false)

/-- The table with the entry `n` at its end and in its index. -/
def push (t : FormulaTable) (n : Node) : FormulaTable :=
  { t with
    nodes := t.nodes.push n
    interned := (n, ⟨t.nodes.size⟩) :: t.interned }

/-- The truth value that `f` is, if it is one. -/
def literal? (t : FormulaTable) (f : Formula) : Option Bool :=
  match t.node f with
  | .literal b => some b
  | _ => none

/-- Whether one of `x` and `y` is the negation of the other. -/
def complementary (t : FormulaTable) (x y : Formula) : Bool :=
  t.node x == .not y || t.node y == .not x

/-- Whether `needle` is among the conjuncts of a formula, looking at `n` levels. -/
def conjunctWithin (t : FormulaTable) (needle : Formula) : Nat → Formula → Bool
  | 0, _ => false
  | n + 1, f =>
      f == needle ||
        match t.node f with
        | .and x y => t.conjunctWithin needle n x || t.conjunctWithin needle n y
        | _ => false

/-- Whether `needle` is among the conjuncts of `f`, so that their conjunction is `f`. -/
def hasConjunct (t : FormulaTable) (f needle : Formula) : Bool :=
  t.conjunctWithin needle (f.index + 1) f

end FormulaTable

/-! ### Entering formulas -/

/-- The formula with the entry `n`, which is added if the index does not have it. -/
def intern (n : Node) : FormulaM Formula := fun t =>
  match t.interned.lookup n with
  | some f => (f, t)
  | none => (⟨t.nodes.size⟩, t.push n)

/-- A new atom. -/
def freshAtom : FormulaM Atom := fun t =>
  (⟨t.atomCount⟩, { t with atomCount := t.atomCount + 1 })

/-- The atom of `v`, which is the same each time. -/
def valueAtom (v : ValueId) : FormulaM Atom := fun t =>
  match t.valueAtoms.lookup v with
  | some a => (a, t)
  | none =>
      let (a, t) := freshAtom t
      (a, { t with valueAtoms := (v, a) :: t.valueAtoms })

/-- The atom of `v` where disagreeing paths meet, which is the same each time. -/
def mergeAtom (v : ValueId) : FormulaM Atom := fun t =>
  match t.mergeAtoms.lookup v with
  | some a => (a, t)
  | none =>
      let (a, t) := freshAtom t
      (a, { t with mergeAtoms := (v, a) :: t.mergeAtoms })

/-- An atom as a formula. -/
def mkAtom (a : Atom) : FormulaM Formula := intern (.atom a)

/-- A truth value as a formula. -/
def mkLiteral (b : Bool) : FormulaM Formula := intern (.literal b)

/-- The negation of `x`; a negation is undone. -/
def mkNot (x : Formula) : FormulaM Formula := fun t =>
  match t.node x with
  | .literal b => mkLiteral (!b) t
  | .not y => (y, t)
  | _ => intern (.not x) t

/-- The conjunction of `x` and `y`.  A formula and its negation give `false`; a formula that is
already a conjunct of the other is left out. -/
def mkAnd (x y : Formula) : FormulaM Formula := fun t =>
  match t.literal? x, t.literal? y with
  | some false, _ => mkLiteral false t
  | _, some false => mkLiteral false t
  | some true, _ => (y, t)
  | _, some true => (x, t)
  | none, none =>
      if x = y then (x, t)
      else if t.complementary x y then mkLiteral false t
      else if t.hasConjunct x y then (x, t)
      else if t.hasConjunct y x then (y, t)
      else intern (.and (x.earlier y) (x.later y)) t

/-- The conjunction of `fs`, from the first to the last. -/
def mkAndAll (fs : List Formula) : FormulaM Formula := do
  fs.foldlM mkAnd (← mkLiteral true)

/-- The disjunction of `x` and `y`.  A formula and its negation give `true`. -/
def mkOr (x y : Formula) : FormulaM Formula := fun t =>
  match t.literal? x, t.literal? y with
  | some true, _ => mkLiteral true t
  | _, some true => mkLiteral true t
  | some false, _ => (y, t)
  | _, some false => (x, t)
  | none, none =>
      if x = y then (x, t)
      else if t.complementary x y then mkLiteral true t
      else intern (.or (x.earlier y) (x.later y)) t

/-- The implication from `x` to `y`. -/
def mkImplies (x y : Formula) : FormulaM Formula := fun t =>
  match t.literal? x, t.literal? y with
  | some false, _ => mkLiteral true t
  | _, some true => mkLiteral true t
  | some true, _ => (y, t)
  | _, some false => mkNot x t
  | none, none => if x = y then mkLiteral true t else intern (.implies x y) t

/-- The equivalence of `x` and `y`. -/
def mkEquals (x y : Formula) : FormulaM Formula := fun t =>
  match t.literal? x, t.literal? y with
  | some true, _ => (y, t)
  | _, some true => (x, t)
  | some false, _ => mkNot y t
  | _, some false => mkNot x t
  | none, none =>
      if x = y then mkLiteral true t
      else if t.complementary x y then mkLiteral false t
      else intern (.equals (x.earlier y) (x.later y)) t

/-! ### What formulas stand for -/

/-- A formula written out. -/
inductive Expr where
  /-- An atom. -/
  | atom (a : Atom)
  /-- A truth value. -/
  | literal (value : Bool)
  /-- A negation. -/
  | not (x : Expr)
  /-- A conjunction. -/
  | and (x y : Expr)
  /-- A disjunction. -/
  | or (x y : Expr)
  /-- An implication. -/
  | implies (x y : Expr)
  /-- An equivalence. -/
  | equals (x y : Expr)
  deriving DecidableEq, Repr, Inhabited

namespace Expr

/-- The truth value under the assignment `ρ` of the atoms. -/
def eval (ρ : Atom → Bool) : Expr → Bool
  | atom a => ρ a
  | literal b => b
  | not x => !x.eval ρ
  | and x y => x.eval ρ && y.eval ρ
  | or x y => x.eval ρ || y.eval ρ
  | implies x y => !x.eval ρ || y.eval ρ
  | equals x y => x.eval ρ == y.eval ρ

/-- A formula in characters: connectives are written between their operands and in
parentheses. -/
def text : Expr → String
  | atom a => "A" ++ toString a.index
  | literal true => "true"
  | literal false => "false"
  | not x => "!" ++ x.text
  | and x y => "(" ++ x.text ++ " & " ++ y.text ++ ")"
  | or x y => "(" ++ x.text ++ " | " ++ y.text ++ ")"
  | implies x y => "(" ++ x.text ++ " => " ++ y.text ++ ")"
  | equals x y => "(" ++ x.text ++ " = " ++ y.text ++ ")"

end Expr

namespace FormulaTable

/-- The first `n` levels of a formula written out. -/
def exprWithin (t : FormulaTable) : Nat → Formula → Expr
  | 0, _ => .literal false
  | n + 1, f =>
      match t.node f with
      | .atom a => .atom a
      | .literal b => .literal b
      | .not x => .not (t.exprWithin n x)
      | .and x y => .and (t.exprWithin n x) (t.exprWithin n y)
      | .or x y => .or (t.exprWithin n x) (t.exprWithin n y)
      | .implies x y => .implies (t.exprWithin n x) (t.exprWithin n y)
      | .equals x y => .equals (t.exprWithin n x) (t.exprWithin n y)

/-- The formula `f` written out.  Operands stand earlier in the table, so the position of a
formula bounds the number of its levels. -/
def expr (t : FormulaTable) (f : Formula) : Expr := t.exprWithin (f.index + 1) f

/-- The formula `f` in characters. -/
def text (t : FormulaTable) (f : Formula) : String := (t.expr f).text

end FormulaTable

end FlowFacts
