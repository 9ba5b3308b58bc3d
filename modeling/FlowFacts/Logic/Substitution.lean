import FlowFacts.Logic.Formula

/-!
# Substitution and elimination

Atoms of a formula are replaced by formulas all at once, rebuilding it through the
simplifying constructors.  An atom is eliminated by taking it to be true or false: what
is left says all that the formula says about the other atoms.  Shared parts are visited
once.

## Main definitions

* `FormulaTable.atoms`, `FormulaTable.mentions` — the atoms of a formula.
* `substitute` — replace atoms by formulas.
* `eliminate` — quantify an atom away.
-/

namespace FlowFacts

/-! ### The atoms of a formula -/

/-- The formulas met on a walk through the table, and the atoms among them. -/
structure Visited where
  /-- Whether the formula at each position was met. -/
  seen : Array Bool
  /-- The atoms met, the latest first. -/
  atoms : List Atom := []
  deriving DecidableEq, Repr, Inhabited

namespace FormulaTable

/-- Walk through the first `n` levels of a formula. -/
def visit (t : FormulaTable) : Nat → Formula → Visited → Visited
  | 0, _, v => v
  | n + 1, f, v =>
      if v.seen[f.index]?.getD true then v
      else
        let v := { v with seen := v.seen.setIfInBounds f.index true }
        match t.node f with
        | .atom a => { v with atoms := a :: v.atoms }
        | .literal _ => v
        | .not x => t.visit n x v
        | .and x y | .or x y | .implies x y | .equals x y => t.visit n y (t.visit n x v)

/-- The atoms that occur in `f`, in the order of the walk. -/
def atomsOf (t : FormulaTable) (f : Formula) : List Atom :=
  (t.visit (f.index + 1) f { seen := Array.replicate (f.index + 1) false }).atoms

/-- The atoms that occur in `f`, in order. -/
def atoms (t : FormulaTable) (f : Formula) : List Atom :=
  (t.atomsOf f).mergeSort fun a b => decide (a.index ≤ b.index)

/-- Whether the atom `a` occurs in `f`. -/
def mentions (t : FormulaTable) (f : Formula) (a : Atom) : Bool := (t.atomsOf f).contains a

end FormulaTable

/-! ### Substitution -/

/-- What atoms are replaced by; the first entry for an atom counts. -/
abbrev Substitution := List (Atom × Formula)

/-- What formulas became, by position. -/
abbrev Memo := Array (Option Formula)

/-- Replace atoms in the first `n` levels of a formula, remembering what was done. -/
def substituteWithin (σ : Substitution) : Nat → Formula → Memo → FormulaM (Formula × Memo)
  | 0, f, memo => return (f, memo)
  | n + 1, f, memo => do
      match memo[f.index]?.join with
      | some result => return (result, memo)
      | none =>
          let (result, memo) ←
            match (← get).node f with
            | .atom a => pure ((σ.lookup a).getD f, memo)
            | .literal _ => pure (f, memo)
            | .not x => do
                let (x, memo) ← substituteWithin σ n x memo
                pure (← mkNot x, memo)
            | .and x y => do
                let (x, memo) ← substituteWithin σ n x memo
                let (y, memo) ← substituteWithin σ n y memo
                pure (← mkAnd x y, memo)
            | .or x y => do
                let (x, memo) ← substituteWithin σ n x memo
                let (y, memo) ← substituteWithin σ n y memo
                pure (← mkOr x y, memo)
            | .implies x y => do
                let (x, memo) ← substituteWithin σ n x memo
                let (y, memo) ← substituteWithin σ n y memo
                pure (← mkImplies x y, memo)
            | .equals x y => do
                let (x, memo) ← substituteWithin σ n x memo
                let (y, memo) ← substituteWithin σ n y memo
                pure (← mkEquals x y, memo)
          return (result, memo.setIfInBounds f.index (some result))

/-- Replace atoms in `f` by formulas, as `σ` says, all at once. -/
def substitute (f : Formula) (σ : Substitution) : FormulaM Formula := do
  let (result, _) ← substituteWithin σ (f.index + 1) f (Array.replicate (f.index + 1) none)
  return result

/-- What `f` says about the other atoms if `a` may be true or false. -/
def eliminate (f : Formula) (a : Atom) : FormulaM Formula := do
  if (← get).mentions f a then
    let whenTrue ← substitute f [(a, ← mkLiteral true)]
    let whenFalse ← substitute f [(a, ← mkLiteral false)]
    mkOr whenTrue whenFalse
  else return f

/-- Eliminate `atoms` from `f` one after another. -/
def eliminateAll (f : Formula) (atoms : List Atom) : FormulaM Formula := atoms.foldlM eliminate f

end FlowFacts
