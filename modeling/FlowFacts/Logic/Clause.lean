/-!
# Clauses

Clause sets over numbered variables, and what a clause asks for when some of the variables
have values.  `FlowFacts.Logic.Search` looks for values that satisfy all clauses.

## Main definitions

* `SatLiteral`, `Clause` — literals and clauses; `Clause.holds` is their meaning.
* `PartialAssignment` — values of some of the variables.
* `Clause.demand` — what a clause asks for.
-/

namespace FlowFacts

/-- A variable or its negation. -/
structure SatLiteral where
  /-- The variable. -/
  var : Nat
  /-- The value that makes the literal true. -/
  positive : Bool
  deriving DecidableEq, Repr, Inhabited

/-- The opposite of `l`. -/
def SatLiteral.negate (l : SatLiteral) : SatLiteral := { l with positive := !l.positive }

/-- The truth value of `l` when all variables have values, those of `ρ`. -/
def SatLiteral.holds (ρ : Nat → Bool) (l : SatLiteral) : Bool := ρ l.var == l.positive

/-- A clause holds if one of its literals does. -/
abbrev Clause := List SatLiteral

/-- Values of some of the variables. -/
abbrev PartialAssignment := Array (Option Bool)

/-- The truth value of `l`, if its variable has one in `a`. -/
def SatLiteral.value? (a : PartialAssignment) (l : SatLiteral) : Option Bool :=
  match a[l.var]? with
  | some (some b) => some (b == l.positive)
  | _ => none

/-- Give a variable the value that makes `l` true. -/
def SatLiteral.assign (a : PartialAssignment) (l : SatLiteral) : PartialAssignment :=
  a.setIfInBounds l.var (some l.positive)

/-- Take the value of the variable of `l` away. -/
def SatLiteral.unassign (a : PartialAssignment) (l : SatLiteral) : PartialAssignment :=
  a.setIfInBounds l.var none

namespace Clause

/-- The truth value of `c` when all variables have values, those of `ρ`. -/
def holds (ρ : Nat → Bool) (c : Clause) : Bool := c.any (·.holds ρ)

/-- What a clause asks for. -/
inductive Demand where
  /-- Nothing, as one of its literals is true. -/
  | satisfied
  /-- What cannot be: all of its literals are false. -/
  | conflict
  /-- That its only literal without a value is true. -/
  | forced (l : SatLiteral)
  /-- Nothing yet, as it has several literals without a value. -/
  | unresolved
  deriving DecidableEq, Repr, Inhabited

/-- What the rest of a clause asks for, behind some literals of which `count` have no value, the
last of them being `last`. -/
def demandFrom (a : PartialAssignment) : Clause → Option SatLiteral → Nat → Demand
  | [], last, count =>
      match count, last with
      | 0, _ => .conflict
      | 1, some l => .forced l
      | _, _ => .unresolved
  | l :: rest, last, count =>
      match l.value? a with
      | some true => .satisfied
      | some false => demandFrom a rest last count
      | none => demandFrom a rest (some l) (count + 1)

/-- What `c` asks for under the values so far, `a`. -/
def demand (a : PartialAssignment) (c : Clause) : Demand := demandFrom a c none 0

end Clause

end FlowFacts
