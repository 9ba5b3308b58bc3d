import FlowFacts.Flow.Bindings
import FlowFacts.Logic.Satisfiable
import FlowFacts.Logic.Substitution

/-!
# Environments

What is known at a point of a program: the formulas of its truth values, and the flow
condition, a formula that holds on every path to the point.  Knowledge is only added,
with one exception: when a value is defined anew, as in the next round of a loop, all
that was said about its earlier instance is eliminated first.

## Main definitions

* `Environment` — the knowledge at a point.
* `Environment.renew` — a value of which nothing is known.
* `Environment.bind` — the parameters of a block take the values passed along an edge.
* `Environment.join` — the knowledge where two paths meet.
* `Environment.proves`, `Environment.allows`, `Environment.feasible` — questions.
-/

namespace FlowFacts

/-- The knowledge at a point of a program. -/
structure Environment where
  /-- The formulas of values. -/
  values : Bindings
  /-- What holds on every path to the point. -/
  flow : Formula
  deriving DecidableEq, Inhabited

/-- An atom whose meaning is about to change, and the atom that takes over the old one. -/
structure Renaming where
  /-- The atom. -/
  atom : Atom
  /-- The atom for its old meaning. -/
  old : Atom
  /-- The latter as a formula. -/
  oldFormula : Formula
  deriving DecidableEq, Repr, Inhabited

/-- Rename the atom `a` to a fresh one. -/
def renameAway (a : Atom) : FormulaM Renaming := do
  let old ← freshAtom
  return { atom := a, old, oldFormula := ← mkAtom old }

/-- The substitution that carries `renamings` out; of two for one atom the later counts. -/
def Renaming.substitution (renamings : List Renaming) : Substitution :=
  (renamings.map fun r => (r.atom, r.oldFormula)).reverse

/-- The bindings whose formulas mention none of `atoms`. -/
def Bindings.without (b : Bindings) (atoms : List Atom) : FormulaM Bindings := fun t =>
  (b.filter fun _ f => atoms.all fun a => !t.mentions f a, t)

namespace Environment

/-- Nothing is known. -/
def unknown : FormulaM Environment := do
  return { values := .empty, flow := ← mkLiteral true }

/-- Give `v` the formula `f`. -/
def set (e : Environment) (v : ValueId) (f : Formula) : Environment :=
  { e with values := e.values.set v f }

/-- Forget the formula of `v`. -/
def erase (e : Environment) (v : ValueId) : Environment :=
  { e with values := e.values.erase v }

/-- A formula that is true or false regardless of everything else. -/
def freshFormula : FormulaM Formula := do mkAtom (← freshAtom)

/-- A new instance of `v`, of which nothing is known.  Its atom describes it from now on, so what
was said in terms of that atom is eliminated. -/
def renew (e : Environment) (v : ValueId) : FormulaM (Formula × Environment) := do
  let atom ← valueAtom v
  let flow ← eliminate e.flow atom
  let values ← e.values.without [atom]
  let f ← mkAtom atom
  return (f, { values := values.set v f, flow })

/-- The formula `f` is known to hold. -/
def assume (e : Environment) (f : Formula) : FormulaM Environment := do
  return { e with flow := ← mkAnd e.flow f }

/-! ### Questions -/

/-- Whether `f` holds on every path to the point. -/
def proves (e : Environment) (f : Formula) : FormulaM Bool := do
  return !(← isSatisfiable (← mkAnd e.flow (← mkNot f)))

/-- Whether `f` holds on some path to the point. -/
def allows (e : Environment) (f : Formula) : FormulaM Bool := do
  isSatisfiable (← mkAnd e.flow f)

/-- Whether any path leads to the point. -/
def feasible (e : Environment) : FormulaM Bool := isSatisfiable e.flow

/-- Whether `e₁` and `e₂` say the same: their bindings are equal, and their flow conditions are
equivalent. -/
def equivalent (e₁ e₂ : Environment) : FormulaM Bool := do
  if e₁.values = e₂.values then
    if e₁.flow = e₂.flow then return true
    else return !(← isSatisfiable (← mkNot (← mkEquals e₁.flow e₂.flow)))
  else return false

/-! ### Passing values along an edge -/

/-- State that a parameter, by its `atom`, is equal to the formula `passed` for it, if there is
one; old instances of parameters are renamed by `σ` in the latter. -/
def bindOne (σ : Substitution) (flow : Formula) (atom : Atom) (passed : Option Formula) :
    FormulaM Formula := do
  let param ← mkAtom atom
  match passed with
  | none => return flow
  | some f => do
      let f ← substitute f σ
      mkAnd flow (← mkEquals param f)

/-- Bind parameters to the formulas passed for them, where `none` is an unknown value.
The atoms of the parameters may occur in the flow condition and in what is passed, as
when a loop passes the negation of a parameter for it, so they are renamed first and
their old meaning is eliminated at the end. -/
def bind (e : Environment) (params : List (ValueId × Option Formula)) :
    FormulaM Environment := do
  if params.isEmpty then return e
  let renamings ← params.mapM fun x => do renameAway (← valueAtom x.1)
  let σ := Renaming.substitution renamings
  let start ← substitute e.flow σ
  let bound ← (params.zip renamings).foldlM
    (fun flow x => bindOne σ flow x.2.atom x.1.2) start
  let flow ← eliminateAll bound (renamings.map Renaming.old)
  let others := params.foldl (fun b x => b.erase x.1) e.values
  let kept ← others.without (renamings.map Renaming.atom)
  let values ← (params.zip renamings).foldlM
    (fun b x => do return b.set x.1.1 (← mkAtom x.2.atom)) kept
  return { values, flow }

/-! ### Where paths meet -/

/-- A value that two environments bind differently. -/
structure Disagreement where
  /-- The value. -/
  value : ValueId
  /-- Its formula in the first environment. -/
  left : Formula
  /-- Its formula in the second environment. -/
  right : Formula
  deriving DecidableEq, Repr, Inhabited

/-- The bindings that `e₁` and `e₂` share. -/
def agreements (e₁ e₂ : Environment) : Bindings :=
  e₁.values.filter fun v f => e₂.values.get? v == some f

/-- The values that `e₁` and `e₂` bind differently. -/
def disagreements (e₁ e₂ : Environment) : List Disagreement :=
  e₁.values.entries.filterMap fun x =>
    match e₂.values.get? x.1 with
    | some f => if f = x.2 then none else some { value := x.1, left := x.2, right := f }
    | none => none

/-- The two sides of a meeting, and the bindings there. -/
structure Meeting where
  /-- The flow condition of the first side. -/
  left : Formula
  /-- The flow condition of the second side. -/
  right : Formula
  /-- The bindings. -/
  values : Bindings
  deriving DecidableEq, Inhabited

/-- State on both sides of a meeting what the `atom` of the disagreement `d` is equal to there. -/
def Meeting.add (m : Meeting) (σ : Substitution) (d : Disagreement) (atom : Atom) :
    FormulaM Meeting := do
  let merged ← mkAtom atom
  let left ← substitute d.left σ
  let right ← substitute d.right σ
  return {
    left := ← mkAnd m.left (← mkEquals merged left)
    right := ← mkAnd m.right (← mkEquals merged right)
    values := m.values.set d.value merged }

/-- The knowledge where two paths meet.  Shared bindings are kept.  A value with two
formulas `x` and `y` gets its merge atom `m`, and the flow condition becomes
`(flow₁ ∧ (m ↔ x)) ∨ (flow₂ ∧ (m ↔ y))`.  Values bound on one side only are dropped.  A
merge atom may be in use for an earlier meeting, so it is renamed first. -/
def join (e₁ e₂ : Environment) : FormulaM Environment := do
  let differing := e₁.disagreements e₂
  if differing.isEmpty then
    return { values := e₁.agreements e₂, flow := ← mkOr e₁.flow e₂.flow }
  let renamings ← differing.mapM fun d => do renameAway (← mergeAtom d.value)
  let σ := Renaming.substitution renamings
  let left ← substitute e₁.flow σ
  let right ← substitute e₂.flow σ
  let values ← (e₁.agreements e₂).without (renamings.map Renaming.atom)
  let meeting ← (differing.zip renamings).foldlM
    (fun (m : Meeting) x => m.add σ x.1 x.2.atom) { left, right, values }
  let flow ← mkOr meeting.left meeting.right
  return { values := meeting.values, flow := ← eliminateAll flow (renamings.map Renaming.old) }

/-- The knowledge where any number of paths meet, joined one after another; none if there
is no path. -/
def joinAll : List Environment → FormulaM (Option Environment)
  | [] => return none
  | e :: rest => do return some (← rest.foldlM join e)

end Environment

end FlowFacts
