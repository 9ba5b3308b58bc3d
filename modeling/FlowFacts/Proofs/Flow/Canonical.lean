import FlowFacts.Proofs.Flow.Transfer
import FlowFacts.Proofs.Program.Body

/-!
# The formula of a value

A truth value that is computed from others by negations, logical operations and comparisons of
truth values has a formula that is determined by the program: the same operations, applied to
the formulas of the operands, down to constants and to values that are not computed, whose
formula is their atom.  The table enters formulas once, so this formula is always the same entry.

## Main definitions

* `Program.Computed`, `Program.ComputedFrom`, `Program.Atomic` — how truth values come about.
* `Canonical` — the formula of a value.

## Main results

* `Canonical.unique` — a value has one formula.
* `Canonical.occurs` — it mentions the atoms of values that are not computed.
-/

namespace FlowFacts

open FormulaM FormulaTable Program Relation

variable {T : FormulaTable} {p : Program} {a : Atom} {u v w : ValueId} {g g' x y : Formula}

/-! ### How truth values come about -/

namespace Program

/-- Whether the result of an operation is computed from truth values of `p`. -/
def combines (p : Program) : Operation → Bool
  | .not _ => true
  | .binary op _ _ => op.isLogical
  | .compare predicate lhs _ => !predicate.isOrder && p.isBool lhs
  | _ => false

/-- The value `v` is computed from truth values. -/
def Computed (p : Program) (v : ValueId) : Prop :=
  ∃ op, p.operation? v = some op ∧ p.combines op = true

/-- The value `v` is computed from truth values, and `w` is among them. -/
def ComputedFrom (p : Program) (v w : ValueId) : Prop :=
  ∃ op, p.operation? v = some op ∧ p.combines op = true ∧ w ∈ op.operands ∧ p.constant? w = none

/-- The value `v` is a truth value that is neither computed nor constant. -/
def Atomic (p : Program) (v : ValueId) : Prop :=
  p.isBool v = true ∧ p.constant? v = none ∧ ¬ p.Computed v

theorem ComputedFrom.computed (h : p.ComputedFrom v w) : p.Computed v := by
  obtain ⟨op, hop, hcombines, -⟩ := h
  exact ⟨op, hop, hcombines⟩

theorem Computed.constant?_eq_none (h : p.Computed v) : p.constant? v = none := by
  obtain ⟨op, hop, -⟩ := h
  exact constant?_of_operation? hop

/-- Nothing leads on from a value `v` that is not computed. -/
theorem Atomic.eq_of_reflTransGen (h : p.Atomic v) (hw : ReflTransGen p.ComputedFrom v w) :
    w = v := by
  rcases hw.cases_head with heq | ⟨u, hu, -⟩
  · exact heq.symm
  · exact absurd hu.computed h.2.2

end Program

/-! ### The formula of a value -/

/-- The formula of a value: a constant is a truth value, a value that is not computed is its
atom, and all others are what is made of the formulas of their operands. -/
inductive Canonical (T : FormulaTable) (p : Program) : ValueId → Formula → Prop
  /-- A constant is a truth value. -/
  | constant {v : ValueId} {b : Bool} {g : Formula} : p.constant? v = some (.bool b) →
      T.Makes (mkLiteral b) g → Canonical T p v g
  /-- A value that is not computed is its atom. -/
  | atom {v : ValueId} {a : Atom} {g : Formula} : p.Atomic v → T.valueAtom? v = some a →
      T.node g = .atom a → Canonical T p v g
  /-- A negation. -/
  | not {v arg : ValueId} {x g : Formula} : p.operation? v = some (.not arg) →
      Canonical T p arg x → T.Makes (mkNot x) g → Canonical T p v g
  /-- A logical operation. -/
  | binary {v lhs rhs : ValueId} {op : BinaryOp} {x y g : Formula} :
      p.operation? v = some (.binary op lhs rhs) → op.isLogical = true → Canonical T p lhs x →
      Canonical T p rhs y → T.Makes (op.formula x y) g → Canonical T p v g
  /-- A comparison of truth values. -/
  | compare {v lhs rhs : ValueId} {predicate : Comparison} {x y g : Formula} :
      p.operation? v = some (.compare predicate lhs rhs) → predicate.isOrder = false →
      p.isBool lhs = true → Canonical T p lhs x → Canonical T p rhs y →
      T.Makes (predicate.formula x y) g → Canonical T p v g

namespace Canonical

theorem of_constant {b : Bool} (h : Canonical T p v g) (hconst : p.constant? v = some (.bool b)) :
    T.Makes (mkLiteral b) g := by
  cases h with
  | constant hconst' hmade =>
    cases hconst.symm.trans hconst'
    exact hmade
  | atom hatomic _ _ => cases hconst.symm.trans hatomic.2.1
  | not hop _ _ | binary hop _ _ _ _ | compare hop _ _ _ _ _ =>
    cases hconst.symm.trans (constant?_of_operation? hop)

theorem of_atomic (h : Canonical T p v g) (hatomic : p.Atomic v) :
    ∃ a, T.valueAtom? v = some a ∧ T.node g = .atom a := by
  cases h with
  | constant hconst _ => cases hconst.symm.trans hatomic.2.1
  | atom _ ha hnode => exact ⟨_, ha, hnode⟩
  | not hop _ _ => exact absurd ⟨_, hop, rfl⟩ hatomic.2.2
  | binary hop hlogical _ _ _ => exact absurd ⟨_, hop, hlogical⟩ hatomic.2.2
  | compare hop horder hbool _ _ _ =>
    exact absurd ⟨_, hop, by simp [combines, horder, hbool]⟩ hatomic.2.2

theorem of_not {arg : ValueId} (h : Canonical T p v g) (hop : p.operation? v = some (.not arg)) :
    ∃ x, Canonical T p arg x ∧ T.Makes (mkNot x) g := by
  cases h with
  | constant hconst _ => cases hconst.symm.trans (constant?_of_operation? hop)
  | atom hatomic _ _ => exact absurd ⟨_, hop, rfl⟩ hatomic.2.2
  | not hop' hx hmade =>
    cases hop.symm.trans hop'
    exact ⟨_, hx, hmade⟩
  | binary hop' _ _ _ _ | compare hop' _ _ _ _ _ => cases hop.symm.trans hop'

theorem of_binary {op : BinaryOp} {lhs rhs : ValueId} (h : Canonical T p v g)
    (hop : p.operation? v = some (.binary op lhs rhs)) (hlogical : op.isLogical = true) :
    ∃ x y, Canonical T p lhs x ∧ Canonical T p rhs y ∧ T.Makes (op.formula x y) g := by
  cases h with
  | constant hconst _ => cases hconst.symm.trans (constant?_of_operation? hop)
  | atom hatomic _ _ => exact absurd ⟨_, hop, hlogical⟩ hatomic.2.2
  | not hop' _ _ => cases hop.symm.trans hop'
  | binary hop' _ hx hy hmade =>
    cases hop.symm.trans hop'
    exact ⟨_, _, hx, hy, hmade⟩
  | compare hop' _ _ _ _ _ => cases hop.symm.trans hop'

theorem of_compare {predicate : Comparison} {lhs rhs : ValueId} (h : Canonical T p v g)
    (hop : p.operation? v = some (.compare predicate lhs rhs)) (horder : predicate.isOrder = false)
    (hbool : p.isBool lhs = true) :
    ∃ x y, Canonical T p lhs x ∧ Canonical T p rhs y ∧ T.Makes (predicate.formula x y) g := by
  cases h with
  | constant hconst _ => cases hconst.symm.trans (constant?_of_operation? hop)
  | atom hatomic _ _ =>
    exact absurd ⟨_, hop, by simp [combines, horder, hbool]⟩ hatomic.2.2
  | not hop' _ _ | binary hop' _ _ _ _ => cases hop.symm.trans hop'
  | compare hop' _ _ hx hy hmade =>
    cases hop.symm.trans hop'
    exact ⟨_, _, hx, hy, hmade⟩

/-- A value `v` has one formula. -/
theorem unique (hT : T.WellFormed) (h : Canonical T p v g) (h' : Canonical T p v g') : g = g' := by
  -- formulas that are made of the same operands are the same entry of the table
  induction h generalizing g' with
  | constant hconst hmade => exact hmade.unique (h'.of_constant hconst)
  | atom hatomic ha hnode =>
    obtain ⟨a', ha', hnode'⟩ := h'.of_atomic hatomic
    cases ha.symm.trans ha'
    exact hT.eq_of_node_atom hnode hnode'
  | not hop _ hmade ih =>
    obtain ⟨x', hx', hmade'⟩ := h'.of_not hop
    cases ih hx'
    exact hmade.unique hmade'
  | binary hop hlogical _ _ hmade ihx ihy =>
    obtain ⟨x', y', hx', hy', hmade'⟩ := h'.of_binary hop hlogical
    cases ihx hx'
    cases ihy hy'
    exact hmade.unique hmade'
  | compare hop horder hbool _ _ hmade ihx ihy =>
    obtain ⟨x', y', hx', hy', hmade'⟩ := h'.of_compare hop horder hbool
    cases ihx hx'
    cases ihy hy'
    exact hmade.unique hmade'

end Canonical

/-! ### What formulas say -/

theorem FormulaTable.Makes.means_not (hT : T.WellFormed) (h : T.Makes (mkNot x) g) (hx : T.Has x) :
    T.Means g (fun ρ => !T.holds ρ x) {a | T.Occurs a x} :=
  h.of_yields (yields_mkNot hT hx.means)

theorem FormulaTable.Makes.means_binary (hT : T.WellFormed)
    {mk : Formula → Formula → FormulaM Formula} {onBools : Bool → Bool → Bool}
    (hmk : Computes mk onBools) (h : T.Makes (mk x y) g) (hx : T.Has x) (hy : T.Has y) :
    T.Means g (fun ρ => onBools (T.holds ρ x) (T.holds ρ y)) {a | T.Occurs a x ∨ T.Occurs a y} :=
  h.of_yields (hmk hT hx.means hy.means)

theorem Canonical.has (hT : T.WellFormed) (h : Canonical T p v g) : T.Has g := by
  induction h with
  | constant _ hmade => exact (hmade.of_yields (yields_mkLiteral hT _)).has
  | atom _ _ hnode => exact has_of_node_atom hnode
  | not _ _ hmade ih => exact (hmade.means_not hT ih).has
  | binary _ _ _ _ hmade ihx ihy =>
    exact (hmade.means_binary hT (computes_binaryOp _) ihx ihy).has
  | compare _ _ _ _ _ hmade ihx ihy =>
    exact (hmade.means_binary hT (computes_comparison _) ihx ihy).has

/-- What leads to a value `u` that is no constant is none. -/
theorem constant?_of_reflTransGen (h : ReflTransGen p.ComputedFrom v u)
    (hu : p.constant? u = none) : p.constant? v = none := by
  rcases h.cases_head with rfl | ⟨w, hw, -⟩
  · exact hu
  · exact hw.computed.constant?_eq_none

/-- The formula `g` of `v` mentions the atoms of values that are not computed and that `v` is
computed from. -/
theorem Canonical.occurs (hT : T.WellFormed) (h : Canonical T p v g) (ha : T.Occurs a g) :
    ∃ u, ReflTransGen p.ComputedFrom v u ∧ p.Atomic u ∧ T.valueAtom? u = some a := by
  -- an operand leads on to what its formula mentions
  have hstep : ∀ {v w op}, p.operation? v = some op → p.combines op = true → w ∈ op.operands →
      (∃ u, ReflTransGen p.ComputedFrom w u ∧ p.Atomic u ∧ T.valueAtom? u = some a) →
      ∃ u, ReflTransGen p.ComputedFrom v u ∧ p.Atomic u ∧ T.valueAtom? u = some a := by
    rintro v w op hop hcombines hw ⟨u, hu, hatomic, hatom⟩
    have hconst := constant?_of_reflTransGen hu hatomic.2.1
    exact ⟨u, .head ⟨op, hop, hcombines, hw, hconst⟩ hu, hatomic, hatom⟩
  induction h with
  | constant _ hmade =>
    exact absurd ((hmade.of_yields (yields_mkLiteral hT _)).occurs ha) (Set.notMem_empty a)
  | @atom v a' g hatomic hatom hnode =>
    have haa' : a = a' := (means_of_node_atom hT hnode).occurs ha
    exact ⟨v, .refl, hatomic, haa' ▸ hatom⟩
  | not hop hx hmade ih =>
    have hocc := (hmade.means_not hT (hx.has hT)).occurs ha
    exact hstep hop rfl (by simp [Operation.operands]) (ih hocc)
  | binary hop hlogical hx hy hmade ihx ihy =>
    rcases (hmade.means_binary hT (computes_binaryOp _) (hx.has hT) (hy.has hT)).occurs ha with
      hocc | hocc
    · exact hstep hop hlogical (by simp [Operation.operands]) (ihx hocc)
    · exact hstep hop hlogical (by simp [Operation.operands]) (ihy hocc)
  | @compare v lhs rhs predicate x y g hop horder hbool hx hy hmade ihx ihy =>
    have hcombines : p.combines (.compare predicate lhs rhs) = true := by
      simp [combines, horder, hbool]
    rcases (hmade.means_binary hT (computes_comparison _) (hx.has hT) (hy.has hT)).occurs ha with
      hocc | hocc
    · exact hstep hop hcombines (by simp [Operation.operands]) (ihx hocc)
    · exact hstep hop hcombines (by simp [Operation.operands]) (ihy hocc)

end FlowFacts
