import FlowFacts.Logic.Formula
import FlowFacts.Proofs.Lookup
import Mathlib.Data.Set.Insert
import Mathlib.Logic.Function.Basic
import Mathlib.Tactic.Common

/-!
# Tables of formulas and what their entries mean

A table is well-formed if its index is the inverse of its entries, operands stand before the
entries that use them, entries are in normal form, and the atoms in use are all different.
Steps on tables only add to them: a table *grows*, and a formula means in the larger table
what it meant in the smaller one.

A formula is therefore described without its table, by its truth value under every
assignment and by a set that holds its atoms.  `FormulaTable.Means` says that a formula fits
such a description, and the constructors are specified by the description of their result.

## Main definitions

* `FormulaTable.holds`, `FormulaTable.Occurs` — truth value and atoms of a formula.
* `FormulaTable.Normal` — entries in the form that the constructors give them.
* `FormulaTable.WellFormed`, `FormulaTable.Grows` — good tables and how they develop.
* `FormulaTable.Means` — the description of a formula.
* `FormulaM.Yields` — what steps lead to from a well-formed table.

## Main results

* `FormulaTable.WellFormed.push` — a new entry keeps a table well-formed, its index included.
* `FormulaTable.Means.mono` — meanings last.
* `yields_intern`, `yields_mkNot`, `yields_mkAnd`, `yields_mkOr`, `yields_mkImplies`,
  `yields_mkEquals` — the constructors mean what their names say.
-/

namespace FlowFacts

/-- A formula `x` is its position. -/
theorem Formula.eq_of_index_eq {x y : Formula} (h : x.index = y.index) : x = y := by
  cases x
  cases y
  exact congrArg Formula.mk h

/-! ### Written-out formulas -/

namespace Expr

/-- The atom `a` occurs in a formula. -/
def Mentions : Expr → Atom → Prop
  | atom b, a => b = a
  | literal _, _ => False
  | not x, a => x.Mentions a
  | and x y, a | or x y, a | implies x y, a | equals x y, a => x.Mentions a ∨ y.Mentions a

/-- The truth value of `x` depends only on the atoms that occur. -/
theorem eval_congr {ρ ρ' : Atom → Bool} : ∀ {x : Expr}, (∀ a, x.Mentions a → ρ a = ρ' a) →
    x.eval ρ = x.eval ρ'
  | atom b, h => h b rfl
  | literal _, _ => rfl
  | not x, h => by rw [eval, eval, eval_congr (x := x) h]
  | and x y, h | or x y, h | implies x y, h | equals x y, h => by
      rw [eval, eval, eval_congr (x := x) fun a ha => h a (Or.inl ha),
        eval_congr (x := y) fun a ha => h a (Or.inr ha)]

/-- An atom `a` that does not occur may be assigned anything. -/
theorem eval_update {ρ : Atom → Bool} {x : Expr} {a : Atom} (ha : ¬ x.Mentions a) (b : Bool) :
    x.eval (Function.update ρ a b) = x.eval ρ := by
  refine eval_congr fun c hc => Function.update_of_ne ?_ b ρ
  rintro rfl
  exact ha hc

end Expr

namespace Node

/-- The truth value of an entry, given those of atoms by `ρ` and of operands by `τ`. -/
def value (ρ : Atom → Bool) (τ : Formula → Bool) : Node → Bool
  | atom a => ρ a
  | literal b => b
  | not x => !τ x
  | and x y => τ x && τ y
  | or x y => τ x || τ y
  | implies x y => !τ x || τ y
  | equals x y => τ x == τ y

/-- An entry written out, if `g` gives its operands. -/
def expand (g : Formula → Expr) : Node → Expr
  | atom a => .atom a
  | literal b => .literal b
  | not x => .not (g x)
  | and x y => .and (g x) (g y)
  | or x y => .or (g x) (g y)
  | implies x y => .implies (g x) (g y)
  | equals x y => .equals (g x) (g y)

/-- The operands of a connective that does not depend on their order. -/
def pair? : Node → Option (Formula × Formula)
  | and x y | or x y | equals x y => some (x, y)
  | atom _ | literal _ | not _ | implies .. => none

theorem mem_children_of_pair? {n : Node} {x y : Formula} (h : n.pair? = some (x, y)) :
    x ∈ n.children ∧ y ∈ n.children := by
  cases n <;> simp_all [pair?, children]

theorem eval_expand (ρ : Atom → Bool) (g : Formula → Expr) (n : Node) :
    (n.expand g).eval ρ = n.value ρ fun x => (g x).eval ρ := by
  cases n <;> rfl

theorem mentions_expand (g : Formula → Expr) (n : Node) (a : Atom) :
    (n.expand g).Mentions a ↔ n = atom a ∨ ∃ x ∈ n.children, (g x).Mentions a := by
  cases n <;> simp [expand, children, Expr.Mentions]

theorem expand_congr {g g' : Formula → Expr} {n : Node} (h : ∀ x ∈ n.children, g x = g' x) :
    n.expand g = n.expand g' := by
  cases n <;> simp_all [expand, children]

end Node

namespace FormulaTable

/-! ### Well-formed tables -/

/-- The formula `f` is one of the table `t`. -/
def Has (t : FormulaTable) (f : Formula) : Prop := f.index < t.nodes.size

instance (t : FormulaTable) (f : Formula) : Decidable (t.Has f) :=
  inferInstanceAs (Decidable (f.index < t.nodes.size))

/-- The truth value of `f` under the assignment `ρ` of the atoms. -/
def holds (t : FormulaTable) (ρ : Atom → Bool) (f : Formula) : Bool := (t.expr f).eval ρ

/-- The atom `a` occurs in `f`. -/
def Occurs (t : FormulaTable) (a : Atom) (f : Formula) : Prop := (t.expr f).Mentions a

/-- The atom of the value `v`, if it has one yet. -/
def valueAtom? (t : FormulaTable) (v : ValueId) : Option Atom := t.valueAtoms.lookup v

/-- The atom of the value `v` where disagreeing paths meet, if it has one yet. -/
def mergeAtom? (t : FormulaTable) (v : ValueId) : Option Atom := t.mergeAtoms.lookup v

/-- The entry `n` is in the form that the constructors give it. -/
structure Normal (t : FormulaTable) (n : Node) : Prop where
  /-- No operand is a truth value. -/
  operand : ∀ x ∈ n.children, ∀ b, t.node x ≠ .literal b
  /-- No negation is negated. -/
  negation : ∀ {x y}, n = .not x → t.node x ≠ .not y
  /-- Where their order does not matter, operands stand in order and are not negations of
  each other. -/
  pair : ∀ {x y}, n.pair? = some (x, y) → x.index < y.index ∧ t.complementary x y = false

/-- The index and the entries of `t` are inverse to each other, operands stand before the entries
that use them, entries are in normal form, the atoms in use have been created, and those of
values are different from each other. -/
structure WellFormed (t : FormulaTable) : Prop where
  /-- The index leads to `f` from the entry of `f`, and from nothing else. -/
  interned_iff : ∀ {n : Node} {f : Formula},
    t.interned.lookup n = some f ↔ t.nodes[f.index]? = some n
  /-- Operands stand earlier. -/
  earlier : ∀ {i : Nat} {n : Node}, t.nodes[i]? = some n → ∀ x ∈ n.children, x.index < i
  /-- Entries are in normal form. -/
  normal : ∀ {i : Nat} {n : Node}, t.nodes[i]? = some n → t.Normal n
  /-- The atoms of formulas have been created. -/
  atom_lt : ∀ {i : Nat} {a : Atom}, t.nodes[i]? = some (.atom a) → a.index < t.atomCount
  /-- The atoms of values have been created. -/
  valueAtom_lt : ∀ {v a}, t.valueAtom? v = some a → a.index < t.atomCount
  /-- The atoms of meetings have been created. -/
  mergeAtom_lt : ∀ {v a}, t.mergeAtom? v = some a → a.index < t.atomCount
  /-- Two values have different atoms. -/
  valueAtom_inj : ∀ {v w a}, t.valueAtom? v = some a → t.valueAtom? w = some a → v = w
  /-- Two values have different atoms for meetings. -/
  mergeAtom_inj : ∀ {v w a}, t.mergeAtom? v = some a → t.mergeAtom? w = some a → v = w
  /-- An atom of a value is not one for meetings. -/
  apart : ∀ {v w a}, t.valueAtom? v = some a → t.mergeAtom? w ≠ some a

theorem wellFormed_empty : WellFormed {} where
  interned_iff := by simp
  earlier h := by simp at h
  normal h := by simp at h
  atom_lt h := by simp at h
  valueAtom_lt h := by simp [valueAtom?] at h
  mergeAtom_lt h := by simp [mergeAtom?] at h
  valueAtom_inj h := by simp [valueAtom?] at h
  mergeAtom_inj h := by simp [mergeAtom?] at h
  apart h := by simp [valueAtom?] at h

variable {t t' t'' : FormulaTable} {f g x y : Formula} {a : Atom} {ρ ρ' : Atom → Bool} {n : Node}

theorem has_of_getElem? {i : Nat} (h : t.nodes[i]? = some n) : t.Has ⟨i⟩ :=
  (Array.getElem?_eq_some_iff.1 h).1

theorem getElem?_of_has (h : t.Has f) : t.nodes[f.index]? = some (t.node f) := by
  rw [node, Array.getElem?_eq_getElem h, Option.getD_some]

theorem node_of_getElem? (h : t.nodes[f.index]? = some n) : t.node f = n := by
  rw [node, h, Option.getD_some]

/-- No entry `n` stands twice: the index has one formula for it. -/
theorem WellFormed.distinct (h : t.WellFormed) {i j : Nat} (hi : t.nodes[i]? = some n)
    (hj : t.nodes[j]? = some n) : i = j := by
  have hi' : t.interned.lookup n = some ⟨i⟩ := h.interned_iff.2 hi
  have hj' : t.interned.lookup n = some ⟨j⟩ := h.interned_iff.2 hj
  rw [hi', Option.some.injEq] at hj'
  exact congrArg Formula.index hj'

/-- Formulas `f` and `g` with equal entries are equal. -/
theorem WellFormed.eq_of_node_eq (h : t.WellFormed) (hf : t.Has f) (hg : t.Has g)
    (heq : t.node f = t.node g) : f = g := by
  have hnode := getElem?_of_has hg
  rw [← heq] at hnode
  exact Formula.eq_of_index_eq (h.distinct (getElem?_of_has hf) hnode)

/-- Outside the table there is only junk, which is a literal, so `f` is inside. -/
theorem has_of_node_ne (h : t.node f ≠ .literal false) : t.Has f := by
  by_contra hf
  exact h (by rw [node, Array.getElem?_eq_none (Nat.le_of_not_lt hf), Option.getD_none])

theorem has_of_node_atom (h : t.node f = .atom a) : t.Has f :=
  has_of_node_ne (by simp [h])

theorem WellFormed.child_lt (h : t.WellFormed) (hx : x ∈ (t.node f).children) :
    x.index < f.index := by
  by_cases hf : t.Has f
  · exact h.earlier (getElem?_of_has hf) x hx
  · have hjunk : t.node f = .literal false := by
      by_contra hne
      exact hf (has_of_node_ne hne)
    simp [hjunk, Node.children] at hx

theorem WellFormed.has_child (h : t.WellFormed) (hx : x ∈ (t.node f).children) : t.Has x := by
  have hf : t.Has f := has_of_node_ne fun hlit => by simp [hlit, Node.children] at hx
  exact Nat.lt_trans (h.child_lt hx) hf

/-! ### Formulas written out -/

theorem exprWithin_succ (n : Nat) (f : Formula) :
    t.exprWithin (n + 1) f = (t.node f).expand (t.exprWithin n) := by
  rw [exprWithin]
  cases t.node f <;> rfl

/-- Levels beyond the position of `f` change nothing. -/
theorem exprWithin_eq (h : t.WellFormed) : ∀ {n m : Nat} {f : Formula}, f.index < n →
    f.index < m → t.exprWithin n f = t.exprWithin m f := by
  intro n
  induction n with
  | zero => intro m f hn; exact absurd hn (Nat.not_lt_zero _)
  | succ n ih =>
    intro m f hn hm
    obtain ⟨m, rfl⟩ := Nat.exists_eq_succ_of_ne_zero (Nat.ne_of_gt (Nat.zero_lt_of_lt hm))
    rw [exprWithin_succ, exprWithin_succ]
    refine Node.expand_congr fun x hx => ?_
    have hlt := h.child_lt hx
    exact ih (by omega) (by omega)

/-- The formula `f` written out is its entry over the operands written out. -/
theorem expr_eq (h : t.WellFormed) (f : Formula) : t.expr f = (t.node f).expand t.expr := by
  rw [expr, exprWithin_succ]
  refine Node.expand_congr fun x hx => ?_
  exact exprWithin_eq h (h.child_lt hx) (Nat.lt_succ_self _)

theorem holds_eq (h : t.WellFormed) (ρ : Atom → Bool) (f : Formula) :
    t.holds ρ f = (t.node f).value ρ (t.holds ρ) := by
  rw [holds, expr_eq h, Node.eval_expand]
  rfl

theorem occurs_iff (h : t.WellFormed) :
    t.Occurs a f ↔ t.node f = .atom a ∨ ∃ x ∈ (t.node f).children, t.Occurs a x := by
  rw [Occurs, expr_eq h, Node.mentions_expand]
  rfl

theorem holds_congr (h : ∀ a, t.Occurs a f → ρ a = ρ' a) : t.holds ρ f = t.holds ρ' f :=
  Expr.eval_congr h

theorem holds_update (ha : ¬ t.Occurs a f) (b : Bool) :
    t.holds (Function.update ρ a b) f = t.holds ρ f :=
  Expr.eval_update ha b

/-- Only atoms `a` that have been created occur. -/
theorem WellFormed.occurs_lt (h : t.WellFormed) : ∀ {f : Formula}, t.Has f → t.Occurs a f →
    a.index < t.atomCount := by
  intro f
  -- by induction on the position: operands stand earlier
  induction hi : f.index using Nat.strong_induction_on generalizing f with
  | _ i ih =>
    intro hf ha
    rcases (occurs_iff h).1 ha with hn | ⟨x, hx, hax⟩
    · exact h.atom_lt (hn ▸ getElem?_of_has hf)
    · exact ih x.index (hi ▸ h.child_lt hx) rfl (h.has_child hx) hax

/-! ### Growth -/

/-- The table `t` develops into `t'`: what was there stays, and values that get an atom get a new
one. -/
structure Grows (t t' : FormulaTable) : Prop where
  /-- Entries stay. -/
  nodes : ∀ {i : Nat} {n : Node}, t.nodes[i]? = some n → t'.nodes[i]? = some n
  /-- Atoms stay. -/
  atomCount : t.atomCount ≤ t'.atomCount
  /-- Atoms of values stay. -/
  valueAtom : ∀ {v a}, t.valueAtom? v = some a → t'.valueAtom? v = some a
  /-- Atoms of meetings stay. -/
  mergeAtom : ∀ {v a}, t.mergeAtom? v = some a → t'.mergeAtom? v = some a
  /-- An atom that a value gets is new. -/
  fresh : ∀ {v a}, t'.valueAtom? v = some a → t.valueAtom? v = some a ∨ t.atomCount ≤ a.index
  /-- So is one that it gets for meetings. -/
  mergeFresh : ∀ {v a}, t'.mergeAtom? v = some a →
    t.mergeAtom? v = some a ∨ t.atomCount ≤ a.index

@[refl] theorem Grows.refl (t : FormulaTable) : t.Grows t :=
  ⟨id, Nat.le_refl _, id, id, Or.inl, Or.inl⟩

@[trans] theorem Grows.trans (h : t.Grows t') (h' : t'.Grows t'') : t.Grows t'' where
  nodes hn := h'.nodes (h.nodes hn)
  atomCount := Nat.le_trans h.atomCount h'.atomCount
  valueAtom ha := h'.valueAtom (h.valueAtom ha)
  mergeAtom ha := h'.mergeAtom (h.mergeAtom ha)
  fresh ha := by
    rcases h'.fresh ha with ha | hle
    · exact h.fresh ha
    · exact Or.inr (Nat.le_trans h.atomCount hle)
  mergeFresh ha := by
    rcases h'.mergeFresh ha with ha | hle
    · exact h.mergeFresh ha
    · exact Or.inr (Nat.le_trans h.atomCount hle)

theorem Grows.has (h : t.Grows t') (hf : t.Has f) : t'.Has f :=
  has_of_getElem? (h.nodes (getElem?_of_has hf))

theorem Grows.node (h : t.Grows t') (hf : t.Has f) : t'.node f = t.node f :=
  node_of_getElem? (h.nodes (getElem?_of_has hf))

theorem Grows.node_atom (h : t.Grows t') (hf : t.node f = .atom a) : t'.node f = .atom a :=
  (h.node (has_of_node_atom hf)).trans hf

/-- The entry `n` stays in normal form when the table grows. -/
theorem Normal.mono (hn : t.Normal n) (h : t.Grows t') (hchildren : ∀ x ∈ n.children, t.Has x) :
    t'.Normal n where
  operand x hx b := by
    rw [h.node (hchildren x hx)]
    exact hn.operand x hx b
  negation := by
    rintro x y rfl
    rw [h.node (hchildren x List.mem_cons_self)]
    exact hn.negation rfl
  pair := by
    intro x y hxy
    obtain ⟨hx, hy⟩ := Node.mem_children_of_pair? hxy
    rw [complementary, h.node (hchildren x hx), h.node (hchildren y hy)]
    exact hn.pair hxy

/-- The normal form of `n` is a matter of the entries only. -/
theorem Normal.of_nodes (hn : t.Normal n) (h : t'.nodes = t.nodes) : t'.Normal n := by
  have hnode : t'.node = t.node := by
    funext f
    rw [FormulaTable.node, FormulaTable.node, h]
  refine ⟨?_, ?_, ?_⟩
  · rw [hnode]
    exact hn.operand
  · rw [hnode]
    exact hn.negation
  · unfold complementary
    rw [hnode]
    exact hn.pair

/-- A formula `f` is written out alike in a larger table. -/
theorem Grows.expr (h : t.Grows t') (ht : t.WellFormed) (ht' : t'.WellFormed) :
    ∀ {f : Formula}, t.Has f → t'.expr f = t.expr f := by
  intro f
  induction hi : f.index using Nat.strong_induction_on generalizing f with
  | _ i ih =>
    intro hf
    rw [expr_eq ht', expr_eq ht, h.node hf]
    refine Node.expand_congr fun x hx => ?_
    exact ih x.index (hi ▸ ht.child_lt hx) rfl (ht.has_child hx)

theorem Grows.holds (h : t.Grows t') (ht : t.WellFormed) (ht' : t'.WellFormed) (hf : t.Has f) :
    t'.holds ρ f = t.holds ρ f := by
  rw [FormulaTable.holds, FormulaTable.holds, h.expr ht ht' hf]

theorem Grows.occurs (h : t.Grows t') (ht : t.WellFormed) (ht' : t'.WellFormed) (hf : t.Has f) :
    t'.Occurs a f ↔ t.Occurs a f := by
  rw [Occurs, Occurs, h.expr ht ht' hf]

/-! ### Descriptions of formulas -/

/-- The formula `f` of the table has the truth value `value` under every assignment, and its
atoms belong to the set `atoms`. -/
structure Means (t : FormulaTable) (f : Formula) (value : (Atom → Bool) → Bool)
    (atoms : Set Atom) : Prop where
  /-- It is in the table. -/
  has : t.Has f
  /-- Its truth value. -/
  holds : ∀ ρ, t.holds ρ f = value ρ
  /-- Its atoms. -/
  occurs : ∀ {a}, t.Occurs a f → a ∈ atoms

variable {φ ψ : (Atom → Bool) → Bool} {S T : Set Atom}

/-- Every formula `f` of a table means what it says. -/
theorem Has.means (hf : t.Has f) : t.Means f (fun ρ => t.holds ρ f) {a | t.Occurs a f} :=
  ⟨hf, fun _ => rfl, id⟩

/-- What `f` means it means in every larger table `t'`. -/
theorem Means.mono (hf : t.Means f φ S) (h : t.Grows t') (ht : t.WellFormed)
    (ht' : t'.WellFormed) : t'.Means f φ S where
  has := h.has hf.has
  holds ρ := by rw [h.holds ht ht' hf.has, hf.holds]
  occurs ha := hf.occurs ((h.occurs ht ht' hf.has).1 ha)

theorem Means.weaken (hf : t.Means f φ S) (hφ : ∀ ρ, φ ρ = ψ ρ) (hS : S ⊆ T) :
    t.Means f ψ T :=
  ⟨hf.has, fun ρ => (hf.holds ρ).trans (hφ ρ), fun ha => hS (hf.occurs ha)⟩

/-- The description of `f` by its entry. -/
theorem means_of_node (ht : t.WellFormed) (hf : t.Has f)
    (hval : ∀ ρ, (t.node f).value ρ (t.holds ρ) = φ ρ)
    (hocc : ∀ a, t.node f = .atom a ∨ (∃ x ∈ (t.node f).children, t.Occurs a x) → a ∈ S) :
    t.Means f φ S :=
  ⟨hf, fun ρ => (holds_eq ht ρ f).trans (hval ρ), fun ha => hocc _ ((occurs_iff ht).1 ha)⟩

/-- The description of the atom `a`. -/
theorem means_of_node_atom (ht : t.WellFormed) (h : t.node f = .atom a) :
    t.Means f (fun ρ => ρ a) {a} :=
  means_of_node ht (has_of_node_atom h) (by simp [h, Node.value])
    (by simp [h, Node.children, eq_comm])

/-- The atom `a` has one formula at most. -/
theorem WellFormed.eq_of_node_atom (ht : t.WellFormed) (hf : t.node f = .atom a)
    (hg : t.node g = .atom a) : f = g :=
  ht.eq_of_node_eq (has_of_node_atom hf) (has_of_node_atom hg) (hf.trans hg.symm)

/-! ### Atoms of no value -/

/-- The atom `a` has been created but stands for no value. -/
structure Spare (t : FormulaTable) (a : Atom) : Prop where
  /-- It exists. -/
  lt : a.index < t.atomCount
  /-- It is not the atom of a value. -/
  not_value : ∀ v, t.valueAtom? v ≠ some a
  /-- Nor is it one for meetings. -/
  not_merge : ∀ v, t.mergeAtom? v ≠ some a

/-- Values that get atoms later get others than `a`. -/
theorem Spare.mono (h : t.Spare a) (hg : t.Grows t') : t'.Spare a where
  lt := Nat.lt_of_lt_of_le h.lt hg.atomCount
  not_value v hv := by
    rcases hg.fresh hv with hv | hle
    · exact h.not_value v hv
    · exact absurd h.lt (Nat.not_lt.2 hle)
  not_merge v hv := by
    rcases hg.mergeFresh hv with hv | hle
    · exact h.not_merge v hv
    · exact absurd h.lt (Nat.not_lt.2 hle)

end FormulaTable

/-! ### Steps on tables -/

namespace FormulaM

variable {α β : Type} {Q : α → FormulaTable → Prop}

/-- From the table `t`, the steps `x` lead to a well-formed table that it grows into, with a
result and a table as `Q` says. -/
def Yields (x : FormulaM α) (t : FormulaTable) (Q : α → FormulaTable → Prop) : Prop :=
  (x t).2.WellFormed ∧ t.Grows (x t).2 ∧ Q (x t).1 (x t).2

theorem Yields.mono {x : FormulaM α} {t : FormulaTable} {Q R : α → FormulaTable → Prop}
    (h : Yields x t Q)
    (hR : ∀ a t', t'.WellFormed → t.Grows t' → Q a t' → R a t') : Yields x t R :=
  ⟨h.1, h.2.1, hR _ _ h.1 h.2.1 h.2.2⟩

theorem yields_pure {t : FormulaTable} {a : α} (ht : t.WellFormed) (h : Q a t) :
    Yields (pure a) t Q :=
  ⟨ht, .refl t, h⟩

theorem Yields.bind {x : FormulaM α} {k : α → FormulaM β} {t : FormulaTable}
    {R : β → FormulaTable → Prop} (h : Yields x t Q)
    (hk : ∀ a t', t'.WellFormed → t.Grows t' → Q a t' → Yields (k a) t' R) :
    Yields (x >>= k) t R := by
  obtain ⟨hwf, hgrows, hR⟩ := hk _ _ h.1 h.2.1 h.2.2
  exact ⟨hwf, h.2.1.trans hgrows, hR⟩

theorem yields_get_bind {k : FormulaTable → FormulaM β} {t : FormulaTable}
    {R : β → FormulaTable → Prop} (h : Yields (k t) t R) : Yields (get >>= k) t R := h

end FormulaM

open FormulaM FormulaTable

variable {t t' : FormulaTable} {f g x y : Formula} {φ ψ : (Atom → Bool) → Bool} {S T : Set Atom}

/-! ### Entering formulas -/

namespace FormulaTable

theorem getElem?_push (t : FormulaTable) (n : Node) (i : Nat) :
    (t.push n).nodes[i]? = if i = t.nodes.size then some n else t.nodes[i]? :=
  Array.getElem?_push

theorem lookup_push (t : FormulaTable) (n m : Node) :
    (t.push n).interned.lookup m =
      if m = n then some ⟨t.nodes.size⟩ else t.interned.lookup m :=
  lookup_cons_eq

theorem grows_push (t : FormulaTable) (n : Node) : t.Grows (t.push n) where
  nodes h := by
    have hlt := (Array.getElem?_eq_some_iff.1 h).1
    rw [getElem?_push, if_neg (Nat.ne_of_lt hlt), h]
  atomCount := Nat.le_refl _
  valueAtom := id
  mergeAtom := id
  fresh := Or.inl
  mergeFresh := Or.inl

/-- The index of a well-formed table misses no entry `n`. -/
theorem WellFormed.ne_of_lookup_eq_none (ht : t.WellFormed) {n : Node}
    (h : t.interned.lookup n = none) (i : Nat) : t.nodes[i]? ≠ some n := by
  intro hn
  rw [← ht.interned_iff (f := ⟨i⟩), h] at hn
  cases hn

/-- A new entry `n` keeps the index the inverse of the entries. -/
theorem WellFormed.interned_iff_push (ht : t.WellFormed) {n m : Node}
    (hnew : t.interned.lookup n = none) :
    (t.push n).interned.lookup m = some f ↔ (t.push n).nodes[f.index]? = some m := by
  rw [lookup_push, getElem?_push]
  by_cases hm : m = n
  · subst hm
    rw [if_pos rfl]
    by_cases hf : f.index = t.nodes.size
    · rw [if_pos hf]
      exact ⟨fun _ => rfl, fun _ => congrArg some (Formula.eq_of_index_eq hf.symm)⟩
    · -- the old entries do not have the new one
      rw [if_neg hf]
      refine ⟨fun h => ?_, fun h => absurd h (ht.ne_of_lookup_eq_none hnew _)⟩
      rw [← Option.some.inj h] at hf
      exact absurd rfl hf
  · rw [if_neg hm, ht.interned_iff]
    by_cases hf : f.index = t.nodes.size
    · -- the new position has the new entry only
      rw [if_pos hf, hf, Array.getElem?_eq_none (Nat.le_refl _)]
      exact ⟨fun h => absurd h (by simp), fun h => absurd (Option.some.inj h).symm hm⟩
    · rw [if_neg hf]

/-- A new entry `n` in normal form whose operands are there keeps a table well-formed. -/
theorem WellFormed.push (ht : t.WellFormed) {n : Node} (hnew : t.interned.lookup n = none)
    (hchildren : ∀ x ∈ n.children, t.Has x) (hnormal : t.Normal n)
    (hatom : ∀ a, n = .atom a → a.index < t.atomCount) : (t.push n).WellFormed where
  interned_iff := ht.interned_iff_push hnew
  earlier := by
    intro i m h x hx
    rw [getElem?_push] at h
    split at h
    · rename_i hi
      rw [hi]
      rw [← Option.some.inj h] at hx
      exact hchildren x hx
    · exact ht.earlier h x hx
  normal := by
    intro i m h
    rw [getElem?_push] at h
    split at h
    · cases h
      exact hnormal.mono (grows_push t n) hchildren
    · -- operands of an old entry stand before it, so they are old too
      apply (ht.normal h).mono (grows_push t n)
      intro x hx
      exact Nat.lt_trans (ht.earlier h x hx) (has_of_getElem? h)
  atom_lt := by
    intro i a h
    rw [getElem?_push] at h
    split at h
    · exact hatom a (Option.some.inj h)
    · exact ht.atom_lt h
  valueAtom_lt := ht.valueAtom_lt
  mergeAtom_lt := ht.mergeAtom_lt
  valueAtom_inj := ht.valueAtom_inj
  mergeAtom_inj := ht.mergeAtom_inj
  apart := ht.apart

end FormulaTable

/-- After `intern n`, the entry `n` stands at the formula it gives. -/
theorem FormulaTable.WellFormed.getElem?_intern (ht : t.WellFormed) (n : Node) :
    (intern n t).2.nodes[(intern n t).1.index]? = some n := by
  unfold intern
  cases h : t.interned.lookup n with
  | some f => exact ht.interned_iff.1 h
  | none => exact (getElem?_push t n _).trans (if_pos rfl)

/-- Entering `n` gives the formula with this entry. -/
theorem yields_intern (ht : t.WellFormed) {n : Node} (hchildren : ∀ x ∈ n.children, t.Has x)
    (hnormal : t.Normal n) (hatom : ∀ a, n = .atom a → a.index < t.atomCount) :
    Yields (intern n) t fun f t' => t'.Has f ∧ t'.node f = n := by
  have hn := ht.getElem?_intern n
  have hgrows : (intern n t).2.WellFormed ∧ t.Grows (intern n t).2 := by
    unfold intern
    cases h : t.interned.lookup n with
    | some f => exact ⟨ht, .refl t⟩
    | none => exact ⟨ht.push h hchildren hnormal hatom, grows_push t n⟩
  exact ⟨hgrows.1, hgrows.2, has_of_getElem? hn, node_of_getElem? hn⟩

/-- An entry `n` without operands is in normal form. -/
theorem FormulaTable.normal_of_children {n : Node} (h : n.children = []) : t.Normal n where
  operand x hx := by simp [h] at hx
  negation := by
    rintro x y rfl
    cases h
  pair hxy := by simpa [h] using Node.mem_children_of_pair? hxy

theorem yields_mkLiteral (ht : t.WellFormed) (b : Bool) :
    Yields (mkLiteral b) t fun f t' => t'.Means f (fun _ => b) ∅ := by
  refine (yields_intern ht (by simp [Node.children]) (normal_of_children rfl) (by simp)).mono ?_
  rintro f t' ht' - ⟨hf, hn⟩
  exact means_of_node ht' hf (by simp [hn, Node.value]) (by simp [hn, Node.children])

theorem yields_mkAtom (ht : t.WellFormed) {a : Atom} (ha : a.index < t.atomCount) :
    Yields (mkAtom a) t fun f t' => t'.node f = .atom a := by
  refine (yields_intern ht (by simp [Node.children]) (normal_of_children rfl) ?_).mono
    fun f t' _ _ hf => hf.2
  intro b hb
  cases hb
  exact ha

/-! ### The constructors -/

namespace FormulaTable

theorem node_of_literal? {b : Bool} (h : t.literal? f = some b) : t.node f = .literal b := by
  rw [literal?] at h
  split at h
  · rename_i c hc
    rw [hc, Option.some.inj h]
  · simp at h

theorem Means.of_literal? (ht : t.WellFormed) {b : Bool} (hf : t.Means f φ S)
    (h : t.literal? f = some b) (ρ : Atom → Bool) : φ ρ = b := by
  rw [← hf.holds, holds_eq ht, node_of_literal? h, Node.value]

theorem holds_of_node_not (ht : t.WellFormed) (h : t.node f = .not x) (ρ : Atom → Bool) :
    t.holds ρ f = !t.holds ρ x := by
  rw [holds_eq ht, h, Node.value]

/-- One of two complementary formulas `x` and `y` is true. -/
theorem Means.of_complementary (ht : t.WellFormed) (hx : t.Means x φ S) (hy : t.Means y ψ T)
    (h : t.complementary x y = true) (ρ : Atom → Bool) : ψ ρ = !φ ρ := by
  rw [complementary, Bool.or_eq_true, beq_iff_eq, beq_iff_eq] at h
  rw [← hx.holds, ← hy.holds]
  rcases h with h | h
  · rw [holds_of_node_not ht h, Bool.not_not]
  · rw [holds_of_node_not ht h]

/-- The conjunct `needle` holds where the formula does. -/
theorem holds_of_conjunctWithin (ht : t.WellFormed) {needle : Formula} {ρ : Atom → Bool} :
    ∀ {n : Nat} {f : Formula}, t.conjunctWithin needle n f = true → t.holds ρ f = true →
      t.holds ρ needle = true := by
  intro n
  induction n with
  | zero => intro f h; simp [conjunctWithin] at h
  | succ n ih =>
    intro f h hf
    rw [conjunctWithin, Bool.or_eq_true, beq_iff_eq] at h
    -- the formula itself, or a conjunct of one of the two sides
    rcases h with rfl | h
    · exact hf
    · split at h
      · rename_i x y hn
        rw [holds_eq ht, hn, Node.value, Bool.and_eq_true] at hf
        rw [Bool.or_eq_true] at h
        exact h.elim (fun h => ih h hf.1) (fun h => ih h hf.2)
      · simp at h

theorem Means.of_hasConjunct (ht : t.WellFormed) (hx : t.Means x φ S) (hy : t.Means y ψ T)
    (h : t.hasConjunct x y = true) (ρ : Atom → Bool) : φ ρ = (φ ρ && ψ ρ) := by
  have himp : φ ρ = true → ψ ρ = true := by
    rw [← hx.holds, ← hy.holds]
    exact holds_of_conjunctWithin ht h
  cases hφ : φ ρ with
  | false => rfl
  | true => rw [himp hφ]; rfl

theorem node_ne_of_literal? (h : t.literal? f = none) (b : Bool) : t.node f ≠ .literal b := by
  intro hn
  rw [literal?, hn] at h
  cases h

/-- Sorting the operands `x` and `y` by position leaves them as they are or swaps them. -/
theorem earlier_later (x y : Formula) :
    x.earlier y = x ∧ x.later y = y ∨ x.earlier y = y ∧ x.later y = x := by
  unfold Formula.earlier Formula.later
  split
  · exact Or.inl ⟨rfl, rfl⟩
  · exact Or.inr ⟨rfl, rfl⟩

theorem complementary_comm (t : FormulaTable) (x y : Formula) :
    t.complementary x y = t.complementary y x :=
  Bool.or_comm _ _

/-- An entry `n` for the sorted operands `x` and `y` is in normal form, if the operands are no
truth values, are different and are not negations of each other. -/
theorem normal_of_sorted {n : Node} (hx : t.literal? x = none) (hy : t.literal? y = none)
    (hne : x ≠ y) (hc : ¬ t.complementary x y = true)
    (hn : n.pair? = some (x.earlier y, x.later y)) : t.Normal n where
  operand z hz := by
    have hz : z = x.earlier y ∨ z = x.later y := by
      cases n <;> simp_all [Node.pair?, Node.children]
    rcases earlier_later x y with ⟨h₁, h₂⟩ | ⟨h₁, h₂⟩ <;> rw [h₁, h₂] at hz <;>
      rcases hz with rfl | rfl
    · exact node_ne_of_literal? hx
    · exact node_ne_of_literal? hy
    · exact node_ne_of_literal? hy
    · exact node_ne_of_literal? hx
  negation := by
    rintro z w rfl
    cases hn
  pair := by
    intro z w hzw
    rw [hn, Option.some.injEq, Prod.mk.injEq] at hzw
    obtain ⟨rfl, rfl⟩ := hzw
    have hindex : x.index ≠ y.index := fun heq => hne (Formula.eq_of_index_eq heq)
    rw [Bool.not_eq_true] at hc
    unfold Formula.earlier Formula.later
    split
    · exact ⟨by omega, hc⟩
    · exact ⟨by omega, by rw [complementary_comm, hc]⟩

end FormulaTable

theorem yields_mkNot (ht : t.WellFormed) (hx : t.Means x φ S) :
    Yields (mkNot x) t fun f t' => t'.Means f (fun ρ => !φ ρ) S := by
  -- an entry is made only for what is neither a truth value nor a negation
  have hnew : (∀ b, t.node x ≠ .literal b) → (∀ y, t.node x ≠ .not y) →
      Yields (intern (.not x)) t fun f t' => t'.Means f (fun ρ => !φ ρ) S := by
    intro hlit hnot
    have hnormal : t.Normal (.not x) := by
      refine ⟨by simpa [Node.children] using hlit, ?_, by simp [Node.pair?]⟩
      rintro y z ⟨⟩
      exact hnot z
    refine (yields_intern ht (by simpa [Node.children] using hx.has) hnormal (by simp)).mono ?_
    rintro f t' ht' hg ⟨hf, hn⟩
    have hx' := hx.mono hg ht ht'
    refine means_of_node ht' hf (fun ρ => ?_) ?_
    · rw [hn, Node.value, hx'.holds]
    · rw [hn]
      simp only [reduceCtorEq, Node.children, List.mem_singleton, exists_eq_left, false_or]
      exact fun a => hx'.occurs
  unfold Yields mkNot
  split
  · rename_i b hb
    refine (yields_mkLiteral ht (!b)).mono fun f t' _ _ hf => hf.weaken (fun ρ => ?_) (by simp)
    rw [← hx.holds, holds_eq ht, hb, Node.value]
  · rename_i y hy
    have hchild : y ∈ (t.node x).children := by simp [hy, Node.children]
    refine ⟨ht, .refl t, ht.has_child hchild, fun ρ => ?_, fun ha => hx.occurs ?_⟩
    · rw [← hx.holds, holds_of_node_not ht hy, Bool.not_not]
    · exact (occurs_iff ht).2 (Or.inr ⟨y, hchild, ha⟩)
  · rename_i hlit hnot
    exact hnew hlit hnot

/-- A new binary entry `n`: its value is that of the connective `op`, its atoms those of both
operands. -/
theorem yields_intern_binary (ht : t.WellFormed) (hx : t.Means x φ S) (hy : t.Means y ψ T)
    {n : Node} (hnormal : t.Normal n) (hn : n.children = [x, y] ∨ n.children = [y, x])
    (op : Bool → Bool → Bool) (hop : ∀ ρ τ, n.value ρ τ = op (τ x) (τ y)) :
    Yields (intern n) t fun f t' => t'.Means f (fun ρ => op (φ ρ) (ψ ρ)) (S ∪ T) := by
  have hmem : ∀ z ∈ n.children, z = x ∨ z = y := by
    rcases hn with hn | hn <;> intro z hz <;> simp only [hn, List.mem_cons, List.not_mem_nil,
      or_false] at hz
    · exact hz
    · exact hz.symm
  have hatom : ∀ a, n ≠ .atom a := by
    rintro a rfl
    simp [Node.children] at hn
  refine (yields_intern ht (fun z hz => ?_) hnormal (fun a ha => absurd ha (hatom a))).mono ?_
  · rcases hmem z hz with rfl | rfl
    · exact hx.has
    · exact hy.has
  · rintro f t' ht' hg ⟨hf, hn'⟩
    have hx' := hx.mono hg ht ht'
    have hy' := hy.mono hg ht ht'
    refine means_of_node ht' hf (fun ρ => ?_) ?_
    · rw [hn', hop, hx'.holds, hy'.holds]
    · rw [hn']
      rintro a (ha | ⟨z, hz, haz⟩)
      · exact absurd ha (hatom a)
      · rcases hmem z hz with rfl | rfl
        · exact Or.inl (hx'.occurs haz)
        · exact Or.inr (hy'.occurs haz)

/-- An operand `f` that stands for the whole. -/
theorem yields_operand (ht : t.WellFormed) (hf : t.Means f φ S) (hφ : ∀ ρ, φ ρ = ψ ρ)
    (hS : S ⊆ T) : Yields (fun t => (f, t)) t fun f t' => t'.Means f ψ T :=
  ⟨ht, .refl t, hf.weaken hφ hS⟩

/-- A truth value `b` that stands for the whole. -/
theorem yields_literal (ht : t.WellFormed) {b : Bool} (hφ : ∀ ρ, b = φ ρ) :
    Yields (mkLiteral b) t fun f t' => t'.Means f φ S :=
  (yields_mkLiteral ht b).mono fun _ _ _ _ hf => hf.weaken hφ (Set.empty_subset _)

theorem yields_mkAnd (ht : t.WellFormed) (hx : t.Means x φ S) (hy : t.Means y ψ T) :
    Yields (mkAnd x y) t fun f t' => t'.Means f (fun ρ => φ ρ && ψ ρ) (S ∪ T) := by
  unfold Yields mkAnd
  split
  · rename_i hl
    exact yields_literal ht fun ρ => by rw [hx.of_literal? ht hl, Bool.false_and]
  · rename_i hl _
    exact yields_literal ht fun ρ => by rw [hy.of_literal? ht hl, Bool.and_false]
  · rename_i hl _
    refine yields_operand ht hy (fun ρ => ?_) Set.subset_union_right
    rw [hx.of_literal? ht hl, Bool.true_and]
  · rename_i hl _ _
    refine yields_operand ht hx (fun ρ => ?_) Set.subset_union_left
    rw [hy.of_literal? ht hl, Bool.and_true]
  · -- no operand is a truth value: equal, complementary, one a conjunct of the other, or a new
    -- entry
    rename_i hlx hly
    split
    · rename_i hxy
      subst hxy
      refine yields_operand ht hx (fun ρ => ?_) Set.subset_union_left
      rw [← hy.holds, hx.holds, Bool.and_self]
    · rename_i hne
      split
      · rename_i hc
        exact yields_literal ht fun ρ => by rw [hx.of_complementary ht hy hc, Bool.and_not_self]
      · rename_i hcompl
        split
        · rename_i hc
          exact yields_operand ht hx (hx.of_hasConjunct ht hy hc) Set.subset_union_left
        · split
          · rename_i hc
            refine yields_operand ht hy (fun ρ => ?_) Set.subset_union_right
            rw [Bool.and_comm]
            exact hy.of_hasConjunct ht hx hc ρ
          · have hnormal : t.Normal (.and (x.earlier y) (x.later y)) :=
              normal_of_sorted hlx hly hne hcompl rfl
            rcases earlier_later x y with ⟨h₁, h₂⟩ | ⟨h₁, h₂⟩ <;> rw [h₁, h₂] at hnormal ⊢
            · exact yields_intern_binary ht hx hy hnormal (Or.inl rfl) and fun _ _ => rfl
            · exact yields_intern_binary ht hx hy hnormal (Or.inr rfl) and
                fun _ τ => Bool.and_comm _ _

theorem yields_mkOr (ht : t.WellFormed) (hx : t.Means x φ S) (hy : t.Means y ψ T) :
    Yields (mkOr x y) t fun f t' => t'.Means f (fun ρ => φ ρ || ψ ρ) (S ∪ T) := by
  unfold Yields mkOr
  split
  · rename_i hl
    exact yields_literal ht fun ρ => by rw [hx.of_literal? ht hl, Bool.true_or]
  · rename_i hl _
    exact yields_literal ht fun ρ => by rw [hy.of_literal? ht hl, Bool.or_true]
  · rename_i hl _
    refine yields_operand ht hy (fun ρ => ?_) Set.subset_union_right
    rw [hx.of_literal? ht hl, Bool.false_or]
  · rename_i hl _ _
    refine yields_operand ht hx (fun ρ => ?_) Set.subset_union_left
    rw [hy.of_literal? ht hl, Bool.or_false]
  · -- no operand is a truth value: equal, complementary, or a new entry
    rename_i hlx hly
    split
    · rename_i hxy
      subst hxy
      refine yields_operand ht hx (fun ρ => ?_) Set.subset_union_left
      rw [← hy.holds, hx.holds, Bool.or_self]
    · rename_i hne
      split
      · rename_i hc
        exact yields_literal ht fun ρ => by rw [hx.of_complementary ht hy hc, Bool.or_not_self]
      · rename_i hcompl
        have hnormal : t.Normal (.or (x.earlier y) (x.later y)) :=
          normal_of_sorted hlx hly hne hcompl rfl
        rcases earlier_later x y with ⟨h₁, h₂⟩ | ⟨h₁, h₂⟩ <;> rw [h₁, h₂] at hnormal ⊢
        · exact yields_intern_binary ht hx hy hnormal (Or.inl rfl) or fun _ _ => rfl
        · exact yields_intern_binary ht hx hy hnormal (Or.inr rfl) or fun _ τ => Bool.or_comm _ _

theorem yields_mkImplies (ht : t.WellFormed) (hx : t.Means x φ S) (hy : t.Means y ψ T) :
    Yields (mkImplies x y) t fun f t' => t'.Means f (fun ρ => !φ ρ || ψ ρ) (S ∪ T) := by
  unfold Yields mkImplies
  split
  · rename_i hl
    exact yields_literal ht fun ρ => by rw [hx.of_literal? ht hl, Bool.not_false, Bool.true_or]
  · rename_i hl _
    exact yields_literal ht fun ρ => by rw [hy.of_literal? ht hl, Bool.or_true]
  · rename_i hl _
    refine yields_operand ht hy (fun ρ => ?_) Set.subset_union_right
    rw [hx.of_literal? ht hl, Bool.not_true, Bool.false_or]
  · rename_i hl _ _
    refine (yields_mkNot ht hx).mono fun f t' _ _ hf => hf.weaken (fun ρ => ?_)
      Set.subset_union_left
    rw [hy.of_literal? ht hl, Bool.or_false]
  · rename_i hlx hly
    split
    · rename_i hxy
      subst hxy
      exact yields_literal ht fun ρ => by rw [← hy.holds, hx.holds, Bool.not_or_self]
    · have hnormal : t.Normal (.implies x y) := by
        refine ⟨?_, by simp, by simp [Node.pair?]⟩
        simp only [Node.children, List.forall_mem_cons]
        exact ⟨node_ne_of_literal? hlx, node_ne_of_literal? hly, by simp⟩
      exact yields_intern_binary ht hx hy hnormal (Or.inl rfl) (fun b c => !b || c) fun _ _ => rfl

theorem yields_mkEquals (ht : t.WellFormed) (hx : t.Means x φ S) (hy : t.Means y ψ T) :
    Yields (mkEquals x y) t fun f t' => t'.Means f (fun ρ => φ ρ == ψ ρ) (S ∪ T) := by
  unfold Yields mkEquals
  split
  · rename_i hl
    refine yields_operand ht hy (fun ρ => ?_) Set.subset_union_right
    rw [hx.of_literal? ht hl, Bool.true_beq]
  · rename_i hl _
    refine yields_operand ht hx (fun ρ => ?_) Set.subset_union_left
    rw [hy.of_literal? ht hl, beq_true]
  · rename_i hl _
    refine (yields_mkNot ht hy).mono fun f t' _ _ hf => hf.weaken (fun ρ => ?_)
      Set.subset_union_right
    rw [hx.of_literal? ht hl, Bool.false_beq]
  · rename_i hl _ _
    refine (yields_mkNot ht hx).mono fun f t' _ _ hf => hf.weaken (fun ρ => ?_)
      Set.subset_union_left
    rw [hy.of_literal? ht hl, beq_false]
  · rename_i hlx hly
    split
    · rename_i hxy
      subst hxy
      exact yields_literal ht fun ρ => by rw [← hy.holds, hx.holds, beq_self_eq_true]
    · rename_i hne
      split
      · rename_i hc
        refine yields_literal ht fun ρ => ?_
        rw [hx.of_complementary ht hy hc]
        cases φ ρ <;> rfl
      · rename_i hcompl
        have hnormal : t.Normal (.equals (x.earlier y) (x.later y)) :=
          normal_of_sorted hlx hly hne hcompl rfl
        rcases earlier_later x y with ⟨h₁, h₂⟩ | ⟨h₁, h₂⟩ <;> rw [h₁, h₂] at hnormal ⊢
        · exact yields_intern_binary ht hx hy hnormal (Or.inl rfl) (· == ·) fun _ _ => rfl
        · refine yields_intern_binary ht hx hy hnormal (Or.inr rfl) (· == ·) fun _ τ => ?_
          exact Bool.beq_comm

/-! ### Atoms -/

/-- A fresh atom is a new one and stands for no value. -/
theorem yields_freshAtom (ht : t.WellFormed) :
    Yields freshAtom t fun a t' => a.index = t.atomCount ∧ t'.Spare a := by
  refine ⟨?_, ⟨id, Nat.le_succ _, id, id, Or.inl, Or.inl⟩, rfl, ?_⟩
  case refine_2 =>
    exact ⟨Nat.lt_succ_self _, fun v hv => Nat.lt_irrefl _ (ht.valueAtom_lt hv),
      fun v hv => Nat.lt_irrefl _ (ht.mergeAtom_lt hv)⟩
  exact {
    interned_iff := ht.interned_iff
    earlier := ht.earlier
    normal := fun h => (ht.normal h).of_nodes rfl
    atom_lt := fun h => Nat.lt_succ_of_lt (ht.atom_lt h)
    valueAtom_lt := fun h => Nat.lt_succ_of_lt (ht.valueAtom_lt h)
    mergeAtom_lt := fun h => Nat.lt_succ_of_lt (ht.mergeAtom_lt h)
    valueAtom_inj := ht.valueAtom_inj
    mergeAtom_inj := ht.mergeAtom_inj
    apart := ht.apart }

/-- The list `l` gives different values different atoms, all numbered below `n`. -/
def AtomsBelow (n : Nat) (l : List (ValueId × Atom)) : Prop :=
  (∀ {v a}, l.lookup v = some a → a.index < n) ∧
    ∀ {v w a}, l.lookup v = some a → l.lookup w = some a → v = w

/-- The next atom, which `v` gets, is different from all before. -/
theorem AtomsBelow.cons {n : Nat} {l : List (ValueId × Atom)} (h : AtomsBelow n l)
    (v : ValueId) : AtomsBelow (n + 1) ((v, ⟨n⟩) :: l) := by
  refine ⟨fun {w a} hw => ?_, fun {w w' a} hw hw' => ?_⟩
  · rw [lookup_cons_eq] at hw
    split at hw
    · rw [← Option.some.inj hw]
      exact Nat.lt_succ_self n
    · exact Nat.lt_succ_of_lt (h.1 hw)
  · rw [lookup_cons_eq] at hw hw'
    split at hw <;> split at hw'
    · rename_i hv hv'
      exact hv.trans hv'.symm
    · exact absurd (h.1 hw') (by rw [← Option.some.inj hw]; exact Nat.lt_irrefl n)
    · exact absurd (h.1 hw) (by rw [← Option.some.inj hw']; exact Nat.lt_irrefl n)
    · exact h.2 hw hw'

/-- Asking for the atom of `v` gives the one it has, or a new one. -/
theorem yields_valueAtom (ht : t.WellFormed) (v : ValueId) :
    Yields (valueAtom v) t fun a t' => t'.valueAtom? v = some a ∧
      (t.valueAtom? v = some a ∨ t.atomCount ≤ a.index) := by
  unfold Yields valueAtom
  cases h : t.valueAtoms.lookup v with
  | some a => exact ⟨ht, .refl t, h, Or.inl h⟩
  | none =>
    obtain ⟨hwf, hg, -⟩ := yields_freshAtom ht
    simp only [freshAtom] at hwf hg ⊢
    have hbelow : AtomsBelow (t.atomCount + 1) ((v, ⟨t.atomCount⟩) :: t.valueAtoms) :=
      AtomsBelow.cons ⟨ht.valueAtom_lt, ht.valueAtom_inj⟩ v
    refine ⟨{ hwf with
        normal := fun hn => (ht.normal hn).of_nodes rfl
        valueAtom_lt := hbelow.1
        valueAtom_inj := hbelow.2
        apart := fun {w w' a} hw hw' => ?_ },
      { hg with
        valueAtom := fun hw => lookup_cons_of_lookup h hw
        fresh := fun {w a} hw => ?_ },
      by simp [valueAtom?], Or.inr (Nat.le_refl _)⟩
    all_goals
      rw [valueAtom?, lookup_cons_eq] at hw
      split at hw
    · exact absurd (Option.some.inj hw ▸ ht.mergeAtom_lt hw') (Nat.lt_irrefl _)
    · exact ht.apart hw hw'
    · exact Or.inr (Nat.le_of_eq (congrArg Atom.index (Option.some.inj hw)))
    · exact Or.inl hw

/-- Asking for the atom of `v` at meetings gives the one it has, or a new one. -/
theorem yields_mergeAtom (ht : t.WellFormed) (v : ValueId) :
    Yields (mergeAtom v) t fun a t' => t'.mergeAtom? v = some a ∧
      (t.mergeAtom? v = some a ∨ t.atomCount ≤ a.index) := by
  unfold Yields mergeAtom
  cases h : t.mergeAtoms.lookup v with
  | some a => exact ⟨ht, .refl t, h, Or.inl h⟩
  | none =>
    obtain ⟨hwf, hg, -⟩ := yields_freshAtom ht
    simp only [freshAtom] at hwf hg ⊢
    have hbelow : AtomsBelow (t.atomCount + 1) ((v, ⟨t.atomCount⟩) :: t.mergeAtoms) :=
      AtomsBelow.cons ⟨ht.mergeAtom_lt, ht.mergeAtom_inj⟩ v
    refine ⟨{ hwf with
        normal := fun hn => (ht.normal hn).of_nodes rfl
        mergeAtom_lt := hbelow.1
        mergeAtom_inj := hbelow.2
        apart := fun {w w' a} hw hw' => ?_ },
      { hg with
        mergeAtom := fun hw => lookup_cons_of_lookup h hw
        mergeFresh := fun {w' a} hw' => ?_ },
      by simp [mergeAtom?], Or.inr (Nat.le_refl _)⟩
    all_goals
      rw [mergeAtom?, lookup_cons_eq] at hw'
      split at hw'
    · exact absurd (Option.some.inj hw' ▸ ht.valueAtom_lt hw) (Nat.lt_irrefl _)
    · exact ht.apart hw hw'
    · exact Or.inr (Nat.le_of_eq (congrArg Atom.index (Option.some.inj hw')))
    · exact Or.inl hw'

end FlowFacts
