import FlowFacts.Proofs.Flow.Transfer
import Mathlib.Logic.Relation

/-!
# Operations keep tables in order

A table of formulas is shared by all the environments of an analysis, and every operation on
formulas or environments may add to it.  Whatever sequence of operations is carried out, the
table stays well-formed: its index leads back from every entry to where it stands and nowhere
else, operands stand before the entries that use them, entries are in normal form, and atoms
that stand for something are all different.  No operation changes an entry or the atom of a
value that was there before.

## Main definitions

* `FormulaTable.Operates` — the operations on a table.

## Main results

* `FormulaTable.Operates.kept` — an operation keeps a table well-formed and only adds to it.
* `FormulaTable.kept_of_operates` — so do any number of them, starting with nothing.
* `FormulaTable.Reachable.reflTransGen` — tables that are reached come about by operations.
-/

namespace FlowFacts

open FormulaM FormulaTable

variable {t t' : FormulaTable} {e e₁ e₂ : Environment} {f x y : Formula} {a : Atom}

/-! ### Parameters that may stand twice -/

/-- The values that are set to atoms have formulas of the table. -/
theorem yields_foldlM_set_has : ∀ {zs : List ((ValueId × Option Formula) × Renaming)}
    {t : FormulaTable} {b : Bindings}, t.WellFormed → (∀ v f, b.get? v = some f → t.Has f) →
      (∀ z ∈ zs, z.2.atom.index < t.atomCount) →
      Yields (zs.foldlM (fun b z => do return b.set z.1.1 (← mkAtom z.2.atom)) b) t fun b' t' =>
        ∀ v f, b'.get? v = some f → t'.Has f := by
  intro zs
  induction zs with
  | nil => exact fun ht hb _ => yields_pure ht hb
  | cons z zs ih =>
    intro t b ht hb hatoms
    rw [List.forall_mem_cons] at hatoms
    rw [List.foldlM_cons, bind_assoc]
    apply (yields_mkAtom ht hatoms.1).bind
    intro g t₁ ht₁ hg₁ hg
    rw [pure_bind]
    refine ih ht₁ ?_ fun z' hz' => Nat.lt_of_lt_of_le (hatoms.2 z' hz') hg₁.atomCount
    intro v f hf
    rw [Bindings.get?_set] at hf
    split at hf
    · cases hf
      exact has_of_node_atom hg
    · exact hg₁.has (hb v f hf)

/-- Binding the parameters `params` keeps environments in the table, also if one is listed twice:
then the description of `yields_bind` need not hold, but the steps are the same. -/
theorem yields_bind_within (ht : t.WellFormed) (he : e.Within t)
    {params : List (ValueId × Option Formula)} (hparams : ∀ v f, (v, some f) ∈ params → t.Has f) :
    Yields (e.bind params) t fun e' t' => e'.Within t' := by
  unfold Environment.bind
  split
  · exact yields_pure ht he
  apply (yields_renamings .value Prod.fst ht).bind
  intro rs t₁ ht₁ hg₁ hrs
  apply (yields_rename ht₁ hrs.formula (he.flow.means.mono hg₁ ht ht₁)).bind
  intro start t₂ ht₂ hg₂ hstart
  have hatoms : ∀ z ∈ params.zip rs, z.2.atom.index < t₁.atomCount := fun z hz =>
    ht₁.valueAtom_lt (hrs.atom z hz)
  have hpassed : ∀ z ∈ params.zip rs, ∀ g, z.1.2 = some g → t₁.Has g := by
    rintro ⟨⟨v, _⟩, r⟩ hz g rfl
    exact hg₁.has (hparams v g (List.of_mem_zip hz).1)
  apply (yields_foldlM_bindOne ht₁ hrs.formula ht₂ hg₂ hatoms hpassed hstart).bind
  intro bound t₃ ht₃ hg₃ hbound
  apply (yields_eliminateAll ht₃ hbound).bind
  rintro flow t₄ ht₄ hg₄ ⟨φ, hflow, -⟩
  apply (yields_without ht₄ _ _).bind
  rintro kept t₄' - - ⟨rfl, hkept⟩
  have hg₁₄ := (hg₂.trans hg₃).trans hg₄
  have hhas : ∀ v g, kept.get? v = some g → t₄'.Has g := by
    intro v g hg
    exact (hg₁.trans hg₁₄).has (he.values v g (get?_foldl_erase.1 ((hkept v g).1 hg).1).1)
  apply (yields_foldlM_set_has ht₄ hhas fun z hz =>
    Nat.lt_of_lt_of_le (hatoms z hz) hg₁₄.atomCount).bind
  intro values t₅ ht₅ hg₅ hvalues
  exact yields_pure ht₅ ⟨hg₅.has hflow.has, hvalues⟩

namespace FormulaTable

/-- The operations on the table `t`, each given formulas, atoms and environments of it. -/
inductive Operates (t : FormulaTable) : FormulaTable → Prop
  /-- A new atom. -/
  | freshAtom : Operates t (freshAtom t).2
  /-- The atom of a value. -/
  | valueAtom (v : ValueId) : Operates t (valueAtom v t).2
  /-- The atom of a value at meetings. -/
  | mergeAtom (v : ValueId) : Operates t (mergeAtom v t).2
  /-- An atom as a formula. -/
  | mkAtom {a : Atom} : a.index < t.atomCount → Operates t (mkAtom a t).2
  /-- A truth value. -/
  | mkLiteral (b : Bool) : Operates t (mkLiteral b t).2
  /-- A negation. -/
  | mkNot {x : Formula} : t.Has x → Operates t (mkNot x t).2
  /-- A conjunction. -/
  | mkAnd {x y : Formula} : t.Has x → t.Has y → Operates t (mkAnd x y t).2
  /-- A conjunction of any number of formulas. -/
  | mkAndAll {fs : List Formula} : (∀ f ∈ fs, t.Has f) → Operates t (mkAndAll fs t).2
  /-- A disjunction. -/
  | mkOr {x y : Formula} : t.Has x → t.Has y → Operates t (mkOr x y t).2
  /-- An implication. -/
  | mkImplies {x y : Formula} : t.Has x → t.Has y → Operates t (mkImplies x y t).2
  /-- An equivalence. -/
  | mkEquals {x y : Formula} : t.Has x → t.Has y → Operates t (mkEquals x y t).2
  /-- A substitution. -/
  | substitute {f : Formula} {σ : Substitution} :
      t.Has f → σ.Within t → Operates t (substitute f σ t).2
  /-- An elimination. -/
  | eliminate {f : Formula} (a : Atom) : t.Has f → Operates t (eliminate f a t).2
  /-- The question whether a formula is satisfiable. -/
  | isSatisfiable (f : Formula) : Operates t (isSatisfiable f t).2
  /-- The question whether a formula is valid. -/
  | isValid {f : Formula} : t.Has f → Operates t (isValid f t).2
  /-- An environment that knows nothing. -/
  | unknown : Operates t (Environment.unknown t).2
  /-- A formula that is regardless of everything else. -/
  | freshFormula : Operates t (Environment.freshFormula t).2
  /-- A value of which nothing is known. -/
  | renew {e : Environment} (v : ValueId) : e.Within t → Operates t (e.renew v t).2
  /-- The formula of a value that is used. -/
  | operandFormula {e : Environment} (p : Program) (v : ValueId) :
      e.Within t → Operates t (operandFormula p e v t).2
  /-- A formula that is known to hold. -/
  | assume {e : Environment} {f : Formula} : e.Within t → t.Has f → Operates t (e.assume f t).2
  /-- Parameters that take the values passed for them. -/
  | bind {e : Environment} {params : List (ValueId × Option Formula)} : e.Within t →
      (∀ v f, (v, some f) ∈ params → t.Has f) → Operates t (e.bind params t).2
  /-- A meeting. -/
  | join {e₁ e₂ : Environment} : e₁.Within t → e₂.Within t → Operates t (e₁.join e₂ t).2
  /-- The question whether a formula holds on every path. -/
  | proves {e : Environment} {f : Formula} : e.Within t → t.Has f → Operates t (e.proves f t).2
  /-- The question whether a formula holds on some path. -/
  | allows {e : Environment} {f : Formula} : e.Within t → t.Has f → Operates t (e.allows f t).2
  /-- The question whether there is a path. -/
  | feasible (e : Environment) : Operates t (e.feasible t).2
  /-- The question whether two environments say the same. -/
  | equivalent {e₁ e₂ : Environment} :
      e₁.Within t → e₂.Within t → Operates t (e₁.equivalent e₂ t).2

/-- An operation keeps the table `t` well-formed and only adds to it. -/
theorem Operates.kept (ht : t.WellFormed) (h : t.Operates t') : t'.WellFormed ∧ t.Grows t' := by
  -- what steps lead to says this, whatever else it says about their result
  have of_yields : ∀ {α : Type} {step : FormulaM α} {Q : α → FormulaTable → Prop},
      Yields step t Q → (step t).2.WellFormed ∧ t.Grows (step t).2 := fun h => ⟨h.1, h.2.1⟩
  cases h with
  | freshAtom => exact of_yields (yields_freshAtom ht)
  | valueAtom v => exact of_yields (yields_valueAtom ht v)
  | mergeAtom v => exact of_yields (yields_mergeAtom ht v)
  | mkAtom ha => exact of_yields (yields_mkAtom ht ha)
  | mkLiteral b => exact of_yields (yields_mkLiteral ht b)
  | mkNot hx => exact of_yields (yields_mkNot ht hx.means)
  | mkAnd hx hy => exact of_yields (yields_mkAnd ht hx.means hy.means)
  | mkAndAll hfs => exact of_yields (yields_mkAndAll ht hfs)
  | mkOr hx hy => exact of_yields (yields_mkOr ht hx.means hy.means)
  | mkImplies hx hy => exact of_yields (yields_mkImplies ht hx.means hy.means)
  | mkEquals hx hy => exact of_yields (yields_mkEquals ht hx.means hy.means)
  | substitute hf hσ => exact of_yields (yields_substitute ht hf hσ)
  | eliminate a hf => exact of_yields (yields_eliminate ht hf.means a)
  | isSatisfiable f => exact of_yields (yields_isSatisfiable ht f)
  | isValid hf => exact of_yields (yields_isValid ht hf.means)
  | unknown =>
    exact of_yields ((yields_mkLiteral ht true).bind fun _ _ ht₁ _ _ =>
      yields_pure (Q := fun _ _ => True) ht₁ trivial)
  | freshFormula =>
    exact of_yields ((yields_freshAtom ht).bind (R := fun _ _ => True) fun _ _ ht₁ _ ha =>
      (yields_mkAtom ht₁ ha.2.lt).mono fun _ _ _ _ _ => trivial)
  | renew v he => exact of_yields (yields_renew ht he v)
  | operandFormula p v he => exact of_yields (yields_operandFormula ht he p v)
  | assume he hf => exact of_yields (yields_assume ht he hf)
  | bind he hparams => exact of_yields (yields_bind_within ht he hparams)
  | join he₁ he₂ => exact of_yields (yields_join ht he₁ he₂)
  | proves he hf => exact of_yields (yields_proves ht he hf)
  | allows he hf => exact of_yields (yields_allows ht he hf)
  | feasible e => exact of_yields (yields_feasible ht e)
  | equivalent he₁ he₂ => exact of_yields (yields_equivalent ht he₁ he₂)

/-- Any number of operations keep the table `t` well-formed and only add to it. -/
theorem kept_of_reflTransGen (ht : t.WellFormed) (h : Relation.ReflTransGen Operates t t') :
    t'.WellFormed ∧ t.Grows t' := by
  induction h with
  | refl => exact ⟨ht, .refl t⟩
  | tail _ hop ih =>
    obtain ⟨hwf, hg⟩ := ih
    obtain ⟨hwf', hg'⟩ := hop.kept hwf
    exact ⟨hwf', hg.trans hg'⟩

theorem wellFormed_of_operates (h : Relation.ReflTransGen Operates {} t) : t.WellFormed :=
  (kept_of_reflTransGen wellFormed_empty h).1

/-- A table `t` that is made by operations on formulas is one that operations lead to. -/
theorem Reachable.reflTransGen (h : t.Reachable) : Relation.ReflTransGen Operates {} t := by
  induction h with
  | empty => exact .refl
  | freshAtom _ ih => exact ih.tail .freshAtom
  | valueAtom v _ ih => exact ih.tail (.valueAtom v)
  | mergeAtom v _ ih => exact ih.tail (.mergeAtom v)
  | mkAtom _ ha ih => exact ih.tail (.mkAtom ha)
  | mkLiteral b _ ih => exact ih.tail (.mkLiteral b)
  | mkNot _ hx ih => exact ih.tail (.mkNot hx)
  | mkAnd _ hx hy ih => exact ih.tail (.mkAnd hx hy)
  | mkAndAll _ hfs ih => exact ih.tail (.mkAndAll hfs)
  | mkOr _ hx hy ih => exact ih.tail (.mkOr hx hy)
  | mkImplies _ hx hy ih => exact ih.tail (.mkImplies hx hy)
  | mkEquals _ hx hy ih => exact ih.tail (.mkEquals hx hy)
  | substitute _ hf hσ ih => exact ih.tail (.substitute hf hσ)
  | eliminate a _ hf ih => exact ih.tail (.eliminate a hf)

/-- The table of two atoms. -/
def atomPairTable : FormulaTable := List.foldl push { atomCount := 2 } [.atom ⟨0⟩, .atom ⟨1⟩]

theorem reachable_atomPairTable : Relation.ReflTransGen Operates {} atomPairTable :=
  (((Relation.ReflTransGen.single .freshAtom).tail .freshAtom).tail
    (.mkAtom (a := ⟨0⟩) (by decide))).tail (.mkAtom (a := ⟨1⟩) (by decide))

/-- **Tables stay in order.**  Take a table `t` that any sequence of operations leads to.  It is
well-formed, its index is the inverse of its entries, formulas with equal entries are equal, and
only atoms that have been created occur in its formulas.  One more operation leaves all entries,
all formulas as they are written out, and the atoms of values as they are. -/
theorem kept_of_operates (h : Relation.ReflTransGen Operates {} t) :
    t.WellFormed ∧ (∀ n f, t.interned.lookup n = some f ↔ t.nodes[f.index]? = some n) ∧
      (∀ f g, t.Has f → t.Has g → t.node f = t.node g → f = g) ∧
      (∀ f a, t.Has f → t.Occurs a f → a.index < t.atomCount) ∧
      ∀ t', t.Operates t' → t.Grows t' ∧ ∀ f, t.Has f → t'.expr f = t.expr f := by
  have ht := wellFormed_of_operates h
  refine ⟨ht, fun n f => ht.interned_iff, fun f g hf hg => ht.eq_of_node_eq hf hg,
    fun f a hf ha => ht.occurs_lt hf ha, ?_⟩
  intro t' hop
  obtain ⟨ht', hg⟩ := hop.kept ht
  exact ⟨hg, fun f hf => hg.expr ht ht' hf⟩

/-- The table after a negated atom has been assumed in an environment that knows nothing. -/
def assumedTable : FormulaTable :=
  List.foldl push { atomCount := 1 } [.atom ⟨0⟩, .not ⟨0⟩, .literal true]

/-- Asking there whether the atom holds on every path leaves its negation as it is. -/
theorem assumedTable_kept :
    Relation.ReflTransGen Operates {} assumedTable ∧ assumedTable.WellFormed ∧
      assumedTable.interned.lookup (.not ⟨0⟩) = some ⟨1⟩ ∧
      (Environment.proves { values := .empty, flow := ⟨1⟩ } ⟨0⟩ assumedTable).2.expr ⟨1⟩ =
        .not (.atom ⟨0⟩) := by
  have hreach : Relation.ReflTransGen Operates {} assumedTable :=
    (((Relation.ReflTransGen.single .freshAtom).tail (.mkAtom (a := ⟨0⟩) (by decide))).tail
      (.mkNot (x := ⟨0⟩) (by decide))).tail .unknown
  obtain ⟨hwf, hfind, -, -, hkept⟩ := kept_of_operates hreach
  have hwithin : Environment.Within { values := .empty, flow := ⟨1⟩ } assumedTable :=
    ⟨by decide, by simp⟩
  refine ⟨hreach, hwf, (hfind _ _).2 rfl, ?_⟩
  rw [(hkept _ (.proves hwithin (f := ⟨0⟩) (by decide))).2 ⟨1⟩ (by decide)]
  rfl

end FormulaTable

end FlowFacts
