import FlowFacts.Proofs.Logic.Formula

/-!
# Asking for a formula again

A formula is entered once.  So a constructor that is asked again for what it was asked before
gives the same formula and adds nothing to the table, however much the table has grown in the
meantime: what the constructor looks at are the entries of its operands, and these stay.

## Main definitions

* `FormulaTable.Makes` — a table has what a step asks for.
* `FormulaM.Repeats` — a step that may be asked again.

## Main results

* `repeats_mkNot`, `repeats_mkAnd`, `repeats_mkOr`, `repeats_mkEquals` — the constructors.
-/

namespace FlowFacts

namespace FormulaTable

variable {t T : FormulaTable} {f x y : Formula} {n : Node}

/-- The table `T` has the formula `f` that the step `x` asks for. -/
def Makes (T : FormulaTable) (x : FormulaM Formula) (f : Formula) : Prop := x T = (f, T)

theorem Makes.unique {x : FormulaM Formula} {f g : Formula} (hf : T.Makes x f)
    (hg : T.Makes x g) : f = g :=
  congrArg Prod.fst (hf.symm.trans hg)

/-- What is known of the step `x` is known of the formula. -/
theorem Makes.of_yields {x : FormulaM Formula} {Q : Formula → FormulaTable → Prop}
    (h : T.Makes x f) (hx : FormulaM.Yields x T Q) : Q f T := by
  have hQ := hx.2.2
  rwa [show x T = (f, T) from h] at hQ

/-! ### What constructors look at stays -/

theorem Grows.literal? (h : t.Grows T) (hf : t.Has f) : T.literal? f = t.literal? f := by
  rw [FormulaTable.literal?, FormulaTable.literal?, h.node hf]

theorem Grows.complementary (h : t.Grows T) (hx : t.Has x) (hy : t.Has y) :
    T.complementary x y = t.complementary x y := by
  rw [FormulaTable.complementary, FormulaTable.complementary, h.node hx, h.node hy]

theorem Grows.conjunctWithin (h : t.Grows T) (ht : t.WellFormed) {needle : Formula} :
    ∀ {n : Nat} {f : Formula}, t.Has f →
      T.conjunctWithin needle n f = t.conjunctWithin needle n f := by
  intro n
  induction n with
  | zero =>
    intro f _
    rfl
  | succ n ih =>
    intro f hf
    rw [FormulaTable.conjunctWithin, FormulaTable.conjunctWithin, h.node hf]
    cases hn : t.node f with
    | and x y =>
      -- the conjuncts are entries too
      have hx : t.Has x := ht.has_child (f := f) (by simp [hn, Node.children])
      have hy : t.Has y := ht.has_child (f := f) (by simp [hn, Node.children])
      simp only [ih hx, ih hy]
    | atom | literal | not | or | implies | equals => rfl

theorem Grows.hasConjunct (h : t.Grows T) (ht : t.WellFormed) (hx : t.Has x) :
    T.hasConjunct x y = t.hasConjunct x y :=
  h.conjunctWithin ht hx

end FormulaTable

namespace FormulaM

variable {α β : Type} {t : FormulaTable}

/-- If the step `x` is asked again later, it gives the same result and adds nothing. -/
def Repeats (x : FormulaM α) (t : FormulaTable) : Prop :=
  ∀ T : FormulaTable, T.WellFormed → (x t).2.Grows T → x T = ((x t).1, T)

theorem Repeats.bind {x : FormulaM α} {k : α → FormulaM β} (hx : Repeats x t)
    (hk : Repeats (k (x t).1) (x t).2) (hgrows : (x t).2.Grows (k (x t).1 (x t).2).2) :
    Repeats (x >>= k) t := by
  intro T hT hg
  have hrun : ∀ t' : FormulaTable, (x >>= k) t' = k (x t').1 (x t').2 := fun _ => rfl
  rw [hrun] at hg
  rw [hrun, hrun, hx T hT (hgrows.trans hg)]
  exact hk T hT hg

/-- What a step `x` that may be asked again leads to. -/
theorem Yields.repeated {x : FormulaM Formula} {Q : Formula → FormulaTable → Prop}
    (h : Yields x t Q) (hx : Repeats x t) :
    Yields x t fun f t' => Q f t' ∧ ∀ T : FormulaTable, T.WellFormed → t'.Grows T → T.Makes x f :=
  ⟨h.1, h.2.1, h.2.2, hx⟩

end FormulaM

open FormulaTable FormulaM

variable {t : FormulaTable} {x y : Formula}

/-! ### The constructors -/

theorem repeats_intern (ht : t.WellFormed) (n : Node) : Repeats (intern n) t := by
  intro T hT hg
  -- the index has the entry after the first time, and a larger table keeps it
  have hfind := hT.interned_iff.2 (hg.nodes (ht.getElem?_intern n))
  rw [intern.eq_1 n, hfind]

theorem repeats_mkLiteral (ht : t.WellFormed) (b : Bool) : Repeats (mkLiteral b) t :=
  repeats_intern ht (.literal b)

theorem repeats_mkNot (ht : t.WellFormed) (hx : t.Has x) : Repeats (mkNot x) t := by
  intro T hT hg
  have hgrow : t.Grows T := (yields_mkNot ht hx.means).2.1.trans hg
  unfold mkNot at hg ⊢
  rw [hgrow.node hx]
  split at hg
  · exact repeats_mkLiteral ht _ T hT hg
  · rfl
  · exact repeats_intern ht _ T hT hg

theorem repeats_mkAnd (ht : t.WellFormed) (hx : t.Has x) (hy : t.Has y) :
    Repeats (mkAnd x y) t := by
  intro T hT hg
  have hgrow : t.Grows T := (yields_mkAnd ht hx.means hy.means).2.1.trans hg
  -- the same tests have the same answers in the larger table
  unfold mkAnd at hg ⊢
  rw [hgrow.literal? hx, hgrow.literal? hy, hgrow.complementary hx hy, hgrow.hasConjunct ht hx,
    hgrow.hasConjunct ht hy]
  split at hg
  · exact repeats_mkLiteral ht _ T hT hg
  · exact repeats_mkLiteral ht _ T hT hg
  · rfl
  · rfl
  by_cases hxy : x = y
  · simp only [if_pos hxy]
  simp only [if_neg hxy] at hg ⊢
  by_cases hc : t.complementary x y
  · simp only [if_pos hc] at hg ⊢
    exact repeats_mkLiteral ht _ T hT hg
  simp only [if_neg hc] at hg ⊢
  by_cases hl : t.hasConjunct x y
  · simp only [if_pos hl]
  simp only [if_neg hl] at hg ⊢
  by_cases hr : t.hasConjunct y x
  · simp only [if_pos hr]
  simp only [if_neg hr] at hg ⊢
  exact repeats_intern ht _ T hT hg

theorem repeats_mkOr (ht : t.WellFormed) (hx : t.Has x) (hy : t.Has y) :
    Repeats (mkOr x y) t := by
  intro T hT hg
  have hgrow : t.Grows T := (yields_mkOr ht hx.means hy.means).2.1.trans hg
  unfold mkOr at hg ⊢
  rw [hgrow.literal? hx, hgrow.literal? hy, hgrow.complementary hx hy]
  split at hg
  · exact repeats_mkLiteral ht _ T hT hg
  · exact repeats_mkLiteral ht _ T hT hg
  · rfl
  · rfl
  by_cases hxy : x = y
  · simp only [if_pos hxy]
  simp only [if_neg hxy] at hg ⊢
  by_cases hc : t.complementary x y
  · simp only [if_pos hc] at hg ⊢
    exact repeats_mkLiteral ht _ T hT hg
  simp only [if_neg hc] at hg ⊢
  exact repeats_intern ht _ T hT hg

theorem repeats_mkEquals (ht : t.WellFormed) (hx : t.Has x) (hy : t.Has y) :
    Repeats (mkEquals x y) t := by
  intro T hT hg
  have hgrow : t.Grows T := (yields_mkEquals ht hx.means hy.means).2.1.trans hg
  unfold mkEquals at hg ⊢
  rw [hgrow.literal? hx, hgrow.literal? hy, hgrow.complementary hx hy]
  split at hg
  · rfl
  · rfl
  · exact repeats_mkNot ht hy T hT hg
  · exact repeats_mkNot ht hx T hT hg
  by_cases hxy : x = y
  · simp only [if_pos hxy] at hg ⊢
    exact repeats_mkLiteral ht _ T hT hg
  simp only [if_neg hxy] at hg ⊢
  by_cases hc : t.complementary x y
  · simp only [if_pos hc] at hg ⊢
    exact repeats_mkLiteral ht _ T hT hg
  simp only [if_neg hc] at hg ⊢
  exact repeats_intern ht _ T hT hg

end FlowFacts
