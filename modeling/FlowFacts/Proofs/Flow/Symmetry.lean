import FlowFacts.Proofs.Flow.Assumptions
import FlowFacts.Proofs.Flow.Formulas

/-!
# Order that does not matter

Conjunction, disjunction and equivalence look at their left operand first, and a meeting goes
through the values of its left side.  Still their operands may be exchanged.

For the connectives the result is the same formula of the same table.  Where a shortcut applies to
both orders but prefers one operand, the operands are equal: a truth value stands once in a table,
and a conjunct of a formula stands before it, so two different formulas are not conjuncts of each
other.

For meetings the formulas are different, since each order renames merge atoms to fresh atoms of its
own.  But both describe the union of the same two sides, so they bind the same values to the same
formulas and have equivalent flow conditions.

## Main results

* `mkAnd_comm`, `mkOr_comm`, `mkEquals_comm` — the operands of a connective may be exchanged.
* `connectives_symmetric` — so may they on every table that operations lead to.
* `Joined.swap` — what is known of a meeting does not depend on the order of its sides.
* `join_symmetric` — the sides of a meeting may be exchanged.
-/

namespace FlowFacts

open FormulaM FormulaTable

variable {t t₁ t₂ T : FormulaTable} {x y f g : Formula} {e₁ e₂ e' : Environment}

/-! ### Operands in order of their positions -/

theorem Formula.earlier_comm (x y : Formula) : x.earlier y = y.earlier x := by
  unfold Formula.earlier
  split
  · split
    · exact Formula.eq_of_index_eq (by omega)
    · rfl
  · rw [if_pos (by omega)]

theorem Formula.later_comm (x y : Formula) : x.later y = y.later x := by
  unfold Formula.later
  split
  · split
    · exact Formula.eq_of_index_eq (by omega)
    · rfl
  · rw [if_pos (by omega)]

namespace FormulaTable

/-- Formulas `x` and `y` that are conjuncts of each other are equal. -/
theorem WellFormed.eq_of_hasConjunct (ht : t.WellFormed) (hxy : t.hasConjunct x y = true)
    (hyx : t.hasConjunct y x = true) : x = y := by
  have hle : y.index ≤ x.index := ((hasConjunct_iff ht).1 hxy).index_le ht
  have hge : x.index ≤ y.index := ((hasConjunct_iff ht).1 hyx).index_le ht
  exact Formula.eq_of_index_eq (Nat.le_antisymm hge hle)

end FormulaTable

/-! ### Connectives -/

theorem mkAnd_comm (ht : t.WellFormed) (hx : t.Has x) (hy : t.Has y) :
    mkAnd x y t = mkAnd y x t := by
  unfold mkAnd
  -- two equal literals are one formula, and otherwise the same one of the two is taken
  cases hxl : t.literal? x with
  | some b =>
    cases hyl : t.literal? y with
    | some c =>
      cases b with
      | true =>
        cases c with
        | true => exact congrArg (·, t) (ht.eq_of_literal? hy hx hyl hxl)
        | false => rfl
      | false => cases c <;> rfl
    | none => cases b <;> rfl
  | none =>
    cases hyl : t.literal? y with
    | some c => cases c <;> rfl
    | none =>
      dsimp only
      by_cases hxy : x = y
      · rw [hxy]
      rw [if_neg hxy, if_neg (Ne.symm hxy), complementary_comm t y x, Formula.earlier_comm y x,
        Formula.later_comm y x]
      by_cases hleft : t.hasConjunct x y = true
      · -- then `x` is not a conjunct of `y`
        have hright : ¬ t.hasConjunct y x = true := fun h => hxy (ht.eq_of_hasConjunct hleft h)
        rw [if_pos hleft, if_neg hright, if_pos hleft]
      · rw [if_neg hleft, if_neg hleft]

theorem mkOr_comm (ht : t.WellFormed) (hx : t.Has x) (hy : t.Has y) :
    mkOr x y t = mkOr y x t := by
  unfold mkOr
  cases hxl : t.literal? x with
  | some b =>
    cases hyl : t.literal? y with
    | some c =>
      cases b with
      | true => cases c <;> rfl
      | false =>
        cases c with
        | true => rfl
        | false => exact congrArg (·, t) (ht.eq_of_literal? hy hx hyl hxl)
    | none => cases b <;> rfl
  | none =>
    cases hyl : t.literal? y with
    | some c => cases c <;> rfl
    | none =>
      dsimp only
      by_cases hxy : x = y
      · rw [hxy]
      · rw [if_neg hxy, if_neg (Ne.symm hxy), complementary_comm t y x, Formula.earlier_comm y x,
          Formula.later_comm y x]

theorem mkEquals_comm (ht : t.WellFormed) (hx : t.Has x) (hy : t.Has y) :
    mkEquals x y t = mkEquals y x t := by
  unfold mkEquals
  cases hxl : t.literal? x with
  | some b =>
    cases hyl : t.literal? y with
    | some c =>
      cases b with
      | true =>
        cases c with
        | true => exact congrArg (·, t) (ht.eq_of_literal? hy hx hyl hxl)
        | false => rfl
      | false =>
        cases c with
        | true => rfl
        | false => rw [ht.eq_of_literal? hx hy hxl hyl]
    | none => cases b <;> rfl
  | none =>
    cases hyl : t.literal? y with
    | some c => cases c <;> rfl
    | none =>
      dsimp only
      by_cases hxy : x = y
      · rw [hxy]
      · rw [if_neg hxy, if_neg (Ne.symm hxy), complementary_comm t y x, Formula.earlier_comm y x,
          Formula.later_comm y x]

/-- **Symmetric connectives are canonical.**  On a table `t` that operations lead to, the
conjunction, the disjunction and the equivalence of `x` and `y` are the same formulas with the
operands exchanged, and leave the same table. -/
theorem connectives_symmetric (h : Relation.ReflTransGen Operates {} t) (hx : t.Has x)
    (hy : t.Has y) :
    mkAnd x y t = mkAnd y x t ∧ mkOr x y t = mkOr y x t ∧ mkEquals x y t = mkEquals y x t := by
  have ht := wellFormed_of_operates h
  exact ⟨mkAnd_comm ht hx hy, mkOr_comm ht hx hy, mkEquals_comm ht hx hy⟩

/-- A conjunct and its conjunction, in both orders: the result is the conjunction, and nothing is
entered.  Their disjunction and equivalence are new, and the same in both orders. -/
theorem conjunct_exchanged :
    Relation.ReflTransGen Operates {} conjunctionTable ∧ conjunctionTable.Has ⟨1⟩ ∧
      conjunctionTable.Has ⟨2⟩ ∧
      mkAnd ⟨1⟩ ⟨2⟩ conjunctionTable = (⟨2⟩, conjunctionTable) ∧
      mkAnd ⟨1⟩ ⟨2⟩ conjunctionTable = mkAnd ⟨2⟩ ⟨1⟩ conjunctionTable ∧
      mkOr ⟨1⟩ ⟨2⟩ conjunctionTable = mkOr ⟨2⟩ ⟨1⟩ conjunctionTable ∧
      mkEquals ⟨1⟩ ⟨2⟩ conjunctionTable = mkEquals ⟨2⟩ ⟨1⟩ conjunctionTable := by
  obtain ⟨hand, hor, hequals⟩ :=
    connectives_symmetric reachable_conjunctionTable (x := ⟨1⟩) (y := ⟨2⟩) (by decide) (by decide)
  exact ⟨reachable_conjunctionTable, by decide, by decide, rfl, hand, hor, hequals⟩

/-! ### Meetings -/

theorem disagree_comm (e₁ e₂ : Environment) : Disagree e₁ e₂ = Disagree e₂ e₁ := by
  have hswap : ∀ {e₁ e₂ : Environment} {v : ValueId}, Disagree e₁ e₂ v → Disagree e₂ e₁ v := by
    rintro e₁ e₂ v ⟨f, g, hf, hg, hne⟩
    exact ⟨g, f, hg, hf, Ne.symm hne⟩
  funext v
  exact propext ⟨hswap, hswap⟩

theorem meetingAtom_comm (T : FormulaTable) (e₁ e₂ : Environment) :
    MeetingAtom T e₁ e₂ = MeetingAtom T e₂ e₁ := by
  funext a
  rw [MeetingAtom, MeetingAtom, disagree_comm e₁ e₂]

theorem meetingSide_comm (T : FormulaTable) (e₁ e₂ e : Environment) :
    MeetingSide T e₁ e₂ e = MeetingSide T e₂ e₁ e := by
  funext ρ
  rw [MeetingSide, MeetingSide, disagree_comm e₁ e₂]

/-- What is known of the meeting `e'` does not depend on the order of its sides. -/
theorem Joined.swap (h : Joined T e₁ e₂ e') : Joined T e₂ e₁ e' where
  atoms v hv := h.atoms v (disagree_comm e₂ e₁ ▸ hv)
  flow ρ := by rw [h.flow, or_comm, meetingSide_comm T e₁ e₂ e₁, meetingSide_comm T e₁ e₂ e₂]
  flow_atoms b hb := by
    rcases h.flow_atoms b hb with hb | hb | hb | ⟨v, f, hf, hb⟩
    · exact Or.inr (Or.inl hb)
    · exact Or.inl hb
    · exact Or.inr (Or.inr (Or.inl (meetingAtom_comm T e₁ e₂ ▸ hb)))
    · exact Or.inr (Or.inr (Or.inr ⟨v, f, hf.symm, hb⟩))
  values v g := by
    rw [h.values, disagree_comm e₁ e₂, meetingAtom_comm T e₁ e₂, and_left_comm]

/-- **Meetings are symmetric.**  Take two environments `e₁` and `e₂` of a table `t` that
operations lead to, and join them.  Later, after any operations, join them in the other order.
The two results have the same bindings, and asked after any further operations whether they say
the same, the answer is yes. -/
theorem join_symmetric (ht : Relation.ReflTransGen Operates {} t) (he₁ : e₁.Within t)
    (he₂ : e₂.Within t) (h₁ : Relation.ReflTransGen Operates (e₁.join e₂ t).2 t₁)
    (h₂ : Relation.ReflTransGen Operates (e₂.join e₁ t₁).2 t₂) :
    (e₁.join e₂ t).1.values = (e₂.join e₁ t₁).1.values ∧
      ((e₁.join e₂ t).1.equivalent (e₂.join e₁ t₁).1 t₂).1 = true ∧
      ((e₂.join e₁ t₁).1.equivalent (e₁.join e₂ t).1 t₂).1 = true := by
  obtain ⟨hleft, hg, hewithin, hejoined⟩ := yields_join (wellFormed_of_operates ht) he₁ he₂
  obtain ⟨hwf₁, hg₁⟩ := kept_of_reflTransGen hleft h₁
  obtain ⟨hright, hg', hewithin', hejoined'⟩ :=
    yields_join hwf₁ (he₂.mono (hg.trans hg₁)) (he₁.mono (hg.trans hg₁))
  obtain ⟨hwf₂, hg₂⟩ := kept_of_reflTransGen hright h₂
  generalize (e₁.join e₂ t).1 = e at *
  generalize (e₂.join e₁ t₁).1 = e' at *
  -- both meetings are described in the table in which they are compared, or in any later one
  have hg₁₂ := (hg₁.trans hg').trans hg₂
  have hsame : t₂.Henceforth fun T => SaysTheSame T e e' := by
    intro T hT hgT
    have hjoined : Joined T e₁ e₂ e := hejoined T hT (hg₁₂.trans hgT)
    have hjoined' : Joined T e₂ e₁ e' := hejoined' T hT (hg₂.trans hgT)
    exact hjoined.saysTheSame hjoined'.swap (.refl T e₁)
  obtain ⟨hT, hgT, hanswer⟩ :=
    yields_equivalent hwf₂ (hewithin.mono hg₁₂) (hewithin'.mono hg₂)
  obtain ⟨hT', hgT', hanswer'⟩ :=
    yields_equivalent hwf₂ (hewithin'.mono hg₂) (hewithin.mono hg₁₂)
  exact ⟨(hsame t₂ hwf₂ (.refl t₂)).1, (hanswer _ hT (.refl _)).2 (hsame _ hT hgT),
    (hanswer' _ hT' (.refl _)).2 (hsame _ hT' hgT').symm⟩

/-- A table with the merge atoms of two values, and the negation of the first. -/
def crossingTable : FormulaTable :=
  List.foldl push { atomCount := 2, mergeAtoms := [(⟨1⟩, ⟨1⟩), (⟨0⟩, ⟨0⟩)] }
    [.atom ⟨0⟩, .atom ⟨1⟩, .not ⟨0⟩]

/-- A side on which two values have the formulas `f` and `g`, the second of which is known to
hold; the third value is what the first was at an earlier meeting. -/
def crossingSide (f g : Formula) : Environment where
  values := ((Bindings.empty.set ⟨0⟩ f).set ⟨1⟩ g).set ⟨2⟩ ⟨0⟩
  flow := g

theorem reachable_crossingTable : Relation.ReflTransGen Operates {} crossingTable :=
  ((((Relation.ReflTransGen.single (.mergeAtom ⟨0⟩)).tail (.mergeAtom ⟨1⟩)).tail
    (.mkAtom (a := ⟨0⟩) (by decide))).tail (.mkAtom (a := ⟨1⟩) (by decide))).tail
    (.mkNot (x := ⟨0⟩) (by decide))

/-- The sides disagree about two values, and both speak of what these were at an earlier meeting.
Joined in either order they say the same. -/
theorem crossing_joined_alike :
    let left := crossingSide ⟨0⟩ ⟨1⟩
    let right := crossingSide ⟨2⟩ ⟨0⟩
    let r := left.join right crossingTable
    let r' := right.join left r.2
    Relation.ReflTransGen Operates {} crossingTable ∧ left.Within crossingTable ∧
      right.Within crossingTable ∧
      (left.disagreements right).map Environment.Disagreement.value = [⟨0⟩, ⟨1⟩] ∧
      crossingTable.mergeAtom? ⟨1⟩ = some ⟨1⟩ ∧ crossingTable.Occurs ⟨1⟩ left.flow ∧
      crossingTable.mergeAtom? ⟨0⟩ = some ⟨0⟩ ∧ crossingTable.Occurs ⟨0⟩ right.flow ∧
      r.1.values = r'.1.values ∧ (r.1.equivalent r'.1 r'.2).1 = true := by
  have hleft : (crossingSide ⟨0⟩ ⟨1⟩).Within crossingTable := by decide
  have hright : (crossingSide ⟨2⟩ ⟨0⟩).Within crossingTable := by decide
  obtain ⟨hvalues, hanswer, -⟩ := join_symmetric reachable_crossingTable hleft hright .refl .refl
  exact ⟨reachable_crossingTable, hleft, hright, by decide, rfl, rfl, rfl, rfl, hvalues, hanswer⟩

end FlowFacts
