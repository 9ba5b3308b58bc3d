import FlowFacts.Proofs.Flow.Effect
import FlowFacts.Proofs.Flow.Operations

/-!
# Assumptions are made once

What is known to hold becomes a conjunct of the flow condition.  The condition is simplified on the
way: it may become `false`, it may be replaced by what is assumed, or a conjunct may be left out.
Through all this it goes on to *absorb* what was assumed before, so assuming that again gives the
very same condition and adds nothing to the table.

Absorption is a preorder, and a conjunction absorbs both of its operands.  That is all that a
sequence of assumptions needs.  A check assumes the formula of its condition, and binds the
condition to it if it was not bound, so a second check of the same call changes nothing either.

## Main definitions

* `FormulaTable.Conjunct` — a formula is among the conjuncts of another.
* `FormulaTable.Absorbs` — a formula is left out if it is added to another.
* `Assumes` — assumptions one after another, with other operations in between.

## Main results

* `FormulaTable.hasConjunct_iff` — the search for a conjunct finds it.
* `FormulaTable.Absorbs.trans`, `absorbs_mkAnd` — absorption is transitive, and conjunctions
  absorb their parts.
* `Assumes.absorbs` — the flow condition absorbs all that was assumed.
* `check_idempotent` — a check, and any assumption, changes nothing the second time.
-/

namespace FlowFacts

open FormulaM FormulaTable

variable {t t' T : FormulaTable} {e e₁ e' : Environment} {f x y z : Formula} {p : Program}
  {v : ValueId} {b : Bool}

/-! ### Conjuncts -/

namespace FormulaTable

/-- The formula `z` is among the conjuncts of another: it is the other, or a conjunct of an
operand of that conjunction. -/
inductive Conjunct (t : FormulaTable) (z : Formula) : Formula → Prop
  /-- It is the other. -/
  | self : Conjunct t z z
  /-- It is a conjunct of the first operand. -/
  | left {f x y : Formula} : t.node f = .and x y → Conjunct t z x → Conjunct t z f
  /-- It is a conjunct of the second operand. -/
  | right {f x y : Formula} : t.node f = .and x y → Conjunct t z y → Conjunct t z f

theorem conjunctWithin_iff (ht : t.WellFormed) : ∀ {n : Nat} {f : Formula}, f.index < n →
    (t.conjunctWithin z n f = true ↔ t.Conjunct z f) := by
  intro n
  induction n with
  | zero => exact fun hf => absurd hf (Nat.not_lt_zero _)
  | succ n ih =>
    intro f hf
    -- operands stand before the conjunction, so the bound `n` suffices for them
    have hchild : ∀ g ∈ (t.node f).children, (t.conjunctWithin z n g = true ↔ t.Conjunct z g) :=
      fun g hg => ih (Nat.lt_of_lt_of_le (ht.child_lt hg) (Nat.le_of_lt_succ hf))
    rw [conjunctWithin, Bool.or_eq_true, beq_iff_eq]
    constructor
    · rintro (rfl | h)
      · exact .self
      · split at h
        · rename_i x y hnode
          rw [hnode] at hchild
          rcases Bool.or_eq_true_iff.1 h with h | h
          · exact .left hnode ((hchild x (by simp [Node.children])).1 h)
          · exact .right hnode ((hchild y (by simp [Node.children])).1 h)
        · cases h
    · intro h
      cases h with
      | self => exact Or.inl rfl
      | left hnode h | right hnode h =>
        rw [hnode] at hchild ⊢
        exact Or.inr (by simp [(hchild _ (by simp [Node.children])).2 h])

/-- The search for a conjunct goes deep enough to find `z` wherever it stands in `f`. -/
theorem hasConjunct_iff (ht : t.WellFormed) : t.hasConjunct f z = true ↔ t.Conjunct z f :=
  conjunctWithin_iff ht (Nat.lt_succ_self _)

namespace Conjunct

theorem trans (h : t.Conjunct y x) (h' : t.Conjunct z y) : t.Conjunct z x := by
  induction h with
  | self => exact h'
  | left hnode _ ih => exact .left hnode ih
  | right hnode _ ih => exact .right hnode ih

/-- A conjunct `z` stands no later than the conjunction `f`. -/
theorem index_le (ht : t.WellFormed) (h : t.Conjunct z f) : z.index ≤ f.index := by
  have hchild : ∀ {f x y : Formula}, t.node f = .and x y →
      x.index < f.index ∧ y.index < f.index := fun {f x y} hnode =>
    ⟨ht.child_lt (f := f) (by simp [hnode, Node.children]),
      ht.child_lt (f := f) (by simp [hnode, Node.children])⟩
  induction h with
  | self => exact Nat.le_refl _
  | left hnode _ ih => exact Nat.le_trans ih (Nat.le_of_lt (hchild hnode).1)
  | right hnode _ ih => exact Nat.le_trans ih (Nat.le_of_lt (hchild hnode).2)

/-- A truth value `z` is a conjunct of itself only: operands of entries are not truth values. -/
theorem eq_of_literal (ht : t.WellFormed) (h : t.Conjunct z f) (hz : t.node z = .literal b) :
    f = z := by
  have hoperand : ∀ {f x y : Formula}, t.node f = .and x y →
      t.node x ≠ .literal b ∧ t.node y ≠ .literal b := by
    intro f x y hnode
    have hf : t.Has f := has_of_node_ne (by simp [hnode])
    have hnormal := ht.normal (getElem?_of_has hf)
    rw [hnode] at hnormal
    exact ⟨hnormal.operand x (by simp [Node.children]) b,
      hnormal.operand y (by simp [Node.children]) b⟩
  induction h with
  | self => rfl
  | left hnode _ ih => exact absurd (ih ▸ hz) (hoperand hnode).1
  | right hnode _ ih => exact absurd (ih ▸ hz) (hoperand hnode).2

theorem mono (h : t.Conjunct z f) (hg : t.Grows T) : T.Conjunct z f := by
  have hnode : ∀ {f x y : Formula}, t.node f = .and x y → T.node f = .and x y :=
    fun h => (hg.node (has_of_node_ne (by simp [h]))).trans h
  induction h with
  | self => exact .self
  | left h _ ih => exact .left (hnode h) ih
  | right h _ ih => exact .right (hnode h) ih

end Conjunct

/-! ### Absorption -/

/-- Adding `z` to `x` as a conjunct should change nothing: `x` is `false`, or `z` is `true` or a
conjunct already. -/
def Absorbs (t : FormulaTable) (x z : Formula) : Prop :=
  t.literal? x = some false ∨ t.literal? z = some true ∨ t.Conjunct z x

theorem absorbs_self (t : FormulaTable) (x : Formula) : t.Absorbs x x := Or.inr (Or.inr .self)

theorem Absorbs.mono (h : t.Absorbs x z) (hg : t.Grows T) (hx : t.Has x) (hz : t.Has z) :
    T.Absorbs x z := by
  rw [Absorbs, hg.literal? hx, hg.literal? hz]
  exact h.imp id (Or.imp id fun hconj => hconj.mono hg)

theorem literal?_of_node (h : t.node f = .literal b) : t.literal? f = some b := by
  rw [literal?, h]

theorem Absorbs.trans (ht : t.WellFormed) (h : t.Absorbs x y) (h' : t.Absorbs y z) :
    t.Absorbs x z := by
  rcases h with hx | hy | hconj
  · exact Or.inl hx
  · -- what `true` absorbs is `true`
    rcases h' with hy' | hz | hconj'
    · rw [hy] at hy'
      cases hy'
    · exact Or.inr (Or.inl hz)
    · have hyz : y = z := by
        cases hconj' with
        | self => rfl
        | left hnode | right hnode => simp [literal?, hnode] at hy
      exact Or.inr (Or.inl (hyz ▸ hy))
  · -- `y` is a conjunct of `x`, and can be `false` only if it is all of `x`
    rcases h' with hy | hz | hconj'
    · have hxy : x = y := hconj.eq_of_literal ht (node_of_literal? hy)
      exact Or.inl (hxy ▸ hy)
    · exact Or.inr (Or.inl hz)
    · exact Or.inr (Or.inr (hconj.trans hconj'))

/-- A truth value that the table has is found, so making it gives the entry `f`. -/
theorem makes_mkLiteral (ht : t.WellFormed) (hf : t.Has f) (h : t.literal? f = some b) :
    t.Makes (mkLiteral b) f := by
  have hfind := ht.interned_iff.2 (getElem?_of_has hf)
  rw [node_of_literal? h] at hfind
  rw [Makes, mkLiteral, intern, hfind]

/-- Two entries `x` and `y` for one truth value are one. -/
theorem WellFormed.eq_of_literal? (ht : t.WellFormed) (hx : t.Has x) (hy : t.Has y)
    (hxb : t.literal? x = some b) (hyb : t.literal? y = some b) : x = y :=
  (makes_mkLiteral ht hx hxb).unique (makes_mkLiteral ht hy hyb)

/-- A conjunct `z` of `x` that is not all of `x` is not its complement. -/
theorem Conjunct.not_complementary (ht : t.WellFormed) (h : t.Conjunct z x) (hne : x ≠ z) :
    t.complementary x z = false := by
  have hle := h.index_le ht
  rw [complementary, Bool.or_eq_false_iff, beq_eq_false_iff_ne, beq_eq_false_iff_ne]
  constructor
  · -- `x` is a conjunction, so it is no negation
    intro hnode
    cases h with
    | self => exact hne rfl
    | left hand | right hand => simp [hnode] at hand
  · -- the negation of `x` would stand behind `x`
    intro hnode
    have hlt : x.index < z.index := ht.child_lt (f := z) (by simp [hnode, Node.children])
    omega

/-- What `x` absorbs is left out of a conjunction with `x`. -/
theorem Absorbs.makes (ht : t.WellFormed) (hx : t.Has x) (hz : t.Has z) (h : t.Absorbs x z) :
    t.Makes (mkAnd x z) x := by
  unfold Makes mkAnd
  split
  · rename_i hfalse
    exact makes_mkLiteral ht hx hfalse
  · rename_i hfalse hnot
    -- a formula that absorbs `false` is `false`
    rcases h with hx' | hz' | hconj
    · exact absurd hx' hnot
    · rw [hfalse] at hz'
      cases hz'
    · have hxz := hconj.eq_of_literal ht (node_of_literal? hfalse)
      exact absurd (hxz ▸ hfalse) hnot
  · -- `true` absorbs only what is `true` as well
    rename_i htrue _
    have hxz : x = z := by
      rcases h with hx' | hz' | hconj
      · rw [htrue] at hx'
        cases hx'
      · exact ht.eq_of_literal? hx hz htrue hz'
      · cases hconj with
        | self => rfl
        | left hnode | right hnode => simp [literal?, hnode] at htrue
    rw [hxz]
  · rfl
  · -- neither is a truth value, so `z` is a conjunct of `x` and is found
    rename_i hxnone hznone
    have hconj : t.Conjunct z x := by
      rcases h with hx' | hz' | hconj
      · rw [hxnone] at hx'
        cases hx'
      · rw [hznone] at hz'
        cases hz'
      · exact hconj
    by_cases hxz : x = z
    · rw [if_pos hxz]
    · rw [if_neg hxz, hconj.not_complementary ht hxz, (hasConjunct_iff ht).2 hconj]
      rfl

end FormulaTable

/-- The conjunction of `x` and `y` absorbs both, however it was simplified. -/
theorem absorbs_mkAnd (ht : t.WellFormed) (hx : t.Has x) (hy : t.Has y) :
    (mkAnd x y t).2.Absorbs (mkAnd x y t).1 x ∧ (mkAnd x y t).2.Absorbs (mkAnd x y t).1 y := by
  have hfalse : ∀ z, (mkLiteral false t).2.Absorbs (mkLiteral false t).1 z := by
    intro z
    obtain ⟨-, -, -, hnode⟩ := yields_intern ht (n := .literal false) (by simp [Node.children])
      (normal_of_children rfl) (by simp)
    exact Or.inl (literal?_of_node hnode)
  unfold mkAnd
  split
  · exact ⟨hfalse x, hfalse y⟩
  · exact ⟨hfalse x, hfalse y⟩
  · rename_i htrue _
    exact ⟨Or.inr (Or.inl htrue), absorbs_self t y⟩
  · rename_i htrue _ _
    exact ⟨absorbs_self t x, Or.inr (Or.inl htrue)⟩
  rename_i hxnone hynone
  split_ifs with hxy hc hl hr
  · exact ⟨absorbs_self t x, hxy ▸ absorbs_self t x⟩
  · exact ⟨hfalse x, hfalse y⟩
  · exact ⟨absorbs_self t x, Or.inr (Or.inr ((hasConjunct_iff ht).1 hl))⟩
  · exact ⟨Or.inr (Or.inr ((hasConjunct_iff ht).1 hr)), absorbs_self t y⟩
  · -- a new entry has both as operands, in one order or the other
    have hchildren : ∀ z ∈ (Node.and (x.earlier y) (x.later y)).children, t.Has z := by
      rcases earlier_later x y with ⟨h₁, h₂⟩ | ⟨h₁, h₂⟩ <;>
        simp [Node.children, h₁, h₂, hx, hy]
    obtain ⟨-, -, -, hnode⟩ := yields_intern ht hchildren
      (normal_of_sorted hxnone hynone hxy hc rfl) (by simp)
    rcases earlier_later x y with ⟨h₁, h₂⟩ | ⟨h₁, h₂⟩ <;> rw [h₁, h₂] at hnode ⊢
    · exact ⟨Or.inr (Or.inr (.left hnode .self)), Or.inr (Or.inr (.right hnode .self))⟩
    · exact ⟨Or.inr (Or.inr (.right hnode .self)), Or.inr (Or.inr (.left hnode .self))⟩

/-! ### Assumptions one after another -/

/-- The environment `e` assumes formulas one after another; in between, other operations may grow
the table. -/
inductive Assumes (t : FormulaTable) (e : Environment) :
    List Formula → FormulaTable → Environment → Prop
  /-- Nothing is assumed yet. -/
  | nil : Assumes t e [] t e
  /-- Something else is done. -/
  | operate {fs : List Formula} {t₁ t₂ : FormulaTable} {e₁ : Environment} :
      Assumes t e fs t₁ e₁ → t₁.Operates t₂ → Assumes t e fs t₂ e₁
  /-- A formula is assumed. -/
  | assume {fs : List Formula} {f : Formula} {t₁ t₂ : FormulaTable} {e₁ e₂ : Environment} :
      Assumes t e fs t₁ e₁ → t₁.Has f → e₁.assume f t₁ = (e₂, t₂) →
      Assumes t e (fs ++ [f]) t₂ e₂

/-- Assuming `f` changes nothing if the flow condition of `e` absorbs it. -/
theorem Environment.assume_eq_self (ht : t.WellFormed) (he : e.Within t) (hf : t.Has f)
    (h : t.Absorbs e.flow f) : e.assume f t = (e, t) := by
  have hmakes : mkAnd e.flow f t = (e.flow, t) := h.makes ht he.flow hf
  show ({ e with flow := (mkAnd e.flow f t).1 }, (mkAnd e.flow f t).2) = (e, t)
  rw [hmakes]

/-- After `f` was assumed the flow condition absorbs it, and the flow condition of before. -/
theorem absorbs_assume (ht : t.WellFormed) (he : e.Within t) (hf : t.Has f) :
    (e.assume f t).2.Absorbs (e.assume f t).1.flow e.flow ∧
      (e.assume f t).2.Absorbs (e.assume f t).1.flow f :=
  absorbs_mkAnd ht he.flow hf

/-- All the formulas `fs` that were assumed are absorbed, and stay so. -/
theorem Assumes.absorbs {fs : List Formula} (ht : t.WellFormed) (he : e.Within t)
    (h : Assumes t e fs t' e') : t'.WellFormed ∧ e'.Within t' ∧
      ∀ f ∈ fs, t'.Has f ∧ t'.Absorbs e'.flow f := by
  induction h with
  | nil => exact ⟨ht, he, by simp⟩
  | operate _ hoperates ih =>
    obtain ⟨ht₁, he₁, hfs⟩ := ih
    obtain ⟨ht₂, hg⟩ := hoperates.kept ht₁
    exact ⟨ht₂, he₁.mono hg, fun f hf =>
      ⟨hg.has (hfs f hf).1, (hfs f hf).2.mono hg he₁.flow (hfs f hf).1⟩⟩
  | @assume fs g t₁ t₂ e₁ e₂ _ hg hassume ih =>
    obtain ⟨ht₁, he₁, hfs⟩ := ih
    obtain ⟨ht₂, hgrows, he₂, -⟩ := yields_assume ht₁ he₁ hg
    obtain ⟨hflow, hnew⟩ := absorbs_assume ht₁ he₁ hg
    rw [hassume] at ht₂ hgrows he₂ hflow hnew
    refine ⟨ht₂, he₂, fun f hf => ?_⟩
    rcases List.mem_append.1 hf with hf | hf
    · -- the new condition absorbs the old one, which absorbs what was assumed before
      obtain ⟨hhas, hold⟩ := hfs f hf
      exact ⟨hgrows.has hhas, hflow.trans ht₂ (hold.mono hgrows he₁.flow hhas)⟩
    · rw [List.mem_singleton] at hf
      subst hf
      exact ⟨hgrows.has hg, hnew⟩

/-! ### Checks -/

/-- If `f` was found for the condition `v`, it is found the next time, also if more is assumed by
then. -/
theorem Fetched.conditionFormula_eq (h : Fetched T p e v (some f) e₁)
    (hvalues : e'.values = e₁.values) : conditionFormula p e' v T = ((f, e'), T) := by
  have hbound : e₁.values.get? v = some f → conditionFormula p e' v T = ((f, e'), T) := by
    intro hget
    rw [← hvalues] at hget
    unfold conditionFormula operandFormula
    rw [hget]
    rfl
  cases h with
  -- a formula that was found is bound from then on, unless `v` is a constant
  | bound hget => exact hbound hget
  | @constant b _ hget hconst _ hmakes =>
    rw [← hvalues] at hget
    unfold conditionFormula operandFormula
    rw [hget, hconst]
    show (((mkLiteral b T).1, e'), (mkLiteral b T).2) = ((f, e'), T)
    rw [hmakes]
  | renewed _ _ _ hrenewed => exact hbound ((hrenewed.values v f).2 (Or.inl ⟨rfl, rfl⟩))

/-- An effect assumes the formula of its condition `cond`. -/
theorem afterEffect_of_condition {args : List ValueId} {effect : Option Nat} {cond : ValueId}
    (hcond : (effect.bind fun i => args[i]?) = some cond) (e : Environment) (t : FormulaTable) :
    afterEffect p args e effect t = (conditionFormula p e cond t).1.2.assume
      (conditionFormula p e cond t).1.1 (conditionFormula p e cond t).2 := by
  unfold afterEffect
  rw [hcond]
  rfl

/-- What an `effect` adds to `e` is there the next time. -/
theorem afterEffect_again (ht : t.WellFormed) (he : e.Within t) {args : List ValueId}
    {effect : Option Nat}
    (hbool : ∀ cond, (effect.bind fun i => args[i]?) = some cond → p.isBool cond = true) :
    afterEffect p args (afterEffect p args e effect t).1 effect
      (afterEffect p args e effect t).2 = afterEffect p args e effect t := by
  cases hcond : effect.bind fun i => args[i]? with
  | none =>
    unfold afterEffect
    rw [hcond]
    rfl
  | some cond =>
    obtain ⟨ht₁, -, he₁, hf, hfetched⟩ := yields_conditionFormula ht he (hbool cond hcond)
    rw [afterEffect_of_condition hcond e t]
    generalize conditionFormula p e cond t = found at ht₁ he₁ hf hfetched ⊢
    obtain ⟨⟨f, e₁⟩, t₁⟩ := found
    obtain ⟨ht₂, hg₂, he₂, hassumed⟩ := yields_assume ht₁ he₁ hf
    have habsorbs := (absorbs_assume ht₁ he₁ hf).2
    dsimp only
    generalize e₁.assume f t₁ = after at ht₂ hg₂ he₂ hassumed habsorbs ⊢
    obtain ⟨e₂, t₂⟩ := after
    -- the condition has the formula that it had, and this formula is absorbed
    have hagain : conditionFormula p e₂ cond t₂ = ((f, e₂), t₂) :=
      (hfetched t₂ ht₂ hg₂).conditionFormula_eq (hassumed t₂ ht₂ (.refl t₂)).values
    rw [afterEffect_of_condition hcond, hagain]
    exact Environment.assume_eq_self ht₂ he₂ (hg₂.has hf) habsorbs

/-- What `m` knows after the instruction `v` is not added again when `v` is looked at once more. -/
theorem CheckModel.known_again (m : CheckModel) (p : Program) (v : ValueId) (ht : t.WellFormed)
    (he : e.Within t) :
    m.known p v (m.known p v e t).1 (m.known p v e t).2 = m.known p v e t := by
  unfold CheckModel.known
  cases p.operation? v with
  | none => rfl
  | some op =>
    cases op with
    | call callee args =>
      refine afterEffect_again ht he fun cond hcond => ?_
      obtain ⟨i, heffect, hi⟩ := Option.bind_eq_some_iff.1 hcond
      obtain ⟨-, -, -, -, -, cond', hi', hbool⟩ := Catalogue.effect?_eq_some_iff.1 heffect
      rw [hi] at hi'
      cases hi'
      exact hbool
    | _ => rfl

/-- **Checks and assumptions are made once.**  Whatever the program `p`, the instruction `v` and
the model `m` of checks, what the model adds to an environment it does not add again: the second
time it leaves the bindings, the flow condition and the table as they are.  So does the
assumption of a formula that was assumed before, at any time. -/
theorem check_idempotent (h : Relation.ReflTransGen Operates {} t) (he : e.Within t) :
    (∀ (m : CheckModel) (p : Program) (v : ValueId) (events events₁ : Array Event) e' t',
      m.model.refine p v e events t = ((e', events₁), t') →
        ∃ events₂, m.model.refine p v e' events₁ t' = ((e', events₂), t')) ∧
    ∀ fs t' e', Assumes t e fs t' e' → ∀ f ∈ fs, e'.assume f t' = (e', t') := by
  have ht := wellFormed_of_operates h
  constructor
  · intro m p v events events₁ e' t' hfirst
    -- looking at the instruction does what the model knows of it, and logs it
    have hknown := does_refine m p v e events t
    rw [hfirst] at hknown
    have hagain := m.known_again p v ht he
    rw [← hknown.1, ← hknown.2] at hagain
    have hsecond := does_refine m p v e' events₁ t'
    rw [hagain, ← hknown.1, ← hknown.2] at hsecond
    exact ⟨(m.model.refine p v e' events₁ t').1.2, Prod.ext (Prod.ext hsecond.1 rfl) hsecond.2⟩
  · intro fs t' e' hassumes f hf
    obtain ⟨ht', he', habsorbs⟩ := hassumes.absorbs ht he
    obtain ⟨hhas, habsorbed⟩ := habsorbs f hf
    exact Environment.assume_eq_self ht' he' hhas habsorbed

/-- Nothing is bound, and the first of two atoms is known to hold. -/
def firstHolds : Environment where
  values := .empty
  flow := ⟨0⟩

/-- A check of a value that has no formula gives it one and assumes it; the same check changes
nothing then.  Nor does the second atom, once it was assumed and the first one after it. -/
theorem second_atom_assumed_once :
    Relation.ReflTransGen Operates {} atomPairTable ∧ firstHolds.Within atomPairTable ∧
      (∃ e' events₁ t', alikeModel.model.refine alikeProgram ⟨6⟩ firstHolds #[] atomPairTable =
          ((e', events₁), t') ∧ e'.values.get? ⟨4⟩ = some ⟨2⟩ ∧ e'.flow = ⟨3⟩ ∧
        ∃ events₂, alikeModel.model.refine alikeProgram ⟨6⟩ e' events₁ t' =
          ((e', events₂), t')) ∧
      ∃ t' e', Assumes atomPairTable firstHolds [⟨1⟩, ⟨0⟩] t' e' ∧ e'.flow = ⟨2⟩ ∧
        e'.assume ⟨1⟩ t' = (e', t') := by
  have hwithin : firstHolds.Within atomPairTable := by decide
  obtain ⟨hcheck, hassume⟩ := check_idempotent reachable_atomPairTable hwithin
  refine ⟨reachable_atomPairTable, hwithin, ⟨_, _, _, rfl, by decide, by decide,
    hcheck alikeModel alikeProgram ⟨6⟩ #[] _ _ _ rfl⟩, ?_⟩
  have hassumes : Assumes atomPairTable firstHolds [⟨1⟩, ⟨0⟩] _ _ :=
    (Assumes.nil.assume (f := ⟨1⟩) (by decide) rfl).assume (f := ⟨0⟩) (by decide) rfl
  exact ⟨_, _, hassumes, by decide, hassume _ _ _ hassumes ⟨1⟩ (by decide)⟩

end FlowFacts
