import FlowFacts.Proofs.Flow.Operations

/-!
# Formulas say what they were built to say

The constructors of formulas simplify on the way, substitution rebuilds a formula through them,
and elimination does so twice.  Whatever form the results take, they mean what was asked for: a
connective of the operands, a formula under the values of what its atoms are replaced by, a
formula with one of its atoms quantified away.

Environments eliminate an atom when a value is defined anew, since the atom stands for the new
instance from then on.  Of what the flow condition implied, exactly that is left which can be said
without the atom.

## Main definitions

* `FormulaM.Gives` — steps give a formula with a truth value.
* `FormulaTable.Entails` — what follows from a formula.

## Main results

* `connectives_exact` — the constructors compute their connectives.
* `substitute_exact` — substitution is simultaneous.
* `eliminate_exact` — elimination is the existential quantifier, and a new instance of a value
  takes away what was said about the old one and nothing else.
-/

namespace FlowFacts

open FormulaM FormulaTable

variable {t T : FormulaTable} {e e' : Environment} {f g : Formula} {a b : Atom} {v : ValueId}
  {σ : Substitution}

/-! ### Connectives -/

/-- From the table `t`, the steps give a formula with the truth value `value` under every
assignment, and formulas that were there before keep theirs. -/
structure FormulaM.Gives (step : FormulaM Formula) (t : FormulaTable)
    (value : (Atom → Bool) → Bool) : Prop where
  /-- The formula is in the table in which the steps end. -/
  has : (step t).2.Has (step t).1
  /-- Its truth value there. -/
  holds : ∀ ρ, (step t).2.holds ρ (step t).1 = value ρ
  /-- The truth values of the others. -/
  kept : ∀ ρ f, t.Has f → (step t).2.holds ρ f = t.holds ρ f

theorem FormulaM.Yields.gives {step : FormulaM Formula} {φ : (Atom → Bool) → Bool} {S : Set Atom}
    (h : Yields step t fun f t' => t'.Means f φ S) (ht : t.WellFormed) : Gives step t φ := by
  obtain ⟨ht', hg, hmeans⟩ := h
  exact ⟨hmeans.has, hmeans.holds, fun ρ f hf => hg.holds ht ht' hf⟩

/-- **The constructors compute their connectives**, whatever the operands in `t` look like and
however the result is simplified.  The conjunction of no formulas is true. -/
theorem connectives_exact (h : Relation.ReflTransGen Operates {} t) :
    (∀ x, t.Has x → Gives (mkNot x) t fun ρ => !t.holds ρ x) ∧
    (∀ x y, t.Has x → t.Has y →
      (Gives (mkAnd x y) t fun ρ => t.holds ρ x && t.holds ρ y) ∧
      (Gives (mkOr x y) t fun ρ => t.holds ρ x || t.holds ρ y) ∧
      (Gives (mkImplies x y) t fun ρ => !t.holds ρ x || t.holds ρ y) ∧
      Gives (mkEquals x y) t fun ρ => t.holds ρ x == t.holds ρ y) ∧
    ∀ fs, (∀ f ∈ fs, t.Has f) → Gives (mkAndAll fs) t fun ρ => fs.all (t.holds ρ) := by
  have ht := wellFormed_of_operates h
  refine ⟨fun x hx => ?_, fun x y hx hy => ⟨?_, ?_, ?_, ?_⟩, fun fs hfs => ?_⟩
  · exact (yields_mkNot ht hx.means).gives ht
  · exact (yields_mkAnd ht hx.means hy.means).gives ht
  · exact (yields_mkOr ht hx.means hy.means).gives ht
  · exact (yields_mkImplies ht hx.means hy.means).gives ht
  · exact (yields_mkEquals ht hx.means hy.means).gives ht
  · exact (yields_mkAndAll ht hfs).gives ht

/-- A table with the conjunction of two atoms. -/
def conjunctionTable : FormulaTable := atomPairTable.push (.and ⟨0⟩ ⟨1⟩)

theorem reachable_conjunctionTable : Relation.ReflTransGen Operates {} conjunctionTable :=
  reachable_atomPairTable.tail (.mkAnd (x := ⟨0⟩) (y := ⟨1⟩) (by decide) (by decide))

/-- A conjunct adds nothing to the conjunction: the latter is the result, and its value is the
right one. -/
theorem conjunct_adds_nothing :
    Relation.ReflTransGen Operates {} conjunctionTable ∧ conjunctionTable.Has ⟨2⟩ ∧
      conjunctionTable.Has ⟨1⟩ ∧
      mkAnd ⟨2⟩ ⟨1⟩ conjunctionTable = (⟨2⟩, conjunctionTable) ∧
      (Gives (mkAnd ⟨2⟩ ⟨1⟩) conjunctionTable fun ρ => ρ ⟨0⟩ && ρ ⟨1⟩ && ρ ⟨1⟩) ∧
      Gives (mkAndAll []) conjunctionTable fun _ => true := by
  obtain ⟨-, hbinary, hall⟩ := connectives_exact reachable_conjunctionTable
  exact ⟨reachable_conjunctionTable, by decide, by decide, rfl,
    (hbinary ⟨2⟩ ⟨1⟩ (by decide) (by decide)).1, hall [] (by simp)⟩

/-! ### Substitution -/

/-- The atoms that `a` is replaced by: those of its replacement, or itself if it has none. -/
theorem Substitution.mem_atoms : b ∈ σ.atoms t a ↔
    σ.lookup a = none ∧ b = a ∨ ∃ g, σ.lookup a = some g ∧ t.Occurs b g := by
  rw [Substitution.atoms]
  cases σ.lookup a with
  | none => simp
  | some g => simp

/-- **Substitution is simultaneous.**  The result has the value that `f` has under the assignment
that gives every replaced atom the value of its replacement.  Its atoms are atoms of `f` that are
not replaced, and atoms of replacements of such that are. -/
theorem substitute_exact (h : Relation.ReflTransGen Operates {} t) (hf : t.Has f)
    (hσ : σ.Within t) :
    (Gives (substitute f σ) t fun ρ => t.holds (σ.act t ρ) f) ∧
    ∀ b, (substitute f σ t).2.Occurs b (substitute f σ t).1 →
      t.Occurs b f ∧ σ.lookup b = none ∨
        ∃ a g, t.Occurs a f ∧ σ.lookup a = some g ∧ t.Occurs b g := by
  have ht := wellFormed_of_operates h
  have hresult := yields_substitute ht hf hσ
  refine ⟨FormulaM.Yields.gives hresult ht, fun b hb => ?_⟩
  obtain ⟨a, ha, hba⟩ := hresult.2.2.occurs hb
  rcases Substitution.mem_atoms.1 hba with ⟨hnone, rfl⟩ | ⟨g, hg, hbg⟩
  · exact Or.inl ⟨ha, hnone⟩
  · exact Or.inr ⟨a, g, ha, hg, hbg⟩

/-- A table with an implication between two atoms and the negation of the first. -/
def implicationTable : FormulaTable :=
  List.foldl push atomPairTable [.implies ⟨0⟩ ⟨1⟩, .not ⟨0⟩]

theorem reachable_implicationTable : Relation.ReflTransGen Operates {} implicationTable :=
  (reachable_atomPairTable.tail
    (.mkImplies (x := ⟨0⟩) (y := ⟨1⟩) (by decide) (by decide))).tail
    (.mkNot (x := ⟨0⟩) (by decide))

/-- The first atom of an implication becomes the second, and the second the negation of the first.
The replacements are not replaced again. -/
theorem implication_exchanged :
    let σ : Substitution := [(⟨0⟩, ⟨1⟩), (⟨1⟩, ⟨3⟩)]
    Relation.ReflTransGen Operates {} implicationTable ∧ implicationTable.Has ⟨2⟩ ∧
      σ.Within implicationTable ∧
      Gives (substitute ⟨2⟩ σ) implicationTable fun ρ => !ρ ⟨1⟩ || !ρ ⟨0⟩ := by
  intro σ
  have hσ : σ.Within implicationTable := Substitution.within_of_mem (by decide)
  exact ⟨reachable_implicationTable, by decide, hσ,
    (substitute_exact reachable_implicationTable (f := ⟨2⟩) (by decide) hσ).1⟩

/-! ### Elimination -/

/-- The formula `f` of the table is true only where the written-out formula `x` is. -/
def FormulaTable.Entails (t : FormulaTable) (f : Formula) (x : Expr) : Prop :=
  ∀ ρ, t.holds ρ f = true → x.eval ρ = true

theorem FormulaTable.Grows.entails {x : Expr} (hg : t.Grows T) (ht : t.WellFormed)
    (hT : T.WellFormed) (hf : t.Has f) : T.Entails f x ↔ t.Entails f x :=
  forall_congr' fun ρ => by rw [hg.holds ht hT hf]

namespace Renewed

/-- What can be said without the atom `a` follows afterwards if it followed before. -/
theorem entails_iff (h : Renewed T e v a f e') {x : Expr} (hx : ¬ x.Mentions a) :
    T.Entails e'.flow x ↔ T.Entails e.flow x := by
  constructor
  · intro hnew ρ hρ
    exact hnew ρ (h.holds_flow hρ)
  · intro hold ρ hρ
    obtain ⟨b, hb⟩ := (h.flow ρ).1 hρ
    -- the value of the atom may have been another one, but nothing of this shows in `x`
    rw [← Expr.eval_update hx b]
    exact hold _ hb

/-- The new flow condition is itself a consequence of the old one that does not mention `a`, so
all that follows from it follows from such a consequence. -/
theorem exists_entailed (h : Renewed T e v a f e') {x : Expr} (hx : T.Entails e'.flow x) :
    ∃ y : Expr, ¬ y.Mentions a ∧ T.Entails e.flow y ∧ ∀ ρ, y.eval ρ = true → x.eval ρ = true :=
  ⟨T.expr e'.flow, fun ha => (h.flow_atoms a ha).2 rfl, fun _ hρ => h.holds_flow hρ, hx⟩

end Renewed

/-- **Elimination is the existential quantifier.**  An assignment satisfies the result exactly if
one of the two values of the atom `a` makes the formula `f` true; the atom no longer occurs, and
no other one is new.

Let now a value `v` be defined anew in an environment `e`.  It is bound to its atom, which does
not occur in the new flow condition.  A formula that does not mention the atom follows from the
new flow condition exactly if it followed from the old one, and whatever else follows is a
consequence of one of these.  Of the other values, those keep their formulas in which the atom
does not occur. -/
theorem eliminate_exact (h : Relation.ReflTransGen Operates {} t) :
    (∀ f a, t.Has f →
      (Gives (eliminate f a) t fun ρ =>
        t.holds (Function.update ρ a true) f || t.holds (Function.update ρ a false) f) ∧
      ∀ b, (eliminate f a t).2.Occurs b (eliminate f a t).1 → t.Occurs b f ∧ b ≠ a) ∧
    ∀ (e : Environment) (v : ValueId), e.Within t →
      ∃ (a : Atom) (g : Formula) (e' : Environment) (T : FormulaTable),
      e.renew v t = ((g, e'), T) ∧
      T.valueAtom? v = some a ∧ T.expr g = .atom a ∧ e'.values.get? v = some g ∧
      ¬ T.Occurs a e'.flow ∧
      (∀ x, ¬ x.Mentions a → (T.Entails e'.flow x ↔ t.Entails e.flow x)) ∧
      (∀ x, T.Entails e'.flow x → ∃ y : Expr, ¬ y.Mentions a ∧ t.Entails e.flow y ∧
        ∀ ρ, y.eval ρ = true → x.eval ρ = true) ∧
      ∀ w, w ≠ v → ∀ k, e'.values.get? w = some k ↔
        e.values.get? w = some k ∧ ¬ t.Occurs a k := by
  have ht := wellFormed_of_operates h
  refine ⟨fun f a hf => ?_, fun e v he => ?_⟩
  · have hresult := yields_eliminate ht hf.means a
    exact ⟨hresult.gives ht, fun b hb => hresult.2.2.occurs hb⟩
  · obtain ⟨hT, hg, -, hrenewed⟩ := yields_renew ht he v
    generalize e.renew v t = r at hT hg hrenewed
    obtain ⟨⟨g, e'⟩, T⟩ := r
    obtain ⟨a, hrenewed⟩ := hrenewed T hT (.refl T)
    -- the old flow condition says the same in both tables
    have hold : ∀ x, T.Entails e.flow x ↔ t.Entails e.flow x := fun x =>
      hg.entails ht hT he.flow
    refine ⟨a, g, e', T, rfl, hrenewed.atom, ?_, (hrenewed.values v g).2 (Or.inl ⟨rfl, rfl⟩),
      fun ha => (hrenewed.flow_atoms a ha).2 rfl, fun x hx => ?_, fun x hx => ?_,
      fun w hw k => ?_⟩
    · rw [expr_eq hT, hrenewed.formula]
      rfl
    · rw [hrenewed.entails_iff hx, hold]
    · obtain ⟨y, hy, hentails, himplies⟩ := hrenewed.exists_entailed hx
      exact ⟨y, hy, (hold y).1 hentails, himplies⟩
    · rw [hrenewed.values]
      simp only [hw, false_and, false_or, ne_eq, not_false_eq_true, true_and]
      exact and_congr_right fun hk => not_congr (hg.occurs ht hT (he.values w k hk))

/-- A table with the equivalence of two atoms and its conjunction with the first. -/
def renewalTable : FormulaTable :=
  List.foldl push { atomCount := 2, valueAtoms := [(⟨0⟩, ⟨0⟩)] }
    [.atom ⟨0⟩, .atom ⟨1⟩, .equals ⟨0⟩ ⟨1⟩, .and ⟨0⟩ ⟨2⟩]

/-- An environment in which the first atom is known to be true and equivalent to the second. -/
def renewalStart : Environment where
  values := ((Bindings.empty.set ⟨0⟩ ⟨0⟩).set ⟨1⟩ ⟨1⟩).set ⟨2⟩ ⟨2⟩
  flow := ⟨3⟩

theorem reachable_renewalTable : Relation.ReflTransGen Operates {} renewalTable :=
  (((((Relation.ReflTransGen.single (.valueAtom ⟨0⟩)).tail .freshAtom).tail
    (.mkAtom (a := ⟨0⟩) (by decide))).tail (.mkAtom (a := ⟨1⟩) (by decide))).tail
    (.mkEquals (x := ⟨0⟩) (y := ⟨1⟩) (by decide) (by decide))).tail
    (.mkAnd (x := ⟨2⟩) (y := ⟨0⟩) (by decide) (by decide))

theorem renewalStart_within : renewalStart.Within renewalTable := by decide

/-- When the first value is defined anew, the second is still known to be true and keeps its
formula.  Nothing is known of the first, and the value that was the equivalence is not bound. -/
theorem renewal_keeps_second :
    Relation.ReflTransGen Operates {} renewalTable ∧ renewalStart.Within renewalTable ∧
      (Gives (eliminate ⟨3⟩ ⟨0⟩) renewalTable fun ρ => ρ ⟨1⟩) ∧
      ∃ g e' T, renewalStart.renew ⟨0⟩ renewalTable = ((g, e'), T) ∧
        T.Entails e'.flow (.atom ⟨1⟩) ∧ ¬ T.Entails e'.flow (.atom ⟨0⟩) ∧
        e'.values.get? ⟨1⟩ = some ⟨1⟩ ∧ e'.values.get? ⟨2⟩ = none := by
  have ht := wellFormed_of_operates reachable_renewalTable
  have hstart : ∀ ρ, renewalTable.holds ρ ⟨3⟩ = (ρ ⟨0⟩ && (ρ ⟨0⟩ == ρ ⟨1⟩)) := fun _ => rfl
  obtain ⟨helim, hrenew⟩ := eliminate_exact reachable_renewalTable
  obtain ⟨a, g, e', T, hr, ha, -, -, -, hiff, hexists, hvalues⟩ :=
    hrenew renewalStart ⟨0⟩ renewalStart_within
  have hg : renewalTable.Grows (renewalStart.renew ⟨0⟩ renewalTable).2 :=
    (yields_renew ht renewalStart_within ⟨0⟩).2.1
  rw [hr] at hg
  obtain rfl : a = ⟨0⟩ := Option.some.inj (ha.symm.trans (hg.valueAtom rfl))
  refine ⟨reachable_renewalTable, renewalStart_within, ?_, g, e', T, hr, ?_, fun hfirst => ?_,
    ?_, ?_⟩
  · have hvalue := (helim ⟨3⟩ ⟨0⟩ (by decide)).1
    refine ⟨hvalue.has, fun ρ => (hvalue.holds ρ).trans ?_, hvalue.kept⟩
    simp [hstart]
  · refine (hiff (.atom ⟨1⟩) (by simp [Expr.Mentions])).2 fun ρ hρ => ?_
    obtain ⟨htrue, heq⟩ := Bool.and_eq_true_iff.1 ((hstart ρ).symm.trans hρ)
    exact (eq_of_beq heq).symm.trans htrue
  · -- a consequence that says nothing of the first atom cannot imply it
    obtain ⟨y, hy, hentails, himplies⟩ := hexists _ hfirst
    have htrue : y.eval (fun _ => true) = true := hentails _ rfl
    rw [← Expr.eval_update hy false] at htrue
    simpa [Expr.eval] using himplies _ htrue
  · have hother : (⟨1⟩ : Atom) ≠ ⟨0⟩ := by decide
    exact (hvalues ⟨1⟩ (by decide) ⟨1⟩).2 ⟨rfl, hother⟩
  · refine Option.eq_none_iff_forall_ne_some.2 fun k hk => ?_
    obtain ⟨hk, hnot⟩ := (hvalues ⟨2⟩ (by decide) k).1 hk
    obtain rfl : k = ⟨2⟩ := Option.some.inj (hk.symm.trans rfl)
    exact hnot (Or.inl rfl)

end FlowFacts
