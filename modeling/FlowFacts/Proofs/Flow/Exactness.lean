import FlowFacts.Proofs.Flow.Operations

/-!
# Edges and meetings are exact

Passing values along an edge and joining two environments neither lose nor add knowledge.  After
an edge the flow condition describes a simultaneous assignment: the atoms of the parameters have
the values that the passed formulas had before, however these refer to the parameters themselves.
After a meeting it describes the union of the two sides, where the merge atom of a value that the
sides bind differently is assigned what the value was on its side.  Both hold although the atoms
that get a new meaning may be in use: their old meanings are what is quantified over.

The statements are about the table in which the step ends.  A formula of the table in which it
starts means the same there, so they speak of one table only.

## Main results

* `bind_exact` — an edge is a simultaneous assignment to the parameters.
* `join_exact` — a meeting is the union of its sides.
-/

namespace FlowFacts

open FormulaM FormulaTable

variable {t : FormulaTable} {e e₁ e₂ : Environment} {params : List (ValueId × Option Formula)}

/-! ### Edges -/

/-- **An edge is a simultaneous assignment.**  Let different parameters `params` be bound in `e`
to formulas of its table `t`, or to nothing.  Then every parameter is bound to its own atom.  Of
the other values those keep their formulas in which no atom of a parameter occurs.  An assignment
satisfies the new flow condition exactly if there is one that satisfies the old flow condition,
differs on atoms of parameters at most, and gives every formula that is passed the value that the
atom of its parameter has now. -/
theorem bind_exact (ht : Relation.ReflTransGen Operates {} t) (he : e.Within t)
    (hparams : ∀ v f, (v, some f) ∈ params → t.Has f) (hnodup : (params.map Prod.fst).Nodup) :
    let e' := (e.bind params t).1
    let T := (e.bind params t).2
    (∀ v ∈ params.map Prod.fst, ∃ a g,
      T.valueAtom? v = some a ∧ T.expr g = .atom a ∧ e'.values.get? v = some g) ∧
    (∀ v ∉ params.map Prod.fst, ∀ g, e'.values.get? v = some g ↔ e.values.get? v = some g ∧
      ∀ w ∈ params.map Prod.fst, ∀ a, T.valueAtom? w = some a → ¬ T.Occurs a g) ∧
    ∀ ρ, T.holds ρ e'.flow = true ↔ ∃ ρ₀, T.holds ρ₀ e.flow = true ∧
      (∀ a, (∀ v ∈ params.map Prod.fst, T.valueAtom? v ≠ some a) → ρ₀ a = ρ a) ∧
      ∀ v f a, (v, some f) ∈ params → T.valueAtom? v = some a → ρ a = T.holds ρ₀ f := by
  intro e' T
  obtain ⟨hT, -, -, hbound⟩ := yields_bind (wellFormed_of_operates ht) he hnodup hparams
  have hbound : BoundTo T e params e' := hbound T hT (.refl T)
  refine ⟨fun v hv => ?_, fun v hv g => ?_, fun ρ => ?_⟩
  · obtain ⟨a, g, ha, hg⟩ := hbound.atoms v hv
    refine ⟨a, g, ha, ?_, (hbound.values v g).2 (Or.inl ⟨hv, a, ha, hg⟩)⟩
    rw [expr_eq hT, hg]
    rfl
  · rw [hbound.values]
    constructor
    · rintro (⟨hv', -⟩ | ⟨-, hg, hnot⟩)
      · exact absurd hv' hv
      · exact ⟨hg, fun w hw a ha => hnot a ⟨w, hw, ha⟩⟩
    · rintro ⟨hg, hnot⟩
      refine Or.inr ⟨hv, hg, ?_⟩
      rintro a ⟨w, hw, ha⟩
      exact hnot w hw a ha
  · rw [hbound.flow]
    refine exists_congr fun ρ₀ => and_congr_right fun _ => ?_
    rw [and_comm]
    refine and_congr_right fun _ => ?_
    constructor
    · intro h v f a hf ha
      exact h v a f (List.mem_map.2 ⟨_, hf, rfl⟩) ha hf
    · intro h v a f _ ha hf
      exact h v f a hf ha

/-- A table with two values, of which the first is negated. -/
def exchangeTable : FormulaTable :=
  List.foldl push { atomCount := 2, valueAtoms := [(⟨1⟩, ⟨1⟩), (⟨0⟩, ⟨0⟩)] }
    [.atom ⟨0⟩, .atom ⟨1⟩, .not ⟨0⟩]

/-- An environment in which the first of the values is known to be true. -/
def exchangeStart : Environment where
  values := (Bindings.empty.set ⟨0⟩ ⟨0⟩).set ⟨1⟩ ⟨1⟩
  flow := ⟨0⟩

theorem reachable_exchangeTable : Relation.ReflTransGen Operates {} exchangeTable :=
  ((((Relation.ReflTransGen.single (.valueAtom ⟨0⟩)).tail (.valueAtom ⟨1⟩)).tail
    (.mkAtom (a := ⟨0⟩) (by decide))).tail (.mkAtom (a := ⟨1⟩) (by decide))).tail
    (.mkNot (x := ⟨0⟩) (by decide))

theorem exchangeStart_within : exchangeStart.Within exchangeTable := by decide

/-- The first value becomes the second, and the second becomes the negation of the first.  Then
exactly the second is known: it is false. -/
theorem exchange_exact :
    let passed : List (ValueId × Option Formula) := [(⟨0⟩, some ⟨1⟩), (⟨1⟩, some ⟨2⟩)]
    Relation.ReflTransGen Operates {} exchangeTable ∧ exchangeStart.Within exchangeTable ∧
      ∀ ρ, (exchangeStart.bind passed exchangeTable).2.holds ρ
        (exchangeStart.bind passed exchangeTable).1.flow = true ↔ ρ ⟨1⟩ = false := by
  intro passed
  have hpassed : ∀ v f, (v, some f) ∈ passed → exchangeTable.Has f := by
    intro v f hf
    simp only [passed, List.mem_cons, Prod.mk.injEq, Option.some.injEq, List.not_mem_nil,
      or_false] at hf
    rcases hf with ⟨-, rfl⟩ | ⟨-, rfl⟩ <;> decide
  refine ⟨reachable_exchangeTable, exchangeStart_within, fun ρ => ?_⟩
  obtain ⟨-, -, hflow⟩ :=
    bind_exact reachable_exchangeTable exchangeStart_within hpassed (by decide)
  have ht := wellFormed_of_operates reachable_exchangeTable
  obtain ⟨hT, hg, -⟩ := yields_bind_within ht exchangeStart_within hpassed
  rw [hflow]
  generalize (exchangeStart.bind passed exchangeTable).2 = T at hT hg
  have hatom₀ : T.valueAtom? ⟨0⟩ = some ⟨0⟩ := hg.valueAtom rfl
  have hatom₁ : T.valueAtom? ⟨1⟩ = some ⟨1⟩ := hg.valueAtom rfl
  have hfirst : ∀ ρ, T.holds ρ ⟨0⟩ = ρ ⟨0⟩ := fun ρ => hg.holds ht hT (f := ⟨0⟩) (by decide)
  have hsecond : ∀ ρ, T.holds ρ ⟨1⟩ = ρ ⟨1⟩ := fun ρ => hg.holds ht hT (f := ⟨1⟩) (by decide)
  have hnegated : ∀ ρ, T.holds ρ ⟨2⟩ = !ρ ⟨0⟩ := fun ρ => hg.holds ht hT (f := ⟨2⟩) (by decide)
  constructor
  · rintro ⟨ρ₀, hstart, -, hassigned⟩
    have hstart : ρ₀ ⟨0⟩ = true := (hfirst ρ₀).symm.trans hstart
    rw [hassigned ⟨1⟩ ⟨2⟩ ⟨1⟩ (by simp [passed]) hatom₁, hnegated, hstart]
    rfl
  · intro hfalse
    -- before, the first value was true and the second what the first is now
    let ρ₀ : Atom → Bool := fun a => if a = ⟨0⟩ then true else if a = ⟨1⟩ then ρ ⟨0⟩ else ρ a
    refine ⟨ρ₀, hfirst ρ₀, fun a ha => ?_, fun v f a hf ha => ?_⟩
    · have hne₀ : a ≠ ⟨0⟩ := fun h => ha ⟨0⟩ (by simp [passed]) (h ▸ hatom₀)
      have hne₁ : a ≠ ⟨1⟩ := fun h => ha ⟨1⟩ (by simp [passed]) (h ▸ hatom₁)
      exact (if_neg hne₀).trans (if_neg hne₁)
    · simp only [passed, List.mem_cons, Prod.mk.injEq, Option.some.injEq, List.not_mem_nil,
        or_false] at hf
      rcases hf with ⟨rfl, rfl⟩ | ⟨rfl, rfl⟩
      · rw [hatom₀] at ha
        cases ha
        rw [hsecond]
        rfl
      · rw [hatom₁] at ha
        cases ha
        rw [hnegated, hfalse]
        rfl

/-! ### Meetings -/

/-- **A meeting is the union of its sides.**  Let two environments `e₁` and `e₂` of one table `t`
be joined.  Then every value that they bind differently is bound to its merge atom.  Of the other
values those are bound that both bind to the same formula, unless such an atom occurs in it.  An
assignment satisfies the new flow condition exactly if on one of the sides there is an assignment
that satisfies the flow condition, differs on these atoms at most, and gives the formulas of the
values there the values that their merge atoms have now. -/
theorem join_exact (ht : Relation.ReflTransGen Operates {} t) (he₁ : e₁.Within t)
    (he₂ : e₂.Within t) :
    let e' := (e₁.join e₂ t).1
    let T := (e₁.join e₂ t).2
    let D := fun v => ∃ f g, e₁.values.get? v = some f ∧ e₂.values.get? v = some g ∧ f ≠ g
    (∀ v, D v → ∃ m g,
      T.mergeAtom? v = some m ∧ T.expr g = .atom m ∧ e'.values.get? v = some g) ∧
    (∀ v, ¬ D v → ∀ g, e'.values.get? v = some g ↔
      e₁.values.get? v = some g ∧ e₂.values.get? v = some g ∧
        ∀ w m, D w → T.mergeAtom? w = some m → ¬ T.Occurs m g) ∧
    ∀ ρ, T.holds ρ e'.flow = true ↔ ∃ e, (e = e₁ ∨ e = e₂) ∧ ∃ ρ', T.holds ρ' e.flow = true ∧
      (∀ a, (∀ v, D v → T.mergeAtom? v ≠ some a) → ρ' a = ρ a) ∧
      ∀ v f m, D v → e.values.get? v = some f → T.mergeAtom? v = some m →
        ρ m = T.holds ρ' f := by
  intro e' T D
  obtain ⟨hT, -, -, hjoined⟩ := yields_join (wellFormed_of_operates ht) he₁ he₂
  have hjoined : Joined T e₁ e₂ e' := hjoined T hT (.refl T)
  refine ⟨fun v hv => ?_, fun v hv g => ?_, fun ρ => ?_⟩
  · obtain ⟨m, g, hm, hg⟩ := hjoined.atoms v hv
    refine ⟨m, g, hm, ?_, (hjoined.values v g).2 (Or.inl ⟨hv, m, hm, hg⟩)⟩
    rw [expr_eq hT, hg]
    rfl
  · rw [hjoined.values]
    constructor
    · rintro (⟨hv', -⟩ | ⟨h₁, h₂, hnot⟩)
      · exact absurd hv' hv
      · exact ⟨h₁, h₂, fun w m hw hm => hnot m ⟨w, hw, hm⟩⟩
    · rintro ⟨h₁, h₂, hnot⟩
      refine Or.inr ⟨h₁, h₂, ?_⟩
      rintro m ⟨w, hw, hm⟩
      exact hnot w m hw hm
  · -- a side is an assignment to the merge atoms, with its conditions in another order
    have hside : ∀ e, MeetingSide T e₁ e₂ e ρ ↔ ∃ ρ', T.holds ρ' e.flow = true ∧
        (∀ a, (∀ v, D v → T.mergeAtom? v ≠ some a) → ρ' a = ρ a) ∧
        ∀ v f m, D v → e.values.get? v = some f → T.mergeAtom? v = some m →
          ρ m = T.holds ρ' f := by
      intro e
      refine exists_congr fun ρ' => and_congr_right fun _ => ?_
      rw [and_comm]
      refine and_congr_right fun _ => ?_
      constructor
      · intro h v f m hv hf hm
        exact h v m f hv hm hf
      · intro h v m f hv hm hf
        exact h v f m hv hf hm
    rw [hjoined.flow, hside, hside]
    simp only [exists_eq_or_imp, exists_eq_left]

/-- A table with the merge atom of an earlier meeting and its negation. -/
def remeetingTable : FormulaTable :=
  List.foldl push { atomCount := 1, mergeAtoms := [(⟨0⟩, ⟨0⟩)] } [.atom ⟨0⟩, .not ⟨0⟩]

/-- A side on which the first value is `f`, which is known to hold; the second value is what the
first was at the earlier meeting. -/
def remeetingSide (f : Formula) : Environment where
  values := (Bindings.empty.set ⟨0⟩ f).set ⟨1⟩ ⟨0⟩
  flow := f

theorem reachable_remeetingTable : Relation.ReflTransGen Operates {} remeetingTable :=
  ((Relation.ReflTransGen.single (.mergeAtom ⟨0⟩)).tail
    (.mkAtom (a := ⟨0⟩) (by decide))).tail (.mkNot (x := ⟨0⟩) (by decide))

theorem get?_remeetingSide {f g : Formula} {v : ValueId} :
    (remeetingSide f).values.get? v = some g ↔ v = ⟨1⟩ ∧ g = ⟨0⟩ ∨ v = ⟨0⟩ ∧ g = f := by
  rw [remeetingSide, Bindings.get?_set, Bindings.get?_set, Bindings.get?_empty]
  split
  · simp_all [eq_comm]
  · split <;> simp_all [eq_comm]

theorem remeetingSide_within {f : Formula} (hf : remeetingTable.Has f) :
    (remeetingSide f).Within remeetingTable := by
  refine ⟨hf, fun v g hg => ?_⟩
  rcases get?_remeetingSide.1 hg with ⟨-, rfl⟩ | ⟨-, rfl⟩
  · decide
  · exact hf

/-- On one side a value is what it was at an earlier meeting, on the other it is the opposite, and
on both it is known to be true.  Where they meet, exactly this is known; what the value was at the
earlier meeting is not. -/
theorem remeeting_exact :
    Relation.ReflTransGen Operates {} remeetingTable ∧
      (remeetingSide ⟨0⟩).Within remeetingTable ∧ (remeetingSide ⟨1⟩).Within remeetingTable ∧
      ((remeetingSide ⟨0⟩).join (remeetingSide ⟨1⟩) remeetingTable).1.values.get? ⟨1⟩ = none ∧
      ∀ ρ, ((remeetingSide ⟨0⟩).join (remeetingSide ⟨1⟩) remeetingTable).2.holds ρ
        ((remeetingSide ⟨0⟩).join (remeetingSide ⟨1⟩) remeetingTable).1.flow = true ↔
          ρ ⟨0⟩ = true := by
  have ht := wellFormed_of_operates reachable_remeetingTable
  have hleft : (remeetingSide ⟨0⟩).Within remeetingTable := remeetingSide_within (by decide)
  have hright : (remeetingSide ⟨1⟩).Within remeetingTable := remeetingSide_within (by decide)
  obtain ⟨-, hvalues, hflow⟩ := join_exact reachable_remeetingTable hleft hright
  obtain ⟨hT, hg, -⟩ := yields_join ht hleft hright
  -- only the first value is bound differently
  have hdiffer : ∀ v, (∃ f g, (remeetingSide ⟨0⟩).values.get? v = some f ∧
      (remeetingSide ⟨1⟩).values.get? v = some g ∧ f ≠ g) ↔ v = ⟨0⟩ := by
    intro v
    simp only [get?_remeetingSide]
    constructor
    · rintro ⟨f, g, ⟨rfl, rfl⟩ | ⟨rfl, rfl⟩, ⟨hv, rfl⟩ | ⟨hv, rfl⟩, hne⟩
      · exact absurd rfl hne
      · cases hv
      · cases hv
      · rfl
    · rintro rfl
      exact ⟨⟨0⟩, ⟨1⟩, Or.inr ⟨rfl, rfl⟩, Or.inr ⟨rfl, rfl⟩, by decide⟩
  generalize (remeetingSide ⟨0⟩).join (remeetingSide ⟨1⟩) remeetingTable = r at *
  simp only [hdiffer] at hvalues hflow
  have hmerge : r.2.mergeAtom? ⟨0⟩ = some ⟨0⟩ := hg.mergeAtom rfl
  have hatom : ∀ ρ, r.2.holds ρ ⟨0⟩ = ρ ⟨0⟩ := fun ρ => hg.holds ht hT (f := ⟨0⟩) (by decide)
  refine ⟨reachable_remeetingTable, hleft, hright, ?_, fun ρ => ?_⟩
  · -- the second value mentions the merge atom of the first, so its binding goes
    refine Option.eq_none_iff_forall_ne_some.2 fun g hg' => ?_
    obtain ⟨h₁, -, hnot⟩ := (hvalues ⟨1⟩ (by decide) g).1 hg'
    obtain rfl : g = ⟨0⟩ := by simpa [get?_remeetingSide] using h₁
    have hoccurs : remeetingTable.Occurs ⟨0⟩ ⟨0⟩ := rfl
    exact hnot ⟨0⟩ ⟨0⟩ rfl hmerge ((hg.occurs ht hT (f := ⟨0⟩) (by decide)).2 hoccurs)
  · rw [hflow]
    constructor
    · rintro ⟨e, rfl | rfl, ρ', hside, -, hmerged⟩
      · rw [hmerged ⟨0⟩ ⟨0⟩ ⟨0⟩ rfl (get?_remeetingSide.2 (Or.inr ⟨rfl, rfl⟩)) hmerge]
        exact hside
      · rw [hmerged ⟨0⟩ ⟨1⟩ ⟨0⟩ rfl (get?_remeetingSide.2 (Or.inr ⟨rfl, rfl⟩)) hmerge]
        exact hside
    · intro htrue
      refine ⟨_, Or.inl rfl, ρ, (hatom ρ).trans htrue, fun _ _ => rfl, ?_⟩
      rintro v f m rfl hf hm
      obtain rfl : f = ⟨0⟩ := by simpa [get?_remeetingSide] using hf
      rw [hmerge] at hm
      cases hm
      exact (hatom ρ).symm

end FlowFacts
