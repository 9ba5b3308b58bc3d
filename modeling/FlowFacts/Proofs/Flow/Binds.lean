import FlowFacts.Proofs.Flow.Canonical
import FlowFacts.Proofs.Flow.Invariant

/-!
# Environments that bind values to their formulas

What each step of an analysis keeps of the bindings.  A binding goes if an atom that its formula
mentions gets a new meaning, so the values whose bindings are to stay have to contain those that
they are computed from.

## Main definitions

* `Binds` — an environment binds some values to their formulas.
* `Program.Supports` — some values contain what they are computed from.

## Main results

* `Fetched.binds`, `Resulted.binds`, `Joined.binds` — bindings that stay.
* `Fetched.canonical`, `Resulted.canonical` — the formulas that are found.
-/

namespace FlowFacts

open FormulaM FormulaTable Program Relation

variable {T : FormulaTable} {p : Program} {f : FunctionId} {a : Atom} {e e₁ e₂ e' : Environment}
  {u v w : ValueId} {g x y : Formula} {op : Operation} {K K' J : ValueId → Prop}
  {r : Option Formula} {mk : Formula → Formula → FormulaM Formula} {onBools : Bool → Bool → Bool}

/-! ### Environments that bind values to their formulas -/

/-- The environment `e` binds the values `K` to their formulas.  The values `J` are bound to
their formulas or not at all, and constants are not bound. -/
structure Binds (T : FormulaTable) (p : Program) (K J : ValueId → Prop) (e : Environment) :
    Prop where
  /-- The values `K` are bound to their formulas. -/
  kept : ∀ w, K w → ∃ g, Canonical T p w g ∧ e.values.get? w = some g
  /-- The values `J` are bound to nothing else. -/
  known : ∀ w g, J w → e.values.get? w = some g → Canonical T p w g
  /-- Constants are not bound. -/
  constant : ∀ w g, e.values.get? w = some g → p.constant? w = none

namespace Binds

theorem mono (h : Binds T p K J e) (hK : ∀ w, K' w → K w) : Binds T p K' J e where
  kept w hw := h.kept w (hK w hw)
  known := h.known
  constant := h.constant

/-- Only the bindings of `e` matter. -/
theorem congr (h : Binds T p K J e) (hvalues : e'.values = e.values) : Binds T p K J e' where
  kept w hw := by
    rw [hvalues]
    exact h.kept w hw
  known w g hw hg := h.known w g hw (hvalues ▸ hg)
  constant w g hg := h.constant w g (hvalues ▸ hg)

theorem erase (h : Binds T p K J e) (hK : ∀ w, K' w → K w ∧ w ≠ v) :
    Binds T p K' J (e.erase v) where
  kept w hw := by
    obtain ⟨hKw, hne⟩ := hK w hw
    obtain ⟨g, hg, hget⟩ := h.kept w hKw
    exact ⟨g, hg, Bindings.get?_erase_eq_some.2 ⟨hget, hne⟩⟩
  known w g hw hg := h.known w g hw (Bindings.get?_erase_eq_some.1 hg).1
  constant w g hg := h.constant w g (Bindings.get?_erase_eq_some.1 hg).1

theorem set (h : Binds T p K J e) (hconst : p.constant? v = none)
    (hg : J v ∨ K' v → Canonical T p v g) (hK : ∀ w, K' w → w = v ∨ K w) :
    Binds T p K' J (e.set v g) where
  kept w hw := by
    rw [Environment.set, Bindings.get?_set]
    by_cases hwv : w = v
    · subst hwv
      exact ⟨g, hg (Or.inr hw), if_pos rfl⟩
    · rw [if_neg hwv]
      exact h.kept w ((hK w hw).resolve_left hwv)
  known w g' hw hget := by
    rw [Environment.set, Bindings.get?_set] at hget
    split at hget
    · rename_i hwv
      subst hwv
      cases hget
      exact hg (Or.inl hw)
    · exact h.known w g' hw hget
  constant w g' hget := by
    rw [Environment.set, Bindings.get?_set] at hget
    split at hget
    · rename_i hwv
      exact hwv ▸ hconst
    · exact h.constant w g' hget

/-- A value `w` to be kept is bound. -/
theorem ne_none (h : Binds T p K J e) (hw : K w) : e.values.get? w ≠ none := by
  obtain ⟨g, -, hget⟩ := h.kept w hw
  simp [hget]

end Binds

/-- The value `v` gets a new meaning.  The formulas of other values stay if they are not computed
from it. -/
theorem Renewed.binds (hT : T.WellFormed) (h : Renewed T e v a g e') (hb : Binds T p K J e)
    (hconst : p.constant? v = none) (hJ : J v → p.Atomic v)
    (hK : ∀ w, K' w → w = v ∧ p.Atomic v ∨
      w ≠ v ∧ K w ∧ (p.Atomic v → ¬ ReflTransGen p.ComputedFrom w v)) :
    Binds T p K' J e' where
  kept w hw := by
    rcases hK w hw with ⟨rfl, hatomic⟩ | ⟨hne, hKw, hnot⟩
    · exact ⟨g, .atom hatomic h.atom h.formula, (h.values w g).2 (Or.inl ⟨rfl, rfl⟩)⟩
    · obtain ⟨g', hg', hget⟩ := hb.kept w hKw
      -- the binding of `w` would go if its formula mentioned the atom of `v`
      refine ⟨g', hg', (h.values w g').2 (Or.inr ⟨hne, hget, fun hocc => ?_⟩)⟩
      obtain ⟨u, hu, hatomic, hatom⟩ := hg'.occurs hT hocc
      have huv : u = v := hT.valueAtom_inj hatom h.atom
      subst huv
      exact hnot hatomic hu
  known w g' hw hget := by
    rcases (h.values w g').1 hget with ⟨rfl, rfl⟩ | ⟨-, hget, -⟩
    · exact .atom (hJ hw) h.atom h.formula
    · exact hb.known w g' hw hget
  constant w g' hget := by
    rcases (h.values w g').1 hget with ⟨rfl, -⟩ | ⟨-, hget, -⟩
    · exact hconst
    · exact hb.constant w g' hget

/-! ### Operands -/

/-- The values `K` contain those that are not computed and that they are computed from. -/
def Program.Supports (p : Program) (K : ValueId → Prop) : Prop :=
  ∀ w u, K w → ReflTransGen p.ComputedFrom w u → p.Atomic u → K u

/-- An operand `v` of which something is claimed is not computed, or it is bound. -/
def Program.Safe (p : Program) (K J : ValueId → Prop) (v : ValueId) : Prop :=
  p.isBool v = true → p.constant? v = none → J v → p.Atomic v ∨ K v

/-- Meeting an operand `v` removes no binding: if `v` is not bound, it is none of the values that
the formulas are computed from. -/
theorem Fetched.binds (hT : T.WellFormed) (h : Fetched T p e v r e') (hK : p.Supports K)
    (hJ : p.Safe K J v) (hb : Binds T p K J e) : Binds T p K J e' := by
  cases h with
  | bound _ => exact hb
  | constant _ _ _ _ => exact hb
  | other _ _ => exact hb
  | renewed hunbound hconst hbool hrenewed =>
    have hnot : ¬ K v := fun hKv => hb.ne_none hKv hunbound
    apply hrenewed.binds hT hb hconst
    · exact fun hJv => (hJ hbool hconst hJv).resolve_right hnot
    · intro w hw
      refine Or.inr ⟨?_, hw, fun hatomic hchain => hnot (hK w v hw hchain hatomic)⟩
      rintro rfl
      exact hnot hw

/-- The formula that is found for an operand `v` which is kept or not computed. -/
theorem Fetched.canonical (hatomic : ∀ w, p.Atomic w → J w) (h : Fetched T p e v r e')
    (hb : Binds T p K J e) (hbool : p.isBool v = true)
    (hv : p.constant? v = none → p.Atomic v ∨ K v) :
    ∃ g, r = some g ∧ Canonical T p v g ∧
      (p.constant? v = none → e'.values.get? v = some g) := by
  cases h with
  | bound hget =>
    refine ⟨_, rfl, ?_, fun _ => hget⟩
    rcases hv (hb.constant v _ hget) with hv | hv
    · exact hb.known v _ (hatomic v hv) hget
    · obtain ⟨g, hg, hget'⟩ := hb.kept v hv
      cases hget.symm.trans hget'
      exact hg
  | constant _ hconst _ hmade =>
    refine ⟨_, rfl, .constant hconst hmade, fun hnone => ?_⟩
    cases hconst.symm.trans hnone
  | renewed hunbound hconst _ hrenewed =>
    have hv := (hv hconst).resolve_right fun hKv => hb.ne_none hKv hunbound
    refine ⟨_, rfl, .atom hv hrenewed.atom hrenewed.formula, fun _ => ?_⟩
    exact (hrenewed.values v _).2 (Or.inl ⟨rfl, rfl⟩)
  | other _ hother => simp [hother] at hbool

/-- The values `K` and an operand `v`, unless it is a constant. -/
def Program.With (p : Program) (K : ValueId → Prop) (v w : ValueId) : Prop :=
  K w ∨ w = v ∧ p.constant? v = none

theorem Program.Supports.with (hK : p.Supports K)
    (hv : p.constant? v = none → p.Atomic v ∨ K v) : p.Supports (p.With K v) := by
  rintro w u (hw | ⟨rfl, hconst⟩) hchain hatomic
  · exact Or.inl (hK w u hw hchain hatomic)
  · rcases hv hconst with hv | hv
    · exact Or.inr ⟨hv.eq_of_reflTransGen hchain, hconst⟩
    · exact Or.inl (hK w u hv hchain hatomic)

/-- The operand `v` is bound from now on. -/
theorem Fetched.binds_with (hT : T.WellFormed) (hatomic : ∀ w, p.Atomic w → J w)
    (h : Fetched T p e v r e') (hK : p.Supports K) (hb : Binds T p K J e)
    (hbool : p.isBool v = true) (hv : p.constant? v = none → p.Atomic v ∨ K v) :
    Binds T p (p.With K v) J e' := by
  obtain ⟨g, -, hg, hget⟩ := h.canonical hatomic hb hbool hv
  have hb' := h.binds hT hK (fun _ hconst _ => hv hconst) hb
  refine ⟨?_, hb'.known, hb'.constant⟩
  rintro w (hw | ⟨rfl, hconst⟩)
  · exact hb'.kept w hw
  · exact ⟨g, hg, hget hconst⟩

/-! ### Results -/

theorem Combined.binds {lhs rhs : ValueId} (hT : T.WellFormed)
    (h : Combined T p e lhs rhs mk onBools r e') (hK : p.Supports K) (hl : p.Safe K J lhs)
    (hr : p.Safe K J rhs) (hb : Binds T p K J e) : Binds T p K J e' := by
  cases h with
  | both hx hy _ _ | missing hx hy _ => exact hy.binds hT hK hr (hx.binds hT hK hl hb)

/-- Looking for the formula of the result of `op` removes no binding. -/
theorem Resulted.binds (hT : T.WellFormed) (h : Resulted T p e op r e') (hK : p.Supports K)
    (hop : ∀ w ∈ op.operands, p.Safe K J w) (hb : Binds T p K J e) : Binds T p K J e' := by
  cases h with
  | not hx _ _ | notOther hx => exact hx.binds hT hK (hop _ (by simp [Operation.operands])) hb
  | logical _ hcombined | equality _ _ hcombined =>
    exact hcombined.binds hT hK (hop _ (by simp [Operation.operands]))
      (hop _ (by simp [Operation.operands])) hb
  | arithmetic _ => exact hb
  | comparison _ => exact hb

/-- The operand `v` is a truth value and, unless it is a constant, kept or not computed. -/
def Program.Ready (p : Program) (K : ValueId → Prop) (v : ValueId) : Prop :=
  p.isBool v = true ∧ (p.constant? v = none → p.Atomic v ∨ K v)

theorem Combined.canonical {lhs rhs : ValueId} (hT : T.WellFormed) (hatomic : ∀ w, p.Atomic w → J w)
    (h : Combined T p e lhs rhs mk onBools r e') (hK : p.Supports K) (hb : Binds T p K J e)
    (hl : p.Ready K lhs) (hr : p.Ready K rhs) :
    ∃ g x y, r = some g ∧ Canonical T p lhs x ∧ Canonical T p rhs y ∧ T.Makes (mk x y) g ∧
      Binds T p (p.With (p.With K lhs) rhs) J e' := by
  -- both operands have formulas, and the first stays bound while the second is met
  have hfetch : ∀ {x y : Option Formula} {e₁ : Environment}, Fetched T p e lhs x e₁ →
      Fetched T p e₁ rhs y e' → (∃ x', x = some x' ∧ Canonical T p lhs x') ∧
        (∃ y', y = some y' ∧ Canonical T p rhs y') ∧
          Binds T p (p.With (p.With K lhs) rhs) J e' := by
    intro x y e₁ hx hy
    obtain ⟨x', hx', hcx, -⟩ := hx.canonical hatomic hb hl.1 hl.2
    have hb₁ := hx.binds_with hT hatomic hK hb hl.1 hl.2
    have hr' : p.constant? rhs = none → p.Atomic rhs ∨ p.With K lhs rhs := fun hconst =>
      (hr.2 hconst).imp_right Or.inl
    obtain ⟨y', hy', hcy, -⟩ := hy.canonical hatomic hb₁ hr.1 hr'
    exact ⟨⟨x', hx', hcx⟩, ⟨y', hy', hcy⟩,
      hy.binds_with hT hatomic (hK.with hl.2) hb₁ hr.1 hr'⟩
  cases h with
  | both hx hy _ hmade =>
    obtain ⟨⟨x', hx', hcx⟩, ⟨y', hy', hcy⟩, hb'⟩ := hfetch hx hy
    cases hx'
    cases hy'
    exact ⟨_, _, _, rfl, hcx, hcy, hmade, hb'⟩
  | missing hx hy hnone =>
    obtain ⟨⟨x', rfl, -⟩, ⟨y', rfl, -⟩, -⟩ := hfetch hx hy
    simp at hnone

/-- The formula that is found for a result `v` which is computed, and the operands are bound from
now on. -/
theorem Resulted.canonical (hT : T.WellFormed) (hatomic : ∀ w, p.Atomic w → J w)
    (h : Resulted T p e op r e') (hv : p.operation? v = some op) (hcombines : p.combines op = true)
    (hK : p.Supports K) (hb : Binds T p K J e) (hop : ∀ w ∈ op.operands, p.Ready K w) :
    ∃ g, r = some g ∧ Canonical T p v g ∧
      Binds T p (fun w => K w ∨ p.ComputedFrom v w) J e' := by
  -- what is computed from is an operand that is no constant
  have hwith : ∀ {lhs rhs : ValueId}, op.operands = [lhs, rhs] → ∀ w,
      K w ∨ p.ComputedFrom v w → p.With (p.With K lhs) rhs w := by
    rintro lhs rhs hops w (hw | ⟨op', hop', -, hmem, hconst⟩)
    · exact Or.inl (Or.inl hw)
    · cases hv.symm.trans hop'
      rw [hops, List.mem_cons, List.mem_singleton] at hmem
      rcases hmem with rfl | rfl
      · exact Or.inl (Or.inr ⟨rfl, hconst⟩)
      · exact Or.inr ⟨rfl, hconst⟩
  cases h with
  | @not arg x f _ hx _ hmade =>
    have harg := hop arg (by simp [Operation.operands])
    obtain ⟨x', hx', hcx, -⟩ := hx.canonical hatomic hb harg.1 harg.2
    cases hx'
    refine ⟨f, rfl, .not hv hcx hmade, (hx.binds_with hT hatomic hK hb harg.1 harg.2).mono ?_⟩
    rintro w (hw | ⟨op', hop', -, hmem, hconst⟩)
    · exact Or.inl hw
    · cases hv.symm.trans hop'
      rw [Operation.operands, List.mem_singleton] at hmem
      subst hmem
      exact Or.inr ⟨rfl, hconst⟩
  -- the operand has a formula, so this does not happen
  | @notOther arg _ hx =>
    have harg := hop arg (by simp [Operation.operands])
    obtain ⟨x', hx', -, -⟩ := hx.canonical hatomic hb harg.1 harg.2
    cases hx'
  | logical hlogical hcombined =>
    obtain ⟨g, x, y, rfl, hcx, hcy, hmade, hb'⟩ := hcombined.canonical hT hatomic hK hb
      (hop _ (by simp [Operation.operands])) (hop _ (by simp [Operation.operands]))
    exact ⟨g, rfl, .binary hv hlogical hcx hcy hmade, hb'.mono (hwith rfl)⟩
  | equality horder hbool hcombined =>
    obtain ⟨g, x, y, rfl, hcx, hcy, hmade, hb'⟩ := hcombined.canonical hT hatomic hK hb
      (hop _ (by simp [Operation.operands])) (hop _ (by simp [Operation.operands]))
    exact ⟨g, rfl, .compare hv horder hbool hcx hcy hmade, hb'.mono (hwith rfl)⟩
  | arithmetic hnot => simp [combines, hnot] at hcombines
  | comparison hnot =>
    rw [combines, Bool.and_eq_true, Bool.not_eq_true'] at hcombines
    rcases hnot with hnot | hnot <;> simp [hnot] at hcombines

/-- Without a computation there is no formula for the result of `op`. -/
theorem Resulted.eq_none (h : Resulted T p e op r e') (hnot : p.combines op = false) :
    r = none := by
  cases h with
  | not _ _ _ => cases hnot
  | notOther _ => rfl
  | logical hlogical _ => simp [combines, hlogical] at hnot
  | equality horder hbool _ => simp [combines, horder, hbool] at hnot
  | arithmetic _ => rfl
  | comparison _ => rfl

/-! ### Edges and meetings -/

/-- Passing arguments removes no binding of a truth value. -/
theorem PassedTo.binds {pairs : List (ValueId × ValueId)}
    {bound : List (ValueId × Option Formula)} (hT : T.WellFormed)
    (h : PassedTo T p e pairs bound e') (hK : p.Supports K) (hbool : ∀ w, K w → p.isBool w = true)
    (hargs : ∀ x ∈ pairs, p.Safe K J x.2) (hb : Binds T p K J e) :
    Binds T p K J e' ∧ bound.map Prod.fst = (pairs.map Prod.fst).filter p.isBool := by
  induction h with
  | nil => exact ⟨hb, rfl⟩
  | bool hparam hfetched _ ih =>
    rw [List.forall_mem_cons] at hargs
    obtain ⟨hb', hmap⟩ := ih hargs.2 (hfetched.binds hT hK hargs.1 hb)
    exact ⟨hb', by simp [hparam, hmap]⟩
  | @other e _ param arg rest bound hparam _ ih =>
    rw [List.forall_mem_cons] at hargs
    have hne : ∀ w, K w → K w ∧ w ≠ param := by
      intro w hw
      refine ⟨hw, ?_⟩
      rintro rfl
      exact absurd (hbool w hw) (by simp [hparam])
    obtain ⟨hb', hmap⟩ := ih hargs.2 (hb.erase hne)
    exact ⟨hb', by simp [hparam, hmap]⟩

/-- The parameters `params` get new meanings, and are bound to their atoms. -/
theorem BoundTo.binds (hT : T.WellFormed) {params : List (ValueId × Option Formula)}
    (h : BoundTo T e params e') (hb : Binds T p K J e)
    (hatomic : ∀ v ∈ params.map Prod.fst, p.Atomic v)
    (hK : ∀ w, K' w → w ∈ params.map Prod.fst ∨ w ∉ params.map Prod.fst ∧ K w ∧
      ∀ u ∈ params.map Prod.fst, ¬ ReflTransGen p.ComputedFrom w u) :
    Binds T p K' J e' where
  kept w hw := by
    rcases hK w hw with hmem | ⟨hnot, hKw, hchain⟩
    · obtain ⟨a, g, ha, hg⟩ := h.atoms w hmem
      exact ⟨g, .atom (hatomic w hmem) ha hg, (h.values w g).2 (Or.inl ⟨hmem, a, ha, hg⟩)⟩
    · obtain ⟨g, hg, hget⟩ := hb.kept w hKw
      refine ⟨g, hg, (h.values w g).2 (Or.inr ⟨hnot, hget, ?_⟩)⟩
      rintro a ⟨v, hv, ha⟩ hocc
      obtain ⟨u, hu, -, hatom⟩ := hg.occurs hT hocc
      have huv : u = v := hT.valueAtom_inj hatom ha
      exact hchain v hv (huv ▸ hu)
  known w g hw hget := by
    rcases (h.values w g).1 hget with ⟨hmem, a, ha, hg⟩ | ⟨-, hget, -⟩
    · exact .atom (hatomic w hmem) ha hg
    · exact hb.known w g hw hget
  constant w g hget := by
    rcases (h.values w g).1 hget with ⟨hmem, -⟩ | ⟨-, hget, -⟩
    · exact (hatomic w hmem).2.1
    · exact hb.constant w g hget

/-- Where `e₁` and `e₂` meet, what both bind stays: it has one formula. -/
theorem Joined.binds (hT : T.WellFormed) (h : Joined T e₁ e₂ e') (h₁ : Binds T p K J e₁)
    (h₂ : Binds T p K J e₂) : Binds T p K J e' where
  kept w hw := by
    obtain ⟨g, hg, hget₁⟩ := h₁.kept w hw
    obtain ⟨g', hg', hget₂⟩ := h₂.kept w hw
    cases hg.unique hT hg'
    refine ⟨g, hg, (h.values w g).2 (Or.inr ⟨hget₁, hget₂, ?_⟩)⟩
    -- formulas of values mention no atoms for meetings
    rintro a ⟨v, -, ha⟩ hocc
    obtain ⟨u, -, -, hatom⟩ := hg.occurs hT hocc
    exact hT.apart hatom ha
  known w g hw hget := by
    rcases (h.values w g).1 hget with ⟨⟨g₁, g₂, hget₁, hget₂, hne⟩, -⟩ | ⟨hget₁, -⟩
    · exact absurd ((h₁.known w g₁ hw hget₁).unique hT (h₂.known w g₂ hw hget₂)) hne
    · exact h₁.known w g hw hget₁
  constant w g hget := by
    rcases (h.values w g).1 hget with ⟨⟨g₁, _, hget₁, -⟩, -⟩ | ⟨hget₁, -⟩
    · exact h₁.constant w g₁ hget₁
    · exact h₁.constant w g hget₁

/-- The values `vs` of which nothing is known are bound to their atoms. -/
theorem RenewedAll.binds {vs : List ValueId} (hT : T.WellFormed) (h : RenewedAll T vs e e')
    (hatomic : ∀ v ∈ vs, p.Atomic v) (hK : ∀ w, K w → p.Atomic w) (hb : Binds T p K J e) :
    Binds T p (fun w => K w ∨ w ∈ vs) J e' := by
  induction h generalizing K with
  | nil => exact hb.mono fun w hw => hw.resolve_right (List.not_mem_nil)
  | @cons v vs a g e e₁ e' hrenewed _ ih =>
    rw [List.forall_mem_cons] at hatomic
    have hb₁ : Binds T p (fun w => K w ∨ w = v) J e₁ := by
      apply hrenewed.binds hT hb hatomic.1.2.1 (fun _ => hatomic.1)
      intro w hw
      by_cases hwv : w = v
      · exact Or.inl ⟨hwv, hatomic.1⟩
      · have hKw := hw.resolve_right hwv
        refine Or.inr ⟨hwv, hKw, fun _ hchain => hwv ?_⟩
        exact ((hK w hKw).eq_of_reflTransGen hchain).symm
    have hK₁ : ∀ w, K w ∨ w = v → p.Atomic w := by
      rintro w (hw | rfl)
      · exact hK w hw
      · exact hatomic.1
    refine (ih hatomic.2 hK₁ hb₁).mono fun w hw => ?_
    rw [List.mem_cons] at hw
    tauto

end FlowFacts
