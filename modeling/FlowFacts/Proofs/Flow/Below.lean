import FlowFacts.Proofs.Flow.Kept

/-!
# Steps are monotone

One environment is below another if it binds all that the other one binds, to the same
formulas, and its flow condition implies the other one.  If every value is used only where it
is defined, the steps of an analysis respect this order: what a step finds for an operand is
the formula of the operand on both sides, so both do the same.

Where nothing is bound differently, meetings are plain: a flow condition that one side
satisfies, and the bindings that both have.

## Main definitions

* `Below` — the order.

## Main results

* `Fetched.monotone`, `Resulted.monotone`, `Stepped.monotone` — steps are monotone.
* `JoinedAll.iff` — meetings of environments that agree.
* `LeavesBy.monotone` — so is a whole visit of a block.
-/

namespace FlowFacts

open FormulaM FormulaTable Program

variable {T : FormulaTable} {p : Program} {f : FunctionId} {a a' : Atom}
  {e e₁ e₂ e₃ e' e₁' e₂' : Environment} {v w : ValueId} {g g' : Formula} {b c : BlockId} {k : Nat}
  {op : Operation} {K J S : ValueId → Prop} {r r' : Option Formula} {catalogue : Catalogue}
  {edges edges' : List (BlockId × Environment)}

/-- The environment `e` binds what `e'` binds, and its flow condition implies that of `e'`. -/
structure Below (T : FormulaTable) (e e' : Environment) : Prop where
  /-- The bindings of `e'` are there. -/
  values : ∀ v g, e'.values.get? v = some g → e.values.get? v = some g
  /-- The flow condition of `e'` is implied. -/
  flow : ∀ ρ, T.holds ρ e.flow = true → T.holds ρ e'.flow = true

theorem Below.refl (e : Environment) : Below T e e :=
  ⟨fun _ _ h => h, fun _ h => h⟩

theorem Below.erase (h : Below T e e') (v : ValueId) : Below T (e.erase v) (e'.erase v) where
  values w g hg := by
    obtain ⟨hg, hne⟩ := Bindings.get?_erase_eq_some.1 hg
    exact Bindings.get?_erase_eq_some.2 ⟨h.values w g hg, hne⟩
  flow := h.flow

theorem Below.set (h : Below T e e') (v : ValueId) (g : Formula) :
    Below T (e.set v g) (e'.set v g) where
  values w g' hg := by
    rw [Environment.set, Bindings.get?_set] at hg ⊢
    by_cases hw : w = v
    · rw [if_pos hw] at hg ⊢
      exact hg
    · rw [if_neg hw] at hg ⊢
      exact h.values w g' hg
  flow := h.flow

/-! ### Operands -/

theorem Renewed.monotone (hT : T.WellFormed) (h : Renewed T e v a g e₁)
    (h' : Renewed T e' v a' g' e₁') (hle : Below T e e') : g = g' ∧ Below T e₁ e₁' := by
  cases h.atom.symm.trans h'.atom
  cases hT.eq_of_node_atom h.formula h'.formula
  refine ⟨rfl, fun w n hn => ?_, fun ρ hρ => ?_⟩
  · apply (h.values w n).2
    rcases (h'.values w n).1 hn with heq | ⟨hne, hn, hnot⟩
    · exact Or.inl heq
    · exact Or.inr ⟨hne, hle.values w n hn, hnot⟩
  · obtain ⟨b, hb⟩ := (h.flow ρ).1 hρ
    exact (h'.flow ρ).2 ⟨b, hle.flow _ hb⟩

/-- If `v` is bound to its atom `g` below, it may become a new instance of itself above. -/
theorem Renewed.monotone_of_bound (h' : Renewed T e' v a g e₁') (hle : Below T e e')
    (hget : e.values.get? v = some g) : Below T e e₁' where
  values w n hn := by
    rcases (h'.values w n).1 hn with ⟨rfl, rfl⟩ | ⟨-, hn, -⟩
    · exact hget
    · exact hle.values w n hn
  flow ρ hρ := h'.holds_flow (hle.flow ρ hρ)

theorem Assumed.monotone (h : Assumed T e g e₁) (h' : Assumed T e' g' e₁') (hle : Below T e e')
    (hg : ∀ ρ, T.holds ρ g = true → T.holds ρ g' = true) : Below T e₁ e₁' where
  values w n hn := by
    rw [h'.values] at hn
    rw [h.values]
    exact hle.values w n hn
  flow ρ hρ := by
    obtain ⟨hflow, hholds⟩ := (h.flow ρ).1 hρ
    exact (h'.flow ρ).2 ⟨hle.flow ρ hflow, hg ρ hholds⟩

/-! ### Instructions by their operation -/

theorem Resulted.isComputation (h : Resulted T p e op r e') : op.isComputation = true := by
  cases h <;> rfl

/-- An instruction `v` that assigns nothing changes nothing. -/
theorem Transferred.eq_of_isQuiet (h : Transferred T p v e e')
    (hquiet : ∀ op ∈ p.operation? v, op.isQuiet = true) : e' = e := by
  have hnot : ∀ {r e₁ op}, p.operation? v = some op → ¬ Resulted T p e op r e₁ := by
    intro r e₁ op hop hresulted
    have hop' := hquiet op hop
    have hcomputation := hresulted.isComputation
    cases op <;> simp_all [Operation.isQuiet, Operation.isComputation]
  cases h with
  | quiet _ => rfl
  | call hcall _ _ | callOther hcall _ => cases hquiet _ hcall
  | computed hop hresulted | forgotten hop hresulted => exact absurd hresulted (hnot hop)

/-- A call `v` renews its result if it is a truth value, and forgets it otherwise. -/
theorem Transferred.of_call {callee : FunctionId} {args : List ValueId}
    (h : Transferred T p v e e') (hcall : p.operation? v = some (.call callee args)) :
    (p.isBool v = true ∧ ∃ a g, Renewed T e v a g e') ∨ (p.isBool v = false ∧ e' = e.erase v) := by
  have hnot : ∀ {r e₁ op}, p.operation? v = some op → ¬ Resulted T p e op r e₁ := by
    intro r e₁ op hop hresulted
    cases hcall.symm.trans hop
    cases hresulted
  cases h with
  | quiet hquiet => cases hquiet _ hcall
  | call _ hbool hrenewed => exact Or.inl ⟨hbool, _, _, hrenewed⟩
  | callOther _ hother => exact Or.inr ⟨hother, rfl⟩
  | computed hop hresulted | forgotten hop hresulted => exact absurd hresulted (hnot hop)

/-- An instruction `v` with an operation `op` that may be computed is bound to the formula of its
result, if there is one. -/
theorem Transferred.of_isComputation (h : Transferred T p v e e')
    (hop : p.operation? v = some op) (hcomputation : op.isComputation = true) :
    ∃ r e₁, Resulted T p e op r e₁ ∧
      ((∃ g, r = some g ∧ e' = e₁.set v g) ∨ (r = Option.none ∧ e' = e₁.erase v)) := by
  cases h with
  | quiet hquiet =>
    have hop' := hquiet op hop
    cases op <;> simp_all [Operation.isQuiet, Operation.isComputation]
  | call hcall _ _ | callOther hcall _ =>
    cases hop.symm.trans hcall
    cases hcomputation
  | computed hop' hresulted =>
    cases hop.symm.trans hop'
    exact ⟨_, _, hresulted, Or.inl ⟨_, rfl, rfl⟩⟩
  | forgotten hop' hresulted =>
    cases hop.symm.trans hop'
    exact ⟨_, _, hresulted, Or.inr ⟨rfl, rfl⟩⟩

/-! ### The same formulas are found -/

section Operands

variable (hT : T.WellFormed) (hall : ∀ v, J v) (hle : Below T e e') (hb : Binds T p K J e)
  (hb' : Binds T p K J e')

include hT hall hle hb hb'

/-- The same formula is found for an operand `v` below and above. -/
theorem Fetched.monotone (hbool : p.isBool v = true) (hv : p.Safe K J v)
    (h : Fetched T p e v r e₁) (h' : Fetched T p e' v r' e₁') : r = r' ∧ Below T e₁ e₁' := by
  -- what is bound above is bound below, so the cases differ only if `v` is bound below and not
  -- above
  cases h with
  | bound hget =>
    cases h' with
    | bound hget' =>
      cases hget.symm.trans (hle.values v _ hget')
      exact ⟨rfl, hle⟩
    | constant _ hconst _ _ => cases (hb.constant v _ hget).symm.trans hconst
    | renewed hunbound hconst _ hrenewed =>
      -- it is not computed, so it is bound to its atom
      have hatomic := (hv hbool hconst (hall v)).resolve_right fun hK => hb'.ne_none hK hunbound
      obtain ⟨a, ha, hnode⟩ := (hb.known v _ (hall v) hget).of_atomic hatomic
      cases ha.symm.trans hrenewed.atom
      cases hT.eq_of_node_atom hnode hrenewed.formula
      exact ⟨rfl, hrenewed.monotone_of_bound hle hget⟩
    | other _ hother => simp [hother] at hbool
  | constant _ hconst _ hmade =>
    cases h' with
    | bound hget' => cases (hb'.constant v _ hget').symm.trans hconst
    | constant _ hconst' _ hmade' =>
      cases hconst.symm.trans hconst'
      cases hmade.unique hmade'
      exact ⟨rfl, hle⟩
    | renewed _ hconst' _ _ => cases hconst.symm.trans hconst'
    | other _ hother => simp [hother] at hbool
  | renewed hunbound hconst _ hrenewed =>
    cases h' with
    | bound hget' => cases hunbound.symm.trans (hle.values v _ hget')
    | constant _ hconst' _ _ => cases hconst.symm.trans hconst'
    | renewed _ _ _ hrenewed' =>
      obtain ⟨rfl, hle'⟩ := hrenewed.monotone hT hrenewed' hle
      exact ⟨rfl, hle'⟩
    | other _ hother => simp [hother] at hbool
  | other _ hother => simp [hother] at hbool

variable (hK : p.Supports K)

include hK

theorem Combined.monotone {lhs rhs : ValueId} {mk : Formula → Formula → FormulaM Formula}
    {onBools : Bool → Bool → Bool} (hbool : ∀ w ∈ [lhs, rhs], p.isBool w = true)
    (hsafe : ∀ w ∈ [lhs, rhs], p.Safe K J w) (h : Combined T p e lhs rhs mk onBools r e₁)
    (h' : Combined T p e' lhs rhs mk onBools r' e₁') : r = r' ∧ Below T e₁ e₁' := by
  simp only [List.forall_mem_cons] at hbool hsafe
  -- both operands have formulas
  have hboth : ∀ {e e₁ e₂ : Environment} {x y : Option Formula}, Fetched T p e lhs x e₁ →
      Fetched T p e₁ rhs y e₂ → ¬ (x = none ∨ y = none) := by
    intro e e₁ e₂ x y hx hy hnone
    obtain ⟨x', rfl⟩ := hx.exists_some hbool.1
    obtain ⟨y', rfl⟩ := hy.exists_some hbool.2.1
    simp at hnone
  cases h with
  | both hx hy _ hmade =>
    cases h' with
    | both hx' hy' _ hmade' =>
      obtain ⟨⟨⟩, hle₁⟩ := hx.monotone hT hall hle hb hb' hbool.1 hsafe.1 hx'
      have hb₁ := hx.binds hT hK hsafe.1 hb
      have hb₁' := hx'.binds hT hK hsafe.1 hb'
      obtain ⟨⟨⟩, hle₂⟩ := hy.monotone hT hall hle₁ hb₁ hb₁' hbool.2.1 hsafe.2.1 hy'
      cases hmade.unique hmade'
      exact ⟨rfl, hle₂⟩
    | missing hx' hy' hnone => exact absurd hnone (hboth hx' hy')
  | missing hx hy hnone => exact absurd hnone (hboth hx hy)

/-- The same formula is found for the result of `op` below and above. -/
theorem Resulted.monotone (hbool : p.combines op = true → ∀ w ∈ op.operands, p.isBool w = true)
    (hsafe : ∀ w ∈ op.operands, p.Safe K J w) (h : Resulted T p e op r e₁)
    (h' : Resulted T p e' op r' e₁') : r = r' ∧ Below T e₁ e₁' := by
  cases h with
  | @not arg x n _ hx _ hmade =>
    have harg : p.isBool arg = true := hbool rfl arg (by simp [Operation.operands])
    cases h' with
    | not hx' _ hmade' =>
      obtain ⟨⟨⟩, hle₁⟩ := hx.monotone hT hall hle hb hb' harg
        (hsafe _ (by simp [Operation.operands])) hx'
      cases hmade.unique hmade'
      exact ⟨rfl, hle₁⟩
    | notOther hx' =>
      obtain ⟨g, ⟨⟩⟩ := hx'.exists_some harg
  -- an operand that is a truth value has a formula, so this does not happen
  | @notOther arg _ hx =>
    obtain ⟨g, ⟨⟩⟩ := hx.exists_some (hbool rfl arg (by simp [Operation.operands]))
  | logical hlogical hcombined =>
    cases h' with
    | logical _ hcombined' =>
      exact hcombined.monotone hT hall hle hb hb' hK (hbool hlogical) hsafe hcombined'
    | arithmetic hnot => simp [hnot] at hlogical
  | arithmetic hnot =>
    cases h' with
    | logical hlogical _ => simp [hnot] at hlogical
    | arithmetic _ => exact ⟨rfl, hle⟩
  | equality horder hlhs hcombined =>
    cases h' with
    | equality _ _ hcombined' =>
      exact hcombined.monotone hT hall hle hb hb' hK
        (hbool (by simp [combines, horder, hlhs])) hsafe hcombined'
    | comparison hnot => rcases hnot with hnot | hnot <;> simp [hnot] at horder hlhs
  | comparison hnot =>
    cases h' with
    | equality horder hlhs _ => rcases hnot with hnot | hnot <;> simp [hnot] at horder hlhs
    | comparison _ => exact ⟨rfl, hle⟩

/-- The instruction `v` is monotone. -/
theorem Transferred.monotone
    (hbool : ∀ op, p.operation? v = some op → p.combines op = true →
      ∀ w ∈ op.operands, p.isBool w = true)
    (hsafe : ∀ op, p.operation? v = some op → ∀ w ∈ op.operands, p.Safe K J w)
    (h : Transferred T p v e e₁) (h' : Transferred T p v e' e₁') : Below T e₁ e₁' := by
  cases h with
  | quiet hquiet =>
    rw [h'.eq_of_isQuiet hquiet]
    exact hle
  | call hcall hcallBool hrenewed =>
    rcases h'.of_call hcall with ⟨-, a', g', hrenewed'⟩ | ⟨hother, -⟩
    · exact (hrenewed.monotone hT hrenewed' hle).2
    · simp [hother] at hcallBool
  | callOther hcall hother =>
    rcases h'.of_call hcall with ⟨hcallBool, -⟩ | ⟨-, rfl⟩
    · simp [hother] at hcallBool
    · exact hle.erase v
  | computed hop hresulted =>
    obtain ⟨r', e₂', hresulted', hout⟩ := h'.of_isComputation hop hresulted.isComputation
    obtain ⟨rfl, hle₁⟩ := hresulted.monotone hT hall hle hb hb' hK (hbool _ hop) (hsafe _ hop)
      hresulted'
    rcases hout with ⟨_, ⟨⟩, rfl⟩ | ⟨⟨⟩, -⟩
    exact hle₁.set v _
  | forgotten hop hresulted =>
    obtain ⟨r', e₂', hresulted', hout⟩ := h'.of_isComputation hop hresulted.isComputation
    obtain ⟨rfl, hle₁⟩ := hresulted.monotone hT hall hle hb hb' hK (hbool _ hop) (hsafe _ hop)
      hresulted'
    rcases hout with ⟨_, ⟨⟩, -⟩ | ⟨-, rfl⟩
    exact hle₁.erase v

end Operands

/-! ### Edges -/

theorem PassedTo.monotone {pairs : List (ValueId × ValueId)}
    {bound bound' : List (ValueId × Option Formula)} (hT : T.WellFormed) (hall : ∀ v, J v)
    (hK : p.Supports K) (hbool : ∀ w, K w → p.isBool w = true)
    (hargs : ∀ x ∈ pairs, p.isBool x.1 = true → p.isBool x.2 = true)
    (hsafe : ∀ x ∈ pairs, p.Safe K J x.2) (h : PassedTo T p e pairs bound e₁)
    (h' : PassedTo T p e' pairs bound' e₁') (hle : Below T e e') (hb : Binds T p K J e)
    (hb' : Binds T p K J e') : bound = bound' ∧ Below T e₁ e₁' := by
  induction h generalizing e' bound' with
  | nil =>
    cases h'
    exact ⟨rfl, hle⟩
  | @bool e e₂ _ param arg rest g bound hparam hfetched _ ih =>
    rw [List.forall_mem_cons] at hargs hsafe
    cases h' with
    | bool _ hfetched' hrest' =>
      obtain ⟨rfl, hle₁⟩ := hfetched.monotone hT hall hle hb hb' (hargs.1 hparam) hsafe.1 hfetched'
      obtain ⟨rfl, hle₂⟩ := ih hargs.2 hsafe.2 hrest' hle₁ (hfetched.binds hT hK hsafe.1 hb)
        (hfetched'.binds hT hK hsafe.1 hb')
      exact ⟨rfl, hle₂⟩
    | other hother _ => simp [hparam] at hother
  -- a parameter that is no truth value is forgotten on both sides, and is not to be kept
  | @other e _ param arg rest bound hparam _ ih =>
    rw [List.forall_mem_cons] at hargs hsafe
    have hne : ∀ w, K w → K w ∧ w ≠ param := by
      intro w hw
      refine ⟨hw, ?_⟩
      rintro rfl
      simp [hbool w hw] at hparam
    cases h' with
    | bool hparam' _ _ => simp [hparam] at hparam'
    | other _ hrest' =>
      exact ih hargs.2 hsafe.2 hrest' (hle.erase param) (hb.erase hne) (hb'.erase hne)

theorem BoundTo.monotone {params : List (ValueId × Option Formula)} (h : BoundTo T e params e₁)
    (h' : BoundTo T e' params e₁') (hle : Below T e e') : Below T e₁ e₁' where
  values w g hg := by
    apply (h.values w g).2
    rcases (h'.values w g).1 hg with hparam | ⟨hnot, hg, hfree⟩
    · exact Or.inl hparam
    · exact Or.inr ⟨hnot, hle.values w g hg, hfree⟩
  flow ρ hρ := by
    obtain ⟨ρ₀, hflow, hassigned, hagree⟩ := (h.flow ρ).1 hρ
    exact (h'.flow ρ).2 ⟨ρ₀, hle.flow ρ₀ hflow, hassigned, hagree⟩

/-! ### Meetings -/

/-- Environments `e₁` and `e₂` that bind values to their formulas agree. -/
theorem Binds.not_disagree (hT : T.WellFormed) (hall : ∀ v, J v) (h₁ : Binds T p K J e₁)
    (h₂ : Binds T p K J e₂) : ¬ Disagree e₁ e₂ v := by
  rintro ⟨g₁, g₂, hg₁, hg₂, hne⟩
  exact hne ((h₁.known v g₁ (hall v) hg₁).unique hT (h₂.known v g₂ (hall v) hg₂))

section Meetings

variable (hagree : ∀ v, ¬ Disagree e₁ e₂ v) (h : Joined T e₁ e₂ e')

include hagree h

theorem Joined.flow_iff (ρ : Atom → Bool) :
    T.holds ρ e'.flow = true ↔ T.holds ρ e₁.flow = true ∨ T.holds ρ e₂.flow = true := by
  rw [h.flow, MeetingSide, MeetingSide, reassigned_of_none hagree, reassigned_of_none hagree]

theorem Joined.values_iff : e'.values.get? v = some g ↔
    e₁.values.get? v = some g ∧ e₂.values.get? v = some g := by
  rw [h.values]
  constructor
  · rintro (⟨hdisagree, -⟩ | ⟨h₁, h₂, -⟩)
    · exact absurd hdisagree (hagree v)
    · exact ⟨h₁, h₂⟩
  · rintro ⟨h₁, h₂⟩
    refine Or.inr ⟨h₁, h₂, ?_⟩
    rintro a ⟨w, hdisagree, -⟩
    exact absurd hdisagree (hagree w)

end Meetings

/-- Where `e` meets environments `es` that agree with it, one of the flow conditions holds, and
what they all bind is bound. -/
theorem JoinedTo.iff {es : List Environment} (hT : T.WellFormed) (hall : ∀ v, J v)
    (h : JoinedTo T e es e') (he : Binds T p K J e) (hes : ∀ x ∈ es, Binds T p K J x) :
    (∀ ρ, T.holds ρ e'.flow = true ↔ ∃ x ∈ e :: es, T.holds ρ x.flow = true) ∧
      ∀ v g, e'.values.get? v = some g ↔ ∀ x ∈ e :: es, x.values.get? v = some g := by
  induction h with
  | nil => simp
  | @cons e x es e₁ e' hjoined _ ih =>
    rw [List.forall_mem_cons] at hes
    have hagree : ∀ v, ¬ Disagree e x v := fun v => he.not_disagree hT hall hes.1
    obtain ⟨hflow, hvalues⟩ := ih (hjoined.binds hT he hes.1) hes.2
    constructor
    · intro ρ
      rw [hflow]
      simp only [List.exists_mem_cons_iff, hjoined.flow_iff hagree, or_assoc]
    · intro v g
      rw [hvalues]
      simp only [List.forall_mem_cons, hjoined.values_iff hagree, and_assoc]

theorem JoinedAll.iff {es : List Environment} (hT : T.WellFormed) (hall : ∀ v, J v)
    (h : JoinedAll T es (some e')) (hes : ∀ x ∈ es, Binds T p K J x) :
    (∀ ρ, T.holds ρ e'.flow = true ↔ ∃ x ∈ es, T.holds ρ x.flow = true) ∧
      ∀ v g, e'.values.get? v = some g ↔ ∀ x ∈ es, x.values.get? v = some g := by
  cases es with
  | nil => cases h
  | cons x es =>
    obtain ⟨_, ⟨⟩, hjoined⟩ := h
    rw [List.forall_mem_cons] at hes
    exact hjoined.iff hT hall hes.1 hes.2

theorem Joined.monotone (hagree : ∀ v, ¬ Disagree e₁ e₂ v) (hagree' : ∀ v, ¬ Disagree e₁' e₂' v)
    (h : Joined T e₁ e₂ e) (h' : Joined T e₁' e₂' e') (h₁ : Below T e₁ e₁')
    (h₂ : Below T e₂ e₂') : Below T e e' where
  values v g hg := by
    obtain ⟨hg₁, hg₂⟩ := (h'.values_iff hagree').1 hg
    exact (h.values_iff hagree).2 ⟨h₁.values v g hg₁, h₂.values v g hg₂⟩
  flow ρ hρ :=
    (h'.flow_iff hagree' ρ).2 (((h.flow_iff hagree ρ).1 hρ).imp (h₁.flow ρ) (h₂.flow ρ))

/-! ### A visit of a block -/

section Places

variable (hw : p.Watched f S J) (hall : ∀ v, J v) (hbody : p.HasBody f) (hT : T.WellFormed)
  (hb : p.Reaches (p.function f).entry b)

include hw hall hbody hT hb

theorem Stepped.monotone (hv : (p.block b).instructions[k]? = some v)
    (h : Stepped catalogue.rule T p v e e₁) (h' : Stepped catalogue.rule T p v e' e₁')
    (hle : Below T e e') (hbinds : Binds T p (p.Kept f S b k) J e)
    (hbinds' : Binds T p (p.Kept f S b k) J e') : Below T e₁ e₁' := by
  obtain ⟨e₂, htransferred, hrefined⟩ := h
  obtain ⟨e₂', htransferred', hrefined'⟩ := h'
  have hmem := List.mem_of_getElem? hv
  have hblock := hbody.mem_blocks_of_reaches hb
  have hle₂ := htransferred.monotone hT hall hle hbinds hbinds' (hw.supports hbody)
    (fun op hop hcombines w hwop => hbody.isBool_of_mem_operands hblock hmem hop hcombines hwop)
    (fun op hop w hwop => hw.safe hb hv hop hwop) htransferred'
  have hbinds₂ := htransferred.binds hw hbody hT hb hv hbinds
  have hbinds₂' := htransferred'.binds hw hbody hT hb hv hbinds'
  -- whether there is a check depends on the instruction only, so both sides check or neither
  cases hrefined with
  | check hcond hfetched hassumed =>
    cases hrefined' with
    | check hcond' hfetched' hassumed' =>
      cases hcond.symm.trans hcond'
      obtain ⟨⟨callee, args, hcall, hwop⟩, hbool⟩ := mem_operands_of_condition? hcond
      obtain ⟨⟨⟩, hle₃⟩ := hfetched.monotone hT hall hle₂ hbinds₂ hbinds₂' hbool
        (hw.safe_succ hb hv hcall hwop) hfetched'
      exact hassumed.monotone hassumed' hle₃ fun _ hρ => hρ
    | none hnone => cases hcond.symm.trans hnone
  | none hnone =>
    cases hrefined' with
    | check hcond' _ _ => cases hnone.symm.trans hcond'
    | none _ => exact hle₂

/-- The instructions `vs` of a block, behind those that were `passed` already. -/
theorem RunsThrough.monotone_from {vs passed after : List ValueId}
    (hlist : (p.block b).instructions = passed ++ (vs ++ after))
    (h : RunsThrough catalogue.rule T p vs e e₁) (h' : RunsThrough catalogue.rule T p vs e' e₁')
    (hle : Below T e e') (hbinds : Binds T p (p.Kept f S b passed.length) J e)
    (hbinds' : Binds T p (p.Kept f S b passed.length) J e') :
    Below T e₁ e₁' ∧ Binds T p (p.Kept f S b (passed ++ vs).length) J e₁ ∧
      Binds T p (p.Kept f S b (passed ++ vs).length) J e₁' := by
  induction h generalizing passed e' with
  | nil =>
    cases h'
    exact ⟨hle, by simpa using hbinds, by simpa using hbinds'⟩
  | @cons v vs e e₂ e₁ hstep _ ih =>
    cases h' with
    | @cons _ _ _ e₂' _ hstep' hrest' =>
      have hv : (p.block b).instructions[passed.length]? = some v := by
        rw [hlist]
        simp
      have hle₂ := hstep.monotone hw hall hbody hT hb hv hstep' hle hbinds hbinds'
      -- what is kept before the next instruction is bound on either side
      have hbinds₂ : ∀ {e e₂}, Stepped catalogue.rule T p v e e₂ →
          Binds T p (p.Kept f S b passed.length) J e →
          Binds T p (p.Kept f S b (passed ++ [v]).length) J e₂ := by
        rintro e e₂ ⟨e₃, htransferred, hrefined⟩ hbinds
        rw [List.length_append, List.length_singleton]
        exact Refined.binds hw hbody hT hb hv hrefined
          (htransferred.binds hw hbody hT hb hv hbinds)
      have hrest := @ih e₂' (passed ++ [v]) (by simpa using hlist) hrest' hle₂
        (hbinds₂ hstep hbinds) (hbinds₂ hstep' hbinds')
      simpa using hrest

theorem Entered.monotone {target : Target} (htarget : target ∈ p.successors b)
    (hsafe : ∀ w ∈ target.args, p.Safe (p.Kept f S b (p.block b).instructions.length) J w)
    (h : Entered T p target e e₁) (h' : Entered T p target e' e₁') (hle : Below T e e')
    (hbinds : Binds T p (p.Kept f S b (p.block b).instructions.length) J e)
    (hbinds' : Binds T p (p.Kept f S b (p.block b).instructions.length) J e') :
    Below T e₁ e₁' := by
  obtain ⟨params, e₂, hpassed, hbound⟩ := h
  obtain ⟨params', e₂', hpassed', hbound'⟩ := h'
  -- what is passed has the types of the parameters
  have hargs : ∀ x ∈ p.passed target, p.isBool x.1 = true → p.isBool x.2 = true := by
    intro x hx hbool
    have hfits := (hbody.fitsTarget (hbody.mem_blocks_of_reaches hb) htarget).2
    have htypes := (map_eq_map_iff_zip.1 hfits.symm).2 x hx
    rw [isBool, beq_iff_eq] at hbool ⊢
    exact htypes.symm.trans hbool
  obtain ⟨rfl, hle₂⟩ := hpassed.monotone hT hall (hw.supports hbody)
    (fun w hkept => hkept.isBool hbody hb (Nat.le_refl _)) hargs
    (fun x hx => hsafe x.2 (List.of_mem_zip hx).2) hpassed' hle hbinds hbinds'
  exact hbound.monotone hbound' hle₂

/-- Both sides of a conditional branch are monotone. -/
theorem Forked.monotone {cond : ValueId} {whenTrue whenFalse : Target}
    (hterm : p.terminator? b = some (.condBranch cond whenTrue whenFalse))
    (h : Forked T p e cond whenTrue whenFalse e₁ e₂)
    (h' : Forked T p e' cond whenTrue whenFalse e₁' e₂') (hle : Below T e e')
    (hbinds : Binds T p (p.Kept f S b (p.block b).instructions.length) J e)
    (hbinds' : Binds T p (p.Kept f S b (p.block b).instructions.length) J e') :
    Below T e₁ e₁' ∧ Below T e₂ e₂' := by
  obtain ⟨x, y, e₀, eT, eF, hdecided, hnot, hT₁, hF₁, hentered₁, hentered₂⟩ := h
  obtain ⟨x', y', e₀', eT', eF', hdecided', hnot', hT₁', hF₁', hentered₁', hentered₂'⟩ := h'
  have hsafe : ∀ {w}, w ∈ (Operation.condBranch cond whenTrue whenFalse).operands →
      p.Safe (p.Kept f S b (p.block b).instructions.length) J w :=
    fun hwop => hw.safe_terminator hbody hb hterm hwop
  have hcond : cond ∈ (Operation.condBranch cond whenTrue whenFalse).operands := by
    simp [Operation.operands]
  -- the condition has a formula, and it is the same
  have hbool := hbody.isBool_of_condBranch (hbody.mem_blocks_of_reaches hb) hterm
  have hx := hdecided.fetched hbool
  have hx' := hdecided'.fetched hbool
  obtain ⟨⟨⟩, hle₀⟩ := hx.monotone hT hall hle hbinds hbinds' hbool (hsafe hcond) hx'
  have hbinds₀ := hx.binds hT (hw.supports hbody) (hsafe hcond) hbinds
  have hbinds₀' := hx'.binds hT (hw.supports hbody) (hsafe hcond) hbinds'
  have htrue : whenTrue ∈ p.successors b := mem_successors_iff.2 ⟨_, hterm, List.mem_cons_self⟩
  have hfalse : whenFalse ∈ p.successors b := mem_successors_iff.2
    ⟨_, hterm, List.mem_cons_of_mem _ (List.mem_singleton_self _)⟩
  constructor
  · exact hentered₁.monotone hw hall hbody hT hb htrue
      (fun w hwop => hsafe (by simp [Operation.operands, hwop])) hentered₁'
      (hT₁.monotone hT₁' hle₀ fun _ hρ => hρ) (hbinds₀.congr hT₁.values)
      (hbinds₀'.congr hT₁'.values)
  · refine hentered₂.monotone hw hall hbody hT hb hfalse
      (fun w hwop => hsafe (by simp [Operation.operands, hwop])) hentered₂'
      (hF₁.monotone hF₁' hle₀ fun ρ hρ => ?_) (hbinds₀.congr hF₁.values)
      (hbinds₀'.congr hF₁'.values)
    rw [hnot.holds] at hρ
    rw [hnot'.holds]
    exact hρ

/-- The edges that leave `b` from `e` and from `e'` lead to the same blocks, one above the other. -/
theorem LeadsOut.monotone (h : LeadsOut T p b e edges) (h' : LeadsOut T p b e' edges')
    (hle : Below T e e') (hbinds : Binds T p (p.Kept f S b (p.block b).instructions.length) J e)
    (hbinds' : Binds T p (p.Kept f S b (p.block b).instructions.length) J e') :
    List.Forall₂ (fun x x' => x.1 = x'.1 ∧ Below T x.2 x'.2) edges edges' := by
  have hnone : ∀ {op}, p.terminator? b = some op → op.targets ≠ [] → p.successors b ≠ [] := by
    intro op hterm htargets
    rw [successors, hterm]
    exact htargets
  -- both lists come from the terminator of `b`, so they have the same form
  cases h with
  | branch hterm hentered =>
    cases h' with
    | branch hterm' hentered' =>
      cases hterm.symm.trans hterm'
      have htarget := mem_successors_iff.2 ⟨_, hterm, List.mem_singleton_self _⟩
      have hle₁ := hentered.monotone hw hall hbody hT hb htarget
        (fun w hwop => hw.safe_terminator hbody hb hterm hwop) hentered' hle hbinds hbinds'
      exact .cons ⟨rfl, hle₁⟩ .nil
    | condBranch hterm' _ _ | same hterm' _ _ _ => cases hterm.symm.trans hterm'
    | none hnil => exact absurd hnil (hnone hterm (by simp [Operation.targets]))
  | condBranch hterm hne hforked =>
    cases h' with
    | branch hterm' _ => cases hterm.symm.trans hterm'
    | condBranch hterm' _ hforked' =>
      cases hterm.symm.trans hterm'
      obtain ⟨hle₁, hle₂⟩ := hforked.monotone hw hall hbody hT hb hterm hforked' hle hbinds hbinds'
      exact .cons ⟨rfl, hle₁⟩ (.cons ⟨rfl, hle₂⟩ .nil)
    | same hterm' hsame _ _ =>
      cases hterm.symm.trans hterm'
      exact absurd hsame hne
    | none hnil => exact absurd hnil (hnone hterm (by simp [Operation.targets]))
  | same hterm hsame hforked hjoined =>
    cases h' with
    | branch hterm' _ => cases hterm.symm.trans hterm'
    | condBranch hterm' hne _ =>
      cases hterm.symm.trans hterm'
      exact absurd hsame hne
    | same hterm' _ hforked' hjoined' =>
      cases hterm.symm.trans hterm'
      obtain ⟨hle₁, hle₂⟩ := hforked.monotone hw hall hbody hT hb hterm hforked' hle hbinds hbinds'
      -- both sides bind values to their formulas, so they agree
      have hagree : ∀ {cond whenTrue whenFalse e e₁ e₂},
          p.terminator? b = some (.condBranch cond whenTrue whenFalse) →
          whenTrue.block = whenFalse.block → Forked T p e cond whenTrue whenFalse e₁ e₂ →
          Binds T p (p.Kept f S b (p.block b).instructions.length) J e →
          ∀ v, ¬ Disagree e₁ e₂ v := by
        intro cond whenTrue whenFalse e e₁ e₂ hterm hsame hforked hbinds v
        obtain ⟨hcross₁, hcross₂⟩ := hforked.crosses hterm
        have hbinds₁ := hcross₁.binds hw hbody hT hb hbinds
        have hbinds₂ := hcross₂.binds hw hbody hT hb hbinds
        rw [hsame] at hbinds₁
        exact hbinds₁.not_disagree hT hall hbinds₂
      have hle₃ := hjoined.monotone (hagree hterm hsame hforked hbinds)
        (hagree hterm hsame hforked' hbinds') hjoined' hle₁ hle₂
      exact .cons ⟨rfl, hle₃⟩ .nil
    | none hnil => exact absurd hnil (hnone hterm (by simp [Operation.targets]))
  | none hnil =>
    cases h' with
    | branch hterm' _ | condBranch hterm' _ _ | same hterm' _ _ _ =>
      exact absurd hnil (hnone hterm' (by simp [Operation.targets]))
    | none _ => exact .nil

theorem LeavesBy.monotone (h : LeavesBy catalogue.rule T p b e edges)
    (h' : LeavesBy catalogue.rule T p b e' edges') (hle : Below T e e')
    (hbinds : Binds T p (p.Kept f S b 0) J e) (hbinds' : Binds T p (p.Kept f S b 0) J e') :
    List.Forall₂ (fun x x' => x.1 = x'.1 ∧ Below T x.2 x'.2) edges edges' := by
  obtain ⟨e₁, hrun, hout⟩ := h
  obtain ⟨e₁', hrun', hout'⟩ := h'
  have hlist : (p.block b).instructions = [] ++ ((p.block b).instructions ++ []) := by simp
  obtain ⟨hle₁, hbinds₁, hbinds₁'⟩ := hrun.monotone_from hw hall hbody hT hb hlist hrun' hle
    hbinds hbinds'
  exact hout.monotone hw hall hbody hT hb hout' hle₁ hbinds₁ hbinds₁'

end Places

/-- What is found for the block `c` in `edges` is below what is found in `edges'`. -/
theorem exists_lookup_of_forall₂
    (h : List.Forall₂ (fun x x' => x.1 = x'.1 ∧ Below T x.2 x'.2) edges edges')
    (he : edges.lookup c = some e) : ∃ e', edges'.lookup c = some e' ∧ Below T e e' := by
  induction h with
  | nil => cases he
  | @cons x x' l l' hx _ ih =>
    obtain ⟨d, y⟩ := x
    obtain ⟨d', y'⟩ := x'
    obtain ⟨rfl, hle⟩ := hx
    rw [lookup_cons_eq] at he ⊢
    by_cases hc : c = d
    · rw [if_pos hc] at he ⊢
      cases he
      exact ⟨y', rfl, hle⟩
    · rw [if_neg hc] at he ⊢
      exact ih he

end FlowFacts
