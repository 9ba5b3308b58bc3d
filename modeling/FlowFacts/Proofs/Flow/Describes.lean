import FlowFacts.Proofs.Flow.Execution
import FlowFacts.Proofs.Flow.Analysis

/-!
# Environments that describe stores

An environment describes a store if some assignment of truth values to atoms satisfies its
flow condition and gives every value that is bound the truth value it has.  This is not
enough to go on with: the atom of a value that is not bound any more may still be mentioned
by formulas of other values.  It has to stand for the truth value that its value has now, and
we say that such formulas are *current*.  When a value is met of which nothing is known, its
atom is assigned its truth value.  This does not change what current formulas say.

An instruction changes the truth value of its result.  If the result is bound to a formula,
its atom keeps what it said, so other formulas must not mention it.  That they do not is no
matter of a single step and is a hypothesis here.

## Main definitions

* `Current` — the atoms of values in a formula stand for what the values are.
* `Describes` — an environment describes a store.
* `Effect` — what an instruction does to a store.

## Main results

* `Stepped.describes` — instructions keep this.
* `LeadsOut.describes`, `JoinedAll.describes` — so do edges and meetings.
-/

namespace FlowFacts

open FormulaTable Program

variable {T : FormulaTable} {p : Program} {e e₁ e₂ e' : Environment} {v w : ValueId}
  {f g : Formula} {a : Atom} {ρ ρ' : Atom → Bool} {σ σ' : Store} {b : Bool} {r : Option Formula}
  {mk : Formula → Formula → FormulaM Formula} {onBools : Bool → Bool → Bool} {op : Operation}
  {bound : List (ValueId × Option Formula)} {pairs : List (ValueId × ValueId)} {target : Target}
  {fn : Function}

/-- The atoms of values that `g` mentions stand for what the values are in `σ`. -/
def Current (T : FormulaTable) (p : Program) (σ : Store) (ρ : Atom → Bool) (g : Formula) : Prop :=
  ∀ w a, p.isBool w = true → T.valueAtom? w = some a → T.Occurs a g →
    p.read σ w = some (.bool (ρ a))

/-- The environment `e` describes the store `σ`, by the assignment `ρ` of truth values to atoms. -/
structure Describes (T : FormulaTable) (p : Program) (e : Environment) (σ : Store)
    (ρ : Atom → Bool) : Prop where
  /-- The flow condition holds. -/
  flow : T.holds ρ e.flow = true
  /-- Values that are bound are what their formulas say. -/
  values : ∀ v g, e.values.get? v = some g → p.read σ v = some (.bool (T.holds ρ g))
  /-- Their formulas are current. -/
  current : ∀ v g, e.values.get? v = some g → Current T p σ ρ g

/-- The assignment `ρ'` does not change what formulas say that are current by `ρ`. -/
def Keeping (T : FormulaTable) (p : Program) (σ : Store) (ρ ρ' : Atom → Bool) : Prop :=
  ∀ g, Current T p σ ρ g → Current T p σ ρ' g ∧ T.holds ρ' g = T.holds ρ g

protected theorem Keeping.refl (T : FormulaTable) (p : Program) (σ : Store) (ρ : Atom → Bool) :
    Keeping T p σ ρ ρ :=
  fun _ hg => ⟨hg, rfl⟩

theorem Keeping.trans {ρ₁ ρ₂ ρ₃ : Atom → Bool} (h : Keeping T p σ ρ₁ ρ₂)
    (h' : Keeping T p σ ρ₂ ρ₃) : Keeping T p σ ρ₁ ρ₃ := by
  intro g hg
  obtain ⟨hg₂, heq⟩ := h g hg
  obtain ⟨hg₃, heq'⟩ := h' g hg₂
  exact ⟨hg₃, heq'.trans heq⟩

/-- An atom `a` that the formula `g` does not mention may be assigned anything. -/
theorem update_of_occurs {c : Atom} (ha : ¬ T.Occurs a g) (hc : T.Occurs c g) :
    Function.update ρ a b c = ρ c := by
  refine Function.update_of_ne ?_ _ _
  rintro rfl
  exact ha hc

/-- The atom `a` of `v` may be assigned the truth value that `v` has: where it is mentioned by a
current formula, it has that already. -/
theorem keeping_update (hv : p.isBool v = true) (ha : T.valueAtom? v = some a)
    (hread : p.read σ v = some (.bool b)) : Keeping T p σ ρ (Function.update ρ a b) := by
  intro g hg
  by_cases hocc : T.Occurs a g
  · have hab : ρ a = b := by
      have hnow := hg v a hv ha hocc
      rw [hread, Option.some.injEq, Constant.bool.injEq] at hnow
      exact hnow.symm
    rw [← hab, Function.update_eq_self]
    exact ⟨hg, rfl⟩
  · refine ⟨fun w c hw hc hoccc => ?_, holds_update hocc b⟩
    rw [update_of_occurs hocc hoccc]
    exact hg w c hw hc hoccc

/-! ### Values of which nothing is known -/

/-- The value `v` becomes a new instance of itself, with its truth value in `σ'` for its atom.
Nothing else may have changed. -/
theorem Renewed.describes (hT : T.WellFormed) (h : Renewed T e v a f e')
    (hd : Describes T p e σ ρ) (hread : p.read σ' v = some (.bool b))
    (hsame : ∀ w, w ≠ v → p.read σ' w = p.read σ w) :
    Describes T p e' σ' (Function.update ρ a b) := by
  have hatom := means_of_node_atom hT h.formula
  refine ⟨(h.flow _).2 ⟨ρ a, ?_⟩, fun w g hw => ?_, fun w g hw u c hu hc hocc => ?_⟩
  · -- for the flow condition the atom keeps its old meaning
    rw [Function.update_idem, Function.update_eq_self]
    exact hd.flow
  · rcases (h.values w g).1 hw with ⟨rfl, rfl⟩ | ⟨hne, hg, hnot⟩
    · rw [hread, hatom.holds, Function.update_self]
    · rw [hsame w hne, holds_update hnot]
      exact hd.values w g hg
  · rcases (h.values w g).1 hw with ⟨rfl, rfl⟩ | ⟨hne, hg, hnot⟩
    · have hca : c = a := hatom.occurs hocc
      have huw : u = w := hT.valueAtom_inj (hca ▸ hc) h.atom
      rw [huw, hca, hread, Function.update_self]
    · have huv : u ≠ v := by
        rintro rfl
        rw [h.atom, Option.some.injEq] at hc
        exact hnot (hc ▸ hocc)
      rw [hsame u huv, update_of_occurs hnot hocc]
      exact hd.current w g hg u c hu hc hocc

/-! ### Operands -/

/-- An operand `v` is what its formula says, and formulas that were current stay so. -/
theorem Fetched.describes (hT : T.WellFormed) (h : Fetched T p e v r e') (hσ : σ.Typed p)
    (hread : (p.read σ v).isSome = true) (hd : Describes T p e σ ρ) :
    ∃ ρ', Describes T p e' σ ρ' ∧ Keeping T p σ ρ ρ' ∧
      ∀ g ∈ r, p.read σ v = some (.bool (T.holds ρ' g)) ∧ Current T p σ ρ' g := by
  cases h with
  | bound hg =>
    refine ⟨ρ, hd, .refl T p σ ρ, ?_⟩
    rintro _ ⟨⟩
    exact ⟨hd.values _ _ hg, hd.current _ _ hg⟩
  | constant _ hconst hmeans _ =>
    refine ⟨ρ, hd, .refl T p σ ρ, ?_⟩
    rintro _ ⟨⟩
    refine ⟨?_, fun w c _ _ hocc => absurd (hmeans.occurs hocc) (Set.notMem_empty c)⟩
    rw [read_of_constant? hconst, hmeans.holds]
  -- nothing was known of the operand, so its atom is assigned what the operand is now
  | @renewed a f _ _ _ hbool hrenewed =>
    obtain ⟨b, hb⟩ := exists_bool_of_read hσ hbool hread
    have hd' := hrenewed.describes hT hd hb fun _ _ => rfl
    refine ⟨_, hd', keeping_update hbool hrenewed.atom hb, ?_⟩
    rintro _ ⟨⟩
    have hbound := (hrenewed.values v f).2 (Or.inl ⟨rfl, rfl⟩)
    exact ⟨hd'.values v f hbound, hd'.current v f hbound⟩
  | other _ _ => exact ⟨ρ, hd, .refl T p σ ρ, by simp⟩

/-- No formula that `e` binds a value to mentions the atom `a`. -/
def Unmentioned (T : FormulaTable) (e : Environment) (a : Atom) : Prop :=
  ∀ w g, e.values.get? w = some g → ¬ T.Occurs a g

/-- Meeting an operand `v` does not bring in the atom `a` of another value. -/
theorem Fetched.unmentioned (hT : T.WellFormed) (h : Fetched T p e v r e') (hu : Unmentioned T e a)
    (hne : T.valueAtom? v ≠ some a) : Unmentioned T e' a ∧ ∀ g ∈ r, ¬ T.Occurs a g := by
  cases h with
  | bound hg =>
    refine ⟨hu, ?_⟩
    rintro _ ⟨⟩
    exact hu _ _ hg
  | constant _ _ hmeans _ =>
    refine ⟨hu, ?_⟩
    rintro _ ⟨⟩
    exact fun hocc => Set.notMem_empty a (hmeans.occurs hocc)
  | @renewed c f _ _ _ _ hrenewed =>
    have hatom : ¬ T.Occurs a f := by
      intro hocc
      have hac : a = c := (means_of_node_atom hT hrenewed.formula).occurs hocc
      exact hne (hac ▸ hrenewed.atom)
    refine ⟨fun w g hg => ?_, ?_⟩
    · rcases (hrenewed.values w g).1 hg with ⟨-, rfl⟩ | ⟨-, hg, -⟩
      · exact hatom
      · exact hu w g hg
    · rintro _ ⟨⟩
      exact hatom
  | other _ _ => exact ⟨hu, by simp⟩

/-! ### Results -/

/-- Two operands `lhs` and `rhs` are what their formulas say, and so is what is computed from
them. -/
theorem Combined.describes {lhs rhs : ValueId} (hT : T.WellFormed)
    (h : Combined T p e lhs rhs mk onBools r e') (hσ : σ.Typed p)
    (hlhs : (p.read σ lhs).isSome = true) (hrhs : (p.read σ rhs).isSome = true)
    (hd : Describes T p e σ ρ) :
    ∃ ρ', Describes T p e' σ ρ' ∧ ∀ g ∈ r, Current T p σ ρ' g ∧
      ∃ x y, p.read σ lhs = some (.bool x) ∧ p.read σ rhs = some (.bool y) ∧
        T.holds ρ' g = onBools x y := by
  cases h with
  | @both x y f e₁ _ hx hy hmeans _ =>
    obtain ⟨ρ₁, hd₁, -, hfirst⟩ := hx.describes hT hσ hlhs hd
    obtain ⟨ρ₂, hd₂, hkeep, hsecond⟩ := hy.describes hT hσ hrhs hd₁
    obtain ⟨hxread, hxcur⟩ := hfirst x rfl
    obtain ⟨hyread, hycur⟩ := hsecond y rfl
    -- the second operand may be one whose atom the formula of the first mentions
    obtain ⟨hxcur', hxsame⟩ := hkeep x hxcur
    refine ⟨ρ₂, hd₂, ?_⟩
    rintro _ ⟨⟩
    refine ⟨fun w c hw hc hocc => ?_, _, _, hxread, hyread, ?_⟩
    · rcases hmeans.occurs hocc with hocc | hocc
      · exact hxcur' w c hw hc hocc
      · exact hycur w c hw hc hocc
    · rw [hmeans.holds, hxsame]
  | missing hx hy _ =>
    obtain ⟨ρ₁, hd₁, -, -⟩ := hx.describes hT hσ hlhs hd
    obtain ⟨ρ₂, hd₂, -, -⟩ := hy.describes hT hσ hrhs hd₁
    exact ⟨ρ₂, hd₂, by simp⟩

theorem Combined.unmentioned {lhs rhs : ValueId} (hT : T.WellFormed)
    (h : Combined T p e lhs rhs mk onBools r e') (hu : Unmentioned T e a)
    (hlhs : T.valueAtom? lhs ≠ some a) (hrhs : T.valueAtom? rhs ≠ some a) :
    Unmentioned T e' a ∧ ∀ g ∈ r, ¬ T.Occurs a g := by
  cases h with
  | both hx hy hmeans _ =>
    obtain ⟨hu₁, hxnot⟩ := hx.unmentioned hT hu hlhs
    obtain ⟨hu₂, hynot⟩ := hy.unmentioned hT hu₁ hrhs
    refine ⟨hu₂, ?_⟩
    rintro _ ⟨⟩ hocc
    rcases hmeans.occurs hocc with hocc | hocc
    · exact hxnot _ rfl hocc
    · exact hynot _ rfl hocc
  | missing hx hy _ =>
    obtain ⟨hu₁, -⟩ := hx.unmentioned hT hu hlhs
    obtain ⟨hu₂, -⟩ := hy.unmentioned hT hu₁ hrhs
    exact ⟨hu₂, by simp⟩

/-- The formula of the result of `op` says what is computed. -/
theorem Resulted.describes (hT : T.WellFormed) (h : Resulted T p e op r e') (hσ : σ.Typed p)
    (hread : ∀ w ∈ op.operands, (p.read σ w).isSome = true) (hd : Describes T p e σ ρ) :
    ∃ ρ', Describes T p e' σ ρ' ∧ ∀ g ∈ r, Current T p σ ρ' g ∧
      p.computed? σ op = some (T.holds ρ' g) := by
  cases h with
  | @not arg x f _ hx hmeans _ =>
    obtain ⟨ρ₁, hd₁, -, hfirst⟩ := hx.describes hT hσ (hread arg (by simp [Operation.operands])) hd
    obtain ⟨hxread, hxcur⟩ := hfirst x rfl
    refine ⟨ρ₁, hd₁, ?_⟩
    rintro _ ⟨⟩
    refine ⟨fun w c hw hc hocc => hxcur w c hw hc (hmeans.occurs hocc), ?_⟩
    rw [computed?, readBool?_of_read hxread, hmeans.holds]
    rfl
  | notOther hx =>
    obtain ⟨ρ₁, hd₁, -, -⟩ := hx.describes hT hσ (hread _ (by simp [Operation.operands])) hd
    exact ⟨ρ₁, hd₁, by simp⟩
  | logical hlogical hcombined =>
    obtain ⟨ρ₁, hd₁, hresult⟩ := hcombined.describes hT hσ
      (hread _ (by simp [Operation.operands])) (hread _ (by simp [Operation.operands])) hd
    refine ⟨ρ₁, hd₁, fun g hg => ?_⟩
    obtain ⟨hcur, x, y, hx, hy, hop⟩ := hresult g hg
    refine ⟨hcur, ?_⟩
    rw [computed?, if_pos hlogical, readBool?_of_read hx, readBool?_of_read hy, hop]
    rfl
  | arithmetic _ => exact ⟨ρ, hd, by simp⟩
  | equality horder _ hcombined =>
    obtain ⟨ρ₁, hd₁, hresult⟩ := hcombined.describes hT hσ
      (hread _ (by simp [Operation.operands])) (hread _ (by simp [Operation.operands])) hd
    refine ⟨ρ₁, hd₁, fun g hg => ?_⟩
    obtain ⟨hcur, x, y, hx, hy, hop⟩ := hresult g hg
    refine ⟨hcur, ?_⟩
    rw [computed?, if_neg (by simp [horder]), readBool?_of_read hx, readBool?_of_read hy, hop]
    rfl
  | comparison _ => exact ⟨ρ, hd, by simp⟩

theorem Resulted.unmentioned (hT : T.WellFormed) (h : Resulted T p e op r e')
    (hu : Unmentioned T e a) (hne : ∀ w ∈ op.operands, T.valueAtom? w ≠ some a) :
    Unmentioned T e' a ∧ ∀ g ∈ r, ¬ T.Occurs a g := by
  cases h with
  | not hx hmeans _ =>
    obtain ⟨hu₁, hxnot⟩ := hx.unmentioned hT hu (hne _ (by simp [Operation.operands]))
    refine ⟨hu₁, ?_⟩
    rintro _ ⟨⟩ hocc
    exact hxnot _ rfl (hmeans.occurs hocc)
  | notOther hx =>
    obtain ⟨hu₁, -⟩ := hx.unmentioned hT hu (hne _ (by simp [Operation.operands]))
    exact ⟨hu₁, by simp⟩
  | logical _ hcombined =>
    exact hcombined.unmentioned hT hu (hne _ (by simp [Operation.operands]))
      (hne _ (by simp [Operation.operands]))
  | arithmetic _ => exact ⟨hu, by simp⟩
  | equality _ _ hcombined =>
    exact hcombined.unmentioned hT hu (hne _ (by simp [Operation.operands]))
      (hne _ (by simp [Operation.operands]))
  | comparison _ => exact ⟨hu, by simp⟩

/-! ### Instructions -/

/-- What the instruction `v` does to the store `σ`, if the execution goes on. -/
inductive Effect (p : Program) (c : Catalogue) (v : ValueId) (σ : Store) : Store → Prop
  /-- Nothing is assigned. -/
  | quiet {op : Operation} : p.operation? v = some op → op.hasResult = false → Effect p c v σ σ
  /-- The result is assigned. -/
  | result {op : Operation} {x : Constant} : p.operation? v = some op → op.hasResult = true →
      (∀ w ∈ op.operands, (p.read σ w).isSome = true) → p.typeOf v = some x.ty →
      (∀ b ∈ p.computed? σ op, x = .bool b) →
      (∀ cond ∈ c.condition? p v, p.read σ cond = some (.bool true)) →
      Effect p c v σ (Function.update σ v (some x))

/-- The result `v` is assigned `x`: it may be bound to a formula that says what it is, or not at
all.  No formula may mention its atom. -/
theorem Describes.assigned {x : Constant} (hd : Describes T p e σ ρ)
    (hconst : p.constant? v = none)
    (hu : p.isBool v = true → ∀ a, T.valueAtom? v = some a → Unmentioned T e' a)
    (hflow : e'.flow = e.flow)
    (hvalues : ∀ w g, e'.values.get? w = some g →
      (w ≠ v ∧ e.values.get? w = some g) ∨
        (w = v ∧ x = .bool (T.holds ρ g) ∧ Current T p σ ρ g)) :
    Describes T p e' (Function.update σ v (some x)) ρ := by
  refine ⟨hflow ▸ hd.flow, fun w g hw => ?_, fun w g hw u a hu' ha hocc => ?_⟩
  · rw [read_update hconst]
    rcases hvalues w g hw with ⟨hne, hg⟩ | ⟨rfl, hx, -⟩
    · rw [if_neg hne]
      exact hd.values w g hg
    · rw [if_pos rfl, hx]
  · -- the formula does not mention the atom of the result
    have huv : u ≠ v := by
      rintro rfl
      exact hu hu' a ha w g hw hocc
    rw [read_update hconst, if_neg huv]
    rcases hvalues w g hw with ⟨-, hg⟩ | ⟨-, -, hcur⟩
    · exact hd.current w g hg u a hu' ha hocc
    · exact hcur u a hu' ha hocc

/-- The atom of an operand `w` is not that of the result `v`. -/
theorem Program.Built.valueAtom_operand (h : p.Built) (hT : T.WellFormed)
    (hop : p.operation? v = some op) (hw : w ∈ op.operands) (ha : T.valueAtom? v = some a) :
    T.valueAtom? w ≠ some a := by
  intro hwa
  obtain ⟨b, hb⟩ := operation?_eq_some_iff.1 hop
  have hlt := h.operand_lt hb hw
  rw [hT.valueAtom_inj hwa ha] at hlt
  exact Nat.lt_irrefl _ hlt

theorem Operation.isQuiet_eq (op : Operation) : op.isQuiet = !op.hasResult := by
  cases op <;> rfl

/-- What the instruction `v` does to an environment describes what it does to a store. -/
theorem Transferred.describes {c : Catalogue} (hp : p.Built) (hT : T.WellFormed)
    (h : Transferred T p v e e') (heffect : Effect p c v σ σ') (hσ : σ.Typed p)
    (hfresh : p.isBool v = true → ∀ a, T.valueAtom? v = some a → Unmentioned T e a)
    (hd : Describes T p e σ ρ) : ∃ ρ', Describes T p e' σ' ρ' := by
  cases heffect with
  -- an operation without a result is quiet in the analysis as well
  | @quiet op hop hresult =>
    have hquiet : op.isQuiet = true := by simp [Operation.isQuiet_eq, hresult]
    cases h with
    | quiet => exact ⟨ρ, hd⟩
    | call hop' | callOther hop' =>
      rw [hop, Option.some.injEq] at hop'
      simp [hop', Operation.isQuiet] at hquiet
    | computed hop' hr | forgotten hop' hr =>
      rw [hop, Option.some.injEq] at hop'
      subst hop'
      cases hr <;> simp [Operation.isQuiet] at hquiet
  | @result op x hop hresult hread hty hcomputed _ =>
    have hconst := constant?_of_operation? hop
    have hsame : ∀ w, w ≠ v → p.read (Function.update σ v (some x)) w = p.read σ w := fun w hw => by
      rw [read_update hconst, if_neg hw]
    cases h with
    | quiet hquiet =>
      have := hquiet op hop
      simp [Operation.isQuiet_eq, hresult] at this
    | call _ hbool hrenewed =>
      obtain ⟨b, rfl⟩ : ∃ b, x = .bool b := by
        rw [isBool, hty, beq_iff_eq, Option.some.injEq] at hbool
        cases x with
        | bool b => exact ⟨b, rfl⟩
        | unit | u64 | str => simp [Constant.ty] at hbool
      have hnew : p.read (Function.update σ v (some (.bool b))) v = some (.bool b) := by
        rw [read_update hconst, if_pos rfl]
      exact ⟨_, hrenewed.describes hT hd hnew hsame⟩
    | callOther _ hbool =>
      refine ⟨ρ, hd.assigned hconst (by simp [hbool]) rfl fun w g hw => ?_⟩
      obtain ⟨hg, hne⟩ := Bindings.get?_erase_eq_some.1 hw
      exact Or.inl ⟨hne, hg⟩
    | @computed op' f e₁ hop' hr =>
      rw [hop, Option.some.injEq] at hop'
      subst hop'
      obtain ⟨ρ₁, hd₁, hformula⟩ := hr.describes hT hσ hread hd
      obtain ⟨hcur, hcomp⟩ := hformula f rfl
      refine ⟨ρ₁, hd₁.assigned hconst (fun hbool a ha => ?_) rfl fun w g hw => ?_⟩
      · -- the formula of the result is made of operands, whose atoms are other ones
        obtain ⟨hu, hnot⟩ := hr.unmentioned hT (hfresh hbool a ha)
          fun w hw => hp.valueAtom_operand hT hop hw ha
        intro w g hw
        rw [Environment.set, Bindings.get?_set] at hw
        split at hw
        · cases hw
          exact hnot _ rfl
        · exact hu w g hw
      · rw [Environment.set, Bindings.get?_set] at hw
        split at hw
        · next hwv =>
          cases hw
          exact Or.inr ⟨hwv, hcomputed _ hcomp, hcur⟩
        · next hwv => exact Or.inl ⟨hwv, hw⟩
    | @forgotten op' e₁ hop' hr =>
      rw [hop, Option.some.injEq] at hop'
      subst hop'
      obtain ⟨ρ₁, hd₁, -⟩ := hr.describes hT hσ hread hd
      refine ⟨ρ₁, hd₁.assigned hconst (fun hbool a ha => ?_) rfl fun w g hw => ?_⟩
      · obtain ⟨hu, -⟩ := hr.unmentioned hT (hfresh hbool a ha)
          fun w hw => hp.valueAtom_operand hT hop hw ha
        intro w g hw
        exact hu w g (Bindings.get?_erase_eq_some.1 hw).1
      · obtain ⟨hg, hne⟩ := Bindings.get?_erase_eq_some.1 hw
        exact Or.inl ⟨hne, hg⟩

/-- A formula `f` that is true may be assumed. -/
theorem Assumed.describes (h : Assumed T e f e') (hd : Describes T p e σ ρ)
    (hf : T.holds ρ f = true) : Describes T p e' σ ρ where
  flow := (h.flow ρ).2 ⟨hd.flow, hf⟩
  values := h.values ▸ hd.values
  current := h.values ▸ hd.current

/-- After a check `v` its condition is true. -/
theorem Refined.describes {c : Catalogue} (hT : T.WellFormed) (h : Refined T p c v e e')
    (hσ : σ.Typed p) (hcheck : ∀ cond ∈ c.condition? p v, p.read σ cond = some (.bool true))
    (hd : Describes T p e σ ρ) : ∃ ρ', Describes T p e' σ ρ' := by
  cases h with
  | @check cond f e₁ _ hcond hfetched hassumed =>
    have htrue := hcheck cond hcond
    obtain ⟨ρ₁, hd₁, -, hformula⟩ := hfetched.describes hT hσ (by simp [htrue]) hd
    obtain ⟨hf, -⟩ := hformula f rfl
    rw [htrue, Option.some.injEq, Constant.bool.injEq] at hf
    exact ⟨ρ₁, hassumed.describes hd₁ hf.symm⟩
  | none _ => exact ⟨ρ, hd⟩

/-- The instruction `v` keeps that the environment describes the store, if before it no formula
mentions the atom of its result. -/
theorem Stepped.describes {c : Catalogue} (hp : p.Built) (hT : T.WellFormed)
    (h : Stepped c.rule T p v e e') (heffect : Effect p c v σ σ') (hσ : σ.Typed p)
    (hσ' : σ'.Typed p)
    (hfresh : p.isBool v = true → ∀ a, T.valueAtom? v = some a → Unmentioned T e a)
    (hd : Describes T p e σ ρ) : ∃ ρ', Describes T p e' σ' ρ' := by
  obtain ⟨e₁, htransferred, hrefined⟩ := h
  obtain ⟨ρ₁, hd₁⟩ := htransferred.describes hp hT heffect hσ hfresh hd
  refine Refined.describes hT hrefined hσ' (fun cond hcond => ?_) hd₁
  obtain ⟨⟨callee, args, hop, hmem⟩, -⟩ := mem_operands_of_condition? hcond
  cases heffect with
  | quiet hop' hresult =>
    rw [hop, Option.some.injEq] at hop'
    simp [← hop', Operation.hasResult] at hresult
  | result hop' _ _ _ _ hcheck =>
    -- the condition is an operand, so the result is not assigned to it
    have hne : cond ≠ v := by
      rintro rfl
      obtain ⟨b, hb⟩ := operation?_eq_some_iff.1 hop
      exact Nat.lt_irrefl _ (hp.operand_lt hb hmem)
    rw [read_update (constant?_of_operation? hop), if_neg hne]
    exact hcheck cond hcond

/-! ### Assignments to several atoms -/

/-- The atoms of the values `D` can be assigned the truth values `truth`, all at once. -/
theorem exists_assignment (kind : AtomKind) (hT : T.WellFormed) (D : ValueId → Prop)
    (truth : ValueId → Bool) (ρ : Atom → Bool) :
    ∃ ρ' : Atom → Bool, (∀ v a, D v → kind.get? T v = some a → ρ' a = truth v) ∧
      ∀ a, (∀ v, D v → kind.get? T v ≠ some a) → ρ' a = ρ a := by
  classical
  refine ⟨fun a => if h : ∃ v, D v ∧ kind.get? T v = some a then truth h.choose else ρ a,
    fun v a hv ha => ?_, fun a ha => ?_⟩
  · have h : ∃ v, D v ∧ kind.get? T v = some a := ⟨v, hv, ha⟩
    have hv' : h.choose = v := kind.inj hT h.choose_spec.2 ha
    simp only [dif_pos h, hv']
  · have h : ¬ ∃ v, D v ∧ kind.get? T v = some a := fun ⟨v, hv, hva⟩ => ha v hv hva
    simp only [dif_neg h]

/-- The store `σ` is also described without a binding of `v`. -/
theorem Describes.erase (hd : Describes T p e σ ρ) (v : ValueId) :
    Describes T p (e.erase v) σ ρ where
  flow := hd.flow
  values w g hg := hd.values w g (Bindings.get?_erase_eq_some.1 hg).1
  current w g hg := hd.current w g (Bindings.get?_erase_eq_some.1 hg).1

/-! ### Edges -/

/-- What is passed is what its formulas say. -/
theorem PassedTo.describes (hT : T.WellFormed) (h : PassedTo T p e pairs bound e') (hσ : σ.Typed p)
    (hread : ∀ x ∈ pairs, (p.read σ x.2).isSome = true) (hd : Describes T p e σ ρ) :
    ∃ ρ', Describes T p e' σ ρ' ∧ Keeping T p σ ρ ρ' ∧
      ∀ v g, (v, some g) ∈ bound → ∃ arg, (v, arg) ∈ pairs ∧
        p.read σ arg = some (.bool (T.holds ρ' g)) ∧ Current T p σ ρ' g := by
  induction h generalizing ρ with
  | nil e => exact ⟨ρ, hd, .refl T p σ ρ, by simp⟩
  | @bool e e₁ e' param arg rest f bound _ hfetched _ ih =>
    rw [List.forall_mem_cons] at hread
    obtain ⟨ρ₁, hd₁, hkeep₁, hformula⟩ := hfetched.describes hT hσ hread.1 hd
    obtain ⟨ρ₂, hd₂, hkeep₂, hrest⟩ := ih hread.2 hd₁
    refine ⟨ρ₂, hd₂, hkeep₁.trans hkeep₂, fun v g hg => ?_⟩
    rcases List.mem_cons.1 hg with heq | hg
    · -- what is met later does not change what the formula says
      cases heq
      obtain ⟨hvalue, hcur⟩ := hformula g rfl
      obtain ⟨hcur', hsame⟩ := hkeep₂ g hcur
      exact ⟨arg, List.mem_cons_self, by rw [hsame, hvalue], hcur'⟩
    · obtain ⟨arg', hmem, hvalue, hcur⟩ := hrest v g hg
      exact ⟨arg', List.mem_cons_of_mem _ hmem, hvalue, hcur⟩
  | @other e e' param arg rest bound _ _ ih =>
    rw [List.forall_mem_cons] at hread
    obtain ⟨ρ₁, hd₁, hkeep, hrest⟩ := ih hread.2 (hd.erase param)
    refine ⟨ρ₁, hd₁, hkeep, fun v g hg => ?_⟩
    obtain ⟨arg', hmem, hvalue⟩ := hrest v g hg
    exact ⟨arg', List.mem_cons_of_mem _ hmem, hvalue⟩

/-- The parameters `bound` are those of `pairs` that are truth values. -/
theorem PassedTo.mem_map_fst_iff (h : PassedTo T p e pairs bound e') :
    v ∈ bound.map Prod.fst ↔ p.isBool v = true ∧ v ∈ pairs.map Prod.fst := by
  induction h with
  | nil e => simp
  | @bool e e₁ e' param arg rest f bound hbool _ _ ih =>
    simp only [List.map_cons, List.mem_cons, ih]
    constructor
    · rintro (rfl | ⟨hv, hmem⟩)
      · exact ⟨hbool, Or.inl rfl⟩
      · exact ⟨hv, Or.inr hmem⟩
    · rintro ⟨hv, rfl | hmem⟩
      · exact Or.inl rfl
      · exact Or.inr ⟨hv, hmem⟩
  | @other e e' param arg rest bound hother _ ih =>
    simp only [List.map_cons, List.mem_cons, ih]
    constructor
    · exact fun ⟨hv, hmem⟩ => ⟨hv, Or.inr hmem⟩
    · rintro ⟨hv, rfl | hmem⟩
      · simp [hother] at hv
      · exact ⟨hv, hmem⟩

/-- The parameters `params` take the values passed for them, in the store `σ'`. -/
theorem BoundTo.describes {params : List (ValueId × Option Formula)} (hT : T.WellFormed)
    (h : BoundTo T e params e') (hσ : σ.Typed p) (hd : Describes T p e σ ρ)
    (hparams : ∀ v ∈ params.map Prod.fst, ∃ x, p.read σ' v = some (.bool x) ∧
      ∀ g, (v, some g) ∈ params → x = T.holds ρ g)
    (hothers : ∀ w, p.isBool w = true → w ∉ params.map Prod.fst → p.read σ' w = p.read σ w) :
    ∃ ρ', Describes T p e' σ' ρ' := by
  obtain ⟨ρ', hassigned, hrest⟩ := exists_assignment .value hT (· ∈ params.map Prod.fst)
    (fun v => (p.readBool? σ' v).getD false) ρ
  have htruth : ∀ {v x a}, v ∈ params.map Prod.fst → p.read σ' v = some (.bool x) →
      T.valueAtom? v = some a → ρ' a = x := fun hv hx ha => by
    rw [hassigned _ _ hv ha, readBool?_of_read hx, Option.getD_some]
  -- formulas without atoms of parameters say what they said
  have hagree : ∀ {g}, (∀ a, ParameterAtom T params a → ¬ T.Occurs a g) →
      ∀ a, T.Occurs a g → ρ' a = ρ a := fun hg a ha =>
    hrest a fun v hv hva => hg a ⟨v, hv, hva⟩ ha
  refine ⟨ρ', (h.flow ρ').2 ⟨ρ, hd.flow, fun v a g hv ha hg => ?_, fun a ha => (hrest a ha).symm⟩,
    fun v g hv => ?_, fun v g hv w a hw ha hocc => ?_⟩
  · obtain ⟨x, hx, hformula⟩ := hparams v hv
    rw [htruth hv hx ha, hformula g hg]
  · rcases (h.values v g).1 hv with ⟨hmem, a, ha, hnode⟩ | ⟨hnot, hg, hfree⟩
    · obtain ⟨x, hx, -⟩ := hparams v hmem
      rw [hx, (means_of_node_atom hT hnode).holds, htruth hmem hx ha]
    · have hread := hd.values v g hg
      have hbool : p.isBool v = true := by
        rw [isBool, typeOf_of_read hσ hread]
        rfl
      rw [hothers v hbool hnot, holds_congr (hagree hfree), hread]
  · rcases (h.values v g).1 hv with ⟨hmem, c, hc, hnode⟩ | ⟨hnot, hg, hfree⟩
    · have hac : a = c := (means_of_node_atom hT hnode).occurs hocc
      have hwv : w = v := hT.valueAtom_inj (hac ▸ ha) hc
      obtain ⟨x, hx, -⟩ := hparams v hmem
      rw [hwv, hx, hac, htruth hmem hx hc]
    · have hwnot : w ∉ params.map Prod.fst := fun hmem => hfree a ⟨w, hmem, ha⟩ hocc
      rw [hothers w hw hwnot, hagree hfree a hocc]
      exact hd.current v g hg w a hw ha hocc

/-- A parameter `v` of the block that a branch goes to has the value `w` passed for it. -/
theorem read_assign_of_lookup (hp : p.Built) (h : (p.passed target).lookup v = some w) :
    p.read (p.assign target σ) v = p.read σ w := by
  have hv := (List.of_mem_zip (mem_passed_of_lookup h)).1
  rw [read_of_not_constant (hp.constant?_of_param hv), assign, h]

/-- A value `v` that is no such parameter does not change. -/
theorem read_assign_of_notMem (h : v ∉ (p.passed target).map Prod.fst) :
    p.read (p.assign target σ) v = p.read σ v := by
  have hnone : (p.passed target).lookup v = none := by
    rw [List.lookup_eq_none_iff]
    intro y hy
    have hne : v ≠ y.1 := fun heq => h (heq ▸ List.mem_map_of_mem hy)
    simpa using hne
  rw [Program.read, Program.read, assign, hnone]

/-- The edge to `target` is described by what it passes. -/
theorem Entered.describes (hp : p.Built) (hT : T.WellFormed) (h : Entered T p target e e')
    (hfits : p.FitsTarget fn target) (hσ : σ.Typed p)
    (hread : ∀ w ∈ target.args, (p.read σ w).isSome = true) (hd : Describes T p e σ ρ) :
    ∃ ρ', Describes T p e' (p.assign target σ) ρ' := by
  obtain ⟨params, e₁, hpassed, hbound⟩ := h
  have hnodup : ((p.passed target).map Prod.fst).Nodup :=
    (map_fst_zip_sublist _ _).nodup (hp.nodup_params target.block)
  have hargs : ∀ x ∈ p.passed target, (p.read σ x.2).isSome = true := fun x hx =>
    hread x.2 (List.of_mem_zip hx).2
  obtain ⟨ρ₁, hd₁, -, hformulas⟩ := hpassed.describes hT hσ hargs hd
  refine hbound.describes hT hσ hd₁ (fun v hv => ?_) (fun w hw hnot => ?_)
  · obtain ⟨hbool, hkey⟩ := hpassed.mem_map_fst_iff.1 hv
    obtain ⟨⟨_, arg⟩, hmem, rfl⟩ := List.mem_map.1 hkey
    have hlookup := (lookup_eq_some_iff_mem hnodup).2 hmem
    have harg : p.isBool arg = true := by
      rw [isBool, ← hfits.typeOf_eq hlookup]
      exact hbool
    obtain ⟨x, hx⟩ := exists_bool_of_read hσ harg (hargs _ hmem)
    refine ⟨x, by rw [read_assign_of_lookup hp hlookup, hx], fun g hg => ?_⟩
    obtain ⟨arg', hmem', hvalue, -⟩ := hformulas _ g hg
    -- a parameter is passed one argument only
    have harg' : arg' = arg := by
      have hlookup' := (lookup_eq_some_iff_mem hnodup).2 hmem'
      rw [hlookup, Option.some.injEq] at hlookup'
      exact hlookup'.symm
    rw [harg', hx, Option.some.injEq, Constant.bool.injEq] at hvalue
    exact hvalue
  · exact read_assign_of_notMem fun hkey => hnot (hpassed.mem_map_fst_iff.2 ⟨hw, hkey⟩)

/-- The side of a conditional branch that is taken, by the truth value `b` of the condition. -/
theorem Forked.describes (hp : p.Built) (hT : T.WellFormed) {cond : ValueId}
    {whenTrue whenFalse : Target} (h : Forked T p e cond whenTrue whenFalse e₁ e₂)
    (hfits : p.FitsTarget fn (if b then whenTrue else whenFalse)) (hσ : σ.Typed p)
    (hcond : p.read σ cond = some (.bool b))
    (hread : ∀ w ∈ (if b then whenTrue else whenFalse).args, (p.read σ w).isSome = true)
    (hd : Describes T p e σ ρ) :
    ∃ ρ', Describes T p (if b then e₁ else e₂)
      (p.assign (if b then whenTrue else whenFalse) σ) ρ' := by
  obtain ⟨f, g, e₀, eT, eF, hdecided, hnot, hassumeT, hassumeF, henterT, henterF⟩ := h
  -- a truth value always has a formula
  have hbool : p.isBool cond = true := by
    rw [isBool, typeOf_of_read hσ hcond]
    rfl
  obtain ⟨ρ₀, hd₀, -, hvalue⟩ := (hdecided.fetched hbool).describes hT hσ (by simp [hcond]) hd
  have hf : T.holds ρ₀ f = b := by
    have hread := (hvalue f rfl).1
    rw [hcond, Option.some.injEq, Constant.bool.injEq] at hread
    exact hread.symm
  cases b with
  | true => exact henterT.describes hp hT hfits hσ hread (hassumeT.describes hd₀ hf)
  | false =>
    refine henterF.describes hp hT hfits hσ hread (hassumeF.describes hd₀ ?_)
    rw [hnot.holds, hf]
    rfl

/-! ### Meetings -/

/-- A store `σ` that is described by `e` on one side of a meeting is described after it. -/
theorem MeetingSide.describes (hT : T.WellFormed) {e : Environment}
    (hjoin : Joined T e₁ e₂ e') (hflow : ∀ ρ, MeetingSide T e₁ e₂ e ρ → T.holds ρ e'.flow = true)
    (hsame : ∀ v g, e₁.values.get? v = some g → e₂.values.get? v = some g →
      e.values.get? v = some g)
    (hside : ∀ v, Disagree e₁ e₂ v → ∃ g, e.values.get? v = some g)
    (hd : Describes T p e σ ρ) : ∃ ρ', Describes T p e' σ ρ' := by
  obtain ⟨ρ', hassigned, hrest⟩ := exists_assignment .merge hT (Disagree e₁ e₂)
    (fun v => (e.values.get? v).any (T.holds ρ)) ρ
  have htruth : ∀ {v a g}, Disagree e₁ e₂ v → T.mergeAtom? v = some a →
      e.values.get? v = some g → ρ' a = T.holds ρ g := fun hv ha hg => by
    rw [hassigned _ _ hv ha, hg, Option.any_some]
  -- formulas without atoms for this meeting say what they said
  have hagree : ∀ {g}, (∀ a, MeetingAtom T e₁ e₂ a → ¬ T.Occurs a g) →
      ∀ a, T.Occurs a g → ρ' a = ρ a := fun hg a ha =>
    hrest a fun v hv hva => hg a ⟨v, hv, hva⟩ ha
  refine ⟨ρ', hflow ρ' ⟨ρ, hd.flow, fun v a g hv ha hg => htruth hv ha hg,
    fun a ha => (hrest a ha).symm⟩, fun v g hv => ?_, fun v g hv w a hw ha hocc => ?_⟩
  · rcases (hjoin.values v g).1 hv with ⟨hdis, a, ha, hnode⟩ | ⟨hv₁, hv₂, hfree⟩
    · obtain ⟨g', hg'⟩ := hside v hdis
      rw [(means_of_node_atom hT hnode).holds, htruth hdis ha hg']
      exact hd.values v g' hg'
    · rw [holds_congr (hagree hfree)]
      exact hd.values v g (hsame v g hv₁ hv₂)
  · rcases (hjoin.values v g).1 hv with ⟨-, c, hc, hnode⟩ | ⟨hv₁, hv₂, hfree⟩
    · -- the atom for a meeting is not the atom of a value
      have hac : a = c := (means_of_node_atom hT hnode).occurs hocc
      exact absurd hc (hT.apart (hac ▸ ha))
    · rw [hagree hfree a hocc]
      exact hd.current v g (hsame v g hv₁ hv₂) w a hw ha hocc

theorem Joined.describes_left (hT : T.WellFormed) (h : Joined T e₁ e₂ e')
    (hd : Describes T p e₁ σ ρ) : ∃ ρ', Describes T p e' σ ρ' :=
  MeetingSide.describes hT h (fun ρ hρ => (h.flow ρ).2 (Or.inl hρ)) (fun _ _ hv _ => hv)
    (fun _ ⟨f, _, hf, _⟩ => ⟨f, hf⟩) hd

theorem Joined.describes_right (hT : T.WellFormed) (h : Joined T e₁ e₂ e')
    (hd : Describes T p e₂ σ ρ) : ∃ ρ', Describes T p e' σ ρ' :=
  MeetingSide.describes hT h (fun ρ hρ => (h.flow ρ).2 (Or.inr hρ)) (fun _ _ _ hv => hv)
    (fun _ ⟨_, g, _, hg, _⟩ => ⟨g, hg⟩) hd

theorem JoinedTo.describes (hT : T.WellFormed) {es : List Environment} (h : JoinedTo T e es e')
    (hd : ∃ e₁ ∈ e :: es, ∃ ρ, Describes T p e₁ σ ρ) : ∃ ρ', Describes T p e' σ ρ' := by
  induction h with
  | nil e => simpa using hd
  | cons hjoin _ ih =>
    obtain ⟨e₀, hmem, ρ, hd⟩ := hd
    refine ih ?_
    rcases List.mem_cons.1 hmem with rfl | hmem
    · exact ⟨_, List.mem_cons_self, hjoin.describes_left hT hd⟩
    · rcases List.mem_cons.1 hmem with rfl | hmem
      · exact ⟨_, List.mem_cons_self, hjoin.describes_right hT hd⟩
      · exact ⟨e₀, List.mem_cons_of_mem _ hmem, ρ, hd⟩

/-- A store `σ` that is described by `e` on one way in is described where all ways meet. -/
theorem JoinedAll.describes (hT : T.WellFormed) {es : List Environment} {r : Option Environment}
    (h : JoinedAll T es r) (he : e ∈ es) (hd : Describes T p e σ ρ) :
    ∃ e' ∈ r, ∃ ρ', Describes T p e' σ ρ' := by
  cases es with
  | nil => simp at he
  | cons e₁ es =>
    obtain ⟨e', rfl, hjoined⟩ := h
    exact ⟨e', rfl, hjoined.describes hT ⟨e, he, ρ, hd⟩⟩

theorem SaysTheSame.describes (h : SaysTheSame T e e') (hd : Describes T p e' σ ρ) :
    Describes T p e σ ρ where
  flow := (h.2 ρ).trans hd.flow
  values := h.1 ▸ hd.values
  current := h.1 ▸ hd.current

/-! ### Edges that are taken -/

/-- The target that the block `c` is left for in the store `σ`. -/
inductive Taken (p : Program) (c : BlockId) (σ : Store) : Target → Prop
  /-- There is only one. -/
  | branch {target : Target} : p.terminator? c = some (.branch target) →
      (∀ w ∈ target.args, (p.read σ w).isSome = true) → Taken p c σ target
  /-- The condition chooses one of two. -/
  | condBranch {cond : ValueId} {whenTrue whenFalse : Target} {b : Bool} :
      p.terminator? c = some (.condBranch cond whenTrue whenFalse) →
      p.read σ cond = some (.bool b) →
      (∀ w ∈ (if b then whenTrue else whenFalse).args, (p.read σ w).isSome = true) →
      Taken p c σ (if b then whenTrue else whenFalse)

theorem Taken.mem_successors {c : BlockId} (h : Taken p c σ target) : target ∈ p.successors c := by
  cases h with
  | branch hterm _ => exact mem_successors_iff.2 ⟨_, hterm, by simp [Operation.targets]⟩
  | @condBranch cond whenTrue whenFalse b hterm _ _ =>
    refine mem_successors_iff.2 ⟨_, hterm, ?_⟩
    cases b <;> simp [Operation.targets]

/-- The `target` that is taken is at the end of an edge, which describes the store there. -/
theorem LeadsOut.describes (hp : p.Built) (hT : T.WellFormed) {c : BlockId}
    {edges : List (BlockId × Environment)} (h : LeadsOut T p c e edges)
    (htaken : Taken p c σ target) (hσ : σ.Typed p) (hfits : p.FitsTarget fn target)
    (hd : Describes T p e σ ρ) :
    ∃ e', edges.lookup target.block = some e' ∧
      ∃ ρ', Describes T p e' (p.assign target σ) ρ' := by
  cases h with
  | @branch target' e' hterm henter =>
    cases htaken with
    | branch hterm' hread =>
      rw [hterm, Option.some.injEq, Operation.branch.injEq] at hterm'
      subst hterm'
      exact ⟨e', List.lookup_cons_self, henter.describes hp hT hfits hσ hread hd⟩
    | condBranch hterm' => rw [hterm] at hterm'; cases hterm'
  | @condBranch cond whenTrue whenFalse e₁ e₂ hterm hne hfork =>
    cases htaken with
    | branch hterm' => rw [hterm] at hterm'; cases hterm'
    | @condBranch cond' _ _ b hterm' hcond hread =>
      rw [hterm, Option.some.injEq, Operation.condBranch.injEq] at hterm'
      obtain ⟨rfl, rfl, rfl⟩ := hterm'
      refine ⟨if b then e₁ else e₂, ?_, hfork.describes hp hT hfits hσ hcond hread hd⟩
      cases b <;> simp [lookup_cons_eq, hne.symm]
  -- both sides lead to one block, so the edge says what either of them says
  | @same cond whenTrue whenFalse e₁ e₂ e' hterm heq hfork hjoin =>
    cases htaken with
    | branch hterm' => rw [hterm] at hterm'; cases hterm'
    | @condBranch cond' _ _ b hterm' hcond hread =>
      rw [hterm, Option.some.injEq, Operation.condBranch.injEq] at hterm'
      obtain ⟨rfl, rfl, rfl⟩ := hterm'
      obtain ⟨ρ', hd'⟩ := hfork.describes hp hT hfits hσ hcond hread hd
      cases b with
      | true => exact ⟨e', by simp, hjoin.describes_left hT hd'⟩
      | false => exact ⟨e', by simp [heq], hjoin.describes_right hT hd'⟩
  | none hnone =>
    have hmem := htaken.mem_successors
    rw [hnone] at hmem
    cases hmem

/-! ### The start -/

/-- Nothing is known of the store `σ` yet but that the values `vs` are truth values. -/
theorem RenewedAll.describes (hT : T.WellFormed) {vs : List ValueId} (h : RenewedAll T vs e e')
    (hbool : ∀ v ∈ vs, ∃ b, p.read σ v = some (.bool b)) (hd : Describes T p e σ ρ) :
    ∃ ρ', Describes T p e' σ ρ' := by
  induction h generalizing ρ with
  | nil e => exact ⟨ρ, hd⟩
  | cons hrenewed _ ih =>
    rw [List.forall_mem_cons] at hbool
    obtain ⟨b, hb⟩ := hbool.1
    exact ih hbool.2 (hrenewed.describes hT hd hb fun _ _ => rfl)

theorem Opened.describes (hT : T.WellFormed) {fn : FunctionId} {s : State}
    (h : Opened T p fn e) (hs : Starts p fn s) : ∃ ρ, Describes T p e s.store ρ := by
  obtain ⟨e₀, hflow, -, hnone, hrenewed⟩ := h
  have hd : Describes T p e₀ s.store fun _ => true := {
    flow := hflow _
    values := fun v g hg => by simp [hnone] at hg
    current := fun v g hg => by simp [hnone] at hg }
  refine hrenewed.describes hT (fun v hv => ?_) hd
  obtain ⟨hmem, hbool⟩ := List.mem_filter.1 hv
  obtain ⟨x, hx, rfl⟩ := List.mem_map.1 hmem
  obtain ⟨y, hy, -⟩ := hs.args x hx
  refine exists_bool_of_read hs.proper.typed hbool ?_
  rw [Program.read, hy, Option.isSome_or, Option.isSome_some, Bool.or_true]

end FlowFacts
