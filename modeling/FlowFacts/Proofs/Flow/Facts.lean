import FlowFacts.Proofs.Flow.Kept
import FlowFacts.Proofs.Flow.Soundness

/-!
# Facts of checks are not lost

After a check its condition holds, and the flow condition says so.  Where the condition is made
of arguments and constants, this lasts: the atoms of the arguments never get another meaning,
so wherever every path has passed the check, the flow condition still implies the formula of
its condition.

The condition has to be defined wherever the check is reached.  If it is not, the check says
something of a value that nothing is known of.

## Main definitions

* `Combination` — how a truth value is made of arguments and constants.
* `Program.MadeAs` — a value of a program is made that way.
* `Environment.Implies` — the flow condition implies a formula.

## Main results

* `keeps_implies` — the condition of a check is implied wherever every walk has passed it.
* `exists_point_proving` — it can be proved at the annotations there.
-/

namespace FlowFacts

open FormulaM FormulaTable Program Relation

/-! ### Conditions over the arguments -/

/-- How a truth value is made of arguments and constants. -/
inductive Combination where
  /-- An argument. -/
  | argument (v : ValueId)
  /-- A constant. -/
  | constant (b : Bool)
  /-- A negation. -/
  | not (x : Combination)
  /-- A logical operation. -/
  | binary (op : BinaryOp) (x y : Combination)
  /-- A comparison for equality. -/
  | compare (predicate : Comparison) (x y : Combination)

namespace Combination

/-- The truth value of a combination, given those of the arguments by `σ`. -/
def eval (σ : ValueId → Bool) : Combination → Bool
  | argument v => σ v
  | constant b => b
  | not x => !x.eval σ
  | binary op x y => op.onBools (x.eval σ) (y.eval σ)
  | compare predicate x y => predicate.onBools (x.eval σ) (y.eval σ)

/-- The formula of a combination over the atoms of the arguments. -/
def formula : Combination → FormulaM Formula
  | argument v => do mkAtom (← valueAtom v)
  | constant b => mkLiteral b
  | not x => do mkNot (← x.formula)
  | binary op x y => do
      let f ← x.formula
      let g ← y.formula
      op.formula f g
  | compare predicate x y => do
      let f ← x.formula
      let g ← y.formula
      predicate.formula f g

end Combination

variable {t T : FormulaTable} {p : Program} {f : FunctionId} {a : Atom}
  {e e₁ e₂ e' : Environment} {u v w site cond : ValueId} {g h : Formula} {b c : BlockId} {k : Nat}
  {op : Operation} {K J S : ValueId → Prop} {r : Option Formula} {x y : Combination}
  {catalogue : Catalogue} {φ : (ValueId → Bool) → Bool} {onBools : Bool → Bool → Bool}

/-- The formula `g` is true if `φ` is true of the values that atoms stand for. -/
structure FormulaTable.Says (t : FormulaTable) (g : Formula) (φ : (ValueId → Bool) → Bool) :
    Prop where
  /-- It is in the table. -/
  has : t.Has g
  /-- Its truth value. -/
  holds : ∀ ρ σ, (∀ u a, t.valueAtom? u = some a → ρ a = σ u) → t.holds ρ g = φ σ

theorem FormulaTable.Says.mono (h : t.Says g φ) (hg : t.Grows T) (ht : t.WellFormed)
    (hT : T.WellFormed) : T.Says g φ where
  has := hg.has h.has
  holds ρ σ hρ := by
    rw [hg.holds ht hT h.has]
    exact h.holds ρ σ fun u a ha => hρ u a (hg.valueAtom ha)

theorem FormulaTable.says_atom (hT : T.WellFormed) (ha : T.valueAtom? v = some a)
    (hg : T.node g = .atom a) : T.Says g fun σ => σ v where
  has := has_of_node_atom hg
  holds ρ σ hρ := by rw [(means_of_node_atom hT hg).holds, hρ v a ha]

theorem FormulaTable.says_constant {b : Bool} (hg : T.Means g (fun _ => b) ∅) :
    T.Says g fun _ => b where
  has := hg.has
  holds ρ _ _ := hg.holds ρ

theorem FormulaTable.Says.not (h : T.Says g φ) {n : Formula} {A : Set Atom}
    (hn : T.Means n (fun ρ => !T.holds ρ g) A) : T.Says n fun σ => !φ σ where
  has := hn.has
  holds ρ σ hρ := by rw [hn.holds, h.holds ρ σ hρ]

theorem FormulaTable.Says.combine {φ ψ : (ValueId → Bool) → Bool} (hg : T.Says g φ)
    (hh : T.Says h ψ) {n : Formula} {A : Set Atom}
    (hn : T.Means n (fun ρ => onBools (T.holds ρ g) (T.holds ρ h)) A) :
    T.Says n fun σ => onBools (φ σ) (ψ σ) where
  has := hn.has
  holds ρ σ hρ := by rw [hn.holds, hg.holds ρ σ hρ, hh.holds ρ σ hρ]

/-- The formula of the combination `x` says what `x` says. -/
theorem yields_formula (x : Combination) : ∀ {t : FormulaTable}, t.WellFormed →
    Yields x.formula t fun g t' => t'.Says g fun σ => x.eval σ := by
  -- two formulas are made one after the other, and then combined
  have hcombine : ∀ {x y : Combination} {mk : Formula → Formula → FormulaM Formula}
      {onBools : Bool → Bool → Bool}, Computes mk onBools →
      (∀ {t : FormulaTable}, t.WellFormed →
        Yields x.formula t fun g t' => t'.Says g fun σ => x.eval σ) →
      (∀ {t : FormulaTable}, t.WellFormed →
        Yields y.formula t fun g t' => t'.Says g fun σ => y.eval σ) →
      ∀ {t : FormulaTable}, t.WellFormed →
        Yields (do
          let f ← x.formula
          let g ← y.formula
          mk f g) t fun g t' => t'.Says g fun σ => onBools (x.eval σ) (y.eval σ) := by
    intro x y mk onBools hmk hx hy t ht
    apply (hx ht).bind
    intro g t₁ ht₁ _ hg
    apply (hy ht₁).bind
    intro h t₂ ht₂ hg₂ hh
    have hg' := hg.mono hg₂ ht₁ ht₂
    refine (hmk ht₂ hg'.has.means hh.has.means).mono fun n t₃ ht₃ hg₃ hn => ?_
    refine (hg'.mono hg₃ ht₂ ht₃).combine (hh.mono hg₃ ht₂ ht₃)
      (hn.weaken (fun ρ => ?_) Set.Subset.rfl)
    rw [hg₃.holds ht₂ ht₃ hg'.has, hg₃.holds ht₂ ht₃ hh.has]
  induction x with
  | argument v =>
    intro t ht
    apply (yields_valueAtom ht v).bind
    intro a t₁ ht₁ _ ha
    refine (yields_mkAtom ht₁ (ht₁.valueAtom_lt ha.1)).mono fun g t₂ ht₂ hg₂ hg => ?_
    exact says_atom ht₂ (hg₂.valueAtom ha.1) hg
  | constant b => exact fun ht => (yields_mkLiteral ht b).mono fun g t' _ _ hg => says_constant hg
  | not x ih =>
    intro t ht
    apply (ih ht).bind
    intro g t₁ ht₁ _ hg
    refine (yields_mkNot ht₁ hg.has.means).mono fun n t₂ ht₂ hg₂ hn => ?_
    refine (hg.mono hg₂ ht₁ ht₂).not (hn.weaken (fun ρ => ?_) Set.Subset.rfl)
    rw [hg₂.holds ht₁ ht₂ hg.has]
  | binary op x y ihx ihy => exact hcombine (computes_binaryOp op) ihx ihy
  | compare predicate x y ihx ihy => exact hcombine (computes_comparison predicate) ihx ihy

/-! ### How values are made -/

namespace Program

/-- The value `w` is defined wherever the instruction `v` is reached; constants need no
definition. -/
def DefinedAt (p : Program) (f : FunctionId) (w v : ValueId) : Prop :=
  p.constant? w = none → ∀ b k, (p.block b).instructions[k]? = some v → p.Dominates f w b k

/-- A value is made of arguments of `f` and constants by instructions whose operands are defined
wherever the instruction is reached. -/
inductive MadeAs (p : Program) (f : FunctionId) : ValueId → Combination → Prop
  /-- An argument. -/
  | argument {v : ValueId} : v ∈ p.boolArgs f → MadeAs p f v (.argument v)
  /-- A constant. -/
  | constant {v : ValueId} {b : Bool} : p.constant? v = some (.bool b) → MadeAs p f v (.constant b)
  /-- A negation. -/
  | not {v arg : ValueId} {x : Combination} : p.operation? v = some (.not arg) →
      p.DefinedAt f arg v → MadeAs p f arg x → MadeAs p f v (.not x)
  /-- A logical operation. -/
  | binary {v lhs rhs : ValueId} {op : BinaryOp} {x y : Combination} :
      p.operation? v = some (.binary op lhs rhs) → op.isLogical = true → p.DefinedAt f lhs v →
      p.DefinedAt f rhs v → MadeAs p f lhs x → MadeAs p f rhs y → MadeAs p f v (.binary op x y)
  /-- A comparison for equality. -/
  | compare {v lhs rhs : ValueId} {predicate : Comparison} {x y : Combination} :
      p.operation? v = some (.compare predicate lhs rhs) → predicate.isOrder = false →
      p.isBool lhs = true → p.DefinedAt f lhs v → p.DefinedAt f rhs v → MadeAs p f lhs x →
      MadeAs p f rhs y → MadeAs p f v (.compare predicate x y)

namespace MadeAs

/-- The value `w` that `v` is computed from is made that way too, and is defined where it is
used. -/
theorem operand (h : p.MadeAs f v x) (hlocal : p.Local f) (hfrom : p.ComputedFrom v w) :
    p.DefinedAt f w v ∧ ∃ y, p.MadeAs f w y := by
  cases h with
  | argument hv => exact absurd hfrom.computed (hlocal.atomic_of_arg hv).2.2
  | constant hconst => cases hconst.symm.trans hfrom.computed.constant?_eq_none
  | not hop hdom harg =>
    obtain ⟨op, hop', -, hw, -⟩ := hfrom
    cases hop.symm.trans hop'
    rw [Operation.operands, List.mem_singleton] at hw
    subst hw
    exact ⟨hdom, _, harg⟩
  | binary hop _ hdoml hdomr hl hr | compare hop _ _ hdoml hdomr hl hr =>
    obtain ⟨op, hop', -, hw, -⟩ := hfrom
    cases hop.symm.trans hop'
    simp only [Operation.operands, List.mem_cons, List.not_mem_nil, or_false] at hw
    rcases hw with rfl | rfl
    · exact ⟨hdoml, _, hl⟩
    · exact ⟨hdomr, _, hr⟩

theorem reflTransGen (h : p.MadeAs f cond x) (hlocal : p.Local f)
    (hchain : ReflTransGen p.ComputedFrom cond v) : ∃ y, p.MadeAs f v y := by
  induction hchain with
  | refl => exact ⟨x, h⟩
  | tail _ hfrom ih =>
    obtain ⟨y, hy⟩ := ih
    exact (hy.operand hlocal hfrom).2

/-- A value `v` that is not computed is an argument. -/
theorem mem_boolArgs (h : p.MadeAs f v x) (hatomic : p.Atomic v) : v ∈ p.boolArgs f := by
  cases h with
  | argument hv => exact hv
  | constant hconst => cases hconst.symm.trans hatomic.2.1
  | not hop _ _ => exact absurd ⟨_, hop, rfl⟩ hatomic.2.2
  | binary hop hlogical _ _ _ _ => exact absurd ⟨_, hop, hlogical⟩ hatomic.2.2
  | compare hop horder hbool _ _ _ _ =>
    exact absurd ⟨_, hop, by simp [combines, horder, hbool]⟩ hatomic.2.2

/-- The arguments and what `cond` is computed from are used where they are defined. -/
theorem watched (h : p.MadeAs f cond x) (hlocal : p.Local f) :
    p.Watched f (fun v => v ∈ p.boolArgs f ∨ ReflTransGen p.ComputedFrom cond v) p.Atomic where
  closed := by
    rintro v w (hv | hv) hfrom
    · exact absurd hfrom.computed (hlocal.atomic_of_arg hv).2.2
    · exact Or.inr (hv.tail hfrom)
  dominates := by
    rintro b k v w _ hv (hargs | hchain) hfrom
    · exact absurd hfrom.computed (hlocal.atomic_of_arg hargs).2.2
    · obtain ⟨y, hy⟩ := h.reflTransGen hlocal hchain
      obtain ⟨op, -, -, -, hconst⟩ := id hfrom
      exact (hy.operand hlocal hfrom).1 hconst b k hv
  atomic _ hw := hw
  computed hatomic hcomputed := absurd hcomputed hatomic.2.2
  operand _ _ _ _ hatomic hcomputed := absurd hcomputed hatomic.2.2

end MadeAs

end Program

/-- The formula `g` of `v` says what the combination `x` says that `v` is made as. -/
theorem Canonical.says (hT : T.WellFormed) (hlocal : p.Local f) (hmade : p.MadeAs f v x)
    (hg : Canonical T p v g) : T.Says g fun σ => x.eval σ := by
  induction hmade generalizing g with
  | argument hv =>
    obtain ⟨a, ha, hnode⟩ := hg.of_atomic (hlocal.atomic_of_arg hv)
    exact says_atom hT ha hnode
  | constant hconst =>
    exact says_constant ((hg.of_constant hconst).of_yields (yields_mkLiteral hT _))
  | not hop _ _ ih =>
    obtain ⟨n, hn, hmakes⟩ := hg.of_not hop
    exact (ih hn).not (hmakes.means_not hT (ih hn).has)
  | binary hop hlogical _ _ _ _ ihx ihy =>
    obtain ⟨l, r, hl, hr, hmakes⟩ := hg.of_binary hop hlogical
    exact (ihx hl).combine (ihy hr)
      (hmakes.means_binary hT (computes_binaryOp _) (ihx hl).has (ihy hr).has)
  | compare hop horder hbool _ _ _ _ ihx ihy =>
    obtain ⟨l, r, hl, hr, hmakes⟩ := hg.of_compare hop horder hbool
    exact (ihx hl).combine (ihy hr)
      (hmakes.means_binary hT (computes_comparison _) (ihx hl).has (ihy hr).has)

/-! ### Formulas over the arguments -/

/-- The formula `g` mentions the atoms of boolean arguments only. -/
def FormulaTable.OverArgs (T : FormulaTable) (p : Program) (f : FunctionId) (g : Formula) : Prop :=
  ∀ a, T.Occurs a g → ∃ u ∈ p.boolArgs f, T.valueAtom? u = some a

theorem Canonical.overArgs (hT : T.WellFormed) (hlocal : p.Local f) (hmade : p.MadeAs f v x)
    (hg : Canonical T p v g) : T.OverArgs p f g := by
  intro a hocc
  obtain ⟨u, hchain, hatomic, ha⟩ := hg.occurs hT hocc
  obtain ⟨y, hy⟩ := hmade.reflTransGen hlocal hchain
  exact ⟨u, hy.mem_boolArgs hatomic, ha⟩

/-! ### What is known of the arguments lasts -/

/-- What `e` says of the arguments is said by `e'` as well: every assignment that satisfies the
flow condition of `e'` agrees on the arguments with one that satisfies that of `e`. -/
def Remembers (T : FormulaTable) (p : Program) (f : FunctionId) (e e' : Environment) : Prop :=
  ∀ ρ, T.holds ρ e'.flow = true → ∃ ρ₀, T.holds ρ₀ e.flow = true ∧
    ∀ u ∈ p.boolArgs f, ∀ a, T.valueAtom? u = some a → ρ₀ a = ρ a

theorem Remembers.of_flow (h : ∀ ρ, T.holds ρ e'.flow = true → T.holds ρ e.flow = true) :
    Remembers T p f e e' :=
  fun ρ hρ => ⟨ρ, h ρ hρ, fun _ _ _ _ => rfl⟩

theorem Remembers.refl (e : Environment) : Remembers T p f e e :=
  .of_flow fun _ hρ => hρ

theorem Remembers.trans (h : Remembers T p f e e₁) (h' : Remembers T p f e₁ e') :
    Remembers T p f e e' := by
  intro ρ hρ
  obtain ⟨ρ₁, hρ₁, hagree₁⟩ := h' ρ hρ
  obtain ⟨ρ₀, hρ₀, hagree₀⟩ := h ρ₁ hρ₁
  exact ⟨ρ₀, hρ₀, fun u hu a ha => (hagree₀ u hu a ha).trans (hagree₁ u hu a ha)⟩

theorem Assumed.remembers (h : Assumed T e g e') : Remembers T p f e e' :=
  .of_flow fun ρ hρ => ((h.flow ρ).1 hρ).1

/-- The arguments are remembered when another value `v` gets a new meaning. -/
theorem Renewed.remembers (hT : T.WellFormed) (h : Renewed T e v a g e')
    (hv : v ∉ p.boolArgs f) : Remembers T p f e e' := by
  intro ρ hρ
  obtain ⟨b, hb⟩ := (h.flow ρ).1 hρ
  refine ⟨_, hb, fun u hu c hc => Function.update_of_ne ?_ _ _⟩
  rintro rfl
  exact hv (hT.valueAtom_inj hc h.atom ▸ hu)

/-- The arguments are remembered when `params` get new meanings, none of which is an argument. -/
theorem BoundTo.remembers (hT : T.WellFormed) {params : List (ValueId × Option Formula)}
    (h : BoundTo T e params e') (hparams : ∀ v ∈ params.map Prod.fst, v ∉ p.boolArgs f) :
    Remembers T p f e e' := by
  intro ρ hρ
  obtain ⟨ρ₀, hρ₀, -, hagree⟩ := (h.flow ρ).1 hρ
  refine ⟨ρ₀, hρ₀, fun u hu a ha => hagree a fun v hv hva => hparams v hv ?_⟩
  have huv : u = v := hT.valueAtom_inj ha hva
  exact huv ▸ hu

/-- Where `e₁` and `e₂` meet, one of them is remembered. -/
theorem Joined.remembers (hT : T.WellFormed) (h : Joined T e₁ e₂ e') {ρ : Atom → Bool}
    (hρ : T.holds ρ e'.flow = true) :
    ∃ ρ₀, (T.holds ρ₀ e₁.flow = true ∨ T.holds ρ₀ e₂.flow = true) ∧
      ∀ u ∈ p.boolArgs f, ∀ a, T.valueAtom? u = some a → ρ₀ a = ρ a := by
  have hother : ∀ {u a}, T.valueAtom? u = some a →
      ∀ v, Disagree e₁ e₂ v → AtomKind.merge.get? T v ≠ some a := fun ha v _ => hT.apart ha
  rcases (h.flow ρ).1 hρ with ⟨ρ₀, hρ₀, -, hagree⟩ | ⟨ρ₀, hρ₀, -, hagree⟩
  · exact ⟨ρ₀, Or.inl hρ₀, fun u _ a ha => hagree a (hother ha)⟩
  · exact ⟨ρ₀, Or.inr hρ₀, fun u _ a ha => hagree a (hother ha)⟩

section Operands

variable (hT : T.WellFormed) (hK : p.Supports K) (hargs : ∀ u ∈ p.boolArgs f, K u)
  (hb : Binds T p K J e)

include hT hargs hb

/-- The arguments are bound, so no operand `v` that gets a new meaning is one. -/
theorem Fetched.remembers (h : Fetched T p e v r e') : Remembers T p f e e' := by
  cases h with
  | bound _ => exact .refl e
  | constant _ _ _ _ => exact .refl e
  | other _ _ => exact .refl e
  | renewed hunbound _ _ hrenewed =>
    exact hrenewed.remembers hT fun hv => hb.ne_none (hargs v hv) hunbound

include hK

theorem Combined.remembers {lhs rhs : ValueId} {mk : Formula → Formula → FormulaM Formula}
    (hl : p.Safe K J lhs) (h : Combined T p e lhs rhs mk onBools r e') : Remembers T p f e e' := by
  cases h with
  | both hx hy _ _ | missing hx hy _ =>
    exact (hx.remembers hT hargs hb).trans (hy.remembers hT hargs (hx.binds hT hK hl hb))

theorem Resulted.remembers (hop : ∀ w ∈ op.operands, p.Safe K J w)
    (h : Resulted T p e op r e') : Remembers T p f e e' := by
  cases h with
  | not hx _ _ | notOther hx => exact hx.remembers hT hargs hb
  | logical _ hcombined | equality _ _ hcombined =>
    exact hcombined.remembers hT hK hargs hb (hop _ (by simp [Operation.operands]))
  | arithmetic _ => exact .refl e
  | comparison _ => exact .refl e

theorem Transferred.remembers (hlocal : p.Local f)
    (hop : ∀ op, p.operation? v = some op → ∀ w ∈ op.operands, p.Safe K J w)
    (h : Transferred T p v e e') : Remembers T p f e e' := by
  cases h with
  | quiet _ => exact .refl e
  | call hcall _ hrenewed =>
    -- a call is an instruction and no argument
    refine hrenewed.remembers hT fun hv => ?_
    obtain ⟨i, ty, hparam⟩ := hlocal.built.parameter_of_mem (hlocal.mem_boolArgs_iff.1 hv).1
    simp [operation?, hparam] at hcall
  | callOther _ _ => exact .refl e
  | computed hopv hresulted | forgotten hopv hresulted =>
    have hremembers := hresulted.remembers hT hK hargs hb (hop _ hopv)
    exact fun ρ hρ => hremembers ρ hρ

end Operands

theorem PassedTo.remembers {pairs : List (ValueId × ValueId)}
    {bound : List (ValueId × Option Formula)} (hT : T.WellFormed) (hK : p.Supports K)
    (hbool : ∀ w, K w → p.isBool w = true) (hargs : ∀ u ∈ p.boolArgs f, K u)
    (hpassed : ∀ x ∈ pairs, p.Safe K J x.2) (h : PassedTo T p e pairs bound e')
    (hb : Binds T p K J e) : Remembers T p f e e' := by
  induction h with
  | nil => exact .refl _
  | bool _ hfetched _ ih =>
    rw [List.forall_mem_cons] at hpassed
    have hb₁ := hfetched.binds hT hK hpassed.1 hb
    exact (hfetched.remembers hT hargs hb).trans (ih hpassed.2 hb₁)
  | @other e _ param _ _ _ hparam _ ih =>
    rw [List.forall_mem_cons] at hpassed
    refine ih hpassed.2 (hb.erase fun w hw => ⟨hw, ?_⟩)
    rintro rfl
    simp [hbool w hw] at hparam

/-! ### What a check says lasts -/

/-- The flow condition of `e` implies the formula of `v`. -/
def Environment.Implies (e : Environment) (T : FormulaTable) (p : Program) (v : ValueId) : Prop :=
  ∃ g, Canonical T p v g ∧ ∀ ρ, T.holds ρ e.flow = true → T.holds ρ g = true

/-- What is implied of `cond` lasts as long as the arguments are remembered. -/
theorem Remembers.implies (hT : T.WellFormed) (hlocal : p.Local f) (hmade : p.MadeAs f cond x)
    (h : Remembers T p f e e') (he : e.Implies T p cond) : e'.Implies T p cond := by
  obtain ⟨g, hg, himplies⟩ := he
  refine ⟨g, hg, fun ρ hρ => ?_⟩
  obtain ⟨ρ₀, hρ₀, hagree⟩ := h ρ hρ
  rw [← himplies ρ₀ hρ₀]
  refine holds_congr fun a ha => ?_
  obtain ⟨u, hu, hatom⟩ := hg.overArgs hT hlocal hmade a ha
  exact (hagree u hu a hatom).symm

theorem Joined.implies (hT : T.WellFormed) (hlocal : p.Local f) (hmade : p.MadeAs f cond x)
    (h : Joined T e₁ e₂ e') (h₁ : e₁.Implies T p cond) (h₂ : e₂.Implies T p cond) :
    e'.Implies T p cond := by
  obtain ⟨g, hg, himplies₁⟩ := h₁
  obtain ⟨g', hg', himplies₂⟩ := h₂
  cases hg.unique hT hg'
  refine ⟨g, hg, fun ρ hρ => ?_⟩
  obtain ⟨ρ₀, hρ₀, hagree⟩ := h.remembers (p := p) (f := f) hT hρ
  have hholds : T.holds ρ₀ g = true := hρ₀.elim (himplies₁ ρ₀) (himplies₂ ρ₀)
  rw [← hholds]
  refine holds_congr fun a ha => ?_
  obtain ⟨u, hu, hatom⟩ := hg.overArgs hT hlocal hmade a ha
  exact (hagree u hu a hatom).symm

section Places

variable (hw : p.Watched f S J) (hlocal : p.Local f) (hT : T.WellFormed)
  (hS : ∀ u ∈ p.boolArgs f, S u) (hb : p.Reaches (p.function f).entry b)

include hw hlocal hT hS hb

theorem Entered.remembers {target : Target} (htarget : target ∈ p.successors b)
    (h : Entered T p target e e')
    (hargs : ∀ w ∈ target.args, p.Safe (p.Kept f S b (p.block b).instructions.length) J w)
    (hbinds : Binds T p (p.Kept f S b (p.block b).instructions.length) J e) :
    Remembers T p f e e' := by
  obtain ⟨params, e₁, hpassed, hbound⟩ := h
  have hbody := hlocal.toHasBody
  have hbool : ∀ w, p.Kept f S b (p.block b).instructions.length w → p.isBool w = true :=
    fun w hkept => hkept.isBool hbody hb (Nat.le_refl _)
  have hsafe : ∀ x ∈ p.passed target, p.Safe (p.Kept f S b (p.block b).instructions.length) J x.2 :=
    fun x hx => hargs x.2 (List.of_mem_zip hx).2
  obtain ⟨-, hmap⟩ := hpassed.binds hT (hw.supports hbody) hbool hsafe hbinds
  refine (hpassed.remembers hT (hw.supports hbody) hbool
    (fun u hu => hlocal.kept_of_arg hu (hS u hu)) hsafe hbinds).trans (hbound.remembers hT ?_)
  -- an argument is a parameter of the entry, where no edge leads
  intro v hv harg
  rw [hmap] at hv
  have hparam := (map_fst_zip_sublist _ _).subset (List.mem_filter.1 hv).1
  have hentry := hlocal.built.param_unique hparam (hlocal.mem_boolArgs_iff.1 harg).1
  exact hlocal.not_edge_entry ⟨target, htarget, hentry⟩

theorem Crosses.remembers (h : Crosses T p b e c e')
    (hbinds : Binds T p (p.Kept f S b (p.block b).instructions.length) J e) :
    Remembers T p f e e' := by
  have hbody := hlocal.toHasBody
  obtain ⟨op, target, e₁, hterm, htarget, -, hargs, hentered, hfrom⟩ := h.exists_entered
  have hsafe : ∀ w ∈ op.operands, p.Safe (p.Kept f S b (p.block b).instructions.length) J w :=
    fun w hwop => hw.safe_terminator hbody hb hterm hwop
  -- looking for the formula of the condition renews no argument
  obtain ⟨hbinds₁, hremembers⟩ : Binds T p (p.Kept f S b (p.block b).instructions.length) J e₁ ∧
      Remembers T p f e e₁ := by
    rcases hfrom with rfl | ⟨cond, _, _, _, _, e₀, rfl, hdecided, hassumed, -⟩
    · exact ⟨hbinds, .refl _⟩
    · have hfetched := hdecided.fetched
        (hbody.isBool_of_condBranch (hbody.mem_blocks_of_reaches hb) hterm)
      have hbinds₀ := hfetched.binds hT (hw.supports hbody) (hsafe cond List.mem_cons_self) hbinds
      have hremembers := hfetched.remembers hT (fun u hu => hlocal.kept_of_arg hu (hS u hu)) hbinds
      exact ⟨hbinds₀.congr hassumed.values, hremembers.trans hassumed.remembers⟩
  exact hremembers.trans (hentered.remembers hw hlocal hT hS hb
    (mem_successors_iff.2 ⟨op, hterm, htarget⟩) (fun w hwop => hsafe w (hargs w hwop)) hbinds₁)

theorem Stepped.remembers (hv : (p.block b).instructions[k]? = some v)
    (h : Stepped catalogue.rule T p v e e') (hbinds : Binds T p (p.Kept f S b k) J e) :
    Remembers T p f e e' := by
  obtain ⟨e₁, htransferred, hrefined⟩ := h
  have hbody := hlocal.toHasBody
  have hargs : ∀ {j}, ∀ u ∈ p.boolArgs f, p.Kept f S b j u :=
    fun u hu => hlocal.kept_of_arg hu (hS u hu)
  have hbinds₁ := htransferred.binds hw hbody hT hb hv hbinds
  refine (htransferred.remembers hT (hw.supports hbody) hargs hbinds hlocal
    fun op hop w hwop => hw.safe hb hv hop hwop).trans ?_
  cases hrefined with
  | check _ hfetched hassumed =>
    exact (hfetched.remembers hT hargs hbinds₁).trans hassumed.remembers
  | none _ => exact .refl _

end Places

/-- After a check `site`, its condition `cond` is implied. -/
theorem Refined.implies (hatomic : ∀ w, p.Atomic w → J w)
    (hcheck : catalogue.condition? p site = some cond) (h : Refined T p catalogue site e e')
    (hb : Binds T p K J e) (hcond : p.Ready K cond) : e'.Implies T p cond := by
  cases h with
  | check hcheck' hfetched hassumed =>
    cases hcheck.symm.trans hcheck'
    obtain ⟨g, ⟨⟩, hg, -⟩ := hfetched.canonical hatomic hb hcond.1 hcond.2
    exact ⟨_, hg, fun ρ hρ => ((hassumed.flow ρ).1 hρ).2⟩
  | none hnone => cases hcheck.symm.trans hnone

/-- The condition `cond` of a check that is made of arguments is implied wherever every walk has
passed the check `site`. -/
theorem keeps_implies {task : Task} {start : Environment}
    (hlocal : task.program.Local task.function) (hT : T.WellFormed)
    (hcheck : catalogue.condition? task.program site = some cond)
    (hmade : task.program.MadeAs task.function cond x)
    (hdefined : task.program.DefinedAt task.function cond site)
    (hopened : Opened T task.program task.function start) :
    task.Keeps catalogue.rule T start fun b k e =>
      Binds T task.program (task.program.Kept task.function (fun v =>
        v ∈ task.program.boolArgs task.function ∨
          ReflTransGen task.program.ComputedFrom cond v) b k) task.program.Atomic e ∧
      (task.program.Dominates task.function site b k → e.Implies T task.program cond) := by
  have hw := hmade.watched hlocal
  have hbody := hlocal.toHasBody
  have hkeeps : task.Keeps catalogue.rule T start _ := keeps_binds hlocal hT hw hopened
  obtain ⟨⟨callee, args, hcall, -⟩, hbool⟩ := mem_operands_of_condition? hcheck
  refine ⟨⟨hkeeps.start, fun hdom => ?_⟩, ?_, ?_, ?_⟩
  · -- a call is no parameter of the entry
    obtain ⟨i, ty, hparam⟩ := hlocal.built.parameter_of_mem hdom.of_start
    simp [operation?, hparam] at hcall
  · rintro b k v e e' hb hv hstepped ⟨hbinds, himplies⟩
    refine ⟨hkeeps.step hb hv hstepped hbinds, fun hdom => ?_⟩
    by_cases hsite : site = v
    · -- the check itself: its condition is bound, or it is an argument
      subst hsite
      obtain ⟨e₁, htransferred, hrefined⟩ := hstepped
      have hbinds₁ := htransferred.binds hw hbody hT hb hv hbinds
      refine Refined.implies hw.atomic hcheck hrefined hbinds₁ ⟨hbool, fun hconst => ?_⟩
      refine (atomic_or_computed hbool hconst).imp_right fun hcomputed => ?_
      exact ⟨cond, Or.inr .refl, Or.inl hcomputed, (hdefined hconst b k hv).succ, Or.inl rfl⟩
    · -- another instruction: the check was passed before it, and the arguments are remembered
      exact (hstepped.remembers hw hlocal hT (fun u hu => Or.inl hu) hb hv hbinds).implies hT
        hlocal hmade (himplies (hdom.of_step hv hsite))
  · rintro b c e e' hb hcross ⟨hbinds, himplies⟩
    refine ⟨hkeeps.cross hb hcross hbinds, fun hdom => ?_⟩
    -- crossing to a block defines its parameters, and the check is none
    have hnot : site ∉ (task.program.block c).params := by
      intro hparam
      obtain ⟨i, ty, hparam⟩ := hlocal.built.parameter_of_mem hparam
      simp [operation?, hparam] at hcall
    exact (hcross.remembers hw hlocal hT (fun u hu => Or.inl hu) hb hbinds).implies hT hlocal
      hmade (himplies (hdom.of_cross hcross.edge hnot))
  · rintro c e₁ e₂ e' hc hjoined ⟨hbinds₁, himplies₁⟩ ⟨hbinds₂, himplies₂⟩
    exact ⟨hkeeps.join hc hjoined hbinds₁ hbinds₂, fun hdom =>
      hjoined.implies hT hlocal hmade (himplies₁ hdom) (himplies₂ hdom)⟩

/-- What `e` implies of `cond` can be proved, by the formula of the combination `x`. -/
theorem Environment.Implies.proves (hT : T.WellFormed) (hlocal : p.Local f)
    (hmade : p.MadeAs f cond x) (hwithin : e.Within T) (h : e.Implies T p cond) :
    ((x.formula >>= e.proves) T).1 = true := by
  obtain ⟨g, hg, himplies⟩ := h
  have hsays := hg.says hT hlocal hmade
  have hproves : Yields (x.formula >>= e.proves) T fun b _ => b = true := by
    apply (yields_formula x hT).bind
    intro n t₁ ht₁ hg₁ hn
    refine (yields_proves ht₁ (hwithin.mono hg₁) hn.has).mono fun b t₂ _ _ hb => hb.2 fun ρ hρ => ?_
    -- both formulas say the same of what the atoms stand for
    have hagree : ∀ u a, t₁.valueAtom? u = some a → ρ a = ((t₁.valueAtom? u).map ρ).getD false := by
      intro u a ha
      rw [ha]
      rfl
    rw [hg₁.holds hT ht₁ hwithin.flow] at hρ
    rw [hn.holds ρ _ hagree, ← hsays.holds ρ _ fun u a ha => hagree u a (hg₁.valueAtom ha)]
    exact himplies ρ hρ
  exact hproves.2.2

/-- **Facts of checks are not lost.**  Take a program `p` that is accepted, a function `f` with a
body, and a model `m` of checks and a `limit` for which the analysis has a result.  Take a call
`site` that the model knows as a check and whose condition `cond` is made of arguments and
constants, where every operand, and the condition itself, is defined wherever it is used.  At
every annotation that can be reached, but only by way of the check, an environment has been
noted, and it proves the formula of the condition over the atoms of the arguments. -/
theorem exists_point_proving {text : String} {p : Program} {f : FunctionId} {m : CheckModel}
    {limit : Nat} {t t' : FormulaTable} {events events' : Array Event} {result : Analysis}
    {site cond v : ValueId} {x : Combination} {b : BlockId} {k : Nat} {name : String}
    (hload : Source.load text = .ok p) (hf : f ∈ p.bodies) (ht : t.Reachable)
    (hresult : ({ program := p, function := f, model := m.model, visitLimit := limit } :
      Task).analyse events t = ((.ok result, events'), t'))
    (hcheck : m.catalogue.condition? p site = some cond) (hmade : p.MadeAs f cond x)
    (hdefined : p.DefinedAt f cond site) (hb : p.Reaches (p.function f).entry b)
    (hv : (p.block b).instructions[k]? = some v) (hop : p.operation? v = some (.annotate name))
    (hpath : p.Dominates f site b k) :
    ∃ e, result.points.lookup name = some e ∧ ((x.formula >>= e.proves) t').1 = true := by
  have hlocal := Source.local_of_load hload hf
  obtain ⟨hT, start, s, ha⟩ := exists_analysed (regular_of_hasBody hlocal.toHasBody m limit)
    ht.wellFormed hresult
  obtain ⟨e, he, -, himplies⟩ := (keeps_implies hlocal hT hcheck hmade hdefined
    ha.opened).exists_point hlocal.toHasBody hT ha hb hv hop
  exact ⟨e, he, (himplies hpath).proves hT hlocal hmade (ha.within name e he)⟩

/-! ### A check of a value that is defined, and one of a value that is not -/

/-- A function with two checks: the condition of the first is defined wherever it is reached,
that of the second only on one of two sides. -/
def checkingText : String :=
  "module \x7b fn k(x: bool) -> () fn f(a: bool, b: bool) -> bool \x7b
    entry(): n = not a call k(n) cbr b, left(), done()
    left(): c = not b br done()
    done(): call k(c) annotate here ret bool a
  \x7d \x7d"

/-- Its program. -/
def checkingProgram : Program where
  modules := #[[⟨0⟩, ⟨1⟩]]
  functions := #[
    { path := ["k"], args := [("x", ⟨0⟩)], returnType := .unit, entry := ⟨0⟩,
      isDeclaration := true },
    { path := ["f"], args := [("a", ⟨1⟩), ("b", ⟨2⟩)], returnType := .bool, entry := ⟨1⟩,
      others := [⟨2⟩, ⟨3⟩], isDeclaration := false }]
  blocks := #[
    { label := "entry", function := ⟨0⟩, params := [⟨0⟩] },
    { label := "entry", function := ⟨1⟩, params := [⟨1⟩, ⟨2⟩], instructions := [⟨3⟩, ⟨4⟩, ⟨5⟩] },
    { label := "left", function := ⟨1⟩, instructions := [⟨6⟩, ⟨7⟩], preds := [⟨1⟩] },
    { label := "done", function := ⟨1⟩, instructions := [⟨8⟩, ⟨9⟩, ⟨10⟩], preds := [⟨1⟩, ⟨2⟩] }]
  values := #[.parameter ⟨0⟩ 0 .bool, .parameter ⟨1⟩ 0 .bool, .parameter ⟨1⟩ 1 .bool,
    .instruction ⟨1⟩ (.not ⟨1⟩), .instruction ⟨1⟩ (.call ⟨0⟩ [⟨3⟩]),
    .instruction ⟨1⟩ (.condBranch ⟨2⟩ ⟨⟨2⟩, []⟩ ⟨⟨3⟩, []⟩), .instruction ⟨2⟩ (.not ⟨2⟩),
    .instruction ⟨2⟩ (.branch ⟨⟨3⟩, []⟩), .instruction ⟨3⟩ (.call ⟨0⟩ [⟨6⟩]),
    .instruction ⟨3⟩ (.annotate "here"), .instruction ⟨3⟩ (.ret ⟨1⟩ .bool)]

/-- The only check is the one that is declared there. -/
def checkingModel : CheckModel where
  catalogue := ⟨[⟨.check, ["k"], 1, some 0⟩], by decide⟩

/-- The analysis of the function. -/
def checkingTask : Task where
  program := checkingProgram
  function := ⟨1⟩
  model := checkingModel.model

theorem load_checkingText : Source.load checkingText = .ok checkingProgram := by decide +kernel

/-- An argument `w` is defined wherever it is used. -/
theorem definedAt_of_entry (hw : w ∈ (p.block (p.function f).entry).params) (v : ValueId) :
    p.DefinedAt f w v :=
  fun _ _ _ _ _ hwalk => hwalk.mem_of_entry hw

/-- A value `w` that stands before `v` in the same block is defined there. -/
theorem definedAt_of_lt (hp : p.Built) {i j : Nat} (hij : i < j)
    (hw : (p.block b).instructions[i]? = some w) (hv : (p.block b).instructions[j]? = some v) :
    p.DefinedAt f w v := by
  intro _ c k hk met hwalk
  cases hp.block_unique (List.mem_of_getElem? hk) (List.mem_of_getElem? hv)
  cases hp.position_unique hk hv
  exact hwalk.mem_of_lt hij hw

/-- At the annotation, the condition of the first check is proved. -/
theorem checking_first_proved :
    ∃ result events t' e, checkingTask.analyse #[] {} = ((.ok result, events), t') ∧
      result.points.lookup "here" = some e ∧
      (((Combination.not (.argument ⟨1⟩)).formula >>= e.proves) t').1 = true := by
  have hp := (Source.local_of_load (f := ⟨1⟩) load_checkingText (by decide)).built
  have hmade : checkingProgram.MadeAs ⟨1⟩ ⟨3⟩ (.not (.argument ⟨1⟩)) :=
    .not rfl (definedAt_of_entry (by decide) _) (.argument (by decide))
  have hdefined : checkingProgram.DefinedAt ⟨1⟩ ⟨3⟩ ⟨4⟩ :=
    definedAt_of_lt hp (b := ⟨1⟩) Nat.zero_lt_one rfl rfl
  have hreach : checkingProgram.Reaches (checkingProgram.function ⟨1⟩).entry ⟨3⟩ :=
    .single ⟨⟨⟨3⟩, []⟩, by decide, rfl⟩
  have hok : (checkingTask.analyse #[] {}).1.1.isOk = true := by decide +kernel
  rcases hresult : checkingTask.analyse #[] {} with ⟨⟨r, events⟩, t'⟩
  rw [hresult] at hok
  cases r with
  | error => cases hok
  | ok result =>
    obtain ⟨e, he, hproves⟩ := exists_point_proving (m := checkingModel) (b := ⟨3⟩) (k := 1)
      load_checkingText (by decide) .empty hresult (by decide) hmade hdefined hreach rfl rfl
      (dominates_of_mem_entry (by decide) (by decide))
    exact ⟨result, events, t', e, rfl, he, hproves⟩

/-- The condition of the second check is made of an argument, and all paths to the annotation
pass the check, but the condition is not proved there: it is not defined on the other side. -/
theorem checking_second_not_proved :
    Source.load checkingText = .ok checkingProgram ∧
    checkingModel.catalogue.condition? checkingProgram ⟨8⟩ = some ⟨6⟩ ∧
    checkingProgram.MadeAs ⟨1⟩ ⟨6⟩ (.not (.argument ⟨2⟩)) ∧
    checkingProgram.Reaches (checkingProgram.function ⟨1⟩).entry ⟨3⟩ ∧
    (checkingProgram.block ⟨3⟩).instructions[1]? = some ⟨9⟩ ∧
    checkingProgram.operation? ⟨9⟩ = some (.annotate "here") ∧
    checkingProgram.Dominates ⟨1⟩ ⟨8⟩ ⟨3⟩ 1 ∧
    ∃ result events t' e, checkingTask.analyse #[] {} = ((.ok result, events), t') ∧
      result.points.lookup "here" = some e ∧
      (((Combination.not (.argument ⟨2⟩)).formula >>= e.proves) t').1 = false := by
  refine ⟨load_checkingText, by decide, ?_, .single ⟨⟨⟨3⟩, []⟩, by decide, rfl⟩, rfl, rfl, ?_, ?_⟩
  · exact .not rfl (definedAt_of_entry (by decide) _) (.argument (by decide))
  · exact fun met hwalk => hwalk.mem_of_lt Nat.zero_lt_one rfl
  · have hpoint : ((checkingTask.analyse #[] {}).1.1.toOption.bind
        fun a => a.points.lookup "here").map (fun e =>
          (((Combination.not (.argument ⟨2⟩)).formula >>= e.proves)
            (checkingTask.analyse #[] {}).2).1) = some false := by decide +kernel
    rcases hresult : checkingTask.analyse #[] {} with ⟨⟨r, events⟩, t'⟩
    rw [hresult] at hpoint
    cases r with
    | error => cases hpoint
    | ok result =>
      obtain ⟨e, he, hproves⟩ := Option.map_eq_some_iff.1 hpoint
      exact ⟨result, events, t', e, rfl, he, hproves⟩

end FlowFacts
