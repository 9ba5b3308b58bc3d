import FlowFacts.Proofs.Flow.Below
import FlowFacts.Proofs.Flow.Describes
import FlowFacts.Proofs.Flow.Reported

/-!
# The analysis is precise

If every value is used only where it is defined, and comparisons are for equality and between
truth values, then nothing is lost: every assignment to the atoms that satisfies a flow condition
comes from an execution.  Each truth value has a formula, and the execution gives the value what
the formula says.

An execution is made along with the flow condition.  Where an atom gets a new meaning, the
condition holds if it held for some old meaning, and the execution for that one goes on: a call
returns what the atom is assigned, and a parameter takes what is passed for it.  Where edges
meet, one of the conditions holds, and there is an execution for that one.

## Main definitions

* `Program.ComparesBools` — comparisons are for equality and between truth values.
* `Realises` — a state gives all truth values what their formulas say.
* `Realised` — an execution leads to such a state.

## Main results

* `kept_iff` — the values that are bound are the truth values that dominate a place.
* `Stepped.realised`, `Crosses.realised` — instructions and edges can be executed.
* `keeps_realised` — flow conditions are realised, wherever an environment is stored.
* `exists_run_of_flow` — every assignment that satisfies a flow condition has an execution.
-/

namespace FlowFacts

open FormulaM FormulaTable Program Relation

variable {T : FormulaTable} {p : Program} {f : FunctionId} {e e₁ e' : Environment}
  {u v w : ValueId} {b c : BlockId} {k : Nat} {op : Operation} {K J : ValueId → Prop}
  {r : Option Formula} {g : Formula} {ρ ρ₀ : Atom → Bool} {s s₀ : State} {catalogue : Catalogue}

/-! ### Types -/

/-- A value of a type, with the truth value `truth` if it is one. -/
def Ty.constant (truth : Bool) : Ty → Constant
  | unit => .unit
  | bool => .bool truth
  | u64 => .u64 0
  | str => .str []

theorem Ty.ty_constant (truth : Bool) (ty : Ty) : (ty.constant truth).ty = ty := by
  cases ty <;> rfl

namespace Program

theorem isBool_iff : p.isBool v = true ↔ p.typeOf v = some .bool :=
  beq_iff_eq

/-- Only the last instruction of `b` is a terminator. -/
theorem HasBody.lt_of_not_terminator (h : p.HasBody f) (hb : b ∈ (p.function f).blocks)
    (hv : (p.block b).instructions[k]? = some v) (hop : p.operation? v = some op)
    (hnot : op.isTerminator = false) : k + 1 < (p.block b).instructions.length := by
  obtain ⟨before, last, op', hlist, hop', hterm, -⟩ := h.exists_last hb
  have hlt := (List.getElem?_eq_some_iff.1 hv).1
  by_contra hge
  have hk : k = before.length := by
    rw [hlist, List.length_append, List.length_singleton] at hlt hge
    omega
  have hlast : v = last := by
    rw [hlist, hk] at hv
    simpa using hv.symm
  subst hlast
  rw [hop, Option.some.injEq] at hop'
  simp [hop', hterm] at hnot

/-! ### All truth values are kept -/

/-- The comparisons of `f` that can be reached are for equality and between truth values. -/
def ComparesBools (p : Program) (f : FunctionId) : Prop :=
  ∀ b, p.Reaches (p.function f).entry b → ∀ v ∈ (p.block b).instructions,
    ∀ predicate lhs rhs, p.operation? v = some (.compare predicate lhs rhs) →
      (predicate = .eq ∨ predicate = .ne) ∧ p.isBool lhs = true ∧ p.isBool rhs = true

theorem ComparesBools.combines (h : p.ComparesBools f) (hb : p.Reaches (p.function f).entry b)
    (hv : v ∈ (p.block b).instructions) {predicate : Comparison} {lhs rhs : ValueId}
    (hop : p.operation? v = some (.compare predicate lhs rhs)) :
    p.combines (.compare predicate lhs rhs) = true := by
  obtain ⟨rfl | rfl, hbool, -⟩ := h b hb v hv predicate lhs rhs hop
  · simp [Program.combines, Comparison.isOrder, hbool]
  · simp [Program.combines, Comparison.isOrder, hbool]

/-- A truth value `v` that is defined is computed, or bound to its atom where it is defined. -/
theorem ComparesBools.computed_or_immediate (h : p.ComparesBools f) (hbody : p.HasBody f)
    (hb : p.Reaches (p.function f).entry b)
    (hv : v ∈ (p.block b).params ∨ v ∈ (p.block b).instructions) (hbool : p.isBool v = true) :
    p.Computed v ∨ p.Immediate v := by
  rcases hv with hparam | hv
  · exact Or.inr ⟨hbody.built.atomic_of_param hparam hbool, Or.inl ⟨b, hparam⟩⟩
  obtain ⟨op, hop⟩ := hbody.built.exists_operation hv
  have hfits := hbody.fits (hbody.mem_blocks_of_reaches hb) hv hop
  cases op with
  | not arg => exact Or.inl ⟨_, hop, rfl⟩
  | binary op lhs rhs =>
    refine Or.inl ⟨_, hop, ?_⟩
    rw [isBool, hbody.built.typeOf_binary hop, hfits lhs List.mem_cons_self] at hbool
    by_contra hnot
    have hlogical : op.isLogical = false := by simpa [Program.combines] using hnot
    simp [hlogical] at hbool
  | compare predicate lhs rhs => exact Or.inl ⟨_, hop, h.combines hb hv hop⟩
  | call callee args =>
    refine Or.inr ⟨⟨hbool, constant?_of_operation? hop, ?_⟩, Or.inr ⟨callee, args, hop⟩⟩
    rintro ⟨op', hop', hcombines⟩
    cases hop.symm.trans hop'
    cases hcombines
  | annotate | branch | condBranch | nop | ret =>
    simp [isBool, typeOf_eq_none hop rfl] at hbool

section Kept

variable (hdisciplined : p.Disciplined f) (hcompares : p.ComparesBools f) (hbody : p.HasBody f)
  (hb : p.Reaches (p.function f).entry b)

include hdisciplined hcompares hbody hb

/-- The values that are bound at position `k` of `b` are the truth values that dominate the
place. -/
theorem kept_iff (hk : k ≤ (p.block b).instructions.length) :
    p.Kept f (fun _ => True) b k w ↔ p.Dominates f w b k ∧ p.isBool w = true := by
  constructor
  · intro hkept
    refine ⟨?_, hkept.isBool hbody hb hk⟩
    obtain ⟨v, hv, -, hdom, rfl | hfrom⟩ := hkept
    · exact hdom
    · exact (hdisciplined.watched hbody).dominates_reflTransGen hbody hv (.single hfrom) hdom
  · -- a walk to the place has met the value, so it is defined in a block that can be reached
    rintro ⟨hdom, hbool⟩
    obtain ⟨met, hmet⟩ := exists_walks hb
    obtain ⟨met', hmet'⟩ := hmet.exists_of_le hk
    obtain ⟨b', hb', hplace⟩ := hmet'.exists_block (hdom met' hmet')
    exact ⟨w, trivial, hcompares.computed_or_immediate hbody hb' hplace hbool, hdom, Or.inl rfl⟩

/-- The operands `w` of the instruction `v` that are truth values are bound before it. -/
theorem kept_of_operand (hv : (p.block b).instructions[k]? = some v)
    (hop : p.operation? v = some op) (hw : w ∈ op.operands) (hbool : p.isBool w = true)
    (hconst : p.constant? w = none) : p.Kept f (fun _ => True) b k w := by
  have hdom := hdisciplined b (hbody.mem_blocks_of_reaches hb) k v op hv hop w hw hconst
  have hlt := (List.getElem?_eq_some_iff.1 hv).1
  exact (kept_iff hdisciplined hcompares hbody hb (Nat.le_of_lt hlt)).2 ⟨hdom, hbool⟩

end Kept

end Program

/-! ### Operands that are bound -/

/-- To fetch an operand `v` that is bound changes nothing. -/
theorem Fetched.eq_of_kept (h : Fetched T p e v r e') (hb : Binds T p K J e)
    (hv : p.isBool v = true → p.constant? v = none → K v) : e' = e := by
  cases h with
  | bound _ => rfl
  | constant _ _ _ _ => rfl
  | other _ _ => rfl
  | renewed hunbound hconst hbool _ => exact absurd hunbound (hb.ne_none (hv hbool hconst))

theorem Combined.eq_of_kept {lhs rhs : ValueId} {mk : Formula → Formula → FormulaM Formula}
    {onBools : Bool → Bool → Bool} (h : Combined T p e lhs rhs mk onBools r e')
    (hb : Binds T p K J e) (hl : p.isBool lhs = true → p.constant? lhs = none → K lhs)
    (hr : p.isBool rhs = true → p.constant? rhs = none → K rhs) : e' = e := by
  cases h with
  | both hx hy _ _ | missing hx hy _ =>
    rw [hx.eq_of_kept hb hl] at hy
    exact hy.eq_of_kept hb hr

theorem Resulted.eq_of_kept (h : Resulted T p e op r e') (hb : Binds T p K J e)
    (hop : ∀ w ∈ op.operands, p.isBool w = true → p.constant? w = none → K w) : e' = e := by
  cases h with
  | not hx _ _ | notOther hx => exact hx.eq_of_kept hb (hop _ (by simp [Operation.operands]))
  | logical _ hcombined | equality _ _ hcombined =>
    exact hcombined.eq_of_kept hb (hop _ (by simp [Operation.operands]))
      (hop _ (by simp [Operation.operands]))
  | arithmetic _ => rfl
  | comparison _ => rfl

/-- Passing arguments that are bound does not change the flow condition, and each truth value is
passed as its formula. -/
theorem PassedTo.passes {pairs : List (ValueId × ValueId)}
    {bound : List (ValueId × Option Formula)} (hatomic : ∀ w, p.Atomic w → J w)
    (h : PassedTo T p e pairs bound e') (hb : Binds T p K J e)
    (hbool : ∀ w, K w → p.isBool w = true)
    (htypes : ∀ y ∈ pairs, p.isBool y.1 = true → p.isBool y.2 = true)
    (hargs : ∀ y ∈ pairs, p.isBool y.2 = true → p.constant? y.2 = none → K y.2) :
    e'.flow = e.flow ∧ ∀ y ∈ pairs, p.isBool y.1 = true →
      ∃ g, (y.1, some g) ∈ bound ∧ Canonical T p y.2 g := by
  induction h with
  | nil => exact ⟨rfl, by simp⟩
  | @bool e e₁ e' param arg rest found bound hparam hfetched _ ih =>
    rw [List.forall_mem_cons] at htypes hargs
    have harg : p.isBool arg = true := htypes.1 hparam
    obtain ⟨g, rfl, hg, -⟩ := hfetched.canonical hatomic hb harg fun hconst =>
      Or.inr (hargs.1 harg hconst)
    cases hfetched.eq_of_kept hb hargs.1
    obtain ⟨hflow, hpassed⟩ := ih hb htypes.2 hargs.2
    refine ⟨hflow, List.forall_mem_cons.2 ⟨fun _ => ⟨g, List.mem_cons_self, hg⟩, ?_⟩⟩
    intro y hy hyb
    obtain ⟨g', hmem, hg'⟩ := hpassed y hy hyb
    exact ⟨g', List.mem_cons_of_mem _ hmem, hg'⟩
  | @other e e' param arg rest bound hparam _ ih =>
    rw [List.forall_mem_cons] at htypes hargs
    -- what is erased is no truth value, so all that was bound still is
    have hb' : Binds T p K J (e.erase param) := by
      refine hb.erase fun w hw => ⟨hw, ?_⟩
      rintro rfl
      simp [hbool w hw] at hparam
    obtain ⟨hflow, hpassed⟩ := ih hb' htypes.2 hargs.2
    refine ⟨hflow, List.forall_mem_cons.2 ⟨fun hyb => ?_, hpassed⟩⟩
    simp [hparam] at hyb

/-! ### States that realise an assignment -/

/-- The state `s`, at position `k` of `b`, gives all truth values what their formulas say under
`ρ`.  Behind the last instruction of a block, the state is still before it: the terminator is
executed when the block is left. -/
structure Realises (T : FormulaTable) (p : Program) (f : FunctionId) (b : BlockId) (k : Nat)
    (ρ : Atom → Bool) (s : State) : Prop where
  /-- The state is in the block. -/
  block : s.block = b
  /-- It is at the position. -/
  position : s.position = min k ((p.block b).instructions.length - 1)
  /-- The values are those of the formulas. -/
  values : ∀ w g, p.Kept f (fun _ => True) b k w → Canonical T p w g →
    p.read s.store w = some (.bool (T.holds ρ g))
  /-- All that dominates the place has been assigned. -/
  assigned : ∀ w ty, p.Dominates f w b k → p.typeOf w = some ty →
    (p.read s.store w).isSome = true

/-- The boolean arguments of `f` start in `s` with what `ρ` gives their atoms. -/
def StartsWith (T : FormulaTable) (p : Program) (f : FunctionId) (ρ : Atom → Bool) (s : State) :
    Prop :=
  ∀ u ∈ p.boolArgs f, ∀ a, T.valueAtom? u = some a → s.store u = some (.bool (ρ a))

/-- An execution of `f` leads to position `k` of `b` with the values of the assignment `ρ`. -/
def Realised (catalogue : Catalogue) (T : FormulaTable) (p : Program) (f : FunctionId)
    (b : BlockId) (k : Nat) (ρ : Atom → Bool) : Prop :=
  ∃ s₀ s, Starts p f s₀ ∧ StartsWith T p f ρ s₀ ∧ Run p catalogue s₀ s ∧ Realises T p f b k ρ s

/-- An execution for `ρ₀` goes on, by one step or none, and becomes one for `ρ`. -/
theorem Realised.extend {k' : Nat} (h : Realised catalogue T p f b k ρ₀)
    (hargs : ∀ u ∈ p.boolArgs f, ∀ a, T.valueAtom? u = some a → ρ₀ a = ρ a)
    (hstep : ∀ s, Realises T p f b k ρ₀ s →
      ∃ s', ReflGen (Step p catalogue) s s' ∧ Realises T p f c k' ρ s') :
    Realised catalogue T p f c k' ρ := by
  obtain ⟨s₀, s, hstarts, hwith, hrun, hs⟩ := h
  obtain ⟨s', hstep, hs'⟩ := hstep s hs
  refine ⟨s₀, s', hstarts, fun u hu a ha => ?_, hrun.trans hstep.to_reflTransGen, hs'⟩
  rw [← hargs u hu a ha]
  exact hwith u hu a ha

/-- A state `s` behind the last instruction is one before it. -/
theorem Realises.before_last (hlast : k + 1 = (p.block b).instructions.length)
    (hs : Realises T p f b (k + 1) ρ s) : Realises T p f b k ρ s where
  block := hs.block
  position := by
    have hpos := hs.position
    omega
  values w g hkept := hs.values w g hkept.succ
  assigned w ty hdom := hs.assigned w ty hdom.succ

namespace Realises

variable (hdisciplined : p.Disciplined f) (hcompares : p.ComparesBools f) (hbody : p.HasBody f)
  (hb : p.Reaches (p.function f).entry b) (hs : Realises T p f b k ρ₀ s)

include hs

/-- The next instruction of `s` is the one at position `k`. -/
theorem instruction? (hv : (p.block b).instructions[k]? = some v) :
    s.instruction? p = some v := by
  have hlt := (List.getElem?_eq_some_iff.1 hv).1
  have hk : s.position = k := by
    rw [hs.position]
    omega
  rw [State.instruction?, hs.block, hk]
  exact hv

theorem operation? (hv : (p.block b).instructions[k]? = some v) (hop : p.operation? v = some op) :
    s.operation? p = some op :=
  State.operation?_eq_some_iff.2 ⟨v, hs.instruction? hv, hop⟩

include hdisciplined hbody hb

/-- What the instruction `v` refers to has been assigned. -/
theorem isSome_read (hv : (p.block b).instructions[k]? = some v) (hop : p.operation? v = some op)
    (hret : ∀ value ty, op ≠ .ret value ty) (hw : w ∈ op.operands) :
    (p.read s.store w).isSome = true := by
  have hblock := hbody.mem_blocks_of_reaches hb
  cases hconst : p.constant? w with
  | some y => rw [read_of_constant? hconst, Option.isSome_some]
  | none =>
    obtain ⟨ty, hty⟩ := hbody.built.exists_typeOf_of_fits
      (hbody.fits hblock (List.mem_of_getElem? hv) hop) hret w hw
    exact hs.assigned w ty (hdisciplined b hblock k v op hv hop w hw hconst) hty

include hcompares

/-- A truth value `w` that the instruction `v` refers to is what its formula says. -/
theorem read_operand (hT : T.WellFormed) (hv : (p.block b).instructions[k]? = some v)
    (hop : p.operation? v = some op) (hw : w ∈ op.operands) (hbool : p.isBool w = true)
    (hg : Canonical T p w g) : p.read s.store w = some (.bool (T.holds ρ₀ g)) := by
  cases hconst : p.constant? w with
  | none =>
    exact hs.values w g (kept_of_operand hdisciplined hcompares hbody hb hv hop hw hbool hconst) hg
  | some y =>
    rw [isBool, typeOf_of_constant? hconst, beq_iff_eq, Option.some.injEq] at hbool
    cases y with
    | bool z =>
      rw [read_of_constant? hconst,
        ((hg.of_constant hconst).of_yields (yields_mkLiteral hT z)).holds]
    | unit | u64 | str => cases hbool

/-- What `v` computes from `s` is what the formula of its result says. -/
theorem computed? (hT : T.WellFormed) (hv : (p.block b).instructions[k]? = some v)
    (hop : p.operation? v = some op) (hcombines : p.combines op = true)
    (hg : Canonical T p v g) : p.computed? s.store op = some (T.holds ρ₀ g) := by
  have hread : ∀ {w x}, w ∈ op.operands → Canonical T p w x →
      p.readBool? s.store w = some (T.holds ρ₀ x) := by
    intro w x hw hx
    have hbool := hbody.isBool_of_mem_operands (hbody.mem_blocks_of_reaches hb)
      (List.mem_of_getElem? hv) hop hcombines hw
    exact readBool?_of_read (hs.read_operand hdisciplined hcompares hbody hb hT hv hop hw hbool hx)
  cases op with
  | not arg =>
    obtain ⟨x, hx, hmade⟩ := hg.of_not hop
    rw [Program.computed?, hread (by simp [Operation.operands]) hx,
      (hmade.means_not hT (hx.has hT)).holds]
    rfl
  | binary op lhs rhs =>
    have hlogical : op.isLogical = true := hcombines
    obtain ⟨x, y, hx, hy, hmade⟩ := hg.of_binary hop hlogical
    rw [Program.computed?, if_pos hlogical, hread (by simp [Operation.operands]) hx,
      hread (by simp [Operation.operands]) hy,
      (hmade.means_binary hT (computes_binaryOp op) (hx.has hT) (hy.has hT)).holds]
    rfl
  | compare predicate lhs rhs =>
    obtain ⟨horder, hbool⟩ : predicate.isOrder = false ∧ p.isBool lhs = true := by
      simpa [Program.combines] using hcombines
    obtain ⟨x, y, hx, hy, hmade⟩ := hg.of_compare hop horder hbool
    rw [Program.computed?, if_neg (by simp [horder]), hread (by simp [Operation.operands]) hx,
      hread (by simp [Operation.operands]) hy,
      (hmade.means_binary hT (computes_comparison predicate) (hx.has hT) (hy.has hT)).holds]
    rfl
  | annotate | branch | call | condBranch | nop | ret => cases hcombines

/-- An instruction `v` with a result `x` is executed.  What was known before stays so under the
new assignment `ρ`, and the result has the value of its formula. -/
theorem nextWith (catalogue : Catalogue) (ρ : Atom → Bool) (x : Constant)
    (hv : (p.block b).instructions[k]? = some v) (hop : p.operation? v = some op)
    (hresult : op.hasResult = true) (hty : p.typeOf v = some x.ty)
    (hnew : ∀ g, p.isBool v = true → Canonical T p v g → x = .bool (T.holds ρ g))
    (hold : ∀ w g, p.Kept f (fun _ => True) b k w → Canonical T p w g →
      T.holds ρ₀ g = T.holds ρ g)
    (hcomputed : ∀ y ∈ p.computed? s.store op, x = .bool y)
    (hcheck : ∀ cond ∈ catalogue.condition? p v, p.read s.store cond = some (.bool true)) :
    Step p catalogue s (s.nextWith v x) ∧ Realises T p f b (k + 1) ρ (s.nextWith v x) := by
  have hret : ∀ value ty, op ≠ .ret value ty := by
    rintro value ty rfl
    cases hresult
  have hconst := constant?_of_operation? hop
  have hnot : op.isTerminator = false := by
    cases op with
    | not | binary | call | compare => rfl
    | annotate | branch | condBranch | nop | ret => cases hresult
  have hlt := hbody.lt_of_not_terminator (hbody.mem_blocks_of_reaches hb) hv hop hnot
  refine ⟨.result (hs.instruction? hv) hop hresult
    (fun w hw => hs.isSome_read hdisciplined hbody hb hv hop hret hw) hty hcomputed hcheck, ?_⟩
  constructor
  · exact hs.block
  · have hpos := hs.position
    change s.position + 1 = _
    omega
  · -- the values: that of `v` is new, and the others are as they were
    intro w g hkept hg
    obtain ⟨hdom, hbool⟩ := (kept_iff hdisciplined hcompares hbody hb (Nat.le_of_lt hlt)).1 hkept
    rw [State.nextWith, read_update hconst]
    by_cases hwv : w = v
    · subst hwv
      rw [if_pos rfl, hnew g hbool hg]
    · have hkept' : p.Kept f (fun _ => True) b k w :=
        (kept_iff hdisciplined hcompares hbody hb (by omega)).2 ⟨hdom.of_step hv hwv, hbool⟩
      rw [if_neg hwv, hs.values w g hkept' hg, hold w g hkept' hg]
  · -- what has been assigned: `v` now is, and the rest was
    intro w ty hdom hty'
    rw [State.nextWith, read_update hconst]
    by_cases hwv : w = v
    · rw [if_pos hwv, Option.isSome_some]
    · rw [if_neg hwv]
      exact hs.assigned w ty (hdom.of_step hv hwv) hty'

/-- An instruction `v` without a result is passed. -/
theorem next (hv : (p.block b).instructions[k]? = some v) (hop : p.operation? v = some op)
    (hquiet : op.isQuiet = true) :
    ∃ s', ReflGen (Step p catalogue) s s' ∧ Realises T p f b (k + 1) ρ₀ s' := by
  have hlt := (List.getElem?_eq_some_iff.1 hv).1
  have hnone : p.typeOf v = none := by
    apply typeOf_eq_none hop
    cases op with
    | annotate | branch | condBranch | nop | ret => rfl
    | not | binary | call | compare => cases hquiet
  -- the values and what has been assigned stay
  have hrest : ∀ s' : State, s'.block = s.block → s'.store = s.store →
      s'.position = min (k + 1) ((p.block b).instructions.length - 1) →
      Realises T p f b (k + 1) ρ₀ s' := by
    intro s' hblock hstore hpos
    have hne : ∀ w ty, p.typeOf w = some ty → w ≠ v := by
      rintro w ty hty rfl
      cases hty.symm.trans hnone
    refine ⟨hblock.trans hs.block, hpos, fun w g hkept hg => ?_, fun w ty hdom hty => ?_⟩
    · obtain ⟨hdom, hbool⟩ := (kept_iff hdisciplined hcompares hbody hb hlt).1 hkept
      have hwv : w ≠ v := hne w .bool (isBool_iff.1 hbool)
      rw [hstore]
      exact hs.values w g ((kept_iff hdisciplined hcompares hbody hb (Nat.le_of_lt hlt)).2
        ⟨hdom.of_step hv hwv, hbool⟩) hg
    · rw [hstore]
      exact hs.assigned w ty (hdom.of_step hv (hne w ty hty)) hty
  have hnext : op.isTerminator = false → Step p catalogue s s.next →
      ∃ s', ReflGen (Step p catalogue) s s' ∧ Realises T p f b (k + 1) ρ₀ s' := by
    intro hnot hstep
    have hlt := hbody.lt_of_not_terminator (hbody.mem_blocks_of_reaches hb) hv hop hnot
    refine ⟨s.next, .single hstep, hrest s.next rfl rfl ?_⟩
    have hpos := hs.position
    change s.position + 1 = _
    omega
  -- a terminator is the last instruction, and is executed when the block is left
  have hstay : op.isTerminator = true →
      ∃ s', ReflGen (Step p catalogue) s s' ∧ Realises T p f b (k + 1) ρ₀ s' := by
    intro hterm
    obtain ⟨-, before, hlist⟩ := hbody.last_of_terminator (hbody.mem_blocks_of_reaches hb)
      (List.mem_of_getElem? hv) hop hterm
    have hlast : (p.block b).instructions[before.length]? = some v := by simp [hlist]
    have hk := hbody.built.position_unique hv hlast
    refine ⟨s, .refl, hrest s rfl rfl ?_⟩
    rw [hs.position, hlist, List.length_append, List.length_singleton]
    omega
  cases op with
  | annotate name => exact hnext rfl (.annotate (hs.operation? hv hop))
  | nop => exact hnext rfl (.nop (hs.operation? hv hop))
  | branch | condBranch | ret => exact hstay rfl
  | not | binary | call | compare => cases hquiet

end Realises

/-! ### Instructions -/

/-- A formula `g` says the same under `ρ₀` and `ρ` if the atoms of what it is computed from do. -/
theorem Canonical.holds_eq (hT : T.WellFormed) (hg : Canonical T p w g)
    (hagree : ∀ u a, T.valueAtom? u = some a → ReflTransGen p.ComputedFrom w u → ρ₀ a = ρ a) :
    T.holds ρ₀ g = T.holds ρ g := by
  apply holds_congr
  intro a hocc
  obtain ⟨u, hchain, -, ha⟩ := hg.occurs hT hocc
  exact hagree u a ha hchain

section Steps

variable (hT : T.WellFormed) (hdisciplined : p.Disciplined f) (hcompares : p.ComparesBools f)
  (hlocal : p.Local f) (hb : p.Reaches (p.function f).entry b)

include hdisciplined hcompares hlocal hb

/-- After a call `v`, the flow condition says that the condition of the check holds. -/
theorem Refined.flow_of_call (h : Refined T p catalogue v e e')
    (hv : (p.block b).instructions[k]? = some v)
    (hbinds : Binds T p (p.Kept f (fun _ => True) b (k + 1)) (fun _ => True) e)
    (hρ : T.holds ρ e'.flow = true) : T.holds ρ e.flow = true ∧
      ∀ cond ∈ catalogue.condition? p v, ∃ g, Canonical T p cond g ∧ T.holds ρ g = true := by
  cases h with
  | none hnone => exact ⟨hρ, by simp [hnone]⟩
  | @check cond g e₁ e' hcond hfetched hassumed =>
    obtain ⟨⟨callee, args, hcall, hmem⟩, hbool⟩ := mem_operands_of_condition? hcond
    have hkept := fun hconst =>
      (kept_of_operand hdisciplined hcompares hlocal.toHasBody hb hv hcall hmem hbool hconst).succ
    obtain ⟨_, ⟨⟩, hg, -⟩ := hfetched.canonical (fun _ _ => trivial) hbinds hbool fun hconst =>
      Or.inr (hkept hconst)
    cases hfetched.eq_of_kept hbinds fun _ hconst => hkept hconst
    obtain ⟨hflow, hholds⟩ := (hassumed.flow ρ).1 hρ
    refine ⟨hflow, fun cond hcond' => ?_⟩
    cases hcond.symm.trans hcond'
    exact ⟨g, hg, hholds⟩

/-- The condition `cond` of a branch is bound. -/
theorem Decided.canonical {cond : ValueId} (h : Decided T p e cond g e')
    (hv : (p.block b).instructions[k]? = some v) (hop : p.operation? v = some op)
    (hcond : cond ∈ op.operands) (hbool : p.isBool cond = true)
    (hbinds : Binds T p (p.Kept f (fun _ => True) b (k + 1)) (fun _ => True) e) :
    e' = e ∧ Canonical T p cond g := by
  have hkept := fun hconst =>
    (kept_of_operand hdisciplined hcompares hlocal.toHasBody hb hv hop hcond hbool hconst).succ
  have hfetched := h.fetched hbool
  obtain ⟨_, ⟨⟩, hg, -⟩ := hfetched.canonical (fun _ _ => trivial) hbinds hbool fun hconst =>
    Or.inr (hkept hconst)
  exact ⟨hfetched.eq_of_kept hbinds fun _ => hkept, hg⟩

include hT

/-- A call `v` is executed.  It returns the value of its atom, or any value if it is no truth
value. -/
theorem Transferred.realised_of_call {callee : FunctionId} {args : List ValueId}
    (h : Transferred T p v e e₁) (hrefined : Refined T p catalogue v e₁ e')
    (hv : (p.block b).instructions[k]? = some v)
    (hcall : p.operation? v = some (.call callee args))
    (hbinds : Binds T p (p.Kept f (fun _ => True) b k) (fun _ => True) e)
    (hreal : ∀ ρ, T.holds ρ e.flow = true → Realised catalogue T p f b k ρ)
    (hρ : T.holds ρ e'.flow = true) : Realised catalogue T p f b (k + 1) ρ := by
  have hbody := hlocal.toHasBody
  have hwatched := hdisciplined.watched hbody
  have hmem := List.mem_of_getElem? hv
  obtain ⟨hflow, hcheck⟩ := hrefined.flow_of_call hdisciplined hcompares hlocal hb hv
    (h.binds hwatched hbody hT hb hv hbinds) hρ
  -- only the atom of the result has another meaning than before
  have hgo : ∀ (ρ₀ : Atom → Bool) (y : Constant), T.holds ρ₀ e.flow = true →
      p.typeOf v = some y.ty →
      (∀ g, p.isBool v = true → Canonical T p v g → y = .bool (T.holds ρ g)) →
      (∀ u a, T.valueAtom? u = some a → u ≠ v → ρ₀ a = ρ a) →
      Realised catalogue T p f b (k + 1) ρ := by
    intro ρ₀ y hρ₀ hty hnew hagree
    have hold : ∀ w g, p.Kept f (fun _ => True) b k w → Canonical T p w g →
        T.holds ρ₀ g = T.holds ρ g := by
      intro w g hkept hg
      apply hg.holds_eq hT
      intro u a ha hchain
      refine hagree u a ha ?_
      rintro rfl
      exact hwatched.not_reflTransGen hbody hb hv hkept hchain
    refine (hreal ρ₀ hρ₀).extend (fun u hu a ha => hagree u a ha ?_) fun s hs => ?_
    · rintro rfl
      exact hbody.built.not_mem_params hmem (hlocal.mem_boolArgs_iff.1 hu).1
    -- the condition of the check is true in the state, as it is under `ρ`
    have hcond : ∀ cond ∈ catalogue.condition? p v, p.read s.store cond = some (.bool true) := by
      intro cond hcond
      obtain ⟨g, hg, hholds⟩ := hcheck cond hcond
      obtain ⟨⟨callee', args', hcall', hcondmem⟩, hbool⟩ := mem_operands_of_condition? hcond
      have hsame : T.holds ρ₀ g = T.holds ρ g := by
        cases hconst : p.constant? cond with
        | none =>
          exact hold cond g (kept_of_operand hdisciplined hcompares hbody hb hv hcall' hcondmem
            hbool hconst) hg
        | some z =>
          -- the formula of a constant mentions no atom
          apply hg.holds_eq hT
          intro u a ha hchain
          refine hagree u a ha ?_
          rintro rfl
          exact absurd (constant?_of_reflTransGen hchain (constant?_of_operation? hcall))
            (by simp [hconst])
      rw [hs.read_operand hdisciplined hcompares hbody hb hT hv hcall' hcondmem hbool hg, hsame,
        hholds]
    obtain ⟨hstep, hs'⟩ := hs.nextWith hdisciplined hcompares hbody hb catalogue ρ y hv hcall rfl
      hty hnew hold (by simp [computed?]) hcond
    exact ⟨_, .single hstep, hs'⟩
  rcases h.of_call hcall with ⟨hbool, a, g, hrenewed⟩ | ⟨hbool, rfl⟩
  · -- a truth value: before the call its atom had the value `bit`, and now it has that of `ρ`
    obtain ⟨bit, hbit⟩ := (hrenewed.flow ρ).1 hflow
    refine hgo _ (.bool (ρ a)) hbit (isBool_iff.1 hbool) ?_ ?_
    · intro g' _ hg'
      have hatomic : p.Atomic v := by
        refine ⟨hbool, constant?_of_operation? hcall, ?_⟩
        rintro ⟨op, hop, hcombines⟩
        cases hop.symm.trans hcall
        cases hcombines
      obtain ⟨a', ha', hnode⟩ := hg'.of_atomic hatomic
      cases hrenewed.atom.symm.trans ha'
      rw [(means_of_node_atom hT hnode).holds]
    · intro u a' ha' hne
      refine Function.update_of_ne ?_ _ _
      rintro rfl
      exact hne (hT.valueAtom_inj ha' hrenewed.atom)
  · -- no truth value: nothing changes but that something is returned
    refine hgo ρ ((p.function callee).returnType.constant false) hflow ?_ ?_ fun _ _ _ _ => rfl
    · rw [typeOf_call hcall, Ty.ty_constant]
    · intro g hbool'
      simp [hbool] at hbool'

/-- An operation `op` on truth values or on other values is executed. -/
theorem Transferred.realised_of_isComputation (h : Transferred T p v e e')
    (hv : (p.block b).instructions[k]? = some v) (hop : p.operation? v = some op)
    (hcomputation : op.isComputation = true)
    (hbinds : Binds T p (p.Kept f (fun _ => True) b k) (fun _ => True) e)
    (hreal : ∀ ρ, T.holds ρ e.flow = true → Realised catalogue T p f b k ρ)
    (hρ : T.holds ρ e'.flow = true) : Realised catalogue T p f b (k + 1) ρ := by
  have hbody := hlocal.toHasBody
  have hblock := hbody.mem_blocks_of_reaches hb
  have hmem := List.mem_of_getElem? hv
  have hresult : op.hasResult = true := by
    cases op with
    | not | binary | compare => rfl
    | annotate | branch | call | condBranch | nop | ret => cases hcomputation
  have hcheck : catalogue.condition? p v = none := by
    cases hcond : catalogue.condition? p v with
    | none => rfl
    | some cond =>
      obtain ⟨⟨callee, args, hcall, -⟩, -⟩ := mem_operands_of_condition? hcond
      cases hop.symm.trans hcall
      cases hcomputation
  -- the operands are bound, so the flow condition stays
  have hflow : T.holds ρ e.flow = true := by
    obtain ⟨r, e₁, hresulted, hr⟩ := h.of_isComputation hop hcomputation
    have he₁ := hresulted.eq_of_kept hbinds fun w hw hbool hconst =>
      kept_of_operand hdisciplined hcompares hbody hb hv hop hw hbool hconst
    rcases hr with ⟨g, -, rfl⟩ | ⟨-, rfl⟩
    · exact he₁ ▸ hρ
    · exact he₁ ▸ hρ
  refine (hreal ρ hflow).extend (fun _ _ _ _ => rfl) fun s hs => ?_
  by_cases hcombines : p.combines op = true
  · -- the result has a formula, and the value that the formula says is computed
    have hkept : p.Kept f (fun _ => True) b (k + 1) v := by
      refine ⟨v, trivial, Or.inl ⟨op, hop, hcombines⟩, fun met hmet => ?_, Or.inl rfl⟩
      exact hmet.mem_of_lt (Nat.lt_succ_self k) hv
    obtain ⟨g, hg, -⟩ := (h.binds (hdisciplined.watched hbody) hbody hT hb hv hbinds).kept v hkept
    have hcomputed := hs.computed? hdisciplined hcompares hbody hb hT hv hop hcombines hg
    have hbool := hbody.isBool_of_computed hblock hmem ⟨op, hop, hcombines⟩
    obtain ⟨hstep, hs'⟩ := hs.nextWith hdisciplined hcompares hbody hb catalogue ρ
      (.bool (T.holds ρ g)) hv hop hresult (isBool_iff.1 hbool)
      (fun g' _ hg' => by rw [hg.unique hT hg']) (fun _ _ _ _ => rfl) (by simp [hcomputed])
      (by simp [hcheck])
    exact ⟨_, .single hstep, hs'⟩
  · -- only arithmetic is left, whose result is no truth value
    cases op with
    | binary op lhs rhs =>
      have hlogical : op.isLogical = false := by simpa [combines] using hcombines
      have hty : p.typeOf v = some .u64 := by
        have hfits := hbody.fits hblock hmem hop
        rw [hbody.built.typeOf_binary hop, hfits lhs List.mem_cons_self, hlogical]
        rfl
      obtain ⟨hstep, hs'⟩ := hs.nextWith hdisciplined hcompares hbody hb catalogue ρ (.u64 0) hv hop
        hresult hty (fun g hbool _ => by simp [isBool, hty] at hbool) (fun _ _ _ _ => rfl)
        (by simp [computed?, hlogical]) (by simp [hcheck])
      exact ⟨_, .single hstep, hs'⟩
    | not arg => exact absurd rfl hcombines
    | compare predicate lhs rhs => exact absurd (hcompares.combines hb hmem hop) hcombines
    | annotate | branch | call | condBranch | nop | ret => cases hcomputation

/-- The instruction `v` is executed: if every assignment that satisfies the flow condition before
it is realised there, so is every one that satisfies the flow condition after it. -/
theorem Stepped.realised (hv : (p.block b).instructions[k]? = some v)
    (h : Stepped catalogue.rule T p v e e')
    (hbinds : Binds T p (p.Kept f (fun _ => True) b k) (fun _ => True) e)
    (hreal : ∀ ρ, T.holds ρ e.flow = true → Realised catalogue T p f b k ρ)
    (hρ : T.holds ρ e'.flow = true) : Realised catalogue T p f b (k + 1) ρ := by
  obtain ⟨e₁, htransferred, hrefined⟩ := h
  have hrefined : Refined T p catalogue v e₁ e' := hrefined
  have hbody := hlocal.toHasBody
  obtain ⟨op, hop⟩ := hbody.built.exists_operation (List.mem_of_getElem? hv)
  by_cases hcall : ∃ callee args, op = .call callee args
  · obtain ⟨callee, args, rfl⟩ := hcall
    exact htransferred.realised_of_call hT hdisciplined hcompares hlocal hb hrefined hv hop hbinds
      hreal hρ
  -- nothing else is a check
  have he' : e' = e₁ := by
    cases hrefined with
    | none _ => rfl
    | check hcond _ _ =>
      obtain ⟨⟨callee, args, hcall', -⟩, -⟩ := mem_operands_of_condition? hcond
      exact absurd ⟨callee, args, Option.some.inj (hop.symm.trans hcall')⟩ hcall
  subst he'
  by_cases hcomputation : op.isComputation = true
  · exact htransferred.realised_of_isComputation hT hdisciplined hcompares hlocal hb hv hop
      hcomputation hbinds hreal hρ
  have hquiet : op.isQuiet = true := by
    cases op with
    | annotate | branch | condBranch | nop | ret => rfl
    | not | binary | compare => exact absurd rfl hcomputation
    | call callee args => exact absurd ⟨callee, args, rfl⟩ hcall
  rw [htransferred.eq_of_isQuiet fun op' hop' => Option.some.inj (hop.symm.trans hop') ▸ hquiet]
    at hρ
  exact (hreal ρ hρ).extend (fun _ _ _ _ => rfl) fun s hs =>
    hs.next hdisciplined hcompares hbody hb hv hop hquiet

/-! ### Edges -/

/-- Going to `target`: the parameters take the values that are passed for them.  The assignment
`ρ` after the edge comes from an assignment `ρ₀` before it. -/
theorem Entered.realises {target : Target} (h : Entered T p target e e')
    (hv : (p.block b).instructions[k]? = some v) (hop : p.operation? v = some op)
    (htarget : target ∈ p.successors b) (hargs : ∀ w ∈ target.args, w ∈ op.operands)
    (hret : ∀ value ty, op ≠ .ret value ty)
    (hbinds : Binds T p (p.Kept f (fun _ => True) b (k + 1)) (fun _ => True) e)
    (hlast : k + 1 = (p.block b).instructions.length) (hρ : T.holds ρ e'.flow = true) :
    ∃ ρ₀, T.holds ρ₀ e.flow = true ∧
      (∀ u ∈ p.boolArgs f, ∀ a, T.valueAtom? u = some a → ρ₀ a = ρ a) ∧
      ∀ s, Realises T p f b (k + 1) ρ₀ s →
        Realises T p f target.block 0 ρ (s.goto p target) := by
  have hbody := hlocal.toHasBody
  have hedge : p.Edge b target.block := ⟨target, htarget, rfl⟩
  have hentry : target.block ≠ (p.function f).entry := fun heq => hbody.not_edge_entry (heq ▸ hedge)
  have hfits := hbody.fitsTarget (hbody.mem_blocks_of_reaches hb) htarget
  have htypes : ∀ y ∈ p.passed target, p.typeOf y.1 = p.typeOf y.2 :=
    (map_eq_map_iff_zip.1 hfits.2.symm).2
  have hkeys : (p.passed target).map Prod.fst = (p.block target.block).params :=
    List.map_fst_zip (Nat.le_of_eq (map_eq_map_iff_zip.1 hfits.2.symm).1)
  obtain ⟨params, e₁, hpassed, hbound⟩ := h
  obtain ⟨hflow, hpasses⟩ := hpassed.passes (fun _ _ => trivial) hbinds
    (fun w hw => hw.isBool hbody hb (Nat.le_of_eq hlast))
    (fun y hy hbool => isBool_iff.2 ((htypes y hy).symm.trans (isBool_iff.1 hbool)))
    fun y hy hbool hconst => (kept_of_operand hdisciplined hcompares hbody hb hv hop
      (hargs y.2 (List.of_mem_zip hy).2) hbool hconst).succ
  obtain ⟨ρ₀, hρ₀, hassigned, hagree⟩ := (hbound.flow ρ).1 hρ
  have hmem : ∀ {u}, u ∈ params.map Prod.fst ↔
      p.isBool u = true ∧ u ∈ (p.block target.block).params := by
    intro u
    rw [hpassed.mem_map_fst_iff, hkeys]
  refine ⟨ρ₀, hflow ▸ hρ₀, fun u hu a ha => hagree a fun v hv hva => ?_, fun s hs => ?_⟩
  · -- the arguments are parameters of the entry, which no edge leads to
    have huv : u = v := hT.valueAtom_inj ha hva
    have hparam := (hmem.1 hv).2
    rw [← huv] at hparam
    exact hentry (hbody.built.param_unique hparam (hlocal.mem_boolArgs_iff.1 hu).1)
  have hs' := hs.before_last hlast
  -- a parameter has the value that is passed for it
  have hparam : ∀ w ∈ (p.block target.block).params, ∃ arg, (w, arg) ∈ p.passed target ∧
      p.read (s.goto p target).store w = p.read s.store arg := by
    intro w hw
    rw [← hkeys] at hw
    obtain ⟨⟨_, arg⟩, hpair, rfl⟩ := List.mem_map.1 hw
    have hnodup : ((p.passed target).map Prod.fst).Nodup :=
      hkeys ▸ hbody.built.nodup_params target.block
    exact ⟨arg, hpair, read_assign_of_lookup hbody.built ((lookup_eq_some_iff_mem hnodup).2 hpair)⟩
  have hother : ∀ w ∉ (p.block target.block).params,
      p.read (s.goto p target).store w = p.read s.store w := fun w hw =>
    read_assign_of_notMem (hkeys ▸ hw)
  have hwatched := hdisciplined.watched hbody
  refine ⟨rfl, (Nat.zero_min _).symm, fun w g hkept hg => ?_, fun w ty hdom hty => ?_⟩
  · -- a parameter takes the value of its argument, and all else stays
    rcases hwatched.kept_of_cross hbody hb hedge hkept with ⟨hw, hbool⟩ | ⟨hkept', hnot⟩
    · obtain ⟨arg, hpair, hread⟩ := hparam w hw
      obtain ⟨g', hg', hcanonical⟩ := hpasses (w, arg) hpair hbool
      obtain ⟨a, ha, hnode⟩ := hg.of_atomic (hbody.built.atomic_of_param hw hbool)
      have harg : p.isBool arg = true :=
        isBool_iff.2 ((htypes (w, arg) hpair).symm.trans (isBool_iff.1 hbool))
      rw [hread, hs'.read_operand hdisciplined hcompares hbody hb hT hv hop
        (hargs arg (List.of_mem_zip hpair).2) harg hcanonical, (means_of_node_atom hT hnode).holds,
        hassigned w a g' (hmem.2 ⟨hbool, hw⟩) ha hg']
    · have hsame : T.holds ρ₀ g = T.holds ρ g := by
        apply hg.holds_eq hT
        intro u a ha hchain
        refine hagree a fun v hv hva => ?_
        have huv : u = v := hT.valueAtom_inj ha hva
        exact hnot v (hmem.1 hv).2 (huv ▸ hchain)
      rw [hother w fun hw => hnot w hw .refl, hs.values w g (hlast ▸ hkept') hg, hsame]
  · by_cases hw : w ∈ (p.block target.block).params
    · obtain ⟨arg, hpair, hread⟩ := hparam w hw
      rw [hread]
      exact hs'.isSome_read hdisciplined hbody hb hv hop hret (hargs arg (List.of_mem_zip hpair).2)
    · rw [hother w hw]
      exact hs.assigned w ty (hlast ▸ hdom.of_cross hedge hw) hty

/-- The block `b` is left by a conditional branch, to the side `bit` that its condition says. -/
theorem Entered.realised_of_condBranch {cond : ValueId} {whenTrue whenFalse : Target} (bit : Bool)
    (h : Entered T p (if bit then whenTrue else whenFalse) e₁ e')
    (hv : (p.block b).instructions[k]? = some v)
    (hop : p.operation? v = some (.condBranch cond whenTrue whenFalse))
    (hterm : p.terminator? b = some (.condBranch cond whenTrue whenFalse))
    (hlast : k + 1 = (p.block b).instructions.length) (hbool : p.isBool cond = true)
    (hg : Canonical T p cond g)
    (hbinds : Binds T p (p.Kept f (fun _ => True) b (k + 1)) (fun _ => True) e₁)
    (hcond : ∀ ρ, T.holds ρ e₁.flow = true → T.holds ρ e.flow = true ∧ T.holds ρ g = bit)
    (hreal : ∀ ρ, T.holds ρ e.flow = true → Realised catalogue T p f b (k + 1) ρ)
    (hρ : T.holds ρ e'.flow = true) :
    Realised catalogue T p f (if bit then whenTrue else whenFalse).block 0 ρ := by
  have hbody := hlocal.toHasBody
  have htarget : (if bit then whenTrue else whenFalse) ∈ p.successors b := by
    rw [mem_successors_iff]
    refine ⟨_, hterm, ?_⟩
    cases bit <;> simp [Operation.targets]
  have hargs : ∀ w ∈ (if bit then whenTrue else whenFalse).args,
      w ∈ (Operation.condBranch cond whenTrue whenFalse).operands := by
    intro w hw
    cases bit <;> simp_all [Operation.operands]
  obtain ⟨ρ₀, hρ₀, hsame, hgoto⟩ := h.realises hT hdisciplined hcompares hlocal hb hv hop htarget
    hargs (by simp) hbinds hlast hρ
  obtain ⟨hflow, hholds⟩ := hcond ρ₀ hρ₀
  refine (hreal ρ₀ hflow).extend hsame fun s hs => ⟨_, .single ?_, hgoto s hs⟩
  have hs' := hs.before_last hlast
  refine .condBranch (hs'.operation? hv hop) ?_ fun w hw =>
    hs'.isSome_read hdisciplined hbody hb hv hop (by simp) (hargs w hw)
  rw [hs'.read_operand hdisciplined hcompares hbody hb hT hv hop List.mem_cons_self hbool hg,
    hholds]

/-- The block `b` is left. -/
theorem Crosses.realised (h : Crosses T p b e c e')
    (hbinds : Binds T p (p.Kept f (fun _ => True) b (p.block b).instructions.length)
      (fun _ => True) e)
    (hreal : ∀ ρ, T.holds ρ e.flow = true →
      Realised catalogue T p f b (p.block b).instructions.length ρ)
    (hρ : T.holds ρ e'.flow = true) : Realised catalogue T p f c 0 ρ := by
  have hbody := hlocal.toHasBody
  have hblock := hbody.mem_blocks_of_reaches hb
  obtain ⟨before, v, op, hlist, hop, -, hterm, -⟩ := hbody.exists_last hblock
  have hv : (p.block b).instructions[before.length]? = some v := by simp [hlist]
  have hlast : before.length + 1 = (p.block b).instructions.length := by simp [hlist]
  have hfits := hbody.fits hblock (List.mem_of_getElem? hv) hop
  rw [← hlast] at hbinds hreal
  cases h with
  | branch hterm' hentered =>
    cases hterm.symm.trans hterm'
    have htarget := mem_successors_iff.2 ⟨_, hterm, List.mem_singleton_self _⟩
    obtain ⟨ρ₀, hρ₀, hargs, hgoto⟩ := hentered.realises hT hdisciplined hcompares hlocal hb hv hop
      htarget (fun w hw => hw) (by simp) hbinds hlast hρ
    refine (hreal ρ₀ hρ₀).extend hargs fun s hs => ⟨_, .single ?_, hgoto s hs⟩
    have hs' := hs.before_last hlast
    exact .branch (hs'.operation? hv hop) fun w hw =>
      hs'.isSome_read hdisciplined hbody hb hv hop (by simp) hw
  | @whenTrue cond whenTrue whenFalse g e₀ e₁ _ hterm' hdecided hassumed hentered =>
    cases hterm.symm.trans hterm'
    obtain ⟨rfl, hg⟩ := hdecided.canonical hdisciplined hcompares hlocal hb hv hop
      List.mem_cons_self hfits.1 hbinds
    exact Entered.realised_of_condBranch hT hdisciplined hcompares hlocal hb true hentered hv hop
      hterm hlast hfits.1 hg (hbinds.congr hassumed.values) (fun ρ => (hassumed.flow ρ).1) hreal hρ
  | @whenFalse cond whenTrue whenFalse g n e₀ e₁ _ hterm' hdecided hnot hassumed hentered =>
    cases hterm.symm.trans hterm'
    obtain ⟨rfl, hg⟩ := hdecided.canonical hdisciplined hcompares hlocal hb hv hop
      List.mem_cons_self hfits.1 hbinds
    refine Entered.realised_of_condBranch hT hdisciplined hcompares hlocal hb false hentered hv hop
      hterm hlast hfits.1 hg (hbinds.congr hassumed.values) (fun ρ hρ => ?_) hreal hρ
    obtain ⟨hflow, hholds⟩ := (hassumed.flow ρ).1 hρ
    rw [hnot.holds, Bool.not_eq_true'] at hholds
    exact ⟨hflow, hholds⟩

end Steps

/-! ### Starts -/

/-- The start of an execution of `f` with the values of the assignment `ρ`. -/
def startState (T : FormulaTable) (p : Program) (f : FunctionId) (ρ : Atom → Bool) : State where
  block := (p.function f).entry
  position := 0
  store v :=
    if v ∈ (p.block (p.function f).entry).params then
      (p.typeOf v).map (Ty.constant ((T.valueAtom? v).any ρ))
    else none

/-- Executions start with any values `ρ` of the boolean arguments. -/
theorem realised_start (hT : T.WellFormed) (hlocal : p.Local f) (ρ : Atom → Bool) :
    Realised catalogue T p f (p.function f).entry 0 ρ := by
  have hstore : ∀ v ∈ (p.block (p.function f).entry).params, ∀ ty, p.typeOf v = some ty →
      (startState T p f ρ).store v = some (ty.constant ((T.valueAtom? v).any ρ)) := by
    intro v hv ty hty
    simp [startState, hv, hty]
  have hbool : ∀ v ∈ p.boolArgs f, ∀ a, T.valueAtom? v = some a →
      (startState T p f ρ).store v = some (.bool (ρ a)) := by
    intro v hv a ha
    obtain ⟨hparam, hbool⟩ := hlocal.mem_boolArgs_iff.1 hv
    rw [hstore v hparam .bool (isBool_iff.1 hbool), ha]
    rfl
  refine ⟨_, _, ⟨rfl, rfl, fun x hx => ?_, fun v hv => ?_⟩, hbool, .refl, ?_⟩
  · have hparam := hlocal.built.arg hlocal.index_lt hx
    obtain ⟨ty, hty⟩ := hlocal.built.exists_typeOf_param hparam
    exact ⟨_, hstore x.2 hparam ty hty, by rw [Ty.ty_constant, hty]⟩
  · refine if_neg fun hparam => ?_
    rw [hlocal.entry] at hparam
    obtain ⟨x, hx, hxv⟩ := List.mem_map.1 hparam
    exact hv x hx hxv
  -- only the arguments dominate the entry
  · refine ⟨rfl, (Nat.zero_min _).symm, fun w g hkept hg => ?_, fun w ty hdom hty => ?_⟩
    · obtain ⟨v, -, hbound, hdom, hw⟩ := hkept
      have hparam := hdom.of_start
      have hnot := hlocal.built.not_computed_of_param hparam
      have hwv : w = v := hw.resolve_right fun hfrom => hnot hfrom.computed
      subst hwv
      have himmediate := hbound.resolve_left hnot
      obtain ⟨a, ha, hnode⟩ := hg.of_atomic himmediate.1
      rw [read_of_not_constant himmediate.1.2.1, (means_of_node_atom hT hnode).holds]
      exact hbool w (hlocal.mem_boolArgs_iff.2 ⟨hparam, himmediate.1.1⟩) a ha
    · rw [read_of_not_constant (hlocal.built.constant?_of_param hdom.of_start),
        hstore w hdom.of_start ty hty, Option.isSome_some]

/-- Flow conditions are realised, wherever an environment is stored. -/
theorem keeps_realised {task : Task} {start : Environment}
    (hlocal : task.program.Local task.function) (hT : T.WellFormed)
    (hdisciplined : task.program.Disciplined task.function)
    (hcompares : task.program.ComparesBools task.function)
    (hopened : Opened T task.program task.function start) :
    task.Keeps catalogue.rule T start fun b k e =>
      Binds T task.program (task.program.Kept task.function (fun _ => True) b k)
        (fun _ => True) e ∧
      ∀ ρ, T.holds ρ e.flow = true → Realised catalogue T task.program task.function b k ρ := by
  have hbinds : task.Keeps catalogue.rule T start _ :=
    keeps_binds hlocal hT (hdisciplined.watched hlocal.toHasBody) hopened
  constructor
  · exact ⟨hbinds.start, fun ρ _ => realised_start hT hlocal ρ⟩
  · intro b k v e e' hb hv hstepped hat
    refine ⟨hbinds.step hb hv hstepped hat.1, fun ρ hρ => ?_⟩
    exact hstepped.realised hT hdisciplined hcompares hlocal hb hv hat.1 hat.2 hρ
  · intro b c e e' hb hcrosses hat
    refine ⟨hbinds.cross hb hcrosses hat.1, fun ρ hρ => ?_⟩
    exact hcrosses.realised hT hdisciplined hcompares hlocal hb hat.1 hat.2 hρ
  · intro c e₁ e₂ e' hc hjoined h₁ h₂
    refine ⟨hbinds.join hc hjoined h₁.1 h₂.1, fun ρ hρ => ?_⟩
    -- formulas are the same on both sides, so one of the flow conditions holds
    have hagree : ∀ v, ¬ Disagree e₁ e₂ v := fun v =>
      h₁.1.not_disagree hT (fun _ => trivial) h₂.1
    rcases (hjoined.flow_iff hagree ρ).1 hρ with hρ | hρ
    · exact h₁.2 ρ hρ
    · exact h₂.2 ρ hρ

/-! ### Annotations -/

/-- An execution that starts with `s₀` gets to the annotation `name`. -/
def State.GetsTo (s₀ : State) (p : Program) (c : Catalogue) (name : String) : Prop :=
  ∃ s, Run p c s₀ s ∧ s.IsAt p name

/-- A state that realises `ρ` at the annotation `name` is there. -/
theorem Realised.exists_starts {name : String} (h : Realised catalogue T p f b k ρ)
    (hv : (p.block b).instructions[k]? = some v) (hop : p.operation? v = some (.annotate name)) :
    ∃ s₀, Starts p f s₀ ∧ StartsWith T p f ρ s₀ ∧ s₀.GetsTo p catalogue name := by
  obtain ⟨s₀, s, hstarts, hwith, hrun, hs⟩ := h
  exact ⟨s₀, hstarts, hwith, s, hrun, hs.operation? hv hop⟩

/-- A boolean argument `u` is bound to its atom. -/
theorem Binds.of_arg (hlocal : p.Local f)
    (h : Binds T p (p.Kept f (fun _ => True) b k) (fun _ => True) e) (hu : u ∈ p.boolArgs f) :
    ∃ a g, T.valueAtom? u = some a ∧ T.node g = .atom a ∧ e.values.get? u = some g := by
  obtain ⟨g, hg, hget⟩ := h.kept u (hlocal.kept_of_arg hu trivial)
  obtain ⟨a, ha, hnode⟩ := hg.of_atomic (hlocal.atomic_of_arg hu)
  exact ⟨a, g, ha, hnode, hget⟩

/-- The flow condition that was noted at the annotation `name` is realised. -/
theorem Analysed.exists_realised {task : Task} {start : Environment} {sweep : Sweep}
    {result : Analysis} {name : String} (ha : Analysed catalogue.rule task T start sweep result)
    (hlocal : task.program.Local task.function) (hT : T.WellFormed)
    (hdisciplined : task.program.Disciplined task.function)
    (hcompares : task.program.ComparesBools task.function) (hb : task.Reached b)
    (hv : (task.program.block b).instructions[k]? = some v)
    (hop : task.program.operation? v = some (.annotate name)) :
    ∃ e, result.points.lookup name = some e ∧
      Binds T task.program (task.program.Kept task.function (fun _ => True) b k)
        (fun _ => True) e ∧
      ∀ ρ, T.holds ρ e.flow = true → Realised catalogue T task.program task.function b k ρ := by
  have hkeeps : task.Keeps catalogue.rule T start _ :=
    keeps_realised hlocal hT hdisciplined hcompares ha.opened
  exact hkeeps.exists_point hlocal.toHasBody hT ha hb hv hop

/-- **Precision.**  Take a program `p` that is accepted, a function `f` with a body, and a model
`m` of checks and a `limit` for which the analysis has a result.  Let every operand be defined
wherever it is used, and let the comparisons that can be reached be for equality and between
truth values.  At every annotation `name` that can be reached an environment has been noted, and
every assignment to the atoms that satisfies its flow condition comes from an execution: one that
starts with the values of the atoms of the boolean arguments and gets to the annotation.

So a point is reported as reachable only if some execution gets there, and an argument is
reported as unknown only if executions get there that start with either value.  This holds for
functions with loops as well as for those without. -/
theorem exists_run_of_flow {text : String} {p : Program} {f : FunctionId} {m : CheckModel}
    {limit : Nat} {t t' : FormulaTable} {events events' : Array Event} {result : Analysis}
    {v : ValueId} {b : BlockId} {k : Nat} {name : String} (hload : Source.load text = .ok p)
    (hf : f ∈ p.bodies) (ht : t.Reachable)
    (hresult : ({ program := p, function := f, model := m.model, visitLimit := limit } :
      Task).analyse events t = ((.ok result, events'), t'))
    (hdisciplined : p.Disciplined f) (hcompares : p.ComparesBools f)
    (hb : p.Reaches (p.function f).entry b) (hv : (p.block b).instructions[k]? = some v)
    (hop : p.operation? v = some (.annotate name)) :
    ∃ e r, result.points.lookup name = some e ∧
      (({ program := p, function := f, model := m.model, visitLimit := limit } :
        Task).reportSteps events t).1.1.annotation? name = some r ∧
      (∀ ρ, (t'.expr e.flow).eval ρ = true → ∃ s₀, Starts p f s₀ ∧
        (∀ u ∈ p.boolArgs f, ∃ a, t'.valueAtom? u = some a ∧ s₀.store u = some (.bool (ρ a))) ∧
        s₀.GetsTo p m.catalogue name) ∧
      (r.reachable = true → ∃ s₀, Starts p f s₀ ∧ s₀.GetsTo p m.catalogue name) ∧
      ∀ (i : Nat) (x : String × ValueId) (fact : ArgumentFact),
        (p.namedBoolArgs f)[i]? = some x → r.arguments[i]? = some fact → fact.truth = .unknown →
          ∀ bit, ∃ s₀, Starts p f s₀ ∧ s₀.store x.2 = some (.bool bit) ∧
            s₀.GetsTo p m.catalogue name := by
  have hlocal := Source.local_of_load hload hf
  obtain ⟨hT, start, s, ha⟩ := exists_analysed (regular_of_hasBody hlocal.toHasBody m limit)
    ht.wellFormed hresult
  obtain ⟨e, he, hbinds, hreal⟩ := ha.exists_realised hlocal hT hdisciplined hcompares hb hv hop
  obtain ⟨r, T', hr, hg, hT', hon⟩ := ha.exists_report hT hresult he
  have hflow : ∀ ρ, T'.holds ρ e.flow = t'.holds ρ e.flow := fun ρ =>
    hg.holds hT hT' (ha.within name e he).flow
  -- an execution for every assignment
  have hruns : ∀ ρ, t'.holds ρ e.flow = true → ∃ s₀, Starts p f s₀ ∧
      (∀ u ∈ p.boolArgs f, ∃ a, t'.valueAtom? u = some a ∧ s₀.store u = some (.bool (ρ a))) ∧
      s₀.GetsTo p m.catalogue name := by
    intro ρ hρ
    obtain ⟨s₀, hstarts, hwith, hgets⟩ := (hreal ρ hρ).exists_starts hv hop
    refine ⟨s₀, hstarts, fun u hu => ?_, hgets⟩
    obtain ⟨a, -, ha, -, -⟩ := hbinds.of_arg hlocal hu
    exact ⟨a, ha, hwith u hu a ha⟩
  refine ⟨e, r, he, hr, hruns, fun hreachable => ?_, ?_⟩
  · obtain ⟨ρ, hρ⟩ := hon.reachable.1 hreachable
    obtain ⟨s₀, hstarts, -, hgets⟩ := hruns ρ (hflow ρ ▸ hρ)
    exact ⟨s₀, hstarts, hgets⟩
  · intro i x fact hx hfact hunknown bit
    have hreachable : r.reachable = true := by
      by_contra hnot
      rw [hon.nothing (by simpa using hnot)] at hfact
      cases hfact
    obtain ⟨-, g, hformula, hknows⟩ : FactOn T' e x fact := by
      obtain ⟨hi, rfl⟩ := List.getElem?_eq_some_iff.1 hx
      obtain ⟨hi', rfl⟩ := List.getElem?_eq_some_iff.1 hfact
      exact (List.forall₂_iff_get.1 (hon.arguments hreachable)).2 i hi hi'
    rw [hunknown] at hknows
    have hu : x.2 ∈ p.boolArgs f := p.mem_boolArgs_of_named (List.mem_of_getElem? hx)
    -- the formula of the argument is its atom, and the flow condition allows either value
    obtain ⟨a, g', hatom, hnode, hget⟩ := hbinds.of_arg hlocal hu
    have hgg' : g = g' := by
      rcases hformula with hget' | ⟨hnone, -⟩
      · exact Option.some.inj (hget'.symm.trans hget)
      · cases hget.symm.trans hnone
    subst hgg'
    have hvalue : ∀ ρ, T'.holds ρ g = ρ a := fun ρ =>
      (means_of_node_atom hT' (hg.node_atom hnode)).holds ρ
    have hbit : ∃ ρ, t'.holds ρ e.flow = true ∧ ρ a = bit := by
      simp only [Environment.Knows, hflow, hvalue] at hknows
      cases bit with
      | false => exact hknows.1
      | true => exact hknows.2
    obtain ⟨ρ, hρ, hρa⟩ := hbit
    obtain ⟨s₀, hstarts, hargs, hgets⟩ := hruns ρ hρ
    obtain ⟨a', ha', hstore⟩ := hargs x.2 hu
    cases hatom.symm.trans ha'
    exact ⟨s₀, hstarts, hρa ▸ hstore, hgets⟩

/-! ### An argument that is unknown -/

/-- A function with an annotation that is passed if one of its arguments is true. -/
def choosingText : String :=
  "module \x7b fn f(a: bool, b: bool) -> bool \x7b
    entry(): c = or a, b cbr c, left(), done()
    left(): annotate here br done()
    done(): ret bool a
  \x7d \x7d"

/-- The program of `choosingText`. -/
def choosingProgram : Program where
  modules := #[[⟨0⟩]]
  functions := #[
    { path := ["f"], args := [("a", ⟨0⟩), ("b", ⟨1⟩)], returnType := .bool, entry := ⟨0⟩,
      others := [⟨1⟩, ⟨2⟩], isDeclaration := false }]
  blocks := #[
    { label := "entry", function := ⟨0⟩, params := [⟨0⟩, ⟨1⟩], instructions := [⟨2⟩, ⟨3⟩] },
    { label := "left", function := ⟨0⟩, instructions := [⟨4⟩, ⟨5⟩], preds := [⟨0⟩] },
    { label := "done", function := ⟨0⟩, instructions := [⟨6⟩], preds := [⟨0⟩, ⟨1⟩] }]
  values := #[.parameter ⟨0⟩ 0 .bool, .parameter ⟨0⟩ 1 .bool,
    .instruction ⟨0⟩ (.binary .or ⟨0⟩ ⟨1⟩),
    .instruction ⟨0⟩ (.condBranch ⟨2⟩ ⟨⟨1⟩, []⟩ ⟨⟨2⟩, []⟩), .instruction ⟨1⟩ (.annotate "here"),
    .instruction ⟨1⟩ (.branch ⟨⟨2⟩, []⟩), .instruction ⟨2⟩ (.ret ⟨0⟩ .bool)]

/-- The analysis of the function of `choosingText`, with the checks that are known by default. -/
def choosingTask : Task where
  program := choosingProgram
  function := ⟨0⟩
  model := CheckModel.model {}

theorem load_choosingText : Source.load choosingText = .ok choosingProgram := by decide +kernel

theorem disciplined_choosing : choosingProgram.Disciplined ⟨0⟩ := by
  intro b hb k v op hv hop w hw _ met hwalk
  have hblocks : b ∈ [(⟨0⟩ : BlockId), ⟨1⟩, ⟨2⟩] := hb
  simp only [List.mem_cons, List.not_mem_nil, or_false] at hblocks
  rcases hblocks with rfl | rfl | rfl
  · have hk : k < 2 := (List.getElem?_eq_some_iff.1 hv).1
    obtain rfl | rfl : k = 0 ∨ k = 1 := by omega
    · cases hv
      cases hop
      exact hwalk.mem_of_entry hw
    · cases hv
      cases hop
      have hw : w = ⟨2⟩ := by simpa [Operation.operands] using hw
      exact hw ▸ hwalk.mem_of_lt Nat.zero_lt_one rfl
  · have hk : k < 2 := (List.getElem?_eq_some_iff.1 hv).1
    obtain rfl | rfl : k = 0 ∨ k = 1 := by omega
    · cases hv
      cases hop
      cases hw
    · cases hv
      cases hop
      cases hw
  · have hk : k < 1 := (List.getElem?_eq_some_iff.1 hv).1
    obtain rfl : k = 0 := by omega
    cases hv
    cases hop
    have hw : w = ⟨0⟩ := by simpa [Operation.operands] using hw
    exact hw ▸ hwalk.mem_of_entry (by decide)

/-- There are no comparisons in `choosingProgram`. -/
theorem comparesBools_choosing : choosingProgram.ComparesBools ⟨0⟩ := by
  have hnone : ∀ b ∈ [(⟨0⟩ : BlockId), ⟨1⟩, ⟨2⟩], ∀ v ∈ (choosingProgram.block b).instructions,
      (choosingProgram.operation? v).all (fun op => !(op matches .compare ..)) = true := by decide
  have hbody := Source.hasBody_of_load load_choosingText (f := ⟨0⟩) (by decide)
  intro b hb v hv predicate lhs rhs hop
  have hnot := hnone b (hbody.mem_blocks_of_reaches hb) v hv
  rw [hop] at hnot
  cases hnot

/-- The annotation can be reached, and the first argument is unknown there.  So executions get
there that start with either value of it. -/
theorem choosing_realised :
    (choosingTask.reportSteps #[] {}).1.1.annotation? "here" =
      some ⟨"here", true, [⟨"a", .unknown⟩, ⟨"b", .unknown⟩]⟩ ∧
    ∀ bit, ∃ s₀, Starts choosingProgram ⟨0⟩ s₀ ∧ s₀.store ⟨0⟩ = some (.bool bit) ∧
      s₀.GetsTo choosingProgram .standard "here" := by
  have hok : (choosingTask.analyse #[] {}).1.1.isOk = true := by decide +kernel
  have hreport : (choosingTask.reportSteps #[] {}).1.1.annotation? "here" =
      some ⟨"here", true, [⟨"a", .unknown⟩, ⟨"b", .unknown⟩]⟩ := by decide +kernel
  have hreaches : choosingProgram.Reaches ⟨0⟩ ⟨1⟩ :=
    .single ⟨⟨⟨1⟩, []⟩, by decide, rfl⟩
  refine ⟨hreport, ?_⟩
  rcases hresult : choosingTask.analyse #[] {} with ⟨⟨r, events⟩, t'⟩
  rw [hresult] at hok
  cases r with
  | error => cases hok
  | ok result =>
    obtain ⟨e, r, -, hr, -, -, hunknown⟩ := exists_run_of_flow (m := {}) (k := 0)
      load_choosingText (by decide) .empty hresult disciplined_choosing comparesBools_choosing
      hreaches rfl rfl
    have htask : ({ program := choosingProgram, function := ⟨0⟩, model := CheckModel.model {} } :
      Task) = choosingTask := rfl
    rw [htask, hreport, Option.some.injEq] at hr
    subst hr
    exact hunknown 0 ("a", ⟨0⟩) ⟨"a", .unknown⟩ (by decide) rfl rfl

end FlowFacts
