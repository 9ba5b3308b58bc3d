import FlowFacts.Proofs.Source.Structure

/-!
# Which values are used

A line may be given a name whether it has a result or not, so a name may stand for an instruction
that only marks a point, does nothing or ends a block.  Such an instruction has no type, and the
rules of all instructions but one refuse it as an operand.  The exception is the return: it is
written with the type of the function, and its operand is compared with that type only if it has
one.  So a loaded program uses values with types everywhere, and returns a value of the type of the
function everywhere, unless a return is of an instruction without a result.

## Main definitions

* `Program.NoResult` — an instruction without a result.
* `Program.UsesTyped` — an instruction uses values with types.

## Main results

* `Loaded.typeOf_eq_none_iff` — the values without a type are those instructions.
* `usesTyped_iff_of_load` — which instructions of a loaded program use values with types.
-/

namespace FlowFacts

open Source

namespace Program

variable {p : Program} {f : FunctionId} {b : BlockId} {v w : ValueId} {op : Operation}

/-- The instruction `v` does nothing, marks a point, or ends a block. -/
def NoResult (p : Program) (v : ValueId) : Prop :=
  ∃ op, p.operation? v = some op ∧
    (op = .nop ∨ (∃ name, op = .annotate name) ∨ op.isTerminator = true)

/-- The instruction `op` of `f` uses only values that have a type, and what it returns has the
type of the function. -/
structure UsesTyped (p : Program) (f : Function) (op : Operation) : Prop where
  /-- The operands have a type. -/
  operand : ∀ w ∈ op.operands, ∃ ty, p.FindsType w (some ty)
  /-- They are not instructions without a result. -/
  result : ∀ w ∈ op.operands, ¬ p.NoResult w
  /-- A return is of the type of the function. -/
  returned : ∀ value ty, op = .ret value ty → p.FindsType value (some f.returnType)

theorem noResult_iff : p.NoResult v ↔ ∃ op, p.operation? v = some op ∧ op.hasResult = false := by
  refine exists_congr fun op => and_congr_right fun _ => ?_
  cases op <;> simp [Operation.hasResult, Operation.isTerminator]

/-! ### Values without a type -/

/-- An instruction `v` stands in its block. -/
theorem Loaded.mem_instructions (h : p.Loaded) (hv : p.value v = .instruction b op) :
    v ∈ (p.block b).instructions := by
  have hlt : v.index < p.values.size := by
    refine Nat.lt_of_not_le fun hle => ?_
    rw [value, Array.getElem?_eq_none hle] at hv
    cases hv
  obtain ⟨f, first, -, hheld⟩ := h.exists_held hlt
  rw [Held, hv] at hheld
  exact hheld.2.1

/-- An instruction `v` with a result has a type, since its operands fit. -/
theorem Loaded.exists_type_of_hasResult (h : p.Loaded) (hop : p.operation? v = some op)
    (hresult : op.hasResult = true) : ∃ ty, p.typeOf v = some ty := by
  obtain ⟨b, hb⟩ := operation?_eq_some_iff.1 hop
  obtain ⟨f, hbody, hblock⟩ := h.exists_hasBody (h.mem_instructions hb)
  have hfits := hbody.fits hblock (h.mem_instructions hb) hop
  cases op with
  | not arg => exact ⟨_, (h.built.typeOf_not hop).trans hfits⟩
  | binary op lhs rhs => exact ⟨_, (h.built.typeOf_binary hop).trans (hfits lhs List.mem_cons_self)⟩
  | call callee args => exact ⟨_, typeOf_call hop⟩
  | compare predicate lhs rhs => exact ⟨_, typeOf_compare hop⟩
  | annotate | branch | condBranch | nop | ret => cases hresult

/-- The values `v` without a type are the instructions without a result. -/
theorem Loaded.typeOf_eq_none_iff (h : p.Loaded) : p.typeOf v = none ↔ p.NoResult v := by
  rw [noResult_iff]
  constructor
  · intro hnone
    cases hvalue : p.value v with
    | parameter b i ty => cases (typeOf_of_parameter hvalue).symm.trans hnone
    | constant x => cases (typeOf_of_constant hvalue).symm.trans hnone
    | instruction b op =>
      have hop := operation?_eq_some_iff.2 ⟨b, hvalue⟩
      refine ⟨op, hop, Bool.eq_false_iff.2 fun hresult => ?_⟩
      obtain ⟨ty, hty⟩ := h.exists_type_of_hasResult hop hresult
      cases hty.symm.trans hnone
  · rintro ⟨op, hop, hresult⟩
    exact typeOf_eq_none hop hresult

/-! ### Operands -/

/-- An instruction `op` that follows its rule uses values with types, unless it returns an
instruction without a result. -/
theorem Loaded.usesTyped_iff (h : p.Loaded) {f : Function} (hfits : p.Fits f op) :
    p.UsesTyped f op ↔ ∀ value ty, op = .ret value ty → ¬ p.NoResult value := by
  have hresult : ∀ {w}, (∃ ty, p.typeOf w = some ty) → ¬ p.NoResult w := by
    rintro w ⟨ty, hty⟩ hw
    cases hty.symm.trans (h.typeOf_eq_none_iff.2 hw)
  constructor
  · rintro hused value ty rfl
    exact hused.result value (List.mem_singleton_self _)
  · intro hret
    by_cases hop : ∃ value ty, op = .ret value ty
    · -- the operand of the return has a type, and so that of the function
      obtain ⟨value, ty, rfl⟩ := hop
      obtain ⟨ty', hty'⟩ := Option.ne_none_iff_exists'.1
        (mt h.typeOf_eq_none_iff.1 (hret value ty rfl))
      have hfound : p.FindsType value (some f.returnType) := by
        rw [h.built.ordered.findsType_iff, hfits.1, hty', hfits.2 ty' hty']
      refine ⟨fun w hw => ?_, fun w hw => ?_, fun value' ty'' heq => ?_⟩
      · cases List.mem_singleton.1 hw
        exact ⟨_, hfound⟩
      · cases List.mem_singleton.1 hw
        exact hret value ty rfl
      · cases heq
        exact hfound
    · -- the rules of all others ask for the types of operands
      have hother : ∀ value ty, op ≠ .ret value ty := fun value ty heq => hop ⟨value, ty, heq⟩
      have htyped := h.built.exists_typeOf_of_fits hfits hother
      refine ⟨fun w hw => ?_, fun w hw => hresult (htyped w hw),
        fun value ty heq => absurd heq (hother value ty)⟩
      obtain ⟨ty, hty⟩ := htyped w hw
      exact ⟨ty, h.built.ordered.findsType_iff.2 hty⟩

end Program

/-- Every instruction of a loaded program uses values that have types, and returns what has the
type of the function, except for a return of an instruction without a result.  Even this is written
with the type of the function. -/
theorem usesTyped_iff_of_load {text : String} {p : Program} (hload : Source.load text = .ok p)
    {f : FunctionId} (hf : f.index < p.functions.size) {b : BlockId}
    (hb : b ∈ (p.function f).blocks) {v : ValueId} (hv : v ∈ (p.block b).instructions)
    {op : Operation} (hop : p.operation? v = some op) :
    (p.UsesTyped (p.function f) op ↔ ∀ value ty, op = .ret value ty → ¬ p.NoResult value) ∧
      ∀ value ty, op = .ret value ty → ty = (p.function f).returnType := by
  have h := loaded_of_load hload
  have hfits := (h.hasBody hf hb hv).fits hb hv hop
  refine ⟨h.usesTyped_iff hfits, ?_⟩
  rintro value ty rfl
  exact hfits.1.symm

/-- One function returns what does nothing as a number, the other a number. -/
def idleText : String :=
  "module \x7b
    fn f() -> u64 \x7b entry(): x = nop ret u64 x \x7d
    fn g(a: u64) -> u64 \x7b entry(): nop x = add a, a ret u64 x \x7d
  \x7d"

/-- The text can be loaded.  The return of the first function uses a value without a type, and that
of the second one of the right type. -/
theorem idle_return_untyped : ∃ p, Source.load idleText = .ok p ∧
    ¬ p.UsesTyped (p.function ⟨0⟩) (.ret ⟨0⟩ .u64) ∧
    p.UsesTyped (p.function ⟨1⟩) (.ret ⟨4⟩ .u64) := by
  obtain ⟨p, hload, hp⟩ : ∃ p, Source.load idleText = .ok p ∧ decide (p.functions.size = 2 ∧
      (p.function ⟨0⟩).blocks = [⟨0⟩] ∧ (p.function ⟨1⟩).blocks = [⟨1⟩] ∧
      (p.block ⟨0⟩).instructions = [⟨0⟩, ⟨1⟩] ∧ (p.block ⟨1⟩).instructions = [⟨3⟩, ⟨4⟩, ⟨5⟩] ∧
      p.operation? ⟨0⟩ = some .nop ∧ p.operation? ⟨1⟩ = some (.ret ⟨0⟩ .u64) ∧
      p.operation? ⟨4⟩ = some (.binary .add ⟨2⟩ ⟨2⟩) ∧
      p.operation? ⟨5⟩ = some (.ret ⟨4⟩ .u64)) = true :=
    Source.exists_load_of_map (by decide +kernel)
  obtain ⟨hsize, hblocks, hblocks', hlines, hlines', hnop, hret, hadd, hret'⟩ :=
    of_decide_eq_true hp
  refine ⟨p, hload, fun hused => ?_, ?_⟩
  · have hiff := (usesTyped_iff_of_load hload (f := ⟨0⟩) (b := ⟨0⟩) (v := ⟨1⟩) (by simp [hsize])
      (by simp [hblocks]) (by simp [hlines]) hret).1
    exact hiff.1 hused _ _ rfl ⟨.nop, hnop, .inl rfl⟩
  · refine (usesTyped_iff_of_load hload (f := ⟨1⟩) (b := ⟨1⟩) (v := ⟨5⟩) (by simp [hsize])
      (by simp [hblocks']) (by simp [hlines']) hret').1.2 ?_
    rintro value ty ⟨⟩ ⟨op, hop, hnone⟩
    cases hadd.symm.trans hop
    simp [Operation.isTerminator] at hnone

end FlowFacts
