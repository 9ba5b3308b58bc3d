import FlowFacts.Proofs.Flow.Mirror
import Mathlib.Data.List.Nodup

/-!
# What a catalogue does to an analysis

A call is a check only if a catalogue has a variant with the whole qualified name of the
callee and its number of arguments, and only if the variant says that one of the arguments is
the condition and this argument is there and a truth value.  Everything else that a model of
checks consists of shows in the events at most: whether it is strict, the kinds and the order
of the variants, and variants that no call of the function has.

## Main definitions

* `Catalogue.effect?` — the position of the condition of a call.
* `Program.Calls` — the calls of a function.

## Main results

* `Catalogue.effect?_eq_some_iff` — which variants of a catalogue count.
* `analyse_eq_of_effect?_eq` — the effects of a catalogue on the calls of a function decide the
  result of its analysis.
-/

namespace FlowFacts

variable {p : Program} {f callee : FunctionId} {v : ValueId} {args : List ValueId}

/-! ### Effects -/

/-- The position of the condition of a call of `callee` with `args`, if the catalogue `c` has a
variant for the callee whose condition is there and a truth value. -/
def Catalogue.effect? (c : Catalogue) (p : Program) (callee : FunctionId) (args : List ValueId) :
    Option Nat :=
  (c.lookupCallee? p callee).bind fun variant =>
    variant.condition.filter fun i => args[i]?.any p.isBool

/-- No callee belongs to two variants of `c`, so the order of the variants does not matter. -/
theorem Catalogue.lookup?_eq_some_iff {c : Catalogue} {path : List String} {arity : Nat}
    {variant : CheckVariant} : c.lookup? path arity = some variant ↔
      variant ∈ c.variants ∧ variant.path = path ∧ variant.arity = arity := by
  constructor
  · intro h
    have hkey := List.find?_some h
    rw [Bool.and_eq_true, beq_iff_eq, beq_iff_eq] at hkey
    exact ⟨List.mem_of_find?_eq_some h, hkey.2, hkey.1⟩
  · rintro ⟨hmem, rfl, rfl⟩
    cases hfound : c.lookup? variant.path variant.arity with
    | none => simpa using List.find?_eq_none.1 hfound variant hmem
    | some found =>
      have hkey := List.find?_some hfound
      rw [Bool.and_eq_true, beq_iff_eq, beq_iff_eq] at hkey
      have heq : found.key = variant.key := Prod.ext hkey.2 hkey.1
      rw [List.inj_on_of_nodup_map c.distinct (List.mem_of_find?_eq_some hfound) hmem heq]

/-- The variants of `c` that count are those with the name and the number of arguments of
`callee`, and with a condition that is there and a truth value. -/
theorem Catalogue.effect?_eq_some_iff {c : Catalogue} {i : Nat} :
    c.effect? p callee args = some i ↔ ∃ variant ∈ c.variants,
      variant.path = (p.function callee).path ∧ variant.arity = (p.function callee).arity ∧
      variant.condition = some i ∧ ∃ cond, args[i]? = some cond ∧ p.isBool cond = true := by
  simp only [Catalogue.effect?, Catalogue.lookupCallee?, Option.bind_eq_some_iff,
    Catalogue.lookup?_eq_some_iff, Option.filter_eq_some_iff, Option.any_eq_true, and_assoc]

/-- The function `f` calls `callee` with `args`, in a block that can be reached. -/
def Program.Calls (p : Program) (f callee : FunctionId) (args : List ValueId) : Prop :=
  ∃ b ∈ p.reversePostOrder f, ∃ v ∈ (p.block b).instructions,
    p.operation? v = some (.call callee args)

/-! ### What a model does -/

/-- What is known after a call with an `effect`, if `e` was known before it. -/
def afterEffect (p : Program) (args : List ValueId) (e : Environment) (effect : Option Nat) :
    FormulaM Environment :=
  match effect.bind fun i => args[i]? with
  | some cond => do
      let (f, e) ← conditionFormula p e cond
      e.assume f
  | none => return e

/-- The condition of a `variant` is found among `args`, or the call has no effect. -/
theorem locate_cases (p : Program) (variant : CheckVariant) (args : List ValueId) :
    (∃ i cond, (variant.condition.filter fun i => args[i]?.any p.isBool) = some i ∧
      args[i]? = some cond ∧ variant.locate p args = .condition cond) ∨
    (variant.condition.filter fun i => args[i]?.any p.isBool) = none ∧
      (variant.locate p args = .noCondition ∨
        ∃ reason, variant.locate p args = .malformed reason) := by
  unfold CheckVariant.locate
  cases variant.condition with
  | none => exact Or.inr ⟨rfl, Or.inl rfl⟩
  | some i =>
    rw [Option.filter_some]
    dsimp only
    cases hcond : args[i]? with
    | none => exact Or.inr ⟨rfl, Or.inr ⟨_, rfl⟩⟩
    | some cond =>
      rw [Option.any_some]
      dsimp only
      split
      · exact Or.inl ⟨i, cond, rfl, hcond, rfl⟩
      · exact Or.inr ⟨rfl, Or.inr ⟨_, rfl⟩⟩

theorem does_afterCheck (m : CheckModel) (p : Program) (v : ValueId) (variant : CheckVariant)
    (args : List ValueId) (e : Environment) : Does (m.afterCheck p v variant args e)
      (afterEffect p args e (variant.condition.filter fun i => args[i]?.any p.isBool)) := by
  unfold CheckModel.afterCheck
  rcases locate_cases p variant args with ⟨i, cond, heffect, hcond, hlocate⟩ | ⟨heffect, hlocate⟩
  · rw [heffect, hlocate, afterEffect, Option.bind_some, hcond]
    exact (does_lift _).bind fun r => (does_lift _).report _
  · rw [heffect]
    rcases hlocate with hlocate | ⟨reason, hlocate⟩
    · rw [hlocate]
      exact (does_lift (pure e)).report _
    · rw [hlocate]
      exact (does_lift (pure e)).report _

/-- What is known after the instruction `v`, going by its effect. -/
def CheckModel.known (m : CheckModel) (p : Program) (v : ValueId) (e : Environment) :
    FormulaM Environment :=
  match p.operation? v with
  | some (.call callee args) => afterEffect p args e (m.catalogue.effect? p callee args)
  | _ => return e

theorem does_refine (m : CheckModel) (p : Program) (v : ValueId) (e : Environment) :
    Does (m.model.refine p v e) (m.known p v e) := by
  unfold CheckModel.model CheckModel.known
  dsimp only
  cases p.operation? v with
  | none => exact does_lift (pure e)
  | some op =>
    cases op with
    | call callee args =>
      unfold Catalogue.effect?
      dsimp only
      cases m.catalogue.lookupCallee? p callee with
      | none => exact does_lift (pure e)
      | some variant => exact does_afterCheck m p v variant args e
    | _ => exact does_lift (pure e)

/-! ### The same effects -/

/-- The result of the analysis of `task`, and the formulas in the end. -/
def Task.outcome (task : Task) (events : Array Event) (t : FormulaTable) :
    Except AnalysisError Analysis × FormulaTable :=
  ((task.analyse events t).1.1, (task.analyse events t).2)

/-- Two models `m` and `m'` that add the same after each instruction of `f` have analyses that
mirror each other. -/
theorem mirrors_of_does {m m' : Model} {limit : Nat}
    (h : ∀ b ∈ p.reversePostOrder f, ∀ v ∈ (p.block b).instructions, ∀ e, ∃ y,
      Does (m.refine p v e) y ∧ Does (m'.refine p v e) y) :
    (m.task p f limit).Mirrors 0 id (m'.task p f limit) where
  injective := Function.injective_id
  name := rfl
  declaration := rfl
  args := (List.map_id _).symm
  isBool_arg _ _ := rfl
  visitLimit := rfl
  order := (List.map_id _).symm
  label _ _ := rfl
  preds _ _ _ _ := Iff.rfl
  instructions _ _ := (List.map_id _).symm
  annotation _ _ _ _ _ := Iff.rfl
  step b hb v hv e := by
    -- one function `y` of what is known says what both models add
    choose y hy using h b hb v hv
    rw [Environment.shift_zero]
    have hstep : ∀ m : Model, (∀ e, Does (m.refine p v e) (y e)) →
        Does ((m.task p f limit).step e v) (transfer p v e >>= y) :=
      fun m hm => ((does_lift _).bind hm).report _
    exact (hstep m fun e => (hy e).1).tracks (hstep m' fun e => (hy e).2) (follows_refl _)
  outgoing b hb e := by
    have hid : (List.map fun x : BlockId × Environment => (id x.1, x.2.shift 0)) = id := by
      simp
    rw [hid, Environment.shift_zero]
    exact follows_refl _

theorem outcome_eq_of_does {m m' : Model}
    (h : ∀ b ∈ p.reversePostOrder f, ∀ v ∈ (p.block b).instructions, ∀ e, ∃ y,
      Does (m.refine p v e) y ∧ Does (m'.refine p v e) y)
    (limit : Nat) (events events' : Array Event) (t : FormulaTable) :
    (m.task p f limit).outcome events t = (m'.task p f limit).outcome events' t := by
  obtain ⟨hresult, htable⟩ := (mirrors_of_does h).tracks_analyse events events' t
  -- the numbers of values and blocks are the same on both sides
  have hid : Except.map (Analysis.shift 0) = (id : Except AnalysisError Analysis → _) := by
    funext r
    cases r <;> simp [Except.map]
  rw [FormulaTable.shift_zero, hid] at hresult
  rw [FormulaTable.shift_zero, FormulaTable.shift_zero] at htable
  exact Prod.ext hresult.symm htable.symm

/-- The effects of a catalogue on the calls of `f` decide the result of its analysis and the
formulas that are made.  If there are none, the result is that of the model that knows nothing. -/
theorem analyse_eq_of_effect?_eq (p : Program) (f : FunctionId) (limit : Nat)
    (events events' : Array Event) (t : FormulaTable) :
    (∀ m m' : CheckModel,
      (∀ callee args, p.Calls f callee args →
        m.catalogue.effect? p callee args = m'.catalogue.effect? p callee args) →
      (m.model.task p f limit).outcome events t = (m'.model.task p f limit).outcome events' t) ∧
    (∀ m : CheckModel,
      (∀ callee args, p.Calls f callee args → m.catalogue.effect? p callee args = none) →
      (m.model.task p f limit).outcome events t =
        (Model.trivial.task p f limit).outcome events' t) ∧
    ∀ (c : Catalogue) callee args i, c.effect? p callee args = some i ↔ ∃ variant ∈ c.variants,
      variant.path = (p.function callee).path ∧ variant.arity = (p.function callee).arity ∧
      variant.condition = some i ∧ ∃ cond, args[i]? = some cond ∧ p.isBool cond = true := by
  refine ⟨fun m m' h => ?_, fun m h => ?_, fun c callee args i => c.effect?_eq_some_iff⟩
  · refine outcome_eq_of_does (fun b hb v hv e => ?_) limit events events' t
    -- only calls that can be reached are looked at, and these have the same effects
    have hknown : m'.known p v e = m.known p v e := by
      unfold CheckModel.known
      split
      · rename_i callee args hop
        rw [h callee args ⟨b, hb, v, hv, hop⟩]
      · rfl
    exact ⟨m.known p v e, does_refine m p v e, hknown ▸ does_refine m' p v e⟩
  · refine outcome_eq_of_does (fun b hb v hv e => ?_) limit events events' t
    have hknown : m.known p v e = pure e := by
      unfold CheckModel.known
      split
      · rename_i callee args hop
        rw [h callee args ⟨b, hb, v, hv, hop⟩]
        rfl
      · rfl
    exact ⟨pure e, hknown ▸ does_refine m p v e, does_lift (pure e)⟩

/-! ### Calls that look alike -/

/-- A function that calls `k` with one argument, the `k` of another scope, and `k` with two
arguments. -/
def alikeProgram : Program where
  modules := #[[⟨0⟩, ⟨1⟩, ⟨2⟩, ⟨3⟩]]
  functions := #[
    { path := ["k"], args := [("x", ⟨0⟩)], returnType := .unit, entry := ⟨0⟩,
      isDeclaration := true },
    { path := ["m", "k"], args := [("x", ⟨1⟩)], returnType := .unit, entry := ⟨1⟩,
      isDeclaration := true },
    { path := ["k"], args := [("x", ⟨2⟩), ("y", ⟨3⟩)], returnType := .unit, entry := ⟨2⟩,
      isDeclaration := true },
    { path := ["f"], args := [("a", ⟨4⟩), ("b", ⟨5⟩)], returnType := .bool, entry := ⟨3⟩,
      isDeclaration := false }]
  blocks := #[
    { label := "entry", function := ⟨0⟩, params := [⟨0⟩] },
    { label := "entry", function := ⟨1⟩, params := [⟨1⟩] },
    { label := "entry", function := ⟨2⟩, params := [⟨2⟩, ⟨3⟩] },
    { label := "entry", function := ⟨3⟩, params := [⟨4⟩, ⟨5⟩],
      instructions := [⟨6⟩, ⟨7⟩, ⟨8⟩, ⟨9⟩, ⟨10⟩] }]
  values := #[.parameter ⟨0⟩ 0 .bool, .parameter ⟨1⟩ 0 .bool, .parameter ⟨2⟩ 0 .bool,
    .parameter ⟨2⟩ 1 .bool, .parameter ⟨3⟩ 0 .bool, .parameter ⟨3⟩ 1 .bool,
    .instruction ⟨3⟩ (.call ⟨0⟩ [⟨4⟩]), .instruction ⟨3⟩ (.call ⟨1⟩ [⟨5⟩]),
    .instruction ⟨3⟩ (.call ⟨2⟩ [⟨4⟩, ⟨5⟩]), .instruction ⟨3⟩ (.annotate "here"),
    .instruction ⟨3⟩ (.ret ⟨4⟩ .bool)]

/-- The only check is `k` with one argument. -/
def alikeModel : CheckModel where
  catalogue := ⟨[⟨.debugCheck, ["k"], 1, some 0⟩], by decide⟩

/-- The same check under another kind, after one that no call is, one without a condition and
one whose condition is out of range. -/
def alikeStrictModel : CheckModel where
  catalogue := ⟨[⟨.check, ["n", "k"], 1, some 0⟩, ⟨.systemFailure, ["k"], 2, none⟩,
    ⟨.check, ["m", "k"], 1, some 3⟩, ⟨.check, ["k"], 1, some 0⟩], by decide⟩
  strict := true

theorem calls_alikeProgram (h : alikeProgram.Calls ⟨3⟩ callee args) :
    callee = ⟨0⟩ ∧ args = [⟨4⟩] ∨ callee = ⟨1⟩ ∧ args = [⟨5⟩] ∨
      callee = ⟨2⟩ ∧ args = [⟨4⟩, ⟨5⟩] := by
  obtain ⟨b, hb, v, hv, hop⟩ := h
  have horder : alikeProgram.reversePostOrder ⟨3⟩ = [⟨3⟩] := by decide
  cases List.mem_singleton.1 (horder ▸ hb)
  have hcases : v = ⟨6⟩ ∨ v = ⟨7⟩ ∨ v = ⟨8⟩ ∨ v = ⟨9⟩ ∨ v = ⟨10⟩ := by
    simpa [alikeProgram, Program.block] using hv
  rcases hcases with rfl | rfl | rfl | rfl | rfl <;> cases hop <;> simp

/-- Two models that have the same effects lead to the same result, which is not that of the
model that knows nothing; the standard catalogue has no effect. -/
theorem alike_outcome :
    ((∀ callee args, alikeProgram.Calls ⟨3⟩ callee args →
        alikeModel.catalogue.effect? alikeProgram callee args =
          alikeStrictModel.catalogue.effect? alikeProgram callee args) ∧
      (alikeModel.model.task alikeProgram ⟨3⟩ 64).outcome #[] {} =
        (alikeStrictModel.model.task alikeProgram ⟨3⟩ 64).outcome #[] {}) ∧
    ((∀ callee args, alikeProgram.Calls ⟨3⟩ callee args →
        Catalogue.standard.effect? alikeProgram callee args = none) ∧
      ((CheckModel.model {}).task alikeProgram ⟨3⟩ 64).outcome #[] {} =
        (Model.trivial.task alikeProgram ⟨3⟩ 64).outcome #[] {}) ∧
    (alikeModel.model.task alikeProgram ⟨3⟩ 64).outcome #[] {} ≠
      (Model.trivial.task alikeProgram ⟨3⟩ 64).outcome #[] {} := by
  have hsame : ∀ callee args, alikeProgram.Calls ⟨3⟩ callee args →
      alikeModel.catalogue.effect? alikeProgram callee args =
        alikeStrictModel.catalogue.effect? alikeProgram callee args := by
    intro callee args h
    rcases calls_alikeProgram h with ⟨rfl, rfl⟩ | ⟨rfl, rfl⟩ | ⟨rfl, rfl⟩ <;> decide
  have hnone : ∀ callee args, alikeProgram.Calls ⟨3⟩ callee args →
      Catalogue.standard.effect? alikeProgram callee args = none := by
    intro callee args h
    rcases calls_alikeProgram h with ⟨rfl, rfl⟩ | ⟨rfl, rfl⟩ | ⟨rfl, rfl⟩ <;> decide
  obtain ⟨heq, htrivial, -⟩ := analyse_eq_of_effect?_eq alikeProgram ⟨3⟩ 64 #[] #[] {}
  exact ⟨⟨hsame, heq alikeModel alikeStrictModel hsame⟩, ⟨hnone, htrivial {} hnone⟩,
    by decide +kernel⟩

end FlowFacts
