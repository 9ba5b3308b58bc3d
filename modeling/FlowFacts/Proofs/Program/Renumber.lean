import FlowFacts.Proofs.Program.Growth
import FlowFacts.Proofs.Program.Typing
import Mathlib.Data.Set.Function

/-!
# Programs with other numbers

Two programs are the same up to the numbers of their values if one is obtained from the other by
renaming values everywhere.  A constant that no instruction uses belongs to no block, so it may be
missing from one of them.  Everything that is known about a program through its values is then the
same: their types, the rules of the instructions, and with these the check of the whole program.

## Main definitions

* `Operation.renumber`, `Value.renumber`, `Block.renumber`, `Function.renumber` — other numbers for
  the values.
* `Program.Needed` — the values without the constants that no instruction uses.
* `Program.Renumbers` — the same program up to the numbers of its values.

## Main results

* `Renumbers.typeOf_eq` — values have the types they had.
* `Renumbers.valid` — a program passes the check if it did with other numbers.
-/

namespace FlowFacts

variable {σ τ : ValueId → ValueId}

/-! ### Operations -/

/-- The `target`, to which other values are passed. -/
def Target.renumber (σ : ValueId → ValueId) (target : Target) : Target :=
  { target with args := target.args.map σ }

/-- The operation on the values that `σ` gives for its operands. -/
def Operation.renumber (σ : ValueId → ValueId) : Operation → Operation
  | .annotate name => .annotate name
  | .not arg => .not (σ arg)
  | .binary op lhs rhs => .binary op (σ lhs) (σ rhs)
  | .branch target => .branch (target.renumber σ)
  | .call callee args => .call callee (args.map σ)
  | .compare predicate lhs rhs => .compare predicate (σ lhs) (σ rhs)
  | .condBranch cond whenTrue whenFalse =>
      .condBranch (σ cond) (whenTrue.renumber σ) (whenFalse.renumber σ)
  | .nop => .nop
  | .ret value ty => .ret (σ value) ty

namespace Operation

@[simp] theorem operands_renumber (op : Operation) :
    (op.renumber σ).operands = op.operands.map σ := by
  cases op <;> simp [renumber, operands, Target.renumber]

@[simp] theorem isTerminator_renumber (op : Operation) :
    (op.renumber σ).isTerminator = op.isTerminator := by
  cases op <;> rfl

@[simp] theorem point?_renumber (op : Operation) : (op.renumber σ).point? = op.point? := by
  cases op <;> rfl

@[simp] theorem hasResult_renumber (op : Operation) : (op.renumber σ).hasResult = op.hasResult := by
  cases op <;> rfl

@[simp] theorem targets_renumber (op : Operation) :
    (op.renumber σ).targets = op.targets.map (Target.renumber σ) := by
  cases op <;> rfl

/-- Only the numbers of the operands of `op` matter. -/
theorem renumber_eq_iff {op : Operation} :
    op.renumber σ = op.renumber τ ↔ ∀ u ∈ op.operands, σ u = τ u := by
  constructor
  · intro h
    have hoperands := congrArg operands h
    rw [operands_renumber, operands_renumber] at hoperands
    exact List.map_inj_left.1 hoperands
  · intro h
    have hmap : ∀ vs : List ValueId, (∀ u ∈ vs, u ∈ op.operands) → vs.map σ = vs.map τ :=
      fun vs hvs => List.map_congr_left fun u hu => h u (hvs u hu)
    cases op with
    | annotate | nop => rfl
    | not arg => exact congrArg Operation.not (h arg (by simp [operands]))
    | binary op lhs rhs | compare predicate lhs rhs =>
      simp [renumber, h lhs (by simp [operands]), h rhs (by simp [operands])]
    | branch target => simp [renumber, Target.renumber, hmap target.args (by simp [operands])]
    | call callee args => simp [renumber, hmap args (by simp [operands])]
    | condBranch cond whenTrue whenFalse =>
      simp [renumber, Target.renumber, h cond (by simp [operands]),
        hmap whenTrue.args (fun u hu => by simp [operands, hu]),
        hmap whenFalse.args (fun u hu => by simp [operands, hu])]
    | ret value ty => simp [renumber, h value (by simp [operands])]

end Operation

/-! ### Values, blocks, functions -/

/-- The value that refers to other values. -/
def Value.renumber (σ : ValueId → ValueId) : Value → Value
  | .instruction b op => .instruction b (op.renumber σ)
  | x => x

/-- The block `x` with other values. -/
def Block.renumber (σ : ValueId → ValueId) (x : Block) : Block :=
  { x with params := x.params.map σ, instructions := x.instructions.map σ }

/-- The function `f` with other arguments. -/
def Function.renumber (σ : ValueId → ValueId) (f : Function) : Function :=
  { f with args := f.args.map fun x => (x.1, σ x.2) }

namespace Program

/-- A value `v` that a program cannot do without: any but a constant that no instruction uses. -/
def Needed (p : Program) (v : ValueId) : Prop :=
  v.index < p.values.size ∧
    ((p.constant? v).isSome → ∃ w op, p.operation? w = some op ∧ v ∈ op.operands)

/-- The program `q` is `p` up to the numbers of the values that are needed. -/
structure Renumbers (p q : Program) (σ : ValueId → ValueId) : Prop where
  /-- The modules have the same functions in order. -/
  modules : q.modules = p.modules
  /-- There are no other functions. -/
  functions : q.functions.size = p.functions.size
  /-- Functions have the same paths, argument names, result types and blocks, and the same of them
  are declarations. -/
  function : ∀ f, q.function f = (p.function f).renumber σ
  /-- There are no other blocks. -/
  blocks : q.blocks.size = p.blocks.size
  /-- Blocks have the same labels, and parameters and instructions that correspond. -/
  block : ∀ b, (q.block b).parts = (p.block b).parts.renumber σ
  /-- They are branched to from the same blocks. -/
  preds : ∀ b c, b ∈ (q.block c).preds ↔ b ∈ (p.block c).preds
  /-- The values that are needed correspond to the values of the second program. -/
  bijection : Set.BijOn σ {v | p.Needed v} {v | v.index < q.values.size}
  /-- A parameter has the same type, a constant is the same, and an instruction has the same
  operation on the values that correspond to its operands. -/
  value : ∀ v, p.Needed v → q.value (σ v) = (p.value v).renumber σ

variable {p q : Program} {b : BlockId} {v w : ValueId} {op : Operation}

/-! ### Values that are needed -/

theorem needed_of_operation? (hv : v.index < p.values.size) (hop : p.operation? v = some op) :
    p.Needed v := by
  refine ⟨hv, fun hconst => ?_⟩
  rw [constant?_of_operation? hop] at hconst
  cases hconst

/-- The operands `w` of an instruction are needed. -/
theorem Built.needed_operand (h : p.Built) (hv : v.index < p.values.size)
    (hop : p.operation? v = some op) (hw : w ∈ op.operands) : p.Needed w := by
  obtain ⟨b, hb⟩ := operation?_eq_some_iff.1 hop
  exact ⟨Nat.lt_trans (h.operand_lt hb hw) hv, fun _ => ⟨v, op, hop, hw⟩⟩

theorem Built.needed_instruction (h : p.Built) (hv : v ∈ (p.block b).instructions) :
    p.Needed v := by
  obtain ⟨hlt, op, hop⟩ := h.instruction hv
  exact needed_of_operation? hlt (operation?_eq_some_iff.2 ⟨b, hop⟩)

theorem Built.needed_param (h : p.Built) (hv : v ∈ (p.block b).params) : p.Needed v := by
  obtain ⟨i, hi⟩ := List.getElem?_of_mem hv
  refine ⟨(h.parameter hi).1, fun hconst => ?_⟩
  rw [h.constant?_of_param hv] at hconst
  cases hconst

/-! ### The same program -/

namespace Renumbers

variable (h : p.Renumbers q σ)

include h

theorem params_eq (b : BlockId) : (q.block b).params = (p.block b).params.map σ := by
  have hparams := congrArg Block.params (h.block b)
  exact hparams

theorem instructions_eq (b : BlockId) :
    (q.block b).instructions = (p.block b).instructions.map σ := by
  have hinstructions := congrArg Block.instructions (h.block b)
  exact hinstructions

theorem operation?_eq (hv : p.Needed v) :
    q.operation? (σ v) = (p.operation? v).map (Operation.renumber σ) := by
  rw [operation?, operation?, h.value v hv]
  cases p.value v <;> rfl

theorem isTerminator_eq (hv : p.Needed v) : q.isTerminator (σ v) = p.isTerminator v := by
  rw [isTerminator, isTerminator, h.operation?_eq hv]
  cases p.operation? v <;> simp

theorem signature_eq (f : FunctionId) : q.signature f = p.signature f := by
  rw [signature, signature, h.function]
  simp [Function.renumber, Function.arity]

/-- A value `v` has the type it had. -/
theorem typeOf_eq (hp : p.Built) (hq : q.Built) (hv : p.Needed v) :
    q.typeOf (σ v) = p.typeOf v := by
  have hop' : ∀ {v op}, p.Needed v → p.operation? v = some op →
      q.operation? (σ v) = some (op.renumber σ) := fun hv hop => by
    rw [h.operation?_eq hv, hop, Option.map_some]
  -- the search for the type goes through the same operands
  have hfinds := hp.ordered.findsType_typeOf v
  generalize p.typeOf v = ty at hfinds ⊢
  induction hfinds with
  | parameter hvalue => exact typeOf_of_parameter ((h.value _ hv).trans (congrArg _ hvalue))
  | constant hvalue => exact typeOf_of_constant ((h.value _ hv).trans (congrArg _ hvalue))
  | not hop _ ih =>
    rw [hq.typeOf_not (hop' hv hop)]
    exact ih (hp.needed_operand hv.1 hop List.mem_cons_self)
  | binary hop _ ih =>
    rw [hq.typeOf_binary (hop' hv hop)]
    exact ih (hp.needed_operand hv.1 hop List.mem_cons_self)
  | call hop =>
    rw [typeOf_call (hop' hv hop), h.function]
    rfl
  | compare hop => exact typeOf_compare (hop' hv hop)
  | other hop hresult => exact typeOf_eq_none (hop' hv hop) (by rwa [Operation.hasResult_renumber])

/-! ### The check -/

section

variable (hp : p.Built) (hq : q.Built) {f : Function}

include hp hq

theorem map_typeOf {vs : List ValueId} (hvs : ∀ v ∈ vs, p.Needed v) :
    (vs.map σ).map q.typeOf = vs.map p.typeOf := by
  rw [List.map_map]
  exact List.map_congr_left fun v hv => h.typeOf_eq hp hq (hvs v hv)

/-- A branch to `target` is as fit as it was. -/
theorem fitsTarget {target : Target} (hargs : ∀ v ∈ target.args, p.Needed v)
    (hfits : p.FitsTarget f target) : q.FitsTarget (f.renumber σ) (target.renumber σ) := by
  refine ⟨hfits.1, ?_⟩
  rw [Target.renumber, h.params_eq, h.map_typeOf hp hq hargs,
    h.map_typeOf hp hq fun v hv => hp.needed_param hv]
  exact hfits.2

/-- An instruction with the operation `op` follows its rule as it did. -/
theorem fits (hoperands : ∀ v ∈ op.operands, p.Needed v) (hfits : p.Fits f op) :
    q.Fits (f.renumber σ) (op.renumber σ) := by
  have htype : ∀ v ∈ op.operands, q.typeOf (σ v) = p.typeOf v :=
    fun v hv => h.typeOf_eq hp hq (hoperands v hv)
  cases op with
  | annotate | nop => trivial
  | not arg =>
    rw [Operation.renumber, Fits, htype arg (by simp [Operation.operands])]
    exact hfits
  | binary op lhs rhs =>
    have hlhs := htype lhs (by simp [Operation.operands])
    have hrhs := htype rhs (by simp [Operation.operands])
    simp only [Operation.renumber, Fits, List.forall_mem_cons, hlhs, hrhs]
    exact ⟨hfits lhs (by simp), hfits rhs (by simp), by simp⟩
  | branch target => exact h.fitsTarget hp hq hoperands hfits
  | call callee args =>
    -- the arguments of the callee are parameters, so they are needed
    have hcallee : (q.function callee).args.map (fun x => q.typeOf x.2) =
        (p.function callee).args.map fun x => p.typeOf x.2 := by
      rw [h.function, Function.renumber, List.map_map]
      refine List.map_congr_left fun x hx => ?_
      have hlt : callee.index < p.functions.size := by
        by_contra hge
        rw [Program.function, Array.getElem?_eq_none (Nat.not_lt.1 hge)] at hx
        cases hx
      exact h.typeOf_eq hp hq (hp.needed_param (hp.arg hlt hx))
    have hpassed : (args.map σ).map q.typeOf = args.map p.typeOf := h.map_typeOf hp hq hoperands
    rw [Operation.renumber, Fits, hcallee, hpassed]
    exact hfits
  | compare predicate lhs rhs =>
    rw [Operation.renumber, Fits, htype lhs (by simp [Operation.operands]),
      htype rhs (by simp [Operation.operands])]
    exact hfits
  | condBranch cond whenTrue whenFalse =>
    obtain ⟨hcond, htrue, hfalse⟩ := hfits
    refine ⟨?_, h.fitsTarget hp hq (fun v hv => hoperands v ?_) htrue,
      h.fitsTarget hp hq (fun v hv => hoperands v ?_) hfalse⟩
    · rw [isBool, htype cond (by simp [Operation.operands])]
      exact hcond
    · simp [Operation.operands, hv]
    · simp [Operation.operands, hv]
  | ret value ty =>
    rw [Operation.renumber, Fits, htype value (by simp [Operation.operands])]
    exact hfits

theorem validBlock (hb : p.ValidBlock f b) : q.ValidBlock (f.renumber σ) b := by
  refine ⟨fun i v hv => (hq.parameter hv).2, fun v hv op hop => ?_, ?_⟩
  · rw [h.instructions_eq] at hv
    obtain ⟨w, hw, rfl⟩ := List.mem_map.1 hv
    obtain ⟨hlt, -⟩ := hp.instruction hw
    rw [h.operation?_eq (hp.needed_instruction hw), Option.mem_def, Option.map_eq_some_iff] at hop
    obtain ⟨op', hop', rfl⟩ := hop
    exact h.fits hp hq (fun u hu => hp.needed_operand hlt hop' hu) (hb.fits w hw op' hop')
  · obtain ⟨before, last, hlist, hlast, hbefore⟩ := hb.ends
    have hneeded : ∀ v ∈ before ++ [last], p.Needed v :=
      fun v hv => hp.needed_instruction (b := b) (hlist ▸ hv)
    refine ⟨before.map σ, σ last, by rw [h.instructions_eq, hlist]; simp, ?_, fun v hv => ?_⟩
    · rw [h.isTerminator_eq (hneeded last (by simp)), hlast]
    · obtain ⟨w, hw, rfl⟩ := List.mem_map.1 hv
      rw [h.isTerminator_eq (hneeded w (List.mem_append_left _ hw)), hbefore w hw]

omit hq in
theorem points_instructionsOf (bs : List BlockId) :
    q.points (q.instructionsOf bs) = p.points (p.instructionsOf bs) := by
  have hinstructions : q.instructionsOf bs = (p.instructionsOf bs).map σ := by
    rw [instructionsOf, instructionsOf, List.map_flatMap]
    exact List.flatMap_congr fun b _ => h.instructions_eq b
  rw [points, points, hinstructions, List.filterMap_map]
  refine List.filterMap_congr fun v hv => ?_
  obtain ⟨b, -, hv⟩ := List.mem_flatMap.1 hv
  rw [Function.comp_apply, h.operation?_eq (hp.needed_instruction hv)]
  cases p.operation? v <;> simp

theorem validFunction {f : FunctionId} (hf : p.ValidFunction (p.function f)) :
    q.ValidFunction (q.function f) := by
  have hblocks : (q.function f).blocks = (p.function f).blocks := by rw [h.function]; rfl
  have hdecl : (q.function f).isDeclaration = (p.function f).isDeclaration := by
    rw [h.function]; rfl
  unfold ValidFunction at hf ⊢
  rw [hdecl]
  split
  · next hdecl =>
    rw [if_pos hdecl] at hf
    intro b hb
    rw [h.instructions_eq, hf b (hblocks ▸ hb), List.map_nil]
  · next hdecl =>
    rw [if_neg hdecl] at hf
    refine ⟨?_, fun b hb => ?_, ?_⟩
    · refine List.eq_nil_iff_forall_not_mem.2 fun b hb => ?_
      have hentry : (q.function f).entry = (p.function f).entry := by rw [h.function]; rfl
      rw [hentry, h.preds, hf.entry] at hb
      cases hb
    · rw [h.function]
      exact h.validBlock hp hq (hf.blocks b (hblocks ▸ hb))
    · rw [hblocks, h.points_instructionsOf hp]
      exact hf.points

/-- The program `q` passes the check as `p` did. -/
theorem valid (hvalid : p.Valid) : q.Valid := by
  refine ⟨fun fs hfs f hf => ?_, fun fs hfs => ?_⟩
  · rw [h.modules] at hfs
    exact h.validFunction hp hq (hvalid.functions fs hfs f hf)
  · rw [h.modules] at hfs
    rw [List.map_congr_left fun f _ => h.signature_eq f]
    exact hvalid.signatures fs hfs

end

end Renumbers

end Program

end FlowFacts
