import FlowFacts.Proofs.Program.Growth
import FlowFacts.Proofs.Program.Typing
import Mathlib.Data.List.Forall2
import Mathlib.Logic.Relation

/-!
# Well-formed programs

The rules that programs have to follow, one by one and without the order in which they are looked
at.  A type is what the search for it ends with (`FindsType`), so a rule that asks for a type fails
for a value that has none, and the rule for returns, which asks for none, does not.

A program may be put together in any order and with whatever exists already: branches may go to
blocks of other functions, a block may be called a predecessor of any other, instructions may
stand behind a terminator, and neither a value has to be in a block nor a block in a function
(`Builds`).  However this is done, the check passes exactly the well-formed programs.

## Main definitions

* `Program.Builds`, `Program.Composed` — the operations of the builder, and where they lead.
* `Program.Obeys` — the rules of the instructions.
* `Program.WellFormed` — the rules of a program.

## Main results

* `Composed.ordered` — operands exist before the instructions that use them.
* `Ordered.obeys_iff_fits` — the rules of the instructions are those that are checked.
* `validate_iff_wellFormed` — the check passes exactly the well-formed programs.
-/

namespace FlowFacts.Program

variable {p q : Program} {f : Function} {b : BlockId} {op : Operation}

/-! ### Putting programs together -/

/-- What `op` refers to is in `p`. -/
structure Supplies (p : Program) (op : Operation) : Prop where
  /-- The operands. -/
  operand : ∀ w ∈ op.operands, w.index < p.values.size
  /-- The targets. -/
  target : ∀ target ∈ op.targets, target.block.index < p.blocks.size
  /-- The callee. -/
  callee : ∀ callee args, op = .call callee args → callee.index < p.functions.size

/-- What a value refers to is in `p`. -/
def SuppliesValue (p : Program) : Value → Prop
  | .parameter b _ _ => b.index < p.blocks.size
  | .constant _ => True
  | .instruction b op => b.index < p.blocks.size ∧ p.Supplies op

/-- One operation of the builder, with things that exist. -/
inductive Builds : Program → Program → Prop
  /-- A module. -/
  | addModule (p : Program) : Builds p (addModule p).2
  /-- A function of a module, with its entry. -/
  | addFunction {p : Program} (m : ModuleId) (path : List String) (args : List (String × Ty))
      (returnType : Ty) (isDeclaration : Bool) (hm : m.index < p.modules.size) :
      Builds p (addFunction m path args returnType isDeclaration p).2
  /-- A block of a function. -/
  | addBlock {p : Program} (f : FunctionId) (hint : Option String)
      (hf : f.index < p.functions.size) : Builds p (addBlock f hint p).2
  /-- A block that its function does not list. -/
  | looseBlock {p : Program} (f : FunctionId) (label : String)
      (hf : f.index < p.functions.size) :
      Builds p { p with blocks := p.blocks.push { label, function := f } }
  /-- A label for later use. -/
  | uniqueLabel {p : Program} (f : FunctionId) (hint : Option String)
      (hf : f.index < p.functions.size) : Builds p (uniqueLabel f hint p).2
  /-- A parameter of a block. -/
  | addParameter {p : Program} (b : BlockId) (ty : Ty) (hb : b.index < p.blocks.size) :
      Builds p (addParameter b ty p).2
  /-- A predecessor of a block, whether it branches there or not. -/
  | addPred {p : Program} (b source : BlockId) (hb : b.index < p.blocks.size)
      (hsource : source.index < p.blocks.size) : Builds p (addPred b source p).2
  /-- An instruction at the end of a block. -/
  | append {p : Program} (b : BlockId) (op : Operation) (hb : b.index < p.blocks.size)
      (hop : p.Supplies op) : Builds p (append b op p).2
  /-- A value, such as a constant, that is put into no block. -/
  | addValue {p : Program} (x : Value) (hx : p.SuppliesValue x) : Builds p (addValue x p).2

/-- A program `p` that operations of the builder lead to. -/
def Composed (p : Program) : Prop := Relation.ReflTransGen Builds {} p

/-- An instruction `v` of a program to which the values `new` were added was there, or is one of
them. -/
theorem instruction_of_append {new : List Value} {v : ValueId}
    (hvalues : q.values.toList = p.values.toList ++ new) (hv : q.value v = .instruction b op) :
    p.value v = .instruction b op ∨ p.values.size ≤ v.index ∧ .instruction b op ∈ new := by
  rw [value_eq_getElem?, hvalues] at hv
  by_cases hlt : v.index < p.values.toList.length
  · rw [List.getElem?_append_left hlt, ← value_eq_getElem?] at hv
    exact Or.inl hv
  · have hle := Nat.not_lt.1 hlt
    rw [List.getElem?_append_right hle] at hv
    cases hget : new[v.index - p.values.toList.length]? with
    | none =>
      rw [hget] at hv
      cases hv
    | some x =>
      rw [hget, Option.getD_some] at hv
      rw [Array.length_toList] at hle
      exact Or.inr ⟨hle, hv ▸ List.mem_of_getElem? hget⟩

/-- Operands stay ordered if instructions are added with operands that exist. -/
theorem Ordered.of_values (h : p.Ordered) {new : List Value}
    (hvalues : q.values.toList = p.values.toList ++ new)
    (hnew : ∀ b op, .instruction b op ∈ new → ∀ w ∈ op.operands, w.index < p.values.size) :
    q.Ordered where
  operand_lt {v b op w} hv hw := by
    rcases instruction_of_append hvalues hv with hv | ⟨hle, hmem⟩
    · exact h.operand_lt hv hw
    · -- a value that was added comes behind all operands
      exact Nat.lt_of_lt_of_le (hnew b op hmem w hw) hle

theorem Ordered.of_values_eq (h : p.Ordered) (hvalues : q.values = p.values) : q.Ordered :=
  have hnil : q.values.toList = p.values.toList ++ [] := by rw [hvalues, List.append_nil]
  h.of_values hnil fun _ _ hmem => nomatch hmem

/-- No operation of the builder uses an operand that is yet to come. -/
theorem Builds.ordered (h : Builds p q) (hp : p.Ordered) : q.Ordered := by
  cases h with
  | addModule => exact hp.of_values_eq rfl
  | addFunction m path args returnType isDeclaration =>
    refine hp.of_values (newFunction_addFunction p m path args returnType isDeclaration).2.values ?_
    exact fun b op hmem => absurd hmem not_mem_paramValues
  | addBlock f hint | looseBlock f label | uniqueLabel f hint => exact hp.of_values_eq rfl
  | addParameter b ty =>
    refine hp.of_values (added_addParameter p b ty).values fun _ _ hmem => ?_
    cases List.mem_singleton.1 hmem
  | addPred b source => exact hp.of_values_eq rfl
  | append b op hb hop =>
    refine hp.of_values (added_append p b op).2.values fun _ _ hmem => ?_
    cases List.mem_singleton.1 hmem
    exact hop.operand
  | addValue x hx =>
    refine hp.of_values (added_addValue p x).values fun _ _ hmem => ?_
    cases List.mem_singleton.1 hmem
    exact hx.2.operand

theorem Composed.ordered (h : p.Composed) : p.Ordered := by
  induction h with
  | refl => exact built_empty.ordered
  | tail _ hstep ih => exact hstep.ordered ih

/-! ### The rules -/

/-- The values `v` and `w` have the same type, if any. -/
def SameType (p : Program) (v w : ValueId) : Prop := ∃ r, p.FindsType v r ∧ p.FindsType w r

/-- A branch of `f` to `target` goes to one of its blocks and passes one value of the right type
for each parameter. -/
structure Enters (p : Program) (f : Function) (target : Target) : Prop where
  /-- The block is one of the function. -/
  block : target.block ∈ f.blocks
  /-- The values fit the parameters. -/
  args : List.Forall₂ p.SameType target.args (p.block target.block).params

/-- The rules of the instructions of `f`. -/
inductive Obeys (p : Program) (f : Function) : Operation → Prop
  /-- A point may be named anywhere. -/
  | annotate (name : String) : Obeys p f (.annotate name)
  /-- A negation is of a truth value. -/
  | not {arg : ValueId} : p.FindsType arg (some .bool) → Obeys p f (.not arg)
  /-- Logical operations are on truth values. -/
  | logical {op : BinaryOp} {lhs rhs : ValueId} : op = .and ∨ op = .or ∨ op = .xor →
      p.FindsType lhs (some .bool) → p.FindsType rhs (some .bool) → Obeys p f (.binary op lhs rhs)
  /-- Arithmetic is on words. -/
  | arithmetic {op : BinaryOp} {lhs rhs : ValueId} : op = .add ∨ op = .sub ∨ op = .mul →
      p.FindsType lhs (some .u64) → p.FindsType rhs (some .u64) → Obeys p f (.binary op lhs rhs)
  /-- A jump stays in the function. -/
  | branch {target : Target} : p.Enters f target → Obeys p f (.branch target)
  /-- A call passes one value of the right type for each argument. -/
  | call {callee : FunctionId} {args : List ValueId} :
      List.Forall₂ p.SameType args ((p.function callee).args.map Prod.snd) →
      Obeys p f (.call callee args)
  /-- Values of one type are compared, and only words are ordered. -/
  | compare {predicate : Comparison} {lhs rhs : ValueId} {ty : Ty} :
      p.FindsType lhs (some ty) → p.FindsType rhs (some ty) →
      (predicate = .lt ∨ predicate = .gt → ty = .u64) → Obeys p f (.compare predicate lhs rhs)
  /-- A jump on a condition is on a truth value, and stays in the function. -/
  | condBranch {cond : ValueId} {whenTrue whenFalse : Target} : p.FindsType cond (some .bool) →
      p.Enters f whenTrue → p.Enters f whenFalse → Obeys p f (.condBranch cond whenTrue whenFalse)
  /-- Nothing may be done anywhere. -/
  | nop : Obeys p f .nop
  /-- A return is written with the type of the function, and what it returns has no other type. -/
  | ret {value : ValueId} {ty : Ty} : f.returnType = ty →
      (∀ ty', p.FindsType value (some ty') → ty' = ty) → Obeys p f (.ret value ty)

/-- The rules of the body of `f`. -/
structure WellFormedBody (p : Program) (f : Function) : Prop where
  /-- The entry has no predecessors. -/
  entry : (p.block f.entry).preds = []
  /-- The points of all blocks have different names. -/
  points : (p.points (p.instructionsOf f.blocks)).Nodup
  /-- The parameters of a block know the block and their places. -/
  params : ∀ b ∈ f.blocks, ∀ i v, (p.block b).params[i]? = some v →
    ∃ ty, p.value v = .parameter b i ty
  /-- A block has a last instruction, and this is its only terminator. -/
  ends : ∀ b ∈ f.blocks, p.EndsOnce (p.block b).instructions
  /-- The instructions of a block follow their rules. -/
  obeys : ∀ b ∈ f.blocks, ∀ v ∈ (p.block b).instructions, ∀ op, p.operation? v = some op →
    p.Obeys f op

/-- The rules of a program `p`. -/
structure WellFormed (p : Program) : Prop where
  /-- No two functions of a module have the same path and number of arguments. -/
  signatures : ∀ m, ((p.functionsOf m).map p.signature).Nodup
  /-- Declarations have no instructions. -/
  declarations : ∀ m, ∀ f ∈ p.functionsOf m, (p.function f).isDeclaration = true →
    ∀ b ∈ (p.function f).blocks, (p.block b).instructions = []
  /-- Other functions have bodies that follow the rules. -/
  bodies : ∀ m, ∀ f ∈ p.functionsOf m, (p.function f).isDeclaration = false →
    p.WellFormedBody (p.function f)

/-! ### What is checked -/

section

variable (h : p.Ordered)

include h

theorem Ordered.sameType_iff {v w : ValueId} : p.SameType v w ↔ p.typeOf v = p.typeOf w := by
  simp only [SameType, h.findsType_iff, exists_eq_left', eq_comm (a := p.typeOf w)]

/-- Values `vs` fit others, `ws`, one by one if the lists of their types are the same. -/
theorem Ordered.forall₂_sameType_iff {vs ws : List ValueId} :
    List.Forall₂ p.SameType vs ws ↔ vs.map p.typeOf = ws.map p.typeOf := by
  rw [map_eq_map_iff_zip, List.forall₂_iff_zip]
  simp only [h.sameType_iff, Prod.forall]

theorem Ordered.enters_iff {target : Target} : p.Enters f target ↔ p.FitsTarget f target := by
  rw [FitsTarget, ← h.forall₂_sameType_iff]
  exact ⟨fun ht => ⟨ht.block, ht.args⟩, fun ht => ⟨ht.1, ht.2⟩⟩

/-- Of a binary operation `op` the check knows whether it is logical. -/
theorem Ordered.obeys_binary_iff {op : BinaryOp} {lhs rhs : ValueId} :
    p.Obeys f (.binary op lhs rhs) ↔ p.Fits f (.binary op lhs rhs) := by
  simp only [Fits, List.forall_mem_cons, List.not_mem_nil, false_imp_iff, implies_true, and_true,
    ← h.findsType_iff]
  constructor
  · intro ho
    cases ho with
    | logical hop hl hr | arithmetic hop hl hr =>
      obtain rfl | rfl | rfl := hop <;> exact ⟨hl, hr⟩
  · rintro ⟨hl, hr⟩
    cases op with
    | and | or | xor => exact .logical (by simp) hl hr
    | add | sub | mul => exact .arithmetic (by simp) hl hr

theorem Ordered.obeys_compare_iff {predicate : Comparison} {lhs rhs : ValueId} :
    p.Obeys f (.compare predicate lhs rhs) ↔ p.Fits f (.compare predicate lhs rhs) := by
  have horder : predicate.isOrder = true ↔ predicate = .lt ∨ predicate = .gt := by
    cases predicate <;> simp [Comparison.isOrder]
  simp only [Fits, horder, ← h.findsType_iff]
  constructor
  · intro ho
    cases ho with
    | compare hl hr hu => exact ⟨_, hl, hr, hu⟩
  · rintro ⟨ty, hl, hr, hu⟩
    exact .compare hl hr hu

theorem Ordered.obeys_call_iff {callee : FunctionId} {args : List ValueId} :
    p.Obeys f (.call callee args) ↔ p.Fits f (.call callee args) := by
  have hmap : ((p.function callee).args.map fun x => p.typeOf x.2) =
      ((p.function callee).args.map Prod.snd).map p.typeOf := by rw [List.map_map]; rfl
  rw [Fits, hmap, ← h.forall₂_sameType_iff]
  constructor
  · intro ho
    cases ho with
    | call hargs => exact hargs
  · exact .call

/-- The rule of an instruction `op` is the one that is checked. -/
theorem Ordered.obeys_iff_fits : p.Obeys f op ↔ p.Fits f op := by
  cases op with
  | annotate name => exact ⟨fun _ => trivial, fun _ => .annotate name⟩
  | nop => exact ⟨fun _ => trivial, fun _ => .nop⟩
  | binary op lhs rhs => exact h.obeys_binary_iff
  | compare predicate lhs rhs => exact h.obeys_compare_iff
  | call callee args => exact h.obeys_call_iff
  | not arg =>
    rw [Fits, ← h.findsType_iff]
    constructor
    · intro ho
      cases ho with
      | not harg => exact harg
    · exact .not
  | branch target =>
    rw [Fits, ← h.enters_iff]
    constructor
    · intro ho
      cases ho with
      | branch ht => exact ht
    · exact .branch
  | condBranch cond whenTrue whenFalse =>
    rw [Fits, isBool, beq_iff_eq, ← h.findsType_iff, ← h.enters_iff, ← h.enters_iff]
    constructor
    · intro ho
      cases ho with
      | condBranch hcond htrue hfalse => exact ⟨hcond, htrue, hfalse⟩
    · rintro ⟨hcond, htrue, hfalse⟩
      exact .condBranch hcond htrue hfalse
  | ret value ty =>
    simp only [Fits, Option.mem_def, ← h.findsType_iff]
    constructor
    · intro ho
      cases ho with
      | ret hty hvalue => exact ⟨hty, hvalue⟩
    · rintro ⟨hty, hvalue⟩
      exact .ret hty hvalue

/-- The rules of the body of `f` are those that are checked, block by block. -/
theorem Ordered.wellFormedBody_iff : p.WellFormedBody f ↔ p.ValidBody f := by
  constructor
  · intro hf
    refine ⟨hf.entry, fun b hb => ⟨hf.params b hb, fun v hv op hop => ?_, hf.ends b hb⟩, hf.points⟩
    exact h.obeys_iff_fits.1 (hf.obeys b hb v hv op hop)
  · intro hf
    refine ⟨hf.entry, hf.points, fun b hb => (hf.blocks b hb).params,
      fun b hb => (hf.blocks b hb).ends, fun b hb v hv op hop => ?_⟩
    exact h.obeys_iff_fits.2 ((hf.blocks b hb).fits v hv op hop)

end

/-- What holds for the functions of each module holds for the lists of `p` one by one. -/
theorem forall_functionsOf_iff {P : List FunctionId → Prop} (hnil : P []) :
    (∀ m, P (p.functionsOf m)) ↔ ∀ fs ∈ p.modules.toList, P fs := by
  constructor
  · intro h fs hfs
    obtain ⟨i, hi⟩ := List.mem_iff_getElem?.1 hfs
    have hm : p.functionsOf ⟨i⟩ = fs := by
      rw [functionsOf, ← Array.getElem?_toList, hi, Option.getD_some]
    exact hm ▸ h ⟨i⟩
  · intro h m
    rw [functionsOf, ← Array.getElem?_toList]
    cases hget : p.modules.toList[m.index]? with
    -- a module that does not exist has no functions
    | none => exact hnil
    | some fs => exact h fs (List.mem_of_getElem? hget)

theorem Ordered.wellFormed_iff (h : p.Ordered) : p.WellFormed ↔ p.Valid := by
  have hsignatures := forall_functionsOf_iff (p := p)
    (P := fun fs => (fs.map p.signature).Nodup) List.nodup_nil
  have hfunctions := forall_functionsOf_iff (p := p)
    (P := fun fs => ∀ f ∈ fs, p.ValidFunction (p.function f)) (by simp)
  constructor
  · intro hp
    refine ⟨hfunctions.1 fun m f hf => ?_, hsignatures.1 hp.signatures⟩
    rw [ValidFunction]
    split
    · next hdeclared => exact hp.declarations m f hf hdeclared
    · next hdefined =>
      exact h.wellFormedBody_iff.1 (hp.bodies m f hf (Bool.eq_false_iff.2 hdefined))
  · intro hp
    refine ⟨hsignatures.2 hp.signatures, fun m f hf hdeclared => ?_, fun m f hf hdefined => ?_⟩
    · have hvalid := hfunctions.2 hp.functions m f hf
      rwa [ValidFunction, if_pos hdeclared] at hvalid
    · have hvalid := hfunctions.2 hp.functions m f hf
      rw [ValidFunction, hdefined] at hvalid
      exact h.wellFormedBody_iff.2 hvalid

/-- However a program is put together, it passes the check if and only if it is well-formed. -/
theorem validate_iff_wellFormed (h : p.Composed) : p.validate = .ok () ↔ p.WellFormed :=
  validate_eq_ok_iff.trans h.ordered.wellFormed_iff.symm

/-- A function whose last block is complete before its entry, and has itself as a predecessor. -/
def handmade : Program :=
  let p := (addModule {}).2
  let p := (addFunction ⟨0⟩ ["f"] [("x", .bool)] .bool false p).2
  let p := (addBlock ⟨0⟩ (some "out") p).2
  let p := (addParameter ⟨1⟩ .bool p).2
  let p := (append ⟨1⟩ (.ret ⟨1⟩ .bool) p).2
  let p := (addPred ⟨1⟩ ⟨1⟩ p).2
  (append ⟨0⟩ (.branch ⟨⟨1⟩, [⟨0⟩]⟩) p).2

theorem composed_handmade : handmade.Composed := by
  have h := Relation.ReflTransGen.refl.tail (Builds.addModule {})
  replace h := h.tail (.addFunction ⟨0⟩ ["f"] [("x", .bool)] .bool false (by decide))
  replace h := h.tail (.addBlock ⟨0⟩ (some "out") (by decide))
  replace h := h.tail (.addParameter ⟨1⟩ .bool (by decide))
  replace h := h.tail (.append ⟨1⟩ (.ret ⟨1⟩ .bool) (by decide) ⟨by decide, by decide, nofun⟩)
  replace h := h.tail (.addPred ⟨1⟩ ⟨1⟩ (by decide) (by decide))
  exact h.tail (.append ⟨0⟩ _ (by decide) ⟨by decide, by decide, nofun⟩)

/-- The function is well-formed, and no longer if its entry is given a predecessor. -/
theorem validate_iff_wellFormed_handmade : handmade.Composed ∧ handmade.WellFormed ∧
    (addPred ⟨0⟩ ⟨1⟩ handmade).2.Composed ∧ ¬ (addPred ⟨0⟩ ⟨1⟩ handmade).2.WellFormed := by
  have hcomposed : (addPred ⟨0⟩ ⟨1⟩ handmade).2.Composed :=
    composed_handmade.tail (.addPred ⟨0⟩ ⟨1⟩ (by decide) (by decide))
  have hentry : (addPred ⟨0⟩ ⟨1⟩ handmade).2.validate ≠ .ok () := by decide +kernel
  refine ⟨composed_handmade, (validate_iff_wellFormed composed_handmade).1 (by decide +kernel),
    hcomposed, fun h => hentry ((validate_iff_wellFormed hcomposed).2 h)⟩

end FlowFacts.Program
