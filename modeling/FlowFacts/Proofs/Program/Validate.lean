import FlowFacts.Program.Validate
import Mathlib.Data.List.Nodup
import Mathlib.Tactic.Common

/-!
# What checked programs satisfy

The check of a program goes through it in order and stops at the first fault.  So it passes
exactly if every instruction follows its rule, every block ends in its only terminator, no
branch goes to the entry of a function, no two points of a function have the same name, and
no two functions of a module have the same path and number of arguments.

## Main definitions

* `Program.Fits` — the rule of an instruction.
* `Program.ValidBody` — what the blocks of a function satisfy.
* `Program.Valid` — what the whole program satisfies.

## Main results

* `validate_eq_ok_iff` — exactly the valid programs pass.
-/

namespace FlowFacts

/-- The name of the point that an operation gives one. -/
def Operation.point? : Operation → Option String
  | .annotate name => some name
  | _ => none

namespace Program

variable {p : Program} {f : Function} {b : BlockId} {op : Operation} {r : Unit}

theorem bind_eq_ok_iff {ε α β : Type} {x : Except ε α} {k : α → Except ε β} {r : β} :
    (x >>= k) = .ok r ↔ ∃ a, x = .ok a ∧ k a = .ok r := by
  cases x with
  | error e =>
    constructor
    · intro h
      cases h
    · rintro ⟨a, ha, -⟩
      cases ha
  | ok a =>
    constructor
    · exact fun h => ⟨a, rfl, h⟩
    · rintro ⟨_, ⟨⟩, h⟩
      exact h

theorem require_eq_ok_iff {condition : Bool} {fault : Fault} :
    require condition fault = .ok r ↔ condition = true := by
  unfold require
  cases condition <;> simp

/-! ### Instructions -/

/-- The `target` is in `f`, and what is passed to it has the types of its parameters. -/
def FitsTarget (p : Program) (f : Function) (target : Target) : Prop :=
  target.block ∈ f.blocks ∧ target.args.map p.typeOf = (p.block target.block).params.map p.typeOf

/-- The rule of an instruction of `f`. -/
def Fits (p : Program) (f : Function) : Operation → Prop
  | .annotate _ | .nop => True
  | .not arg => p.typeOf arg = some .bool
  | .binary op lhs rhs =>
      ∀ v ∈ [lhs, rhs], p.typeOf v = some (if op.isLogical then .bool else .u64)
  | .branch target => p.FitsTarget f target
  | .call callee args => args.map p.typeOf = (p.function callee).args.map fun x => p.typeOf x.2
  | .compare predicate lhs rhs =>
      ∃ ty, p.typeOf lhs = some ty ∧ p.typeOf rhs = some ty ∧
        (predicate.isOrder = true → ty = .u64)
  | .condBranch cond whenTrue whenFalse =>
      p.isBool cond = true ∧ p.FitsTarget f whenTrue ∧ p.FitsTarget f whenFalse
  | .ret value ty => f.returnType = ty ∧ ∀ ty' ∈ p.typeOf value, ty' = ty

theorem validateArguments_eq_ok_iff {callee : String} {pairs : List (ValueId × ValueId)} :
    p.validateArguments callee pairs = .ok r ↔
      ∀ x ∈ pairs, p.typeOf x.1 = p.typeOf x.2 := by
  induction pairs with
  | nil => simp [validateArguments]
  | cons x pairs ih =>
    obtain ⟨passed, expected⟩ := x
    rw [validateArguments, bind_eq_ok_iff, List.forall_mem_cons]
    simp only [require_eq_ok_iff, beq_iff_eq, ih, exists_const]

/-- Lists `l` and `l'` agree under `g` and `h` if they are equally long and agree in each place. -/
theorem map_eq_map_iff_zip {α β γ : Type} {g : α → γ} {h : β → γ} {l : List α} {l' : List β} :
    l.map g = l'.map h ↔ l.length = l'.length ∧ ∀ x ∈ l.zip l', g x.1 = h x.2 := by
  induction l generalizing l' with
  | nil => cases l' <;> simp
  | cons a l ih =>
    cases l' with
    | nil => simp
    | cons b l' =>
      simp only [List.map_cons, List.cons.injEq, List.length_cons, Nat.add_right_cancel_iff,
        List.zip_cons_cons, List.forall_mem_cons, ih]
      tauto

theorem validateCall_eq_ok_iff {callee : FunctionId} {args : List ValueId} :
    p.validateCall callee args = .ok r ↔ p.Fits f (.call callee args) := by
  have hmap : ((p.function callee).args.map fun x => p.typeOf x.2) =
      ((p.function callee).args.map Prod.snd).map p.typeOf := by rw [List.map_map]; rfl
  rw [Fits, hmap, map_eq_map_iff_zip, validateCall, bind_eq_ok_iff]
  simp only [require_eq_ok_iff, beq_iff_eq, exists_const, validateArguments_eq_ok_iff,
    Function.arity, List.length_map]
  rw [eq_comm (a := args.length)]

theorem validateCompare_eq_ok_iff {predicate : Comparison} {lhs rhs : ValueId} :
    p.validateCompare predicate lhs rhs = .ok r ↔ p.Fits f (.compare predicate lhs rhs) := by
  rw [validateCompare, Fits]
  cases hl : p.typeOf lhs with
  | none => simp
  | some l =>
    cases hr : p.typeOf rhs with
    | none => simp
    | some r' =>
      simp only [bind_eq_ok_iff, require_eq_ok_iff, exists_const, beq_iff_eq, Bool.or_eq_true,
        Bool.not_eq_true', Option.some.injEq, exists_eq_left']
      rw [eq_comm (a := l)]
      refine and_congr_right fun _ => ?_
      cases h : predicate.isOrder with
      | false => simp
      | true => simp

/-- An operation `op` passes if it follows its rule and its point is new.  Its point comes in
front of those met before, `points`. -/
theorem validateOperation_eq_ok_iff {points points' : List String} :
    p.validateOperation f points op = .ok points' ↔ p.Fits f op ∧
      (∀ name ∈ op.point?, name ∉ points) ∧ points' = op.point?.toList ++ points := by
  have hpure : (pure points : Except Fault (List String)) = .ok points' ↔ points' = points := by
    simp [pure, Except.pure, eq_comm]
  cases op with
  | annotate name =>
    simp only [validateOperation, bind_eq_ok_iff, require_eq_ok_iff, exists_const, Fits,
      Operation.point?]
    have hpoint : (pure (name :: points) : Except Fault (List String)) = .ok points' ↔
        points' = name :: points := by
      simp [pure, Except.pure, eq_comm]
    rw [hpoint]
    simp
  | not arg =>
    simp only [validateOperation, validateNot, bind_eq_ok_iff, require_eq_ok_iff, exists_const,
      hpure, Fits, Operation.point?]
    simp
  | binary op lhs rhs =>
    simp only [validateOperation, validateBinary, bind_eq_ok_iff, require_eq_ok_iff, exists_const,
      hpure, Fits, Operation.point?]
    simp
  | branch target =>
    simp only [validateOperation, validateTarget, validatePassed, bind_eq_ok_iff,
      require_eq_ok_iff, exists_const, hpure, Fits, FitsTarget, Operation.point?]
    simp [and_assoc]
  | call callee args =>
    simp only [validateOperation, bind_eq_ok_iff, hpure, Operation.point?]
    simp only [validateCall_eq_ok_iff (f := f), exists_const]
    simp
  | compare predicate lhs rhs =>
    simp only [validateOperation, bind_eq_ok_iff, hpure, Operation.point?]
    simp only [validateCompare_eq_ok_iff (f := f), exists_const]
    simp
  | condBranch cond whenTrue whenFalse =>
    simp only [validateOperation, validateTarget, validatePassed, bind_eq_ok_iff,
      require_eq_ok_iff, exists_const, hpure, Fits, FitsTarget, Operation.point?]
    simp only [List.contains_iff_mem, beq_iff_eq, Option.toList_none, List.nil_append]
    simp only [Option.mem_def, reduceCtorEq, false_imp_iff, implies_true, true_and]
    tauto
  | nop =>
    simp only [validateOperation, hpure, Fits, Operation.point?]
    simp
  | ret value ty =>
    simp only [validateOperation, validateReturn, bind_eq_ok_iff, require_eq_ok_iff, exists_const,
      hpure, Fits, Operation.point?]
    cases p.typeOf value <;> simp

/-! ### Blocks -/

/-- The names of the points among the instructions `vs`. -/
def points (p : Program) (vs : List ValueId) : List String :=
  vs.filterMap fun v => (p.operation? v).bind Operation.point?

/-- Instructions `vs` pass if each follows its rule and their points are new and different. -/
theorem validateInstructions_eq_ok_iff {vs : List ValueId} : ∀ {names names' : List String},
    names.Nodup → (p.validateInstructions f vs names = .ok names' ↔
      (∀ v ∈ vs, ∀ op ∈ p.operation? v, p.Fits f op) ∧
        names' = (p.points vs).reverse ++ names ∧ names'.Nodup) := by
  induction vs with
  | nil =>
    intro names names' hnames
    simp only [validateInstructions, points, List.filterMap_nil, List.reverse_nil,
      List.nil_append, Except.ok.injEq, List.not_mem_nil, false_imp_iff, implies_true, true_and]
    constructor
    · rintro rfl
      exact ⟨rfl, hnames⟩
    · exact fun h => h.1.symm
  | cons v vs ih =>
    intro names names' hnames
    rw [validateInstructions, List.forall_mem_cons]
    cases hop : p.operation? v with
    | none =>
      -- a value that is no instruction is passed over
      have hpoints : p.points (v :: vs) = p.points vs := by simp [points, hop]
      simp only [bind_eq_ok_iff, Except.ok.injEq, exists_eq_left', ih hnames, hpoints,
        Option.not_mem_none, false_imp_iff, implies_true, true_and]
    | some op =>
      have hpoints : p.points (v :: vs) = op.point?.toList ++ p.points vs := by
        cases hpoint : op.point? <;> simp [points, hop, hpoint]
      simp only [bind_eq_ok_iff, validateOperation_eq_ok_iff, Option.mem_some_iff, forall_eq',
        hpoints, List.reverse_append]
      constructor
      · rintro ⟨names₁, ⟨hfits, hnew, rfl⟩, hrest⟩
        -- the point, if there is one, is not among the names met before
        have hnames₁ : (op.point?.toList ++ names).Nodup := by
          cases hpoint : op.point? with
          | none => simpa using hnames
          | some name => simpa [hnames] using hnew name hpoint
        obtain ⟨hrest, hnames', hnodup⟩ := (ih hnames₁).1 hrest
        refine ⟨⟨hfits, hrest⟩, ?_, hnodup⟩
        rw [hnames', List.append_assoc]
        cases op.point? <;> simp
      · rintro ⟨⟨hfits, hrest⟩, hnames', hnodup⟩
        have hsplit : names' = (p.points vs).reverse ++ (op.point?.toList ++ names) := by
          rw [hnames', List.append_assoc]
          cases op.point? <;> simp
        have hnames₁ : (op.point?.toList ++ names).Nodup :=
          (List.sublist_append_right _ _).nodup (hsplit ▸ hnodup)
        refine ⟨_, ⟨hfits, fun name hname => ?_, rfl⟩, (ih hnames₁).2 ⟨hrest, hsplit, hnodup⟩⟩
        rw [Option.mem_def] at hname
        simpa [hname, hnames] using hnames₁

/-- The last of the instructions `vs` is their only terminator. -/
def EndsOnce (p : Program) (vs : List ValueId) : Prop :=
  ∃ before last, vs = before ++ [last] ∧ p.isTerminator last = true ∧
    ∀ v ∈ before, p.isTerminator v = false

theorem validateTerminators_eq_ok_iff {block : Block} :
    p.validateTerminators block = .ok r ↔ p.EndsOnce block.instructions := by
  simp only [validateTerminators, bind_eq_ok_iff, require_eq_ok_iff, exists_const, EndsOnce]
  rcases List.eq_nil_or_concat block.instructions with hnil | ⟨before, last, hlast⟩
  · simp [hnil]
  · rw [hlast]
    simp only [List.concat_eq_append, List.countP_append, List.countP_singleton,
      List.getLast?_append, List.getLast?_singleton, Option.some_or, Option.any_some,
      Bool.and_eq_true, beq_iff_eq, bne_iff_ne]
    constructor
    · -- the last instruction is the one terminator counted, so there is none before it
      rintro ⟨-, hterm, hcount⟩
      rw [if_pos hterm] at hcount
      refine ⟨before, last, rfl, hterm, fun v hv => ?_⟩
      have hzero : before.countP p.isTerminator = 0 := by omega
      simpa using List.countP_eq_zero.1 hzero v hv
    · rintro ⟨before', last', heq, hterm, hbefore⟩
      obtain ⟨rfl, hlast'⟩ := List.append_inj' heq rfl
      rw [List.singleton_inj] at hlast'
      subst hlast'
      have hzero : before.countP p.isTerminator = 0 :=
        List.countP_eq_zero.2 fun v hv => by simp [hbefore v hv]
      simp [hzero, hterm]

theorem isParameterAt_iff {index : Nat} {v : ValueId} :
    p.isParameterAt b index v = true ↔ ∃ ty, p.value v = .parameter b index ty := by
  unfold isParameterAt
  cases p.value v with
  | parameter block i ty => simp
  | constant c => simp
  | instruction block op => simp

/-- What a block `b` of `f` satisfies. -/
structure ValidBlock (p : Program) (f : Function) (b : BlockId) : Prop where
  /-- Its parameters know their places. -/
  params : ∀ i v, (p.block b).params[i]? = some v → ∃ ty, p.value v = .parameter b i ty
  /-- Its instructions follow their rules. -/
  fits : ∀ v ∈ (p.block b).instructions, ∀ op ∈ p.operation? v, p.Fits f op
  /-- It ends in its only terminator. -/
  ends : p.EndsOnce (p.block b).instructions

theorem all_isParameterAt_iff :
    ((p.block b).params.zipIdx.all fun (v, index) => p.isParameterAt b index v) = true ↔
      ∀ i v, (p.block b).params[i]? = some v → ∃ ty, p.value v = .parameter b i ty := by
  simp only [List.all_eq_true, Prod.forall, List.mem_zipIdx_iff_getElem?, isParameterAt_iff]
  exact forall_comm

theorem validateBlock_eq_ok_iff {names names' : List String} (hnames : names.Nodup) :
    p.validateBlock f names b = .ok names' ↔ p.ValidBlock f b ∧
      names' = (p.points (p.block b).instructions).reverse ++ names ∧ names'.Nodup := by
  have hpure : ∀ x : List String, (pure x : Except Fault (List String)) = .ok names' ↔
      x = names' := fun x => by simp [pure, Except.pure]
  simp only [validateBlock, bind_eq_ok_iff, require_eq_ok_iff, exists_const,
    validateInstructions_eq_ok_iff hnames, validateTerminators_eq_ok_iff, hpure]
  rw [all_isParameterAt_iff]
  constructor
  · rintro ⟨hp, names₁, ⟨hfits, hnames₁, hnodup⟩, hends, rfl⟩
    exact ⟨⟨hp, hfits, hends⟩, hnames₁, hnodup⟩
  · rintro ⟨h, hnames', hnodup⟩
    exact ⟨h.params, names', ⟨h.fits, hnames', hnodup⟩, h.ends, rfl⟩

/-! ### Functions -/

/-- The instructions of the blocks `bs`. -/
def instructionsOf (p : Program) (bs : List BlockId) : List ValueId :=
  bs.flatMap fun b => (p.block b).instructions

theorem points_append (vs ws : List ValueId) : p.points (vs ++ ws) = p.points vs ++ p.points ws :=
  List.filterMap_append

theorem validateBlocks_eq_ok_iff {bs : List BlockId} : ∀ {names : List String},
    names.Nodup → (p.validateBlocks f bs names = .ok r ↔ (∀ b ∈ bs, p.ValidBlock f b) ∧
      ((p.points (p.instructionsOf bs)).reverse ++ names).Nodup) := by
  induction bs with
  | nil =>
    intro names hnames
    simpa [validateBlocks, instructionsOf, points] using hnames
  | cons b bs ih =>
    intro names hnames
    -- names are collected in front, so those of `b` stand before those of the rest
    have hpoints : (p.points (p.instructionsOf (b :: bs))).reverse ++ names =
        (p.points (p.instructionsOf bs)).reverse ++
          ((p.points (p.block b).instructions).reverse ++ names) := by
      rw [instructionsOf, List.flatMap_cons, points_append, List.reverse_append,
        List.append_assoc]
      rfl
    rw [validateBlocks, bind_eq_ok_iff, List.forall_mem_cons, hpoints]
    constructor
    · rintro ⟨names₁, hblock, hrest⟩
      obtain ⟨hvalid, rfl, hnodup⟩ := (validateBlock_eq_ok_iff hnames).1 hblock
      obtain ⟨hvalids, hall⟩ := (ih hnodup).1 hrest
      exact ⟨⟨hvalid, hvalids⟩, hall⟩
    · rintro ⟨⟨hvalid, hvalids⟩, hall⟩
      have hnodup := (List.sublist_append_right _ _).nodup hall
      exact ⟨_, (validateBlock_eq_ok_iff hnames).2 ⟨hvalid, rfl, hnodup⟩,
        (ih hnodup).2 ⟨hvalids, hall⟩⟩

/-- What the body of `f` satisfies. -/
structure ValidBody (p : Program) (f : Function) : Prop where
  /-- No branch goes to the entry. -/
  entry : (p.block f.entry).preds = []
  /-- The blocks are in order. -/
  blocks : ∀ b ∈ f.blocks, p.ValidBlock f b
  /-- The points have different names. -/
  points : (p.points (p.instructionsOf f.blocks)).Nodup

/-- What a function `f` satisfies: a declaration has no instructions. -/
def ValidFunction (p : Program) (f : Function) : Prop :=
  if f.isDeclaration then ∀ b ∈ f.blocks, (p.block b).instructions = [] else p.ValidBody f

theorem validateFunction_eq_ok_iff : p.validateFunction f = .ok r ↔ p.ValidFunction f := by
  unfold validateFunction ValidFunction
  split
  · simp [require_eq_ok_iff]
  · simp only [bind_eq_ok_iff, require_eq_ok_iff, exists_const, List.isEmpty_iff,
      validateBlocks_eq_ok_iff List.nodup_nil, List.append_nil, List.nodup_reverse]
    exact ⟨fun h => ⟨h.1, h.2.1, h.2.2⟩, fun h => ⟨h.entry, h.blocks, h.points⟩⟩

/-! ### Programs -/

/-- What tells functions `f` of a module apart. -/
def signature (p : Program) (f : FunctionId) : List String × Nat :=
  ((p.function f).path, (p.function f).arity)

theorem validateFunctions_eq_ok_iff {fs : List FunctionId} :
    ∀ {signatures : List (List String × Nat)}, signatures.Nodup →
      (p.validateFunctions fs signatures = .ok r ↔
        (∀ f ∈ fs, p.ValidFunction (p.function f)) ∧
          ((fs.map p.signature).reverse ++ signatures).Nodup) := by
  induction fs with
  | nil =>
    intro signatures hnodup
    simpa [validateFunctions] using hnodup
  | cons f fs ih =>
    intro signatures hnodup
    have hsplit : ((f :: fs).map p.signature).reverse ++ signatures =
        (fs.map p.signature).reverse ++ (p.signature f :: signatures) := by simp
    rw [validateFunctions, List.forall_mem_cons, hsplit]
    simp only [bind_eq_ok_iff, require_eq_ok_iff, exists_const, validateFunction_eq_ok_iff]
    constructor
    · rintro ⟨hnew, hvalid, hrest⟩
      have hcons : (p.signature f :: signatures).Nodup :=
        List.nodup_cons.2 ⟨by simpa [signature] using hnew, hnodup⟩
      obtain ⟨hvalids, hall⟩ := (ih hcons).1 hrest
      exact ⟨⟨hvalid, hvalids⟩, hall⟩
    · rintro ⟨⟨hvalid, hvalids⟩, hall⟩
      have hcons := (List.sublist_append_right _ _).nodup hall
      refine ⟨?_, hvalid, (ih hcons).2 ⟨hvalids, hall⟩⟩
      simpa [signature] using (List.nodup_cons.1 hcons).1

/-- What a program `p` satisfies. -/
structure Valid (p : Program) : Prop where
  /-- Its functions are in order. -/
  functions : ∀ fs ∈ p.modules.toList, ∀ f ∈ fs, p.ValidFunction (p.function f)
  /-- The functions of a module can be told apart. -/
  signatures : ∀ fs ∈ p.modules.toList, (fs.map p.signature).Nodup

theorem validateModules_eq_ok_iff {modules : List (List FunctionId)} :
    p.validateModules modules = .ok r ↔
      ∀ fs ∈ modules, (∀ f ∈ fs, p.ValidFunction (p.function f)) ∧ (fs.map p.signature).Nodup := by
  induction modules with
  | nil => simp [validateModules]
  | cons fs modules ih =>
    rw [validateModules, List.forall_mem_cons]
    simp only [bind_eq_ok_iff, validateFunctions_eq_ok_iff List.nodup_nil, List.append_nil,
      List.nodup_reverse, exists_const, ih]

/-- Exactly the valid programs pass the check. -/
theorem validate_eq_ok_iff : p.validate = .ok r ↔ p.Valid := by
  rw [validate, validateModules_eq_ok_iff]
  exact ⟨fun h => ⟨fun fs hfs => (h fs hfs).1, fun fs hfs => (h fs hfs).2⟩,
    fun h fs hfs => ⟨h.functions fs hfs, h.signatures fs hfs⟩⟩

end Program

end FlowFacts
