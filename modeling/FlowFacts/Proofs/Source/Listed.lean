import FlowFacts.Proofs.Program.Body
import FlowFacts.Proofs.Program.Spelling
import FlowFacts.Proofs.Source.Written

/-!
# Listings as written trees

The listing of a program is the written form of trees (`Program.decls`).  The lines of a
function are its instructions in order, each behind the lines of those constants that no
earlier line has announced (`Program.listed`); their names are those that the listing ends
with.

## Main definitions

* `Program.listed` — the values that the lines of a function are about.
* `Program.functionDecl`, `Program.decls` — the trees of a program.

## Main results

* `listing_eq_textOf` — the listing is their written form.
-/

namespace FlowFacts

open Source

namespace Program

variable {p : Program} {n N : Naming} {v w : ValueId}

/-! ### Values with lines -/

/-- The constants among operands that have not been announced, each once. -/
def newConstants (p : Program) : List ValueId → List ValueId → List ValueId
  | _, [] => []
  | seen, v :: vs =>
      if (p.constant? v).isSome ∧ v ∉ seen then v :: p.newConstants (v :: seen) vs
      else p.newConstants seen vs

/-- The operands of `v`; none if it is not an instruction. -/
def operandsOf (p : Program) (v : ValueId) : List ValueId :=
  ((p.operation? v).map Operation.operands).getD []

/-- Instructions in order, each behind the constants that it is the first to use. -/
def listed (p : Program) : List ValueId → List ValueId → List ValueId
  | _, [] => []
  | seen, v :: vs =>
      let new := p.newConstants seen (p.operandsOf v) ++ [v]
      new ++ p.listed (seen ++ new) vs

/-! ### Trees -/

/-- The tree of an operation, given all names `N`. -/
def operationDecl (p : Program) (N : Naming) : Operation → OperationDecl
  | .annotate name => .annotate name
  | .not arg => .not (p.spelling N arg)
  | .binary op lhs rhs => .binary op (p.spelling N lhs) (p.spelling N rhs)
  | .branch target => .branch (p.block target.block).label (target.args.map (p.spelling N))
  | .call callee args => .call (p.function callee).path (args.map (p.spelling N))
  | .compare predicate lhs rhs => .compare predicate (p.spelling N lhs) (p.spelling N rhs)
  | .condBranch cond whenTrue whenFalse =>
      .condBranch (p.spelling N cond)
        (p.block whenTrue.block).label (whenTrue.args.map (p.spelling N))
        (p.block whenFalse.block).label (whenFalse.args.map (p.spelling N))
  | .nop => .nop
  | .ret value ty => .ret ty (p.spelling N value)

/-- Whether the line of `v` gives it a name. -/
def announces (p : Program) (v : ValueId) : Bool :=
  match p.value v with
  | .parameter .. | .constant _ => true
  | .instruction _ op => op.hasResult

/-- The tree of the line of `v`. -/
def lineDecl (p : Program) (N : Naming) (v : ValueId) : InstructionDecl where
  name := if p.announces v then some (p.spelling N v) else none
  operation :=
    match p.value v with
    | .parameter .. => .nop
    | .constant c => .const c.ty c
    | .instruction _ op => p.operationDecl N op

/-- A parameter `v` with its name and type. -/
def parameterDecl (p : Program) (N : Naming) (v : ValueId) : String × Ty :=
  (p.spelling N v, (p.typeOf v).getD .unit)

/-- The tree of the block `b`, after the lines of the values `seen`. -/
def blockDecl (p : Program) (N : Naming) (seen : List ValueId) (b : BlockId) : BlockDecl where
  label := (p.block b).label
  params :=
    if (p.function (p.block b).function).entry == b then []
    else (p.block b).params.map (p.parameterDecl N)
  body := (p.listed seen (p.block b).instructions).map (p.lineDecl N)

/-- The trees of blocks, after some lines. -/
def blockDecls (p : Program) (N : Naming) : List ValueId → List BlockId → List BlockDecl
  | _, [] => []
  | seen, b :: bs =>
      p.blockDecl N seen b :: p.blockDecls N (seen ++ p.listed seen (p.block b).instructions) bs

/-- The tree of the function `f`, given all names `N`. -/
def functionDeclWith (p : Program) (N : Naming) (f : FunctionId) : FunctionDecl where
  path := (p.function f).path
  args := (p.function f).args.map fun x => (x.1, (p.typeOf x.2).getD .unit)
  returnType := (p.function f).returnType
  blocks :=
    if (p.function f).isDeclaration then none
    else some (p.blockDecls N [] (p.function f).blocks)

/-- The tree of the function `f`. -/
def functionDecl (p : Program) (f : FunctionId) : FunctionDecl :=
  p.functionDeclWith (p.naming f) f

/-- The trees of the functions of `p`. -/
def decls (p : Program) : List FunctionDecl := p.modules.toList.flatten.map p.functionDecl

/-! ### Lines -/

theorem spells_namesOf (vs : List ValueId) (n : Naming) :
    p.Spells (p.namesOf vs) n (fun N => String.intercalate ", " (vs.map (p.spelling N))) vs := by
  have hmap : p.Spells (vs.mapM p.nameOf) n _ _ := spells_mapM fun v _ n => spells_nameOf p v n
  exact (hmap.map (String.intercalate ", ")).congr (fun _ => rfl) (by simp)

theorem spells_targetText (target : Target) (n : Naming) :
    p.Spells (p.targetText target) n
      (fun N => (p.block target.block).label ++ "(" ++
        String.intercalate ", " (target.args.map (p.spelling N)) ++ ")") target.args :=
  (spells_namesOf target.args n).map fun s => (p.block target.block).label ++ "(" ++ s ++ ")"

/-- The text of an instruction `v` that gives a name to its result, if it has one. -/
def lineText (p : Program) (v : ValueId) (op : Operation) (N : Naming) : String :=
  InstructionDecl.text
    { name := if op.hasResult then some (p.spelling N v) else none,
      operation := p.operationDecl N op }

theorem spells_operationText (v : ValueId) (op : Operation) (n : Naming) :
    p.Spells (p.operationText v op) n (p.lineText v op)
      ((if op.hasResult then [v] else []) ++ op.operands) := by
  cases op with
  | annotate name | nop => exact spells_pure p _ n
  | not arg =>
    have h := (spells_nameOf p v n).bind fun x =>
      (spells_nameOf p arg _).map (x ++ " = not " ++ ·)
    refine h.congr (fun N => String.toList_inj.1 ?_) (fun _ _ => Iff.rfl)
    simp [lineText, InstructionDecl.text, OperationDecl.text, operationDecl, Operation.hasResult]
  | binary op lhs rhs =>
    have h := (spells_nameOf p v n).bind fun x => (spells_nameOf p lhs _).bind fun y =>
      (spells_nameOf p rhs _).map (x ++ " = " ++ op.keyword ++ " " ++ y ++ ", " ++ ·)
    refine h.congr (fun N => String.toList_inj.1 ?_) (fun _ _ => Iff.rfl)
    simp [lineText, InstructionDecl.text, OperationDecl.text, operationDecl, Operation.hasResult]
  | compare predicate lhs rhs =>
    have h := (spells_nameOf p v n).bind fun x => (spells_nameOf p lhs _).bind fun y =>
      (spells_nameOf p rhs _).map (x ++ " = cmp " ++ predicate.keyword ++ " " ++ y ++ " " ++ ·)
    refine h.congr (fun N => String.toList_inj.1 ?_) (fun _ _ => Iff.rfl)
    simp [lineText, InstructionDecl.text, OperationDecl.text, operationDecl, Operation.hasResult]
  | call callee args =>
    have h := (spells_nameOf p v n).bind fun x => (spells_namesOf args _).map
      (x ++ " = call " ++ (p.function callee).name ++ "(" ++ · ++ ")")
    refine h.congr (fun N => String.toList_inj.1 ?_) (fun _ _ => Iff.rfl)
    simp [lineText, InstructionDecl.text, OperationDecl.text, operationDecl, Operation.hasResult,
      Function.name]
  | branch target =>
    have h := (spells_targetText (p := p) target n).map ("br " ++ ·)
    refine h.congr (fun N => String.toList_inj.1 ?_) (fun _ _ => Iff.rfl)
    simp [lineText, InstructionDecl.text, OperationDecl.text, operationDecl, Operation.hasResult]
  | condBranch cond whenTrue whenFalse =>
    have h := (spells_nameOf p cond n).bind fun x => (spells_targetText whenTrue _).bind fun y =>
      (spells_targetText whenFalse _).map ("cbr " ++ x ++ ", " ++ y ++ ", " ++ ·)
    refine h.congr (fun N => String.toList_inj.1 ?_) (fun _ _ => Iff.rfl)
    simp [lineText, InstructionDecl.text, OperationDecl.text, operationDecl, Operation.hasResult]
  | ret value ty =>
    have h := (spells_nameOf p value n).map ("ret " ++ ty.text ++ " " ++ ·)
    refine h.congr (fun N => String.toList_inj.1 ?_) (fun _ _ => Iff.rfl)
    simp [lineText, InstructionDecl.text, OperationDecl.text, operationDecl, Operation.hasResult]

/-! ### Constants -/

/-- The line of the value `v`. -/
def line (p : Program) (N : Naming) (v : ValueId) : Line := .text 0 (p.lineDecl N v).text

theorem line_of_constant {c : Constant} (h : p.constant? v = some c) (N : Naming) :
    p.line N v = .text 0 (p.spelling N v ++ " = const " ++ c.text) := by
  have hvalue := value_of_constant? h
  refine congrArg (Line.text 0) (String.toList_inj.1 ?_)
  simp [lineDecl, announces, hvalue, InstructionDecl.text, OperationDecl.text]

/-- The constants that have names in `n` are those in `seen`. -/
def Noted (p : Program) (n : Naming) (seen : List ValueId) : Prop :=
  ∀ v, (p.constant? v).isSome → (v ∈ n.named ↔ v ∈ seen)

theorem argument?_of_constant (h : (p.constant? v).isSome) (f : Function) :
    p.argument? f v = none := by
  obtain ⟨c, hc⟩ := Option.isSome_iff_exists.1 h
  rw [argument?, value_of_constant? hc]

/-- The values `vs` that were mentioned are seen from then on. -/
theorem Spells.noted {α : Type} {m : StateM Naming α} {r : Naming → α}
    {vs seen seen' : List ValueId} (h : p.Spells m n r vs) (hn : p.Noted n seen)
    (hseen : ∀ v, (p.constant? v).isSome → (v ∈ seen' ↔ v ∈ seen ∨ v ∈ vs)) :
    p.Noted (m n).2 seen' := by
  intro v hv
  rw [h.mem, hn v hv, hseen v hv, argument?_of_constant hv]
  simp

/-- An operand `v` is announced if it is a constant that was not seen. -/
theorem spells_constantLine {seen : List ValueId} (hn : p.Noted n seen) (v : ValueId) :
    p.Spells (p.constantLines v) n
      (fun N => if (p.constant? v).isSome ∧ v ∉ seen then [p.line N v] else [])
      (if (p.constant? v).isSome then [v] else []) := by
  have hnone := spells_pure p ([] : List Line) n
  cases hc : p.constant? v with
  | none =>
    refine (hnone.of_eq ?_).congr (by simp) (by simp)
    unfold constantLines
    rw [hc]
  | some c =>
    have hseen := hn v (by rw [hc]; rfl)
    by_cases hv : v ∈ n.named
    · -- a constant with a name was announced before
      refine (hnone.of_eq ?_).congr (by simp [← hseen, hv]) fun w hw => ?_
      · have hcontains : n.named.contains v = true := List.contains_iff_mem.2 hv
        simp only [constantLines, hc, bind, StateT.bind, get, getThe, MonadStateOf.get, StateT.get,
          pure, hcontains, if_true]
      · simp only [List.not_mem_nil, Option.isSome_some, if_true, List.mem_singleton, false_iff]
        rintro rfl
        exact hw hv
    · -- any other one gets a name and a line
      have hline := (spells_nameOf p v n).map fun x => [Line.text 0 (x ++ " = const " ++ c.text)]
      refine (hline.of_eq ?_).congr (fun N => ?_) (by simp)
      · have hcontains : n.named.contains v = false := by simpa using hv
        simp only [constantLines, hc, bind, StateT.bind, get, getThe, MonadStateOf.get, StateT.get,
          pure, hcontains]
        rfl
      · rw [if_pos ⟨rfl, mt hseen.2 hv⟩, line_of_constant hc]

/-- Operands `vs` are gone through for constants that are new. -/
theorem spells_constantLines (vs : List ValueId) : ∀ {n : Naming} {seen : List ValueId},
    p.Noted n seen →
    p.Spells (do return (← vs.mapM p.constantLines).flatten) n
      (fun N => (p.newConstants seen vs).map (p.line N))
      (vs.filter fun v => (p.constant? v).isSome) := by
  induction vs with
  | nil =>
    intro n seen _
    exact spells_pure p [] n
  | cons v vs ih =>
    intro n seen hn
    have hhead := spells_constantLine hn v
    -- an operand that is a constant has been seen afterwards, whether it was new or not
    let seen' := if (p.constant? v).isSome ∧ v ∉ seen then v :: seen else seen
    have hnoted : p.Noted (p.constantLines v n).2 seen' := by
      refine hhead.noted hn fun w hw => ?_
      by_cases hv : (p.constant? v).isSome
      · by_cases hvseen : v ∈ seen
        · have hold : w = v → w ∈ seen := by
            rintro rfl
            exact hvseen
          simpa [seen', hv, hvseen] using hold
        · simp [seen', hv, hvseen, or_comm]
      · simp [seen', hv]
    have hbind := hhead.bind fun x => (ih hnoted).map (x ++ ·)
    rw [List.mapM_cons]
    refine hbind.congr (fun N => ?_) fun w _ => ?_
    · rw [newConstants]
      by_cases hnew : (p.constant? v).isSome ∧ v ∉ seen
      · rw [if_pos hnew, if_pos hnew, show seen' = v :: seen from if_pos hnew]
        rfl
      · rw [if_neg hnew, if_neg hnew, show seen' = seen from if_neg hnew]
        rfl
    · by_cases hv : (p.constant? v).isSome
      · simp [hv]
      · simp [hv]

theorem mem_newConstants_iff {vs : List ValueId} : ∀ {seen : List ValueId},
    v ∈ p.newConstants seen vs ↔ v ∈ vs ∧ (p.constant? v).isSome ∧ v ∉ seen := by
  induction vs with
  | nil => simp [newConstants]
  | cons w vs ih =>
    intro seen
    rw [newConstants, List.mem_cons]
    by_cases hw : (p.constant? w).isSome ∧ w ∉ seen
    · rw [if_pos hw, List.mem_cons, ih, List.mem_cons]
      by_cases hvw : v = w
      · simp [hvw, hw]
      · simp [hvw]
    · rw [if_neg hw, ih]
      by_cases hvw : v = w
      · subst hvw
        tauto
      · simp [hvw]

/-! ### Instructions -/

/-- The values that the lines of the instruction `v` mention. -/
def mentions (p : Program) (v : ValueId) : List ValueId :=
  (if p.announces v then [v] else []) ++ p.operandsOf v

variable {b : BlockId} {seen : List ValueId}

/-- The values `vs` are instructions. -/
def AllOperations (p : Program) (vs : List ValueId) : Prop := ∀ v ∈ vs, (p.operation? v).isSome

theorem spells_instructionLines (hn : p.Noted n seen) (hv : (p.operation? v).isSome) :
    p.Spells (p.instructionLines v) n
      (fun N => (p.newConstants seen (p.operandsOf v) ++ [v]).map (p.line N)) (p.mentions v) := by
  obtain ⟨op, hop⟩ := Option.isSome_iff_exists.1 hv
  obtain ⟨b, hb⟩ := operation?_eq_some_iff.1 hop
  have hoperands : p.operandsOf v = op.operands := by simp [operandsOf, hop]
  have hannounces : p.announces v = op.hasResult := by simp [announces, hb]
  have hline : ∀ N, Line.text 0 (p.lineText v op N) = p.line N v := by
    intro N
    simp [line, lineText, lineDecl, hb, hannounces]
  -- first the constants that are new, then the instruction itself
  have hlines := (spells_constantLines op.operands hn).bind fun cs =>
    (spells_operationText v op _).map fun x => cs ++ [Line.text 0 x]
  refine (hlines.of_eq ?_).congr (fun N => ?_) fun w _ => ?_
  · unfold instructionLines
    rw [hop]
    rfl
  · rw [List.map_append, hoperands, hline]
    rfl
  · simp only [mentions, hannounces, hoperands, List.mem_append, List.mem_filter]
    tauto

theorem ne_of_constant (hw : (p.constant? w).isSome) (hv : (p.operation? v).isSome) : w ≠ v := by
  obtain ⟨op, hop⟩ := Option.isSome_iff_exists.1 hv
  rintro rfl
  rw [constant?_of_operation? hop] at hw
  cases hw

/-- The constants `w` that an instruction mentions are operands. -/
theorem constant_mem_mentions_iff (hw : (p.constant? w).isSome) (hv : (p.operation? v).isSome) :
    w ∈ p.mentions v ↔ w ∈ p.operandsOf v := by
  have hresult : w ∉ (if p.announces v then [v] else []) := by
    split
    · simpa using ne_of_constant hw hv
    · exact List.not_mem_nil
  rw [mentions, List.mem_append, or_iff_right hresult]

/-- A constant `w` that the lines of `v` mention has been seen afterwards. -/
theorem mem_seen_iff (hw : (p.constant? w).isSome) (hv : (p.operation? v).isSome) :
    w ∈ seen ++ (p.newConstants seen (p.operandsOf v) ++ [v]) ↔ w ∈ seen ∨ w ∈ p.mentions v := by
  simp only [constant_mem_mentions_iff hw hv, List.mem_append, mem_newConstants_iff,
    List.mem_singleton, ne_of_constant hw hv, or_false, hw, true_and]
  tauto

/-- The lines of instructions `vs`, and the constants that have been seen after them. -/
theorem spells_listed {vs : List ValueId} : ∀ {n : Naming} {seen : List ValueId},
    p.Noted n seen → p.AllOperations vs →
      p.Spells (do return (← vs.mapM p.instructionLines).flatten) n
        (fun N => (p.listed seen vs).map (p.line N)) (vs.flatMap p.mentions) ∧
      ∀ v, (p.constant? v).isSome →
        (v ∈ seen ++ p.listed seen vs ↔ v ∈ seen ∨ v ∈ vs.flatMap p.mentions) := by
  induction vs with
  | nil =>
    intro n seen _ _
    exact ⟨spells_pure p [] n, by simp [listed]⟩
  | cons v vs ih =>
    intro n seen hn hvs
    rw [AllOperations, List.forall_mem_cons] at hvs
    have hhead := spells_instructionLines hn hvs.1
    have hnoted := hhead.noted hn fun w hw => mem_seen_iff hw hvs.1
    obtain ⟨htail, hseen⟩ := ih hnoted hvs.2
    constructor
    · have hbind := hhead.bind fun x => htail.map (x ++ ·)
      rw [List.mapM_cons]
      refine hbind.congr (fun N => ?_) fun w _ => Iff.rfl
      rw [listed]
      exact List.map_append.symm
    · intro w hw
      have hmem := hseen w hw
      rw [mem_seen_iff hw hvs.1, List.append_assoc] at hmem
      rw [listed, hmem, List.flatMap_cons, List.mem_append, or_assoc]

/-! ### Blocks and functions -/

/-- The parameters that stand at the head of `b`: the entry has none there. -/
def ownParams (p : Program) (b : BlockId) : List ValueId :=
  if (p.function (p.block b).function).entry == b then [] else (p.block b).params

theorem params_blockDecl (N : Naming) (seen : List ValueId) (b : BlockId) :
    (p.blockDecl N seen b).params = (p.ownParams b).map (p.parameterDecl N) := by
  unfold blockDecl ownParams
  dsimp only
  split <;> rfl

/-- The values that the lines of `b` mention. -/
def blockMentions (p : Program) (b : BlockId) : List ValueId :=
  p.ownParams b ++ (p.block b).instructions.flatMap p.mentions

theorem spells_parameterText (h : p.Built) (hv : v ∈ (p.block b).params) (n : Naming) :
    p.Spells (p.parameterText v) n (fun N => Source.parameterText (p.parameterDecl N v)) [v] := by
  obtain ⟨ty, hty⟩ := h.exists_typeOf_param hv
  have hname := (spells_nameOf p v n).map fun x => x ++ ": " ++ ((p.typeOf v).map Ty.text).getD ""
  refine hname.congr (fun N => ?_) fun _ _ => Iff.rfl
  rw [Source.parameterText, parameterDecl, hty]
  rfl

theorem spells_ownParams (h : p.Built) (b : BlockId) (n : Naming) :
    p.Spells (if (p.function (p.block b).function).entry == b then pure []
        else (p.block b).params.mapM p.parameterText) n
      (fun N => ((p.ownParams b).map (p.parameterDecl N)).map Source.parameterText)
      (p.ownParams b) := by
  unfold ownParams
  split
  · exact spells_pure p [] n
  · have hmap : p.Spells ((p.block b).params.mapM p.parameterText) n _ _ :=
      spells_mapM fun v hv n => spells_parameterText h hv n
    exact hmap.congr (fun N => by rw [List.map_map]; rfl) (by simp)

theorem Built.allOperations (h : p.Built) (b : BlockId) :
    p.AllOperations (p.block b).instructions := by
  intro v hv
  obtain ⟨op, hop⟩ := h.exists_operation hv
  rw [hop]
  rfl

theorem Built.constant?_param (h : p.Built) (hv : v ∈ p.ownParams b) : p.constant? v = none := by
  have hmem : v ∈ (p.block b).params := by
    unfold ownParams at hv
    split at hv
    · cases hv
    · exact hv
  exact h.constant?_of_param hmem

theorem lines_blockDecl (N : Naming) (seen : List ValueId) (b : BlockId) :
    (p.blockDecl N seen b).lines =
      .text 0 ((p.block b).label ++ "(" ++ String.intercalate ", "
          (((p.ownParams b).map (p.parameterDecl N)).map Source.parameterText) ++ "):") ::
        (p.listed seen (p.block b).instructions).map (p.line N) := by
  have hhead : (p.blockDecl N seen b).label ++ parametersText (p.blockDecl N seen b).params ++ ":" =
      (p.block b).label ++ "(" ++ String.intercalate ", "
        (((p.ownParams b).map (p.parameterDecl N)).map Source.parameterText) ++ "):" := by
    rw [params_blockDecl, parametersText]
    refine String.toList_inj.1 ?_
    simp [blockDecl]
  rw [BlockDecl.lines, hhead]
  simp [blockDecl, line]

theorem spells_blockLines (h : p.Built) (hn : p.Noted n seen) (b : BlockId) :
    p.Spells (p.blockLines b) n (fun N => (p.blockDecl N seen b).lines) (p.blockMentions b) ∧
      ∀ v, (p.constant? v).isSome → (v ∈ seen ++ p.listed seen (p.block b).instructions ↔
        v ∈ seen ∨ v ∈ p.blockMentions b) := by
  have hparams := spells_ownParams h b n
  -- naming parameters announces no constant
  have hnot : ∀ v, (p.constant? v).isSome → v ∉ p.ownParams b := by
    intro v hv hmem
    rw [h.constant?_param hmem] at hv
    cases hv
  have hnoted : p.Noted _ seen := hparams.noted hn fun v hv => by simp [hnot v hv]
  obtain ⟨hbody, hseen⟩ := spells_listed hnoted (h.allOperations b)
  constructor
  · have hlines := hparams.bind fun x => hbody.map fun body =>
      Line.text 0 ((p.block b).label ++ "(" ++ String.intercalate ", " x ++ "):") :: body
    refine (hlines.of_eq ?_).congr (fun N => (lines_blockDecl N seen b).symm) fun _ _ => Iff.rfl
    unfold blockLines
    dsimp only
    split <;> rfl
  · intro v hv
    rw [hseen v hv, blockMentions, List.mem_append]
    simp [hnot v hv]

theorem spells_blocksLines (h : p.Built) (bs : List BlockId) :
    ∀ {n : Naming} {seen : List ValueId}, p.Noted n seen →
      p.Spells (bs.mapM p.blockLines) n (fun N => (p.blockDecls N seen bs).map BlockDecl.lines)
        (bs.flatMap p.blockMentions) := by
  induction bs with
  | nil =>
    intro n seen _
    exact spells_pure p [] n
  | cons b bs ih =>
    intro n seen hn
    obtain ⟨hhead, hseen⟩ := spells_blockLines h hn b
    have htail := ih (hhead.noted hn hseen)
    rw [List.mapM_cons]
    exact (hhead.bind fun x => htail.map (x :: ·)).congr (fun N => rfl) fun _ _ => Iff.rfl

theorem argsText_eq (h : p.Built) {f : FunctionId} (hf : f.index < p.functions.size)
    (N : Naming) : ((p.function f).args.map fun (name, v) =>
      name ++ ": " ++ ((p.typeOf v).map Ty.text).getD "") =
      (p.functionDeclWith N f).args.map Source.parameterText := by
  rw [functionDeclWith, List.map_map]
  refine List.map_congr_left fun x hx => ?_
  obtain ⟨ty, hty⟩ := h.exists_typeOf_param (h.arg hf hx)
  simp [Source.parameterText, hty]

theorem headText_eq (h : p.Built) {f : FunctionId} (hf : f.index < p.functions.size)
    (N : Naming) : p.headText (p.function f) = (p.functionDeclWith N f).head := by
  unfold headText FunctionDecl.head parametersText
  rw [argsText_eq h hf N]
  refine String.toList_inj.1 ?_
  simp [functionDeclWith, Function.name]

/-- The values that the lines of `f` mention. -/
def functionMentions (p : Program) (f : FunctionId) : List ValueId :=
  if (p.function f).isDeclaration then [] else (p.function f).blocks.flatMap p.blockMentions

theorem spells_functionLines (h : p.Built) {f : FunctionId} (hf : f.index < p.functions.size) :
    p.Spells (p.functionLines (p.function f)) { function := p.function f }
      (fun N => (p.functionDeclWith N f).lines) (p.functionMentions f) := by
  unfold functionLines functionMentions
  split
  · next hdecl =>
    refine (spells_pure p _ _).congr (fun N => ?_) fun _ _ => Iff.rfl
    rw [headText_eq h hf N, FunctionDecl.lines, functionDeclWith, if_pos hdecl]
  · next hdecl =>
    have hnoted : p.Noted { function := p.function f } [] := fun v _ => by simp
    have hblocks := spells_blocksLines h (p.function f).blocks hnoted
    refine (hblocks.map fun blocks => Line.text 0 (p.headText (p.function f) ++ " \x7b") ::
      (separate blocks).map (Line.indent 4) ++ [.text 0 "\x7d"]).congr (fun N => ?_)
      fun _ _ => Iff.rfl
    rw [headText_eq h hf N, FunctionDecl.lines, functionDeclWith, if_neg hdecl]

section

variable (h : p.Built) {f : FunctionId} (hf : f.index < p.functions.size)

include h hf

theorem naming_function : (p.naming f).function = p.function f :=
  (spells_functionLines h hf).function

/-- The values with numbers are those that the listing of `f` mentions, apart from arguments. -/
theorem mem_naming_iff : v ∈ (p.naming f).named ↔
    v ∈ p.functionMentions f ∧ p.argument? (p.function f) v = none := by
  have hmem : v ∈ (p.naming f).named ↔ v ∈ ([] : List ValueId) ∨
      v ∈ p.functionMentions f ∧ p.argument? (p.function f) v = none :=
    (spells_functionLines h hf).mem v
  simpa using hmem

/-- The lines of `f` are those of its tree. -/
theorem functionLines_eq :
    (p.functionLines (p.function f) { function := p.function f }).1 = (p.functionDecl f).lines :=
  (spells_functionLines h hf).result (p.naming f) (naming_function h hf) List.prefix_rfl

end

/-- The listing of a program `p` with one module is the written form of its trees. -/
theorem listing_eq_textOf (h : p.Built) {fs : List FunctionId} (hfs : p.modules = #[fs]) :
    p.listing = textOf p.decls := by
  have hlines : (fs.map fun id =>
      ((p.functionLines (p.function id)).run { function := p.function id }).1) =
      (fs.map p.functionDecl).map FunctionDecl.lines := by
    rw [List.map_map]
    refine List.map_congr_left fun f hf => functionLines_eq h (h.member_lt (m := ⟨0⟩) ?_)
    simpa [functionsOf, hfs] using hf
  unfold listing moduleLines decls textOf
  simp only [hfs, List.flatMap_cons, List.flatMap_nil, List.append_nil, List.flatten_cons,
    List.flatten_nil]
  rw [hlines]

end Program

end FlowFacts
