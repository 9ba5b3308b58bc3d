import FlowFacts.Proofs.Source.RoundTrip

/-!
# What a listing says

The listing of a program that was loaded follows the grammar, and read as a tree it says what
the program is: the functions in order with their heads, the blocks with their labels and
parameters, and the instructions with their operations, callees, targets and operands.  Values go
by the names that the listing gave them.  A constant, which belongs to no block, has one line of
its own that says what it is, before all instructions that use it.

## Main definitions

* `Program.GivesName` — the name of a value in the listing of a function.
* `Program.Tells`, `Program.LineTold` — an operation and a line of a listing.
* `Program.BlockTold`, `Program.FunctionTold` — a block and a function of a listing.

## Main results

* `givesName_of_mention` — all that a listing mentions has a name there.
* `Loaded.functionTold` — the tree of a function says what the function is.
* `listing_told` — a listing says what was printed.
-/

namespace FlowFacts

open Source

namespace Program

variable {p : Program} {f : FunctionId} {b : BlockId} {v w : ValueId} {op : Operation}
  {bs : List BlockId}

/-! ### What is said -/

/-- The `name` of `v` in the listing of `f`: asked again at the end of the listing, the listing
gives this name, and it is no new one. -/
def GivesName (p : Program) (f : FunctionId) (v : ValueId) (name : String) : Prop :=
  p.nameOf v (p.naming f) = (name, p.naming f)

/-- An operation as a line of `f` tells it. -/
inductive Tells (p : Program) (f : FunctionId) : Operation → OperationDecl → Prop
  /-- An annotation has its name. -/
  | annotate {name : String} : Tells p f (.annotate name) (.annotate name)
  /-- A negation names its operand. -/
  | not {arg : ValueId} {x : String} : p.GivesName f arg x → Tells p f (.not arg) (.not x)
  /-- A binary operation names its operands. -/
  | binary {op : BinaryOp} {lhs rhs : ValueId} {x y : String} : p.GivesName f lhs x →
      p.GivesName f rhs y → Tells p f (.binary op lhs rhs) (.binary op x y)
  /-- A branch names the label of its target and the values passed. -/
  | branch {target : Target} {xs : List String} : List.Forall₂ (p.GivesName f) target.args xs →
      Tells p f (.branch target) (.branch (p.block target.block).label xs)
  /-- A call names the path of its callee and the values passed. -/
  | call {callee : FunctionId} {args : List ValueId} {xs : List String} :
      List.Forall₂ (p.GivesName f) args xs →
      Tells p f (.call callee args) (.call (p.function callee).path xs)
  /-- A comparison has its predicate and names its operands. -/
  | compare {predicate : Comparison} {lhs rhs : ValueId} {x y : String} : p.GivesName f lhs x →
      p.GivesName f rhs y → Tells p f (.compare predicate lhs rhs) (.compare predicate x y)
  /-- A conditional branch names its condition, and its targets like a branch. -/
  | condBranch {cond : ValueId} {whenTrue whenFalse : Target} {x : String} {xs ys : List String} :
      p.GivesName f cond x → List.Forall₂ (p.GivesName f) whenTrue.args xs →
      List.Forall₂ (p.GivesName f) whenFalse.args ys →
      Tells p f (.condBranch cond whenTrue whenFalse)
        (.condBranch x (p.block whenTrue.block).label xs (p.block whenFalse.block).label ys)
  /-- Nothing is told as such. -/
  | nop : Tells p f .nop .nop
  /-- A return has its type and names the value. -/
  | ret {value : ValueId} {ty : Ty} {x : String} : p.GivesName f value x →
      Tells p f (.ret value ty) (.ret ty x)

/-- A value as a line of `f` tells it. -/
inductive LineTold (p : Program) (f : FunctionId) : ValueId → InstructionDecl → Prop
  /-- A constant has its type and its value. -/
  | constant {v : ValueId} {x : Constant} {name : String} : p.constant? v = some x →
      p.GivesName f v name → LineTold p f v { name := some name, operation := .const x.ty x }
  /-- An instruction with a result has a name. -/
  | result {v : ValueId} {op : Operation} {d : OperationDecl} {name : String} :
      p.operation? v = some op → op.hasResult = true → p.GivesName f v name → p.Tells f op d →
      LineTold p f v { name := some name, operation := d }
  /-- Another instruction has none. -/
  | other {v : ValueId} {op : Operation} {d : OperationDecl} : p.operation? v = some op →
      op.hasResult = false → p.Tells f op d → LineTold p f v { name := none, operation := d }

/-- A block with the values of its lines, `x`, as it is told.  The arguments of the entry are
told with the function. -/
structure BlockTold (p : Program) (f : FunctionId) (x : BlockId × List ValueId) (d : BlockDecl) :
    Prop where
  /-- It has its label. -/
  label : d.label = (p.block x.1).label
  /-- Its parameters have names and their types. -/
  params : List.Forall₂ (fun v y => p.GivesName f v y.1 ∧ p.typeOf v = some y.2)
    (if x.1 = (p.function f).entry then [] else (p.block x.1).params) d.params
  /-- Its lines tell values. -/
  lines : List.Forall₂ (p.LineTold f) x.2 d.body
  /-- Apart from constants these are its instructions, in order. -/
  instructions : x.2.filter (fun v => (p.constant? v).isNone) = (p.block x.1).instructions

/-- The blocks of `f` with the values of their lines, `xs`, as they are told. -/
structure BodyTold (p : Program) (f : FunctionId) (xs : List (BlockId × List ValueId))
    (ds : List BlockDecl) : Prop where
  /-- These are the blocks of the function, in order. -/
  blocks : xs.map Prod.fst = (p.function f).blocks
  /-- Each is told. -/
  told : List.Forall₂ (p.BlockTold f) xs ds
  /-- Nothing has two lines. -/
  once : (xs.flatMap Prod.snd).Nodup
  /-- The constants with a line are those that are used. -/
  used : ∀ c, (p.constant? c).isSome → (c ∈ xs.flatMap Prod.snd ↔
    ∃ v ∈ p.instructionsOf (p.function f).blocks, c ∈ p.operandsOf v)
  /-- The line of a constant comes before all instructions that use it. -/
  before : ∀ before v after, xs.flatMap Prod.snd = before ++ v :: after →
    ∀ c ∈ p.operandsOf v, (p.constant? c).isSome → c ∈ before

/-- A function `f` as it is told. -/
structure FunctionTold (p : Program) (f : FunctionId) (d : FunctionDecl) : Prop where
  /-- It has its path. -/
  path : d.path = (p.function f).path
  /-- The arguments have their names and types. -/
  args : List.Forall₂ (fun x y => y.1 = x.1 ∧ p.typeOf x.2 = some y.2) (p.function f).args d.args
  /-- They are the parameters of the entry. -/
  entry : (p.block (p.function f).entry).params = (p.function f).args.map Prod.snd
  /-- The result has its type. -/
  returnType : d.returnType = (p.function f).returnType
  /-- Declarations are told without a body. -/
  declaration : d.blocks = none ↔ (p.function f).isDeclaration = true
  /-- Otherwise the body is told. -/
  body : ∀ ds, d.blocks = some ds → ∃ xs, p.BodyTold f xs ds

/-! ### Names -/

/-- A value `v` that the listing of `f` mentions has a name there. -/
theorem givesName_of_mention (h : p.Built) (hf : f.index < p.functions.size)
    (hv : v ∈ p.functionMentions f) : p.GivesName f v (p.spelling (p.naming f) v) := by
  have hfunction := naming_function h hf
  cases hargument : p.argument? (p.naming f).function v with
  | some name =>
    rw [GivesName, nameOf_argument hargument, spelling, hargument]
    rfl
  | none =>
    have hmem := (mem_naming_iff h hf).2 ⟨hv, hfunction ▸ hargument⟩
    rw [GivesName, nameOf_mem hargument hmem, spelling, hargument]
    rfl

theorem forall₂_map_of_forall {α β : Type} {R : α → β → Prop} {g : α → β} {l : List α}
    (h : ∀ x ∈ l, R x (g x)) : List.Forall₂ R l (l.map g) :=
  List.forall₂_map_right_iff.2 (List.forall₂_same.2 h)

theorem tells_operationDecl {N : Naming}
    (h : ∀ w ∈ op.operands, p.GivesName f w (p.spelling N w)) :
    p.Tells f op (p.operationDecl N op) := by
  cases op with
  | annotate name => exact .annotate
  | not arg => exact .not (h arg (by simp [Operation.operands]))
  | binary op lhs rhs =>
    exact .binary (h lhs (by simp [Operation.operands])) (h rhs (by simp [Operation.operands]))
  | branch target => exact .branch (forall₂_map_of_forall h)
  | call callee args => exact .call (forall₂_map_of_forall h)
  | compare predicate lhs rhs =>
    exact .compare (h lhs (by simp [Operation.operands])) (h rhs (by simp [Operation.operands]))
  | condBranch cond whenTrue whenFalse =>
    refine .condBranch (h cond (by simp [Operation.operands]))
      (forall₂_map_of_forall fun w hw => h w ?_) (forall₂_map_of_forall fun w hw => h w ?_)
    · simp [Operation.operands, hw]
    · simp [Operation.operands, hw]
  | nop => exact .nop
  | ret value ty => exact .ret (h value (by simp [Operation.operands]))

/-- The line of `v` tells it, if all that the line mentions has a name. -/
theorem lineTold_lineDecl (hv : (p.constant? v).isSome ∨ (p.operation? v).isSome)
    (h : ∀ w ∈ p.mentions v, p.GivesName f w (p.spelling (p.naming f) w)) :
    p.LineTold f v (p.lineDecl (p.naming f) v) := by
  cases hvalue : p.value v with
  | parameter b i ty => simp [constant?, operation?, hvalue] at hv
  | constant x =>
    have hannounces : p.announces v = true := by simp [announces, hvalue]
    have hline : p.lineDecl (p.naming f) v =
        { name := some (p.spelling (p.naming f) v), operation := .const x.ty x } := by
      simp [lineDecl, hannounces, hvalue]
    rw [hline]
    exact .constant (by simp [constant?, hvalue]) (h v (by simp [mentions, hannounces]))
  | instruction b op =>
    have hop : p.operation? v = some op := operation?_eq_some_iff.2 ⟨b, hvalue⟩
    have hannounces : p.announces v = op.hasResult := by simp [announces, hvalue]
    have htells : p.Tells f op (p.operationDecl (p.naming f) op) := by
      refine tells_operationDecl fun w hw => h w (List.mem_append_right _ ?_)
      simpa [operandsOf, hop] using hw
    cases hresult : op.hasResult with
    | true =>
      have hline : p.lineDecl (p.naming f) v =
          { name := some (p.spelling (p.naming f) v),
            operation := p.operationDecl (p.naming f) op } := by
        simp [lineDecl, hannounces, hresult, hvalue]
      rw [hline]
      exact .result hop hresult (h v (by simp [mentions, hannounces, hresult])) htells
    | false =>
      have hline : p.lineDecl (p.naming f) v =
          { name := none, operation := p.operationDecl (p.naming f) op } := by
        simp [lineDecl, hannounces, hresult, hvalue]
      rw [hline]
      exact .other hop hresult htells

/-! ### Blocks -/

/-- Blocks of `p` with the values of their lines, behind lines of some values. -/
def listedBlocks (p : Program) : List ValueId → List BlockId → List (BlockId × List ValueId)
  | _, [] => []
  | seen, b :: bs =>
      (b, p.listed seen (p.block b).instructions) ::
        p.listedBlocks (seen ++ p.listed seen (p.block b).instructions) bs

theorem map_fst_listedBlocks : ∀ {seen : List ValueId},
    (p.listedBlocks seen bs).map Prod.fst = bs := by
  induction bs with
  | nil => exact rfl
  | cons b bs ih => exact congrArg (b :: ·) ih

theorem flatMap_snd_listedBlocks : ∀ {seen : List ValueId},
    (p.listedBlocks seen bs).flatMap Prod.snd = p.listed seen (p.instructionsOf bs) := by
  induction bs with
  | nil => exact rfl
  | cons b bs ih =>
    intro seen
    rw [listedBlocks, List.flatMap_cons, ih, instructionsOf_cons, listed_append]

/-- What the line of `v` mentions is mentioned by the instructions `vs`. -/
theorem mem_flatMap_mentions {vs seen : List ValueId} (hv : v ∈ p.listed seen vs)
    (hw : w ∈ p.mentions v) : w ∈ vs.flatMap p.mentions := by
  rcases mem_or_constant_of_mem_listed hv with hv | ⟨hconst, -, u, hu, hvu⟩
  · exact List.mem_flatMap.2 ⟨v, hv, hw⟩
  · -- a constant mentions itself only
    have hvalue := value_of_constant? (Option.get_mem hconst)
    obtain rfl : w = v := by simpa [mentions, announces, operandsOf, operation?, hvalue] using hw
    exact List.mem_flatMap.2 ⟨u, hu, List.mem_append_right _ hvu⟩

section

variable (h : p.Loaded) (hf : f.index < p.functions.size)
  (hdecl : (p.function f).isDeclaration = false)

include h hf

theorem Loaded.ownParams_eq (hb : b ∈ (p.function f).blocks) :
    p.ownParams b = if b = (p.function f).entry then [] else (p.block b).params := by
  obtain ⟨first, last, start, stop, hregion⟩ := h.exists_region hf
  rw [ownParams, hregion.owner b hb]
  exact if_congr (beq_iff_eq.trans eq_comm) rfl rfl

include hdecl

/-- What the block `b` mentions has a name. -/
theorem Loaded.givesName_of_block (hb : b ∈ (p.function f).blocks) (hv : v ∈ p.blockMentions b) :
    p.GivesName f v (p.spelling (p.naming f) v) := by
  refine givesName_of_mention h.built hf ?_
  rw [functionMentions, if_neg (by simp [hdecl])]
  exact List.mem_flatMap.2 ⟨b, hb, hv⟩

/-- The tree of the block `b` says what the block is. -/
theorem Loaded.blockTold (hb : b ∈ (p.function f).blocks) (seen : List ValueId) :
    p.BlockTold f (b, p.listed seen (p.block b).instructions)
      (p.blockDecl (p.naming f) seen b) where
  label := rfl
  params := by
    rw [params_blockDecl, h.ownParams_eq hf hb]
    refine forall₂_map_of_forall fun v hv => ?_
    have hown : v ∈ p.ownParams b := h.ownParams_eq hf hb ▸ hv
    refine ⟨h.givesName_of_block hf hdecl hb (List.mem_append_left _ hown), ?_⟩
    split at hv
    · cases hv
    · obtain ⟨ty, hty⟩ := h.built.exists_typeOf_param hv
      rw [parameterDecl, hty]
      rfl
  lines := by
    refine forall₂_map_of_forall fun v hv => lineTold_lineDecl ?_ fun w hw => ?_
    · rcases mem_or_constant_of_mem_listed hv with hv | ⟨hconst, -⟩
      · exact Or.inr (h.built.allOperations b v hv)
      · exact Or.inl hconst
    · exact h.givesName_of_block hf hdecl hb
        (List.mem_append_right _ (mem_flatMap_mentions hv hw))
  instructions := filter_listed (h.built.allOperations b)

theorem Loaded.forall₂_blockTold : ∀ {seen : List ValueId},
    (∀ b ∈ bs, b ∈ (p.function f).blocks) → List.Forall₂ (p.BlockTold f) (p.listedBlocks seen bs)
      (p.blockDecls (p.naming f) seen bs) := by
  induction bs with
  | nil => exact fun _ => .nil
  | cons b bs ih =>
    intro seen hbs
    rw [List.forall_mem_cons] at hbs
    exact .cons (h.blockTold hf hdecl hbs.1 seen) (ih hbs.2)

/-- The tree of the body of `f` says what the body is. -/
theorem Loaded.bodyTold : p.BodyTold f (p.listedBlocks [] (p.function f).blocks)
    (p.blockDecls (p.naming f) [] (p.function f).blocks) where
  blocks := map_fst_listedBlocks
  told := h.forall₂_blockTold hf hdecl fun _ hb => hb
  once := by
    rw [flatMap_snd_listedBlocks]
    exact (List.nodup_append.1 (h.nodup_recreated hf)).2.1
  used c hconst := by
    rw [flatMap_snd_listedBlocks]
    constructor
    · intro hc
      rcases mem_or_constant_of_mem_listed hc with hc | ⟨-, -, hused⟩
      · obtain ⟨op, hop⟩ := Option.isSome_iff_exists.1 (h.allOperations c hc)
        simp [constant?_of_operation? hop] at hconst
      · exact hused
    · rintro ⟨v, hv, hc⟩
      exact (mem_seen_or_listed hconst hv hc).resolve_left List.not_mem_nil
  before before v after hsplit c hc hconst := by
    rw [flatMap_snd_listedBlocks] at hsplit
    have hop : (p.operation? v).isSome := by
      cases hop : p.operation? v with
      | none => simp [operandsOf, hop] at hc
      | some op => rfl
    exact constant_mem_before hop hc hconst hsplit

end

/-- The tree of the function `f` says what the function is. -/
theorem Loaded.functionTold (h : p.Loaded) (hf : f.index < p.functions.size) :
    p.FunctionTold f (p.functionDecl f) where
  path := rfl
  args := forall₂_map_of_forall fun x hx => by
    obtain ⟨ty, hty⟩ := h.built.exists_typeOf_param (h.built.arg hf hx)
    exact ⟨rfl, by rw [hty]; rfl⟩
  entry := h.entry_eq hf
  returnType := rfl
  declaration := by simp [functionDecl, functionDeclWith]
  body ds hds := by
    rw [functionDecl, functionDeclWith] at hds
    cases hdecl : (p.function f).isDeclaration with
    | true => simp [hdecl] at hds
    | false =>
      simp only [hdecl, Bool.false_eq_true, if_false, Option.some.injEq] at hds
      exact ⟨_, hds ▸ h.bodyTold hf hdecl⟩

end Program

/-- **A listing says what was printed.**  Take a text that is accepted.  The listing of its program
follows the grammar to its end, and the trees that are read there are those of the functions, in
order: with their paths, arguments, types and blocks, with the labels, the parameters and the
instructions of the blocks, and with all values by the names that the listing gave them.  Every
constant that is used has one line, of the same type and value, before all its uses. -/
theorem listing_told {text : String} {p : Program} (hload : Source.load text = .ok p) :
    ∃ ds, Source.read p.listing = .ok ds ∧
      List.Forall₂ p.FunctionTold p.modules.toList.flatten ds := by
  have h := Source.loaded_of_load hload
  refine ⟨p.decls, h.read_listing, Program.forall₂_map_of_forall fun f hf => h.functionTold ?_⟩
  rw [h.modules] at hf
  obtain ⟨i, hi, rfl⟩ : ∃ i, i < p.functions.size ∧ FunctionId.mk i = f := by simpa using hf
  exact hi

/-- A text with a string of a quote, a backslash, a control byte and a byte above ASCII, and with
the greatest word, both used in two blocks. -/
def byteStringText : String :=
  "module \x7b fn g(s: str, n: u64) -> bool fn f() -> bool \x7b entry(): " ++
  "s = const str \"\\x22\\x5c\\x00\\xff\" n = const u64 18446744073709551615 " ++
  "y = call g(s, n) br last(y) last(z: bool): w = call g(s, n) r = and z, w ret bool r \x7d \x7d"

/-- Its listing says what it is. -/
theorem byteString_listing_told :
    ∃ p ds, Source.load byteStringText = .ok p ∧
      p.constant? ⟨3⟩ = some (.str [34, 92, 0, 255]) ∧
      p.constant? ⟨4⟩ = some (.u64 18446744073709551615) ∧
      Source.read p.listing = .ok ds ∧ List.Forall₂ p.FunctionTold [⟨0⟩, ⟨1⟩] ds := by
  obtain ⟨p, hload, hp⟩ : ∃ p, Source.load byteStringText = .ok p ∧
      (p.constant? ⟨3⟩, p.constant? ⟨4⟩, p.modules.toList.flatten) =
        (some (.str [34, 92, 0, 255]), some (.u64 18446744073709551615), [⟨0⟩, ⟨1⟩]) :=
    Source.exists_load_of_map (by decide +kernel)
  simp only [Prod.mk.injEq] at hp
  obtain ⟨hstr, hword, hfunctions⟩ := hp
  obtain ⟨ds, hread, htold⟩ := listing_told hload
  exact ⟨p, ds, hload, hstr, hword, hread, hfunctions ▸ htold⟩

end FlowFacts
