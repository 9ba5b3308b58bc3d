import FlowFacts.Proofs.Program.Renumber
import FlowFacts.Proofs.Source.Listed
import FlowFacts.Proofs.Source.Region

/-!
# Listings read back

What the trees of a listing mean.  A listing creates the parameters of the blocks of a function
first and then the values of its lines, so if these values are counted in this order
(`Program.Counts`), the blocks that are read have parameters and instructions with the same
numbers.  A line means the operation it was written for, on the values that the names of the
operands stand for there (`Program.retold`).  Labels and callees are never mistaken, as the labels
of a function and the signatures of functions are different.

## Main definitions

* `Program.Counts` — values that have consecutive numbers.
* `Program.layoutDecls` — the trees of blocks, with all parameters.
* `Program.told` — what the names stand for after some values.
* `Program.retold` — what lines mean where they stand.

## Main results

* `layout_functionDecl` — the layout of the tree of a function.
* `heads_layoutDecls`, `bodiesIds_layoutDecls` — the blocks that are read.
* `bodiesValues_layoutDecls`, `bodiesResolve_layoutDecls` — the lines that are read.
* `legible_functionDeclWith` — the tree of a function can be written.
-/

namespace FlowFacts

open Source

namespace Program

variable {p : Program} {N : Naming} {σ : ValueId → ValueId} {f : FunctionId} {b : BlockId}
  {v : ValueId} {op : Operation} {vs ws seen : List ValueId} {bs : List BlockId} {site : Site}

/-! ### Numbers in order -/

/-- Values have consecutive numbers in `σ`, from some number on. -/
def Counts (σ : ValueId → ValueId) : Nat → List ValueId → Prop
  | _, [] => True
  | n, v :: vs => σ v = ⟨n⟩ ∧ Counts σ (n + 1) vs

theorem counts_append : ∀ {n : Nat},
    Counts σ n (vs ++ ws) ↔ Counts σ n vs ∧ Counts σ (n + vs.length) ws := by
  induction vs with
  | nil =>
    intro n
    simp [Counts]
  | cons v vs ih =>
    intro n
    rw [List.cons_append, Counts, Counts, ih, List.length_cons, and_assoc,
      show n + 1 + vs.length = n + (vs.length + 1) by omega]

theorem Counts.getElem? : ∀ {n i : Nat}, Counts σ n vs → vs[i]? = some v → σ v = ⟨n + i⟩ := by
  induction vs with
  | nil =>
    intro n i _ hv
    cases hv
  | cons w vs ih =>
    intro n i h hv
    cases i with
    | zero =>
      obtain rfl : w = v := by simpa using hv
      exact h.1
    | succ i =>
      have hnext := ih h.2 (i := i) (by simpa using hv)
      rwa [show n + 1 + i = n + (i + 1) by omega] at hnext

/-- The places in `vs` count its elements. -/
theorem counts_idxOf (h : vs.Nodup) : Counts (fun v => ⟨vs.idxOf v⟩) 0 vs := by
  -- on what is left of the list: the place of an element is the number of those before it
  have hsuffix : ∀ (ws before : List ValueId), before ++ ws = vs →
      Counts (fun v => ⟨vs.idxOf v⟩) before.length ws := by
    intro ws
    induction ws with
    | nil =>
      intro before _
      trivial
    | cons w ws ih =>
      intro before hvs
      have hnot : w ∉ before := by
        rw [← hvs] at h
        exact fun hw => (List.nodup_append.1 h).2.2 w hw w List.mem_cons_self rfl
      have hplace : vs.idxOf w = before.length := by
        rw [← hvs, List.idxOf_append_of_notMem hnot]
        simp
      refine ⟨congrArg ValueId.mk hplace, ?_⟩
      have hrest := ih (before ++ [w]) (by rw [← hvs, List.append_assoc]; rfl)
      rwa [List.length_append] at hrest
  exact hsuffix vs [] rfl

/-- Blocks with consecutive numbers. -/
def BlocksFrom : Nat → List BlockId → Prop
  | _, [] => True
  | k, b :: bs => b = ⟨k⟩ ∧ BlocksFrom (k + 1) bs

theorem blocksFrom_range' : ∀ (n k : Nat), BlocksFrom k ((List.range' k n).map BlockId.mk) := by
  intro n
  induction n with
  | zero =>
    intro k
    trivial
  | succ n ih =>
    intro k
    rw [List.range'_succ]
    exact ⟨rfl, ih (k + 1)⟩

theorem BlocksFrom.getElem? : ∀ {k i : Nat}, BlocksFrom k bs → bs[i]? = some b →
    b = ⟨k + i⟩ := by
  induction bs with
  | nil =>
    intro k i _ hb
    cases hb
  | cons c bs ih =>
    intro k i h hb
    cases i with
    | zero =>
      obtain rfl : c = b := by simpa using hb
      exact h.1
    | succ i =>
      rw [ih h.2 (i := i) (by simpa using hb), show k + 1 + i = k + (i + 1) by omega]

theorem BlocksFrom.le {k : Nat} (h : BlocksFrom k bs) (hb : b ∈ bs) : k ≤ b.index := by
  obtain ⟨i, hi⟩ := List.getElem?_of_mem hb
  rw [h.getElem? hi]
  exact Nat.le_add_right k i

/-! ### The layout of a function -/

/-- The trees of blocks, given the names `N`, with all parameters and after some lines. -/
def layoutDecls (p : Program) (N : Naming) : List ValueId → List BlockId → List BlockDecl
  | _, [] => []
  | seen, b :: bs =>
      { p.blockDecl N seen b with params := (p.block b).params.map (p.parameterDecl N) } ::
        p.layoutDecls N (seen ++ p.listed seen (p.block b).instructions) bs

theorem blockDecls_eq_layoutDecls
    (hbs : ∀ b ∈ bs, (p.function (p.block b).function).entry ≠ b) :
    ∀ {seen : List ValueId}, p.blockDecls N seen bs = p.layoutDecls N seen bs := by
  induction bs with
  | nil =>
    intro seen
    rfl
  | cons b bs ih =>
    intro seen
    rw [List.forall_mem_cons] at hbs
    have hparams : (p.blockDecl N seen b).params = (p.block b).params.map (p.parameterDecl N) :=
      if_neg (by simpa using hbs.1)
    rw [blockDecls, layoutDecls, ih hbs.2, ← hparams]

/-- An argument `x` is called by its name. -/
theorem argument?_of_mem_args (hbuilt : p.Built) (hf : f.index < p.functions.size)
    (hentry : (p.block (p.function f).entry).params = (p.function f).args.map Prod.snd)
    {x : String × ValueId} (hx : x ∈ (p.function f).args) :
    p.argument? (p.function f) x.2 = some x.1 := by
  obtain ⟨i, ty, hvalue⟩ := hbuilt.parameter_of_mem (hbuilt.arg hf hx)
  have hnodup := hbuilt.nodup_params (p.function f).entry
  rw [hentry] at hnodup
  have hfind : (p.function f).args.find? (·.2 == x.2) = some x := by
    have hsome : ((p.function f).args.find? (·.2 == x.2)).isSome :=
      List.find?_isSome.2 ⟨x, hx, by simp⟩
    obtain ⟨y, hy⟩ := Option.isSome_iff_exists.1 hsome
    have hsnd : y.2 = x.2 := by simpa using List.find?_some hy
    rw [hy, List.inj_on_of_nodup_map hnodup (List.mem_of_find?_eq_some hy) hx hsnd]
  rw [argument?, hvalue]
  simp [Function.argName?, hfind]

section

variable {n first last start stop : Nat} (hbuilt : p.Built) (hf : f.index < p.functions.size)
  (hregion : p.Region n f first last start stop)

include hbuilt hf hregion

theorem args_functionDecl : (p.functionDecl f).args =
    (p.block (p.function f).entry).params.map (p.parameterDecl (p.naming f)) := by
  rw [hregion.entry, List.map_map]
  refine List.map_congr_left fun x hx => ?_
  have hargument := argument?_of_mem_args hbuilt hf hregion.entry hx
  rw [Function.comp_apply, parameterDecl, spelling, naming_function hbuilt hf, hargument]
  rfl

/-- The layout of the tree of `f` consists of its blocks. -/
theorem layout_functionDecl : (p.functionDecl f).layout =
    p.layoutDecls (p.naming f) [] (p.function f).blocks := by
  have hargs := args_functionDecl hbuilt hf hregion
  -- the parameters of the entry are left out of its tree, and no other block is the entry
  have hothers : ∀ b ∈ (p.function f).others, (p.function (p.block b).function).entry ≠ b := by
    intro b hb
    have hblocks := hregion.blocks ▸ blocksFrom_range' (stop - start) start
    rw [hregion.owner b (List.mem_cons_of_mem _ hb)]
    rintro rfl
    have hle := hblocks.2.le hb
    rw [hblocks.1] at hle
    exact Nat.not_succ_le_self _ hle
  by_cases hdecl : (p.function f).isDeclaration = true
  · obtain ⟨hnone, hlabel, hinstructions⟩ := hregion.declaration hdecl
    have hblocks : (p.functionDecl f).blocks = none := if_pos hdecl
    rw [FunctionDecl.layout, hblocks, hargs, Function.blocks, hnone, layoutDecls, layoutDecls,
      blockDecl, hlabel, hinstructions]
    rfl
  · have hblocks : (p.functionDecl f).blocks =
        some (p.blockDecls (p.naming f) [] (p.function f).blocks) := if_neg hdecl
    rw [FunctionDecl.layout, hblocks, Function.blocks, blockDecls, layoutDecls, hargs,
      blockDecls_eq_layoutDecls hothers]

end

/-! ### Heads -/

/-- The parameters of the blocks `bs`. -/
def paramsOf (p : Program) (bs : List BlockId) : List ValueId :=
  bs.flatMap fun b => (p.block b).params

theorem paramsOf_cons (b : BlockId) (bs : List BlockId) :
    p.paramsOf (b :: bs) = (p.block b).params ++ p.paramsOf bs := rfl

theorem numbered_parameterDecl : ∀ {n : Nat}, Counts σ n vs →
    numbered n (vs.map (p.parameterDecl N)) = vs.map fun v => (p.spelling N v, σ v) := by
  induction vs with
  | nil =>
    intro n _
    rfl
  | cons v vs ih =>
    intro n h
    rw [List.map_cons, numbered, ih h.2, List.map_cons, h.1]
    rfl

theorem paramValues_parameterDecl : ∀ {i : Nat},
    (∀ j v, vs[j]? = some v → ∃ ty, p.value v = .parameter b (i + j) ty) →
      paramValues b i (vs.map (p.parameterDecl N)) = vs.map p.value := by
  induction vs with
  | nil =>
    intro i _
    rfl
  | cons v vs ih =>
    intro i h
    obtain ⟨ty, hty⟩ := h 0 v rfl
    have htype : p.typeOf v = some ty := typeOf_of_parameter hty
    have hrest := ih (i := i + 1) fun j w hw => by
      rw [show i + 1 + j = i + (j + 1) by omega]
      exact h (j + 1) w hw
    rw [List.map_cons, paramValues, hrest, List.map_cons, hty, parameterDecl, htype]
    rfl

@[simp] theorem length_layoutDecls : ∀ {seen : List ValueId},
    (p.layoutDecls N seen bs).length = bs.length := by
  induction bs with
  | nil =>
    intro seen
    rfl
  | cons b bs ih =>
    intro seen
    rw [layoutDecls, List.length_cons, ih, List.length_cons]

theorem labelled_layoutDecls : ∀ {k : Nat} {seen : List ValueId}, BlocksFrom k bs →
    labelled k (p.layoutDecls N seen bs) = bs.map fun b => ((p.block b).label, b) := by
  induction bs with
  | nil =>
    intro k seen _
    rfl
  | cons b bs ih =>
    intro k seen h
    obtain ⟨rfl, hbs⟩ := h
    rw [layoutDecls, labelled, ih hbs]
    rfl

/-- The blocks `bs` that are read, before their lines. -/
theorem heads_layoutDecls : ∀ {n : Nat} {seen : List ValueId}, Counts σ n (p.paramsOf bs) →
    heads f n (p.layoutDecls N seen bs) = bs.map fun b =>
      { label := (p.block b).label, function := f, params := (p.block b).params.map σ } := by
  induction bs with
  | nil =>
    intro n seen _
    rfl
  | cons b bs ih =>
    intro n seen h
    rw [paramsOf_cons] at h
    obtain ⟨hparams, hrest⟩ := counts_append.1 h
    rw [layoutDecls, heads, numbered_parameterDecl hparams, List.length_map, ih hrest]
    simp [blockDecl]

theorem headsValues_layoutDecls (hbuilt : p.Built) : ∀ {k : Nat} {seen : List ValueId},
    BlocksFrom k bs → headsValues k (p.layoutDecls N seen bs) = (p.paramsOf bs).map p.value := by
  induction bs with
  | nil =>
    intro k seen _
    rfl
  | cons b bs ih =>
    intro k seen h
    obtain ⟨rfl, hbs⟩ := h
    have hparams : paramValues ⟨k⟩ 0 ((p.block ⟨k⟩).params.map (p.parameterDecl N)) =
        (p.block ⟨k⟩).params.map p.value := by
      refine paramValues_parameterDecl fun j v hv => ?_
      rw [Nat.zero_add]
      exact (hbuilt.parameter hv).2
    rw [layoutDecls, headsValues, ih hbs, hparams, paramsOf_cons, List.map_append]

theorem paramCount_layoutDecls : ∀ {seen : List ValueId},
    paramCount (p.layoutDecls N seen bs) = (p.paramsOf bs).length := by
  induction bs with
  | nil =>
    intro seen
    rfl
  | cons b bs ih =>
    intro seen
    rw [layoutDecls, paramCount, ih, paramsOf_cons,
      List.length_append, List.length_map]

/-! ### Names -/

/-- What the names stand for after the values `vs`, each of which has its line or stands among
parameters. -/
def told (p : Program) (N : Naming) (σ : ValueId → ValueId) (vs : List ValueId) : Scope :=
  ((vs.filter p.announces).map fun v => (p.spelling N v, σ v)).reverse

theorem told_append : p.told N σ (vs ++ ws) = p.told N σ ws ++ p.told N σ vs := by
  simp [told]

theorem Built.announces_param (h : p.Built) (hv : v ∈ (p.block b).params) :
    p.announces v = true := by
  obtain ⟨i, ty, hvalue⟩ := h.parameter_of_mem hv
  rw [announces, hvalue]

theorem headsScope_layoutDecls (hbuilt : p.Built) : ∀ {n : Nat} {seen vs : List ValueId},
    Counts σ n (p.paramsOf bs) →
      headsScope (p.told N σ vs) n (p.layoutDecls N seen bs) =
        p.told N σ (vs ++ p.paramsOf bs) := by
  induction bs with
  | nil =>
    intro n seen vs _
    simp [layoutDecls, headsScope, paramsOf]
  | cons b bs ih =>
    intro n seen vs h
    rw [paramsOf_cons] at h
    obtain ⟨hparams, hrest⟩ := counts_append.1 h
    have hall : (p.block b).params.filter p.announces = (p.block b).params :=
      List.filter_eq_self.2 fun v hv => hbuilt.announces_param hv
    have htold : p.told N σ (vs ++ (p.block b).params) =
        ((p.block b).params.map fun v => (p.spelling N v, σ v)).reverse ++ p.told N σ vs := by
      rw [told_append, told, hall]
    rw [layoutDecls, headsScope, numbered_parameterDecl hparams, List.length_map, ← htold,
      ih hrest, paramsOf_cons, List.append_assoc]

theorem scope_lineDecl {n : Nat} (h : σ v = ⟨n⟩) :
    (p.lineDecl N v).scope (p.told N σ vs) ⟨n⟩ = p.told N σ (vs ++ [v]) := by
  rw [told_append, InstructionDecl.scope, lineDecl, ← h]
  cases hv : p.announces v <;> simp [told, hv]

theorem bodyScope_lineDecl : ∀ {n : Nat} {vs : List ValueId}, Counts σ n ws →
    bodyScope (p.told N σ vs) n (ws.map (p.lineDecl N)) = p.told N σ (vs ++ ws) := by
  induction ws with
  | nil =>
    intro n vs _
    simp [bodyScope]
  | cons w ws ih =>
    intro n vs h
    rw [List.map_cons, bodyScope, scope_lineDecl h.1, ih h.2, List.append_assoc]
    rfl

/-! ### Lines of blocks -/

theorem listed_append : ∀ {seen : List ValueId}, p.listed seen (vs ++ ws) =
    p.listed seen vs ++ p.listed (seen ++ p.listed seen vs) ws := by
  induction vs with
  | nil =>
    intro seen
    simp [listed]
  | cons v vs ih =>
    intro seen
    rw [List.cons_append, listed, listed, ih]
    simp only [List.append_assoc]

theorem instructionsOf_cons (b : BlockId) (bs : List BlockId) :
    p.instructionsOf (b :: bs) = (p.block b).instructions ++ p.instructionsOf bs := rfl

theorem isConst_lineDecl (N : Naming) (v : ValueId) :
    (p.lineDecl N v).operation.isConst = (p.constant? v).isSome := by
  rw [lineDecl, constant?]
  cases hv : p.value v with
  | parameter block i ty => rfl
  | constant c => rfl
  | instruction block op => cases op <;> rfl

theorem constant?_of_mem_newConstants (hv : v ∈ p.newConstants seen vs) :
    (p.constant? v).isSome := (mem_newConstants_iff.1 hv).2.1

/-- Among the values that have lines, those that are no constants are the instructions `vs`. -/
theorem filter_listed : ∀ {seen : List ValueId}, p.AllOperations vs →
    (p.listed seen vs).filter (fun v => (p.constant? v).isNone) = vs := by
  induction vs with
  | nil =>
    intro seen _
    rfl
  | cons v vs ih =>
    intro seen h
    rw [AllOperations, List.forall_mem_cons] at h
    obtain ⟨op, hop⟩ := Option.isSome_iff_exists.1 h.1
    have hnew : (p.newConstants seen (p.operandsOf v)).filter
        (fun v => (p.constant? v).isNone) = [] := by
      rw [List.filter_eq_nil_iff]
      intro w hw
      have hconst := constant?_of_mem_newConstants hw
      simpa [Option.isSome_iff_ne_none] using hconst
    rw [listed, List.filter_append, List.filter_append, hnew, ih h.2]
    simp [constant?_of_operation? hop]

theorem bodyIds_lineDecl : ∀ {n : Nat}, Counts σ n ws →
    bodyIds n (ws.map (p.lineDecl N)) =
      (ws.filter fun v => (p.constant? v).isNone).map σ := by
  induction ws with
  | nil =>
    intro n _
    rfl
  | cons w ws ih =>
    intro n h
    rw [List.map_cons, bodyIds, ih h.2, isConst_lineDecl, List.filter_cons]
    cases hw : p.constant? w with
    | none => simp [h.1]
    | some c => simp

/-- The instructions of the block `b` that is read. -/
theorem bodiesIds_layoutDecls (hbuilt : p.Built) (hb : b ∈ bs) :
    ∀ {n k : Nat} {seen : List ValueId}, BlocksFrom k bs →
      Counts σ n (p.listed seen (p.instructionsOf bs)) →
      bodiesIds n k (p.layoutDecls N seen bs) b = (p.block b).instructions.map σ := by
  induction bs with
  | nil => cases hb
  | cons c bs ih =>
    intro n k seen hbs h
    obtain ⟨rfl, hbs⟩ := hbs
    rw [instructionsOf_cons, listed_append] at h
    obtain ⟨hbody, hrest⟩ := counts_append.1 h
    rw [layoutDecls, bodiesIds]
    dsimp only [blockDecl]
    rw [bodyIds_lineDecl hbody, filter_listed (hbuilt.allOperations ⟨k⟩), List.length_map]
    by_cases hc : b = ⟨k⟩
    · rw [hc, if_pos rfl, bodiesIds_of_lt (Nat.lt_succ_self k), List.append_nil]
    · have hmem : b ∈ bs := (List.mem_cons.1 hb).resolve_left hc
      rw [if_neg hc, List.nil_append, ih hmem hbs hrest]

/-! ### Labels and callees -/

/-- The instructions of `f` that are read refer to blocks and functions with the numbers they
have in `p`. -/
structure Sited (p : Program) (f : FunctionId) (site : Site) : Prop where
  /-- A block is found by its label. -/
  block : ∀ b ∈ (p.function f).blocks, site.labels.lookup (p.block b).label = some b
  /-- A function is found by its signature. -/
  callee : ∀ g, g.index < p.functions.size →
    site.callee? (p.function g).path (p.function g).arity = some g

/-- An operation `op` of a function that has passed the check. -/
structure Settled (p : Program) (f : FunctionId) (op : Operation) : Prop where
  /-- It follows its rule. -/
  fits : p.Fits (p.function f) op
  /-- A callee is a function of the program. -/
  callee : ∀ callee args, op = .call callee args → callee.index < p.functions.size
  /-- A point is named by a name. -/
  point : ∀ x, op = .annotate x → Grammar.IsName x

theorem Sited.block_eq (h : p.Sited f site) (hb : b ∈ (p.function f).blocks) :
    site.block (p.block b).label = b := by
  rw [Site.block, h.block b hb]
  rfl

theorem Sited.callee?_eq (h : p.Sited f site) {callee : FunctionId} {args : List ValueId}
    (hop : p.Settled f (.call callee args)) :
    site.callee? (p.function callee).path args.length = some callee := by
  have harity : args.length = (p.function callee).arity := by
    have hlength := congrArg List.length hop.fits
    simpa [Function.arity] using hlength
  rw [harity]
  exact h.callee callee (hop.callee callee args rfl)

/-- The line of an instruction means its operation `op`, on what the names of the operands stand
for. -/
theorem value_operationDecl (h : p.Sited f site) (hop : p.Settled f op) (scope : Scope) :
    (p.operationDecl N op).value site scope b =
      .instruction b (op.renumber fun u => find scope (p.spelling N u)) := by
  cases op with
  | annotate | nop | not | binary | compare | ret => rfl
  | branch target =>
    have hblock := h.block_eq hop.fits.1
    simp [operationDecl, OperationDecl.value, Operation.renumber, Target.renumber, hblock,
      Function.comp_def]
  | call callee args =>
    have hcallee : site.callee (p.function callee).path args.length = callee := by
      rw [Site.callee, h.callee?_eq hop]
      rfl
    simp [operationDecl, OperationDecl.value, Operation.renumber, hcallee, Function.comp_def]
  | condBranch cond whenTrue whenFalse =>
    have htrue := h.block_eq hop.fits.2.1.1
    have hfalse := h.block_eq hop.fits.2.2.1
    simp [operationDecl, OperationDecl.value, Operation.renumber, Target.renumber, htrue, hfalse,
      Function.comp_def]

/-- The line of `op` can be resolved if the names of the operands stand for something. -/
theorem resolves_operationDecl (h : p.Sited f site) (hop : p.Settled f op) (scope : Scope) :
    (p.operationDecl N op).Resolves site scope ↔
      ∀ u ∈ op.operands, Known scope (p.spelling N u) := by
  cases op with
  | annotate | nop | not | binary | compare | ret =>
    simp [operationDecl, OperationDecl.Resolves, Operation.operands]
  | branch target =>
    have hblock := h.block _ hop.fits.1
    simp [operationDecl, OperationDecl.Resolves, Operation.operands, hblock]
  | call callee args => simp [operationDecl, OperationDecl.Resolves, Operation.operands]
  | condBranch cond whenTrue whenFalse =>
    have htrue := h.block _ hop.fits.2.1.1
    have hfalse := h.block _ hop.fits.2.2.1
    simp [operationDecl, OperationDecl.Resolves, Operation.operands, htrue, hfalse, or_imp,
      forall_and]

theorem called_operationDecl (h : p.Sited f site) (hop : p.Settled f op) :
    (p.operationDecl N op).Called site := by
  cases op with
  | call callee args =>
    have hcallee := congrArg Option.isSome (h.callee?_eq hop)
    rw [Site.callee?, Option.isSome_map] at hcallee
    simpa [operationDecl, OperationDecl.Called, OperationDecl.CalledIn] using hcallee
  | annotate | nop | not | binary | compare | ret | branch | condBranch => trivial

/-! ### Lines read back -/

/-- A value `v` that has a line in the block `b` of `f`. -/
def HasLine (p : Program) (f : FunctionId) (b : BlockId) (v : ValueId) : Prop :=
  (p.constant? v).isSome ∨ ∃ op, p.value v = .instruction b op ∧ p.Settled f op

/-- What lines mean after some values, where names stand for numbers in `σ`. -/
def retold (p : Program) (N : Naming) (σ : ValueId → ValueId) :
    List ValueId → List ValueId → List Value
  | _, [] => []
  | vs, w :: ws =>
      (p.value w).renumber (fun u => find (p.told N σ vs) (p.spelling N u)) ::
        p.retold N σ (vs ++ [w]) ws

/-- The names of all operands stand for something where they are used, where names stand for
numbers in `σ`. -/
def Knows (p : Program) (N : Naming) (σ : ValueId → ValueId) :
    List ValueId → List ValueId → Prop
  | _, [] => True
  | vs, w :: ws =>
      (∀ u ∈ p.operandsOf w, Known (p.told N σ vs) (p.spelling N u)) ∧
        p.Knows N σ (vs ++ [w]) ws

theorem retold_append {ws' : List ValueId} : ∀ {vs : List ValueId},
    p.retold N σ vs (ws ++ ws') = p.retold N σ vs ws ++ p.retold N σ (vs ++ ws) ws' := by
  induction ws with
  | nil =>
    intro vs
    simp [retold]
  | cons w ws ih =>
    intro vs
    rw [List.cons_append, retold, retold, ih, List.append_assoc]
    rfl

theorem knows_append {ws' : List ValueId} : ∀ {vs : List ValueId},
    p.Knows N σ vs (ws ++ ws') ↔ p.Knows N σ vs ws ∧ p.Knows N σ (vs ++ ws) ws' := by
  induction ws with
  | nil =>
    intro vs
    simp [Knows]
  | cons w ws ih =>
    intro vs
    rw [List.cons_append, Knows, Knows, ih, List.append_assoc, and_assoc]
    rfl

theorem value_lineDecl (h : p.Sited f site) (hv : p.HasLine f b v) (scope : Scope) :
    (p.lineDecl N v).operation.value site scope b =
      (p.value v).renumber fun u => find scope (p.spelling N u) := by
  rcases hv with hv | ⟨op, hvalue, hop⟩
  · obtain ⟨c, hc⟩ := Option.isSome_iff_exists.1 hv
    rw [lineDecl, value_of_constant? hc]
    rfl
  · rw [lineDecl, hvalue]
    exact value_operationDecl h hop scope

theorem resolves_lineDecl (h : p.Sited f site) (hv : p.HasLine f b v) (scope : Scope) :
    (p.lineDecl N v).operation.Resolves site scope ↔
      ∀ u ∈ p.operandsOf v, Known scope (p.spelling N u) := by
  rcases hv with hv | ⟨op, hvalue, hop⟩
  · obtain ⟨c, hc⟩ := Option.isSome_iff_exists.1 hv
    have hvalue := value_of_constant? hc
    simp [lineDecl, operandsOf, operation?, hvalue, OperationDecl.Resolves]
  · have hoperands : p.operandsOf v = op.operands := by simp [operandsOf, operation?, hvalue]
    rw [lineDecl, hvalue, hoperands]
    exact resolves_operationDecl h hop scope

theorem called_lineDecl (h : p.Sited f site) (hv : p.HasLine f b v) :
    (p.lineDecl N v).operation.Called site := by
  rcases hv with hv | ⟨op, hvalue, hop⟩
  · obtain ⟨c, hc⟩ := Option.isSome_iff_exists.1 hv
    rw [lineDecl, value_of_constant? hc]
    trivial
  · rw [lineDecl, hvalue]
    exact called_operationDecl h hop

theorem bodyValues_lineDecl (h : p.Sited f site) (hws : ∀ w ∈ ws, p.HasLine f b w) :
    ∀ {n : Nat} {vs : List ValueId}, Counts σ n ws →
      bodyValues site b (p.told N σ vs) n (ws.map (p.lineDecl N)) = p.retold N σ vs ws := by
  induction ws with
  | nil =>
    intro n vs _
    rfl
  | cons w ws ih =>
    intro n vs hcounts
    rw [List.forall_mem_cons] at hws
    rw [List.map_cons, bodyValues, value_lineDecl h hws.1, scope_lineDecl hcounts.1,
      ih hws.2 hcounts.2, retold]

theorem bodyResolves_lineDecl (h : p.Sited f site) (hws : ∀ w ∈ ws, p.HasLine f b w) :
    ∀ {n : Nat} {vs : List ValueId}, Counts σ n ws →
      (BodyResolves site (p.told N σ vs) n (ws.map (p.lineDecl N)) ↔ p.Knows N σ vs ws) := by
  induction ws with
  | nil =>
    intro n vs _
    exact Iff.rfl
  | cons w ws ih =>
    intro n vs hcounts
    rw [List.forall_mem_cons] at hws
    rw [List.map_cons, BodyResolves, resolves_lineDecl h hws.1, scope_lineDecl hcounts.1,
      ih hws.2 hcounts.2, Knows]

/-- The instructions of the blocks `bs` of `f` follow their rules. -/
def AllSettled (p : Program) (f : FunctionId) (bs : List BlockId) : Prop :=
  ∀ b ∈ bs, ∀ v ∈ (p.block b).instructions, ∃ op, p.value v = .instruction b op ∧ p.Settled f op

theorem hasLine_of_mem_listed (hvs : ∀ v ∈ vs, ∃ op, p.value v = .instruction b op ∧
    p.Settled f op) : ∀ {seen : List ValueId}, ∀ v ∈ p.listed seen vs, p.HasLine f b v := by
  induction vs with
  | nil =>
    intro seen v hv
    cases hv
  | cons w vs ih =>
    intro seen v hv
    rw [List.forall_mem_cons] at hvs
    rw [listed] at hv
    simp only [List.mem_append, List.mem_singleton] at hv
    rcases hv with (hv | rfl) | hv
    · exact Or.inl (constant?_of_mem_newConstants hv)
    · exact Or.inr hvs.1
    · exact ih hvs.2 v hv

/-- The lines of `bs` that are read mean what they were written for, as far as names go. -/
theorem bodiesValues_layoutDecls (h : p.Sited f site) (hbs : p.AllSettled f bs) :
    ∀ {n k : Nat} {seen vs : List ValueId}, BlocksFrom k bs →
      Counts σ n (p.listed seen (p.instructionsOf bs)) →
      bodiesValues site (p.told N σ vs) n k (p.layoutDecls N seen bs) =
        p.retold N σ vs (p.listed seen (p.instructionsOf bs)) := by
  induction bs with
  | nil =>
    intro n k seen vs _ _
    rfl
  | cons b bs ih =>
    intro n k seen vs hfrom hcounts
    obtain ⟨rfl, hfrom⟩ := hfrom
    rw [AllSettled, List.forall_mem_cons] at hbs
    rw [instructionsOf_cons, listed_append] at hcounts ⊢
    obtain ⟨hbody, hrest⟩ := counts_append.1 hcounts
    -- the lines of the first block are told before those of the next ones are read
    rw [layoutDecls, bodiesValues]
    dsimp only [blockDecl]
    rw [bodyValues_lineDecl h (hasLine_of_mem_listed hbs.1) hbody, bodyScope_lineDecl hbody,
      List.length_map, ih hbs.2 hfrom hrest, retold_append]

/-- The lines of `bs` can be resolved if the names of all operands are known. -/
theorem bodiesResolve_layoutDecls (h : p.Sited f site) (hbs : p.AllSettled f bs) :
    ∀ {n : Nat} {seen vs : List ValueId}, Counts σ n (p.listed seen (p.instructionsOf bs)) →
      (BodiesResolve site (p.told N σ vs) n (p.layoutDecls N seen bs) ↔
        p.Knows N σ vs (p.listed seen (p.instructionsOf bs))) := by
  induction bs with
  | nil =>
    intro n seen vs _
    exact Iff.rfl
  | cons b bs ih =>
    intro n seen vs hcounts
    rw [AllSettled, List.forall_mem_cons] at hbs
    rw [instructionsOf_cons, listed_append] at hcounts ⊢
    obtain ⟨hbody, hrest⟩ := counts_append.1 hcounts
    rw [layoutDecls, BodiesResolve]
    dsimp only [blockDecl]
    rw [bodyResolves_lineDecl h (hasLine_of_mem_listed hbs.1) hbody, bodyScope_lineDecl hbody,
      List.length_map, ih hbs.2 hrest, knows_append]

theorem called_layoutDecls (h : p.Sited f site) (hbs : p.AllSettled f bs) :
    ∀ {seen : List ValueId}, ∀ x ∈ (p.layoutDecls N seen bs).flatMap BlockDecl.body,
      x.operation.Called site := by
  induction bs with
  | nil =>
    intro seen x hx
    cases hx
  | cons b bs ih =>
    intro seen x hx
    rw [AllSettled, List.forall_mem_cons] at hbs
    rw [layoutDecls, List.flatMap_cons, List.mem_append] at hx
    rcases hx with hx | hx
    · obtain ⟨v, hv, rfl⟩ := List.mem_map.1 hx
      exact called_lineDecl h (hasLine_of_mem_listed hbs.1 v hv)
    · exact ih hbs.2 x hx

/-! ### Words -/

theorem isName_numberedName (n : Nat) : Grammar.IsName (numberedName n) := by
  have hlist : (numberedName n).toList = 'v' :: Nat.toDigits 10 n := by
    rw [numberedName, String.toList_append, show toString n = n.repr from rfl, Nat.toList_repr]
    rfl
  -- the names of types start with other letters
  have hne : ∀ s : String, s.toList.head? ≠ some 'v' → numberedName n ≠ s := by
    rintro s hs rfl
    rw [hlist] at hs
    exact hs rfl
  refine ⟨⟨'v', Nat.toDigits 10 n, hlist, by decide, fun c hc => ?_⟩,
    hne _ (by decide), hne _ (by decide), hne _ (by decide)⟩
  have hdigit : c.isDigit = true :=
    Nat.isDigit_of_mem_toDigits (b := 10) (n := n) (by omega) (by omega) hc
  exact Grammar.isNameChar_of_isDigit hdigit

/-- The name of `v` in a listing is a name of program texts. -/
theorem isName_spelling (hN : N.function = p.function f) (hnamed : p.Named f) (v : ValueId) :
    Grammar.IsName (p.spelling N v) := by
  rw [spelling, hN]
  cases hargument : p.argument? (p.function f) v with
  | none => exact isName_numberedName _
  | some name =>
    unfold argument? at hargument
    split at hargument
    · obtain ⟨x, hx, rfl⟩ := Option.map_eq_some_iff.1 hargument
      exact hnamed.args x (List.mem_of_find?_eq_some hx)
    · cases hargument

section

variable (hnamed : ∀ g : FunctionId, g.index < p.functions.size → p.Named g)
  (hf : f.index < p.functions.size) (hN : N.function = p.function f)

include hnamed hf hN

theorem legible_operationDecl (hop : p.Settled f op) : (p.operationDecl N op).Legible := by
  have hname := isName_spelling hN (hnamed f hf)
  have hnames : ∀ us : List ValueId, ∀ x ∈ us.map (p.spelling N), Grammar.IsName x := by
    intro us x hx
    obtain ⟨u, -, rfl⟩ := List.mem_map.1 hx
    exact hname u
  have hlabel := (hnamed f hf).label
  cases op with
  | annotate name => exact hop.point name rfl
  | nop => trivial
  | not arg => exact hname arg
  | binary op lhs rhs | compare predicate lhs rhs => exact ⟨hname lhs, hname rhs⟩
  | branch target => exact ⟨hlabel _ hop.fits.1, hnames _⟩
  | call callee args =>
    have hcallee := hnamed callee (hop.callee callee args rfl)
    exact ⟨hcallee.path_ne, hcallee.path, hnames _⟩
  | condBranch cond whenTrue whenFalse =>
    exact ⟨hname cond, ⟨hlabel _ hop.fits.2.1.1, hnames _⟩, hlabel _ hop.fits.2.2.1, hnames _⟩
  | ret value ty => exact hname value

theorem legible_lineDecl (hv : p.HasLine f b v) : (p.lineDecl N v).Legible := by
  refine ⟨fun x hx => ?_, ?_⟩
  · rw [lineDecl, Option.mem_def] at hx
    dsimp only at hx
    split at hx
    · cases hx
      exact isName_spelling hN (hnamed f hf) v
    · cases hx
  · rcases hv with hv | ⟨op, hvalue, hop⟩
    · obtain ⟨c, hc⟩ := Option.isSome_iff_exists.1 hv
      rw [lineDecl, value_of_constant? hc]
      rfl
    · rw [lineDecl, hvalue]
      exact legible_operationDecl hnamed hf hN hop

omit hnamed hf hN in
theorem exists_of_mem_blockDecls {d : BlockDecl} : ∀ {seen : List ValueId},
    d ∈ p.blockDecls N seen bs → ∃ b ∈ bs, ∃ seen', d = p.blockDecl N seen' b := by
  induction bs with
  | nil =>
    intro seen hd
    cases hd
  | cons b bs ih =>
    intro seen hd
    rcases List.mem_cons.1 hd with rfl | hd
    · exact ⟨b, List.mem_cons_self, seen, rfl⟩
    · obtain ⟨c, hc, seen', hd⟩ := ih hd
      exact ⟨c, List.mem_cons_of_mem _ hc, seen', hd⟩

theorem legible_blockDecl (hb : b ∈ (p.function f).blocks)
    (hsettled : p.AllSettled f (p.function f).blocks) (seen : List ValueId) :
    (p.blockDecl N seen b).Legible where
  label := (hnamed f hf).label b hb
  params := by
    rw [params_blockDecl]
    intro x hx
    obtain ⟨v, -, rfl⟩ := List.mem_map.1 hx
    exact isName_spelling hN (hnamed f hf) v
  body := by
    intro x hx
    obtain ⟨v, hv, rfl⟩ := List.mem_map.1 hx
    exact legible_lineDecl hnamed hf hN (hasLine_of_mem_listed (hsettled b hb) v hv)

/-- The tree of the function `f` can be written. -/
theorem legible_functionDeclWith
    (hsettled : (p.function f).isDeclaration = false → p.AllSettled f (p.function f).blocks) :
    (p.functionDeclWith N f).Legible := by
  have hblocks : ∀ bs ∈ (p.functionDeclWith N f).blocks,
      bs = p.blockDecls N [] (p.function f).blocks ∧ (p.function f).isDeclaration = false := by
    intro bs hbs
    rw [functionDeclWith, Option.mem_def] at hbs
    dsimp only at hbs
    split at hbs
    · cases hbs
    · next hdecl =>
      cases hbs
      exact ⟨rfl, by simpa using hdecl⟩
  refine
    { path_ne := (hnamed f hf).path_ne
      path := (hnamed f hf).path
      args := fun x hx => ?_
      blocks := fun bs hbs d hd => ?_
      labels := fun bs hbs d hd => ?_ }
  · obtain ⟨y, hy, rfl⟩ := List.mem_map.1 hx
    exact (hnamed f hf).args y hy
  · obtain ⟨rfl, hdecl⟩ := hblocks bs hbs
    obtain ⟨b, hb, seen, rfl⟩ := exists_of_mem_blockDecls hd
    exact legible_blockDecl hnamed hf hN hb (hsettled hdecl) seen
  · obtain ⟨rfl, -⟩ := hblocks bs hbs
    obtain ⟨b, hb, seen, rfl⟩ := exists_of_mem_blockDecls hd
    exact (hnamed f hf).others b hb

end

end Program

end FlowFacts
