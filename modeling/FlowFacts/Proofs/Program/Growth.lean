import FlowFacts.Proofs.Program.Built

/-!
# What building adds

The operations of the builder, described by what they add to a program: values at the end of
the table, and parameters and instructions at the end of the lists of blocks (`Added`).  Labels
and owners of blocks stay, and a block gets predecessors only from instructions that were added.
New blocks and functions are described by what can be read off the program afterwards.

## Main definitions

* `Program.Added` — what was added to the values and blocks of a program.

## Main results

* `added_addValue`, `added_addParameter`, `added_append` — single values.
* `newBlock_addBlock`, `newFunction_addFunction` — blocks and functions.
-/

namespace FlowFacts

/-- The block `x` without its predecessors, which follow from the instructions. -/
def Block.parts (x : Block) : Block := { x with preds := [] }

namespace Program

variable {p q r : Program} {b c : BlockId} {f g : FunctionId} {v w : ValueId}

theorem value_eq_getElem? (p : Program) (v : ValueId) :
    p.value v = p.values.toList[v.index]?.getD default := by
  rw [value, Array.getElem?_toList]

/-- What was added to `p` in `q`: the values `new`, and for each block the parameters `P` and the
instructions `I`. -/
structure Added (p q : Program) (new : List Value) (P I : BlockId → List ValueId) : Prop where
  /-- The modules stay. -/
  modules : q.modules = p.modules
  /-- So do the functions. -/
  functions : q.functions = p.functions
  /-- There are no new blocks. -/
  size : q.blocks.size = p.blocks.size
  /-- The values come behind those that exist. -/
  values : q.values.toList = p.values.toList ++ new
  /-- Labels stay. -/
  label : ∀ c, (q.block c).label = (p.block c).label
  /-- Blocks stay in their functions. -/
  function : ∀ c, (q.block c).function = (p.block c).function
  /-- The parameters come behind those that exist. -/
  params : ∀ c, c.index < p.blocks.size → (q.block c).params = (p.block c).params ++ P c
  /-- So do the instructions. -/
  instructions : ∀ c, c.index < p.blocks.size →
    (q.block c).instructions = (p.block c).instructions ++ I c
  /-- New predecessors branch to the block. -/
  preds : ∀ c, ∀ b ∈ (q.block c).preds, b ∈ (p.block c).preds ∨
    ∃ op, .instruction b op ∈ new ∧ ∃ target ∈ op.targets, target.block = c

variable {new new' : List Value} {P P' I I' : BlockId → List ValueId} {label : String}

protected theorem Added.refl (p : Program) : Added p p [] (fun _ => []) fun _ => [] where
  modules := rfl
  functions := rfl
  size := rfl
  values := (List.append_nil _).symm
  label _ := rfl
  function _ := rfl
  params _ _ := (List.append_nil _).symm
  instructions _ _ := (List.append_nil _).symm
  preds _ _ hb := Or.inl hb

theorem Added.trans (h : Added p q new P I) (h' : Added q r new' P' I') :
    Added p r (new ++ new') (fun c => P c ++ P' c) fun c => I c ++ I' c where
  modules := h'.modules.trans h.modules
  functions := h'.functions.trans h.functions
  size := h'.size.trans h.size
  values := by rw [h'.values, h.values, List.append_assoc]
  label c := (h'.label c).trans (h.label c)
  function c := (h'.function c).trans (h.function c)
  params c hc := by rw [h'.params c (h.size ▸ hc), h.params c hc, List.append_assoc]
  instructions c hc := by
    rw [h'.instructions c (h.size ▸ hc), h.instructions c hc, List.append_assoc]
  preds c b hb := by
    rcases h'.preds c b hb with hb | ⟨op, hop, htarget⟩
    · rcases h.preds c b hb with hb | ⟨op, hop, htarget⟩
      · exact Or.inl hb
      · exact Or.inr ⟨op, List.mem_append_left _ hop, htarget⟩
    · exact Or.inr ⟨op, List.mem_append_right _ hop, htarget⟩

theorem Added.congr (h : Added p q new P I) (hP : ∀ c, P c = P' c) (hI : ∀ c, I c = I' c) :
    Added p q new P' I' := by
  obtain rfl : P = P' := funext hP
  obtain rfl : I = I' := funext hI
  exact h

theorem Added.length_values (h : Added p q new P I) :
    q.values.size = p.values.size + new.length := by
  rw [← Array.length_toList, h.values, List.length_append, Array.length_toList]

/-- A block `c` whose lists get nothing stays as it is. -/
theorem Added.parts_eq (h : Added p q new P I) (hc : c.index < p.blocks.size) (hP : P c = [])
    (hI : I c = []) : (q.block c).parts = (p.block c).parts := by
  have hparams := h.params c hc
  have hinstructions := h.instructions c hc
  rw [hP, List.append_nil] at hparams
  rw [hI, List.append_nil] at hinstructions
  simp only [Block.parts, h.label, h.function, hparams, hinstructions]

/-! ### Single values -/

theorem added_addValue (p : Program) (x : Value) :
    Added p (addValue x p).2 [x] (fun _ => []) fun _ => [] where
  modules := rfl
  functions := rfl
  size := rfl
  values := by simp [addValue]
  label _ := rfl
  function _ := rfl
  params _ _ := (List.append_nil _).symm
  instructions _ _ := (List.append_nil _).symm
  preds _ _ hb := Or.inl hb

/-- A `change` of the lists of `b`. -/
theorem added_modifyBlock (p : Program) (b : BlockId) (change : Block → Block)
    (params instructions : List ValueId)
    (hlabel : (change (p.block b)).label = (p.block b).label)
    (hfunction : (change (p.block b)).function = (p.block b).function)
    (hparams : (change (p.block b)).params = (p.block b).params ++ params)
    (hinstructions : (change (p.block b)).instructions = (p.block b).instructions ++ instructions)
    (hpreds : (change (p.block b)).preds = (p.block b).preds) :
    Added p (modifyBlock b change p).2 [] (fun c => if c = b then params else [])
      fun c => if c = b then instructions else [] where
  modules := rfl
  functions := rfl
  size := Array.size_modify
  values := (List.append_nil _).symm
  label c := by
    rw [block_modify]
    split
    · next hc => rw [hlabel, hc.1]
    · rfl
  function c := by
    rw [block_modify]
    split
    · next hc => rw [hfunction, hc.1]
    · rfl
  params c hc := by
    rw [block_modify]
    by_cases hcb : c = b
    · subst hcb
      rw [if_pos ⟨rfl, hc⟩, if_pos rfl, hparams]
    · rw [if_neg (fun h => hcb h.1), if_neg hcb, List.append_nil]
  instructions c hc := by
    rw [block_modify]
    by_cases hcb : c = b
    · subst hcb
      rw [if_pos ⟨rfl, hc⟩, if_pos rfl, hinstructions]
    · rw [if_neg (fun h => hcb h.1), if_neg hcb, List.append_nil]
  preds c b' hb' := by
    rw [block_modify] at hb'
    split at hb'
    · next hc => exact Or.inl (by rwa [hpreds, ← hc.1] at hb')
    · exact Or.inl hb'

theorem added_addParameter (p : Program) (b : BlockId) (ty : Ty) :
    Added p (addParameter b ty p).2 [.parameter b (p.block b).params.length ty]
      (fun c => if c = b then [⟨p.values.size⟩] else []) fun _ => [] := by
  let q := (addValue (.parameter b (p.block b).params.length ty) p).2
  have hvalue : Added p q _ _ _ := added_addValue p (.parameter b (p.block b).params.length ty)
  have hblock := added_modifyBlock q b
    (fun block => { block with params := block.params ++ [⟨p.values.size⟩] })
    [⟨p.values.size⟩] [] rfl rfl rfl (List.append_nil _).symm rfl
  exact (hvalue.trans hblock).congr (fun c => rfl) fun c => by simp

/-- The `targets` of a branch get to know that it is in `b`; nothing else changes. -/
theorem forIn_addPred (b : BlockId) {targets : List Target} : ∀ {p q : Program},
    (do for target in targets do addPred target.block b : StateM Program Unit) p = ((), q) →
    q.modules = p.modules ∧ q.functions = p.functions ∧ q.values = p.values ∧
      q.blocks.size = p.blocks.size ∧
      ∀ c, ∃ preds, q.block c = { p.block c with preds } ∧
        ∀ x ∈ preds, x ∈ (p.block c).preds ∨ x = b ∧ ∃ target ∈ targets, target.block = c := by
  induction targets with
  | nil =>
    intro p q hq
    cases hq
    exact ⟨rfl, rfl, rfl, rfl, fun c => ⟨_, rfl, fun x hx => Or.inl hx⟩⟩
  | cons target targets ih =>
    intro p q hq
    rw [List.forIn_cons] at hq
    obtain ⟨hmodules, hfunctions, hvalues, hsize, hblocks⟩ :=
      ih (p := (addPred target.block b p).2) hq
    refine ⟨hmodules, hfunctions, hvalues, hsize.trans Array.size_modify, fun c => ?_⟩
    obtain ⟨preds, hblock, hpreds⟩ := hblocks c
    -- one round changes at most the predecessors of its target
    have hround : ∃ preds, (addPred target.block b p).2.block c = { p.block c with preds } ∧
        ∀ x ∈ preds, x ∈ (p.block c).preds ∨ x = b ∧ target.block = c := by
      unfold addPred
      rw [block_modify]
      split
      · next hc =>
        rw [hc.1]
        split
        · exact ⟨_, rfl, fun x hx => Or.inl hx⟩
        · refine ⟨_, rfl, fun x hx => ?_⟩
          rcases List.mem_append.1 hx with hx | hx
          · exact Or.inl hx
          · exact Or.inr ⟨List.mem_singleton.1 hx, rfl⟩
      · exact ⟨_, rfl, fun x hx => Or.inl hx⟩
    obtain ⟨preds', hblock', hpreds'⟩ := hround
    rw [hblock'] at hblock hpreds
    refine ⟨preds, hblock, fun x hx => ?_⟩
    rcases hpreds x hx with hx | ⟨hx, target', htarget', hc⟩
    · rcases hpreds' x hx with hx | ⟨hx, hc⟩
      · exact Or.inl hx
      · exact Or.inr ⟨hx, target, List.mem_cons_self, hc⟩
    · exact Or.inr ⟨hx, target', List.mem_cons_of_mem _ htarget', hc⟩

/-- An instruction `op` is added to its block `b`. -/
theorem added_append (p : Program) (b : BlockId) (op : Operation) :
    (append b op p).1 = ⟨p.values.size⟩ ∧
      Added p (append b op p).2 [.instruction b op] (fun _ => [])
        fun c => if c = b then [⟨p.values.size⟩] else [] := by
  let p₁ := ((do for target in op.targets do addPred target.block b : StateM Program Unit) p).2
  obtain ⟨hmodules, hfunctions, hvalues, hsize, hblocks⟩ := forIn_addPred b (p := p) (q := p₁) rfl
  have hid : (⟨p₁.values.size⟩ : ValueId) = ⟨p.values.size⟩ := by rw [hvalues]
  -- the targets get a predecessor, and the value is added, before the block lists it
  have hpreds : Added p (addValue (.instruction b op) p₁).2 [.instruction b op] (fun _ => [])
      fun _ => [] := by
    have hvalue := added_addValue p₁ (.instruction b op)
    refine ⟨hmodules, hfunctions, hsize, ?_, fun c => ?_, fun c => ?_, fun c _ => ?_, fun c _ => ?_,
      fun c x hx => ?_⟩
    · rw [hvalue.values, hvalues]
    · obtain ⟨preds, hblock, -⟩ := hblocks c
      rw [hvalue.label, hblock]
    · obtain ⟨preds, hblock, -⟩ := hblocks c
      rw [hvalue.function, hblock]
    · obtain ⟨preds, hblock, -⟩ := hblocks c
      rw [List.append_nil]
      change (p₁.block c).params = _
      rw [hblock]
    · obtain ⟨preds, hblock, -⟩ := hblocks c
      rw [List.append_nil]
      change (p₁.block c).instructions = _
      rw [hblock]
    · obtain ⟨preds, hblock, hnew⟩ := hblocks c
      have hx' : x ∈ preds := by
        have hx₁ : x ∈ (p₁.block c).preds := hx
        rwa [hblock] at hx₁
      rcases hnew x hx' with hx | ⟨rfl, htarget⟩
      · exact Or.inl hx
      · exact Or.inr ⟨op, List.mem_singleton_self _, htarget⟩
  let q := (addValue (.instruction b op) p₁).2
  have hblock := added_modifyBlock q b
    (fun block => { block with instructions := block.instructions ++ [⟨p₁.values.size⟩] })
    [] [⟨p₁.values.size⟩] rfl rfl (List.append_nil _).symm rfl rfl
  refine ⟨hid, (hpreds.trans hblock).congr (fun c => by simp) fun c => ?_⟩
  rw [hid, List.nil_append]

/-! ### Blocks -/

/-- A `label` that is not taken is not lengthened. -/
theorem freeLabel_of_notMem {taken : List String} (h : label ∉ taken) (n next : Nat) :
    freeLabel taken n label next = (label, next) := by
  cases n with
  | zero => rfl
  | succ n => rw [freeLabel, if_neg h]

/-- A block was added to `f`, with a `label` that was free. -/
structure NewBlock (p q : Program) (f : FunctionId) (label : String) : Prop where
  /-- The modules stay. -/
  modules : q.modules = p.modules
  /-- The values stay. -/
  values : q.values = p.values
  /-- The block comes behind those that exist. -/
  blocks : q.blocks = p.blocks.push { label, function := f }
  /-- There are no new functions. -/
  size : q.functions.size = p.functions.size
  /-- The block is the last one of its function. -/
  function : f.index < p.functions.size → q.function f =
    { p.function f with others := (p.function f).others ++ [⟨p.blocks.size⟩] }
  /-- Other functions stay. -/
  other : ∀ g, g ≠ f → q.function g = p.function g

theorem newBlock_addBlock (h : label ∉ p.labels f) :
    (addBlock f (some label) p).1 = ⟨p.blocks.size⟩ ∧
      NewBlock p (addBlock f (some label) p).2 f label := by
  have hlabel : uniqueLabel f (some label) p = (label, (modifyFunction f
      (fun fn => { fn with nextLabel := (p.function f).nextLabel }) p).2) := by
    unfold uniqueLabel
    simp only [freeLabel_of_notMem h]
  let p₁ := (modifyFunction f (fun fn => { fn with nextLabel := (p.function f).nextLabel }) p).2
  let p₂ : Program := { p₁ with blocks := p₁.blocks.push { label, function := f } }
  let change : Function → Function := fun fn =>
    { fn with others := fn.others ++ [⟨p₁.blocks.size⟩] }
  have hresult :
      addBlock f (some label) p = (⟨p₁.blocks.size⟩, (modifyFunction f change p₂).2) := by
    simp only [addBlock, bind, StateT.bind, hlabel]
    rfl
  -- the number for the next label is as it was
  have hfunction₁ : ∀ g, p₁.function g = p.function g := by
    intro g
    rw [function_modify]
    split
    · next hg => rw [hg.1]
    · rfl
  rw [hresult]
  refine ⟨rfl, rfl, rfl, rfl, ?_, fun hf => ?_, fun g hg => ?_⟩
  · exact Array.size_modify.trans Array.size_modify
  · have hsize : f.index < p₂.functions.size := by
      change f.index < p₁.functions.size
      exact Nat.lt_of_lt_of_eq hf Array.size_modify.symm
    rw [function_modify, if_pos ⟨rfl, hsize⟩]
    exact congrArg change (hfunction₁ f)
  · rw [function_modify, if_neg fun h => hg h.1]
    exact hfunction₁ g

/-- The new block of `q` is empty, and the others are as they were. -/
theorem NewBlock.block (h : NewBlock p q f label) (c : BlockId) :
    q.block c = if c.index = p.blocks.size then { label, function := f } else p.block c := by
  rw [Program.block, h.blocks, Array.getElem?_push]
  split
  · rfl
  · rfl

theorem NewBlock.size_blocks (h : NewBlock p q f label) : q.blocks.size = p.blocks.size + 1 := by
  rw [h.blocks, Array.size_push]

/-- The blocks of a function `f` that got a block, and some values in it. -/
theorem NewBlock.blocks_added (h : NewBlock p q f label) (hadded : Added q r new P I)
    (hf : f.index < p.functions.size) :
    (r.function f).blocks = (p.function f).blocks ++ [⟨p.blocks.size⟩] := by
  have hfunction : r.function f = q.function f := by
    rw [Program.function, hadded.functions]
    rfl
  rw [hfunction, h.function hf]
  rfl

/-- The labels of a function `f` that got a block, and some values in it. -/
theorem NewBlock.labels_added (h : NewBlock p q f label) (hadded : Added q r new P I)
    (hf : f.index < p.functions.size)
    (hblocks : ∀ c ∈ (p.function f).blocks, c.index < p.blocks.size) :
    r.labels f = p.labels f ++ [label] := by
  rw [labels, labels, h.blocks_added hadded hf, List.map_append]
  congr 1
  · refine List.map_congr_left fun c hc => ?_
    rw [hadded.label, h.block, if_neg (Nat.ne_of_lt (hblocks c hc))]
  · rw [List.map_singleton, hadded.label, h.block, if_pos rfl]

/-! ### Lists of parameters -/

/-- Parameters with numbers from a given one on. -/
def numbered : Nat → List (String × Ty) → List (String × ValueId)
  | _, [] => []
  | n, x :: xs => (x.1, ⟨n⟩) :: numbered (n + 1) xs

/-- The values of parameters of `b`, from a given place on. -/
def paramValues (b : BlockId) : Nat → List (String × Ty) → List Value
  | _, [] => []
  | i, x :: xs => .parameter b i x.2 :: paramValues b (i + 1) xs

@[simp] theorem length_paramValues (b : BlockId) (xs : List (String × Ty)) :
    ∀ i, (paramValues b i xs).length = xs.length := by
  induction xs with
  | nil => intro i; rfl
  | cons x xs ih => intro i; simp [paramValues, ih]

@[simp] theorem length_numbered (xs : List (String × Ty)) :
    ∀ n, (numbered n xs).length = xs.length := by
  induction xs with
  | nil => intro n; rfl
  | cons x xs ih => intro n; simp [numbered, ih]

theorem added_parameter_cons {x : String × Ty} {xs : List (String × Ty)} {i : Nat}
    (hi : (p.block b).params.length = i)
    (h : Added (addParameter b x.2 p).2 q (paramValues b (i + 1) xs)
      (fun c => if c = b then (numbered (p.values.size + 1) xs).map Prod.snd else []) fun _ => []) :
    Added p q (paramValues b i (x :: xs))
      (fun c => if c = b then (numbered p.values.size (x :: xs)).map Prod.snd else [])
      fun _ => [] := by
  have hadded := added_addParameter p b x.2
  rw [hi] at hadded
  refine (hadded.trans h).congr (fun c => ?_) fun c => rfl
  by_cases hc : c = b
  · simp [hc, numbered]
  · simp [hc]

theorem length_params_addParameter (hb : b.index < p.blocks.size) (ty : Ty) :
    ((addParameter b ty p).2.block b).params.length = (p.block b).params.length + 1 := by
  rw [(added_addParameter p b ty).params b hb, if_pos rfl, List.length_append]
  rfl

theorem mapM_addParameter (b : BlockId) (args : List (String × Ty)) : ∀ {p : Program} {i : Nat},
    b.index < p.blocks.size → (p.block b).params.length = i →
      ∃ q, (args.mapM fun (x : String × Ty) => do return (x.1, ← addParameter b x.2) :
          StateM Program (List (String × ValueId))) p = (numbered p.values.size args, q) ∧
        Added p q (paramValues b i args)
          (fun c => if c = b then (numbered p.values.size args).map Prod.snd else [])
          fun _ => [] := by
  induction args with
  | nil =>
    intro p i _ _
    exact ⟨p, rfl, (Added.refl p).congr (fun c => by simp [numbered]) fun c => rfl⟩
  | cons x args ih =>
    intro p i hb hi
    have hadded := added_addParameter p b x.2
    have hsize : (addParameter b x.2 p).2.values.size = p.values.size + 1 := hadded.length_values
    obtain ⟨q, hq, hrest⟩ := ih (p := (addParameter b x.2 p).2) (i := i + 1)
      (hadded.size ▸ hb) (by rw [length_params_addParameter hb, hi])
    rw [hsize] at hq hrest
    refine ⟨q, ?_, added_parameter_cons hi hrest⟩
    rw [List.mapM_cons]
    exact congrArg (fun r => ((x.1, (⟨p.values.size⟩ : ValueId)) :: r.1, r.2)) hq

/-! ### Functions -/

/-- A function was added to the module `m`, with its entry, which has the label `label`. -/
structure NewFunction (p q : Program) (m : ModuleId) (path : List String)
    (args : List (String × Ty)) (returnType : Ty) (isDeclaration : Bool) (label : String) :
    Prop where
  /-- It is the last one of its module. -/
  modules : q.modules = p.modules.modify m.index (· ++ [⟨p.functions.size⟩])
  /-- It comes behind the functions that exist. -/
  size : q.functions.size = p.functions.size + 1
  /-- What it is. -/
  function : q.function ⟨p.functions.size⟩ =
    { path, args := numbered p.values.size args, returnType, entry := ⟨p.blocks.size⟩,
      isDeclaration }
  /-- Other functions stay. -/
  other : ∀ g, g.index < p.functions.size → q.function g = p.function g
  /-- Its entry comes behind the blocks that exist. -/
  blocks : q.blocks.size = p.blocks.size + 1
  /-- Its arguments are parameters of its entry. -/
  entry : (q.block ⟨p.blocks.size⟩).parts =
    { label, function := ⟨p.functions.size⟩,
      params := (numbered p.values.size args).map Prod.snd }
  /-- Other blocks stay. -/
  block : ∀ c, c.index < p.blocks.size → (q.block c).parts = (p.block c).parts
  /-- There are no new branches. -/
  preds : ∀ c, ∀ b ∈ (q.block c).preds, c.index < p.blocks.size ∧ b ∈ (p.block c).preds
  /-- The arguments come behind the values that exist. -/
  values : q.values.toList = p.values.toList ++ paramValues ⟨p.blocks.size⟩ 0 args

theorem not_mem_paramValues {i : Nat} {args : List (String × Ty)} {op : Operation} :
    Value.instruction c op ∉ paramValues b i args := by
  induction args generalizing i with
  | nil => exact List.not_mem_nil
  | cons x args ih => simp [paramValues, ih]

theorem newFunction_addFunction (p : Program) (m : ModuleId) (path : List String)
    (args : List (String × Ty)) (returnType : Ty) (isDeclaration : Bool) :
    (addFunction m path args returnType isDeclaration p).1 = ⟨p.functions.size⟩ ∧
      NewFunction p (addFunction m path args returnType isDeclaration p).2 m path args returnType
        isDeclaration "entry" := by
  let f : FunctionId := ⟨p.functions.size⟩
  let entry : BlockId := ⟨p.blocks.size⟩
  let new : Function := { path, returnType, entry, isDeclaration }
  let p₁ : Program := { p with
    modules := p.modules.modify m.index (· ++ [f])
    functions := p.functions.push new
    blocks := p.blocks.push { label := "entry", function := f } }
  have hpush : ∀ c : BlockId, p₁.block c =
      if c.index = p.blocks.size then { label := "entry", function := f } else p.block c :=
    fun c => block_push (p := p₁) c
  have hentry : p₁.block entry = { label := "entry", function := f } :=
    (hpush entry).trans (if_pos rfl)
  have hblock : ∀ c, c.index < p.blocks.size → p₁.block c = p.block c := fun c hc =>
    (hpush c).trans (if_neg (Nat.ne_of_lt hc))
  have hlt : entry.index < p₁.blocks.size := by simp [p₁, entry]
  -- the arguments become parameters of the entry, which had none
  obtain ⟨p₂, hrun, hadded⟩ := mapM_addParameter entry args (p := p₁) (i := 0) hlt
    (by rw [hentry]; rfl)
  let change : Function → Function := fun fn => { fn with args := numbered p.values.size args }
  have hresult : addFunction m path args returnType isDeclaration p =
      (f, (modifyFunction f change p₂).2) :=
    congrArg (fun r : List (String × ValueId) × Program =>
      (f, (modifyFunction f (fun fn => { fn with args := r.1 }) r.2).2)) hrun
  have hfunctions : p₂.functions = p.functions.push new := hadded.functions
  have hfunction : ∀ g : FunctionId, p₂.function g =
      if g.index = p.functions.size then new else p.function g := by
    intro g
    rw [function, hfunctions]
    exact function_push (p := p) g
  have hf : f.index < p₂.functions.size := by simp [hfunctions, f]
  have hne : ∀ c : BlockId, c.index < p.blocks.size → c ≠ entry := by
    rintro c hc rfl
    exact Nat.lt_irrefl _ hc
  rw [hresult]
  refine ⟨rfl, hadded.modules, ?_, ?_, fun g hg => ?_, ?_, ?_, fun c hc => ?_, fun c b hb => ?_,
    hadded.values⟩
  · rw [show (modifyFunction f change p₂).2.functions.size = p₂.functions.size from
      Array.size_modify, hfunctions, Array.size_push]
  · rw [function_modify, if_pos ⟨rfl, hf⟩, hfunction f, if_pos rfl]
  · have hgf : g ≠ f := by
      rintro rfl
      exact Nat.lt_irrefl _ hg
    rw [function_modify, if_neg fun h => hgf h.1, hfunction g, if_neg (Nat.ne_of_lt hg)]
  · exact hadded.size.trans (by simp [p₁])
  · have hparams := hadded.params entry hlt
    have hinstructions := hadded.instructions entry hlt
    have hlabel := hadded.label entry
    have howner := hadded.function entry
    rw [hentry] at hparams hinstructions hlabel howner
    change (p₂.block entry).parts = _
    rw [Block.parts, hparams, hinstructions, hlabel, howner, if_pos rfl]
    rfl
  · have hc₁ : c.index < p₁.blocks.size := by
      simp only [p₁, Array.size_push]
      omega
    have hparts := hadded.parts_eq hc₁ (if_neg (hne c hc)) rfl
    rwa [hblock c hc] at hparts
  · -- what was added are parameters, which do not branch
    rcases hadded.preds c b hb with hb | ⟨op, hop, -⟩
    · rw [hpush] at hb
      split at hb
      · cases hb
      · refine ⟨?_, hb⟩
        by_contra hge
        simp [block, Array.getElem?_eq_none (Nat.not_lt.1 hge), default,
          instInhabitedBlock.default] at hb
    · exact absurd hop not_mem_paramValues

/-- The entry gets another label `label'`. -/
theorem NewFunction.relabel {m : ModuleId} {path : List String} {args : List (String × Ty)}
    {returnType : Ty} {isDeclaration : Bool}
    (h : NewFunction p q m path args returnType isDeclaration label) (label' : String) :
    NewFunction p (modifyBlock ⟨p.blocks.size⟩ (fun block => { block with label := label' }) q).2
      m path args returnType isDeclaration label' := by
  have hlt : p.blocks.size < q.blocks.size := by
    rw [h.blocks]
    exact Nat.lt_succ_self _
  refine ⟨h.modules, h.size, h.function, h.other, Array.size_modify.trans h.blocks, ?_,
    fun c hc => ?_, fun c b hb => ?_, h.values⟩
  · rw [block_modify, if_pos ⟨rfl, hlt⟩]
    have hentry := h.entry
    simp only [Block.parts, Block.mk.injEq] at hentry ⊢
    exact ⟨trivial, hentry.2⟩
  · have hne : c ≠ ⟨p.blocks.size⟩ := by
      rintro rfl
      exact Nat.lt_irrefl _ hc
    rw [block_modify, if_neg fun h => hne h.1]
    exact h.block c hc
  · rw [block_modify] at hb
    split at hb
    · next hc =>
      rw [hc.1]
      exact h.preds _ b hb
    · exact h.preds c b hb

end Program

end FlowFacts
