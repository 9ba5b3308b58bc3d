import FlowFacts.Proofs.Lookup
import FlowFacts.Proofs.Source.Lines
import Mathlib.Data.List.Nodup

/-!
# What functions mean

The meaning of a function of a text: its blocks and their parameters come first, in the order
of the text, and then the values of its lines.  They come behind everything that the program
had, so what a function adds is known from the sizes of the tables before it (`FunctionRead`).

## Main definitions

* `heads`, `headsValues`, `headsScope` — blocks and their parameters.
* `FunctionDecl.layout` — the blocks of a function, the arguments being those of the entry.
* `FunctionResolves`, `FunctionRead` — when a function can be resolved, and what it adds.

## Main results

* `meets_resolveBlocks`, `meets_resolveFunction` — blocks and functions.
-/

namespace FlowFacts.Source

open Program

variable {s : Resolution} {f : FunctionId}

/-! ### Heads of blocks -/

/-- The values of the parameters of blocks, from some number of blocks on. -/
def headsValues : Nat → List BlockDecl → List Value
  | _, [] => []
  | k, d :: ds => paramValues ⟨k⟩ 0 d.params ++ headsValues (k + 1) ds

/-- The names after the parameters of blocks. -/
def headsScope : Scope → Nat → List BlockDecl → Scope
  | scope, _, [] => scope
  | scope, n, d :: ds =>
      headsScope ((numbered n d.params).reverse ++ scope) (n + d.params.length) ds

/-- New blocks of `f`, with their parameters. -/
def heads (f : FunctionId) : Nat → List BlockDecl → List Block
  | _, [] => []
  | n, d :: ds =>
      { label := d.label, function := f, params := (numbered n d.params).map Prod.snd } ::
        heads f (n + d.params.length) ds

/-- The blocks `ds` were added to `f`, with their parameters. -/
structure HeadsRead (f : FunctionId) (ds : List BlockDecl) (s s' : Resolution) : Prop where
  /-- The names. -/
  names : s'.names = headsScope s.names s.program.values.size ds
  /-- The call noted is the same. -/
  missing : s'.missing = s.missing
  /-- The modules stay. -/
  modules : s'.program.modules = s.program.modules
  /-- The parameters come behind the values that exist. -/
  values : s'.program.values.toList =
    s.program.values.toList ++ headsValues s.program.blocks.size ds
  /-- The blocks come behind those that exist. -/
  blocks : s'.program.blocks.size = s.program.blocks.size + ds.length
  /-- What they are. -/
  block : ∀ k x, (heads f s.program.values.size ds)[k]? = some x →
    (s'.program.block ⟨s.program.blocks.size + k⟩).parts = x
  /-- Other blocks stay. -/
  old : ∀ c, c.index < s.program.blocks.size →
    (s'.program.block c).parts = (s.program.block c).parts
  /-- There are no new branches. -/
  preds : ∀ c, ∀ b ∈ (s'.program.block c).preds,
    c.index < s.program.blocks.size ∧ b ∈ (s.program.block c).preds
  /-- There are no new functions. -/
  size : s'.program.functions.size = s.program.functions.size
  /-- The blocks are the last ones of their function. -/
  function : s'.program.function f = { s.program.function f with
    others := (s.program.function f).others ++ (labelled s.program.blocks.size ds).map Prod.snd }
  /-- Other functions stay. -/
  other : ∀ g, g ≠ f → s'.program.function g = s.program.function g

/-- The parameters `xs` of `b` are declared one by one. -/
theorem meets_params (b : BlockId) {xs : List (String × Ty)} : ∀ {s : Resolution} {i : Nat},
    b.index < s.program.blocks.size → (s.program.block b).params.length = i →
    Meets (forIn xs PUnit.unit fun x _ => do
        let v ← build (Program.addParameter b x.2)
        declare x.1 v
        pure (ForInStep.yield PUnit.unit)) s True fun _ s' =>
      s'.names = (numbered s.program.values.size xs).reverse ++ s.names ∧
      s'.missing = s.missing ∧
      Added s.program s'.program (paramValues b i xs)
        (fun c => if c = b then (numbered s.program.values.size xs).map Prod.snd else [])
        fun _ => [] := by
  induction xs with
  | nil =>
    intro s i _ _
    exact meets_pure ⟨rfl, rfl, (Added.refl _).congr (fun c => by simp [numbered]) fun _ => rfl⟩
  | cons x xs ih =>
    intro s i hb hi
    have hadded := added_addParameter s.program b x.2
    let s₁ : Resolution :=
      { s with
        program := (Program.addParameter b x.2 s.program).2
        names := (x.1, ⟨s.program.values.size⟩) :: s.names }
    refine (meets_forIn_cons (C := True) (Q := fun s' => s' = s₁) ?_ ?_).congr
      (and_iff_right trivial)
    · refine Meets.after (Q := fun v s' => v = ⟨s.program.values.size⟩ ∧
        s' = { s with program := (Program.addParameter b x.2 s.program).2 })
        (meets_build ⟨rfl, rfl⟩) ?_
      rintro v s' ⟨rfl, rfl⟩
      refine Meets.after (Q := fun _ s' => s' = s₁) (meets_modify rfl) ?_
      rintro - s' rfl
      exact meets_pure ⟨rfl, rfl⟩
    · rintro s' - rfl
      have hsize : s₁.program.values.size = s.program.values.size + 1 := hadded.length_values
      have hb₁ : b.index < s₁.program.blocks.size := hadded.size ▸ hb
      have hi₁ : (s₁.program.block b).params.length = i + 1 := by
        rw [length_params_addParameter hb, hi]
      refine (ih hb₁ hi₁).mono Iff.rfl fun _ _ s₂ h => ?_
      rw [hsize] at h
      refine ⟨?_, h.2.1, added_parameter_cons hi h.2.2⟩
      rw [h.1, numbered, List.reverse_cons, List.append_assoc]
      rfl

/-- A block `d` and its parameters, and then the blocks `ds`. -/
theorem HeadsRead.cons {d : BlockDecl} {ds : List BlockDecl} {s s₂ s₃ : Resolution} {p₁ : Program}
    (hf : f.index < s.program.functions.size) (hblock : NewBlock s.program p₁ f d.label)
    (hnames : s₂.names = (numbered s.program.values.size d.params).reverse ++ s.names)
    (hmissing : s₂.missing = s.missing)
    (hadded : Added p₁ s₂.program (paramValues ⟨s.program.blocks.size⟩ 0 d.params)
      (fun c => if c = ⟨s.program.blocks.size⟩ then
        (numbered s.program.values.size d.params).map Prod.snd else []) fun _ => [])
    (h : HeadsRead f ds s₂ s₃) : HeadsRead f (d :: ds) s s₃ := by
  have hblocks₂ : s₂.program.blocks.size = s.program.blocks.size + 1 := by
    rw [hadded.size, hblock.size_blocks]
  have hvalues₂ : s₂.program.values.size = s.program.values.size + d.params.length := by
    rw [hadded.length_values, hblock.values, length_paramValues]
  have hsize₁ := hblock.size_blocks
  -- the block was empty, and then only parameters were added
  have hnew : (s₂.program.block ⟨s.program.blocks.size⟩).parts =
      { label := d.label, function := f,
        params := (numbered s.program.values.size d.params).map Prod.snd } := by
    have hlt : (⟨s.program.blocks.size⟩ : BlockId).index < p₁.blocks.size := by
      rw [hsize₁]
      exact Nat.lt_succ_self _
    have hempty : p₁.block ⟨s.program.blocks.size⟩ = { label := d.label, function := f } :=
      (hblock.block _).trans (if_pos rfl)
    have hparams := hadded.params _ hlt
    have hinstructions := hadded.instructions _ hlt
    have hlabel := hadded.label ⟨s.program.blocks.size⟩
    have howner := hadded.function ⟨s.program.blocks.size⟩
    rw [hempty] at hparams hinstructions hlabel howner
    rw [Block.parts, hparams, hinstructions, hlabel, howner, if_pos rfl]
    rfl
  have hfunction₂ : ∀ g, s₂.program.function g = p₁.function g := fun g => by
    rw [Program.function, hadded.functions]
    rfl
  refine ⟨?_, ?_, ?_, ?_, ?_, fun k x hx => ?_, fun c hc => ?_, fun c b hb => ?_, ?_, ?_,
    fun g hg => ?_⟩
  · rw [h.names, hnames, hvalues₂]
    rfl
  · rw [h.missing, hmissing]
  · rw [h.modules, hadded.modules, hblock.modules]
  · rw [h.values, hadded.values, hblock.values, hblocks₂, headsValues, List.append_assoc]
  · rw [h.blocks, hblocks₂, List.length_cons]
    omega
  · cases k with
    | zero =>
      obtain rfl : _ = x := by simpa [heads] using hx
      rw [Nat.add_zero, h.old _ (by rw [hblocks₂]; exact Nat.lt_succ_self _), hnew]
    | succ k =>
      have hx' : (heads f s₂.program.values.size ds)[k]? = some x := by
        rw [hvalues₂]
        simpa [heads] using hx
      have hblock' := h.block k x hx'
      rw [hblocks₂] at hblock'
      rw [show s.program.blocks.size + (k + 1) = s.program.blocks.size + 1 + k by omega]
      exact hblock'
  · have hne : c ≠ ⟨s.program.blocks.size⟩ := by
      rintro rfl
      exact Nat.lt_irrefl _ hc
    rw [h.old c (by omega), hadded.parts_eq (by omega) (if_neg hne) rfl, hblock.block,
      if_neg (Nat.ne_of_lt hc)]
  · obtain ⟨hlt, hb⟩ := h.preds c b hb
    rcases hadded.preds c b hb with hb | ⟨op, hop, -⟩
    · rw [hblock.block] at hb
      split at hb
      · cases hb
      · exact ⟨by omega, hb⟩
    · exact absurd hop not_mem_paramValues
  · rw [h.size, hadded.functions, hblock.size]
  · rw [h.function, hfunction₂, hblock.function hf, hblocks₂, labelled]
    simp
  · rw [h.other g hg, hfunction₂, hblock.other g hg]

/-- Declaring the parameters `xs` always comes to an end. -/
theorem meets_params_ends (b : BlockId) {xs : List (String × Ty)} : ∀ {s : Resolution},
    Meets (forIn xs PUnit.unit fun x _ => do
        let v ← build (Program.addParameter b x.2)
        declare x.1 v
        pure (ForInStep.yield PUnit.unit)) s True fun _ _ => True := by
  induction xs with
  | nil =>
    intro s
    exact meets_pure trivial
  | cons x xs ih =>
    intro s
    refine (meets_forIn_cons (C := True) (Q := fun _ => True) ?_ fun s' _ _ => ih).congr
      (and_iff_right trivial)
    refine Meets.after (Q := fun _ _ => True) (meets_build trivial) fun v s₁ _ => ?_
    exact Meets.after (Q := fun _ _ => True) (meets_modify trivial) fun _ s₂ _ =>
      meets_pure ⟨rfl, trivial⟩

theorem headsRead_nil (f : FunctionId) (s : Resolution) : HeadsRead f [] s s where
  names := rfl
  missing := rfl
  modules := rfl
  values := (List.append_nil _).symm
  blocks := rfl
  block k x hx := by simp [heads] at hx
  old _ _ := rfl
  preds c b hb := by
    refine ⟨?_, hb⟩
    by_contra hge
    simp [Program.block, Array.getElem?_eq_none (Nat.not_lt.1 hge), default,
      instInhabitedBlock.default] at hb
  size := rfl
  function := by simp [labelled]
  other _ _ := rfl

/-- Blocks `ds` can be added to `f` if their labels are new and different. -/
theorem meets_resolveBlocks (f : FunctionId) (ds : List BlockDecl) :
    ∀ {s : Resolution} {labels : List (String × BlockId)},
      f.index < s.program.functions.size → labels.map Prod.fst = s.program.labels f →
      (∀ c ∈ (s.program.function f).blocks, c.index < s.program.blocks.size) →
      (labels.map Prod.fst).Nodup →
      Meets (resolveBlocks f ds labels) s (labels.map Prod.fst ++ ds.map BlockDecl.label).Nodup
        fun labels' s' => labels' = labels ++ labelled s.program.blocks.size ds ∧
          HeadsRead f ds s s' := by
  induction ds with
  | nil =>
    intro s labels _ _ _ hnodup
    refine (meets_pure ⟨by simp [labelled], headsRead_nil f s⟩).congr (iff_of_true trivial ?_)
    simpa using hnodup
  | cons d ds ih =>
    intro s labels hf hlabels hblocks hnodup
    rw [resolveBlocks]
    by_cases hfresh : d.label ∈ labels.map Prod.fst
    · -- the label is taken, which is found out after the block was made
      have hnot : ¬ (labels.map Prod.fst ++ (d :: ds).map BlockDecl.label).Nodup := fun h =>
        (List.nodup_append.1 h).2.2 _ hfresh _ (by simp) rfl
      refine Meets.after (Q := fun _ _ => True) (meets_build trivial) fun b s₁ _ => ?_
      refine (meets_params_ends b).after fun _ s₂ _ => ?_
      rw [if_pos (isSome_lookup_iff.2 hfresh)]
      exact (meets_throw _).congr (iff_of_false id hnot)
    · have hlabel : d.label ∉ s.program.labels f := hlabels ▸ hfresh
      obtain ⟨hid, hblock⟩ := newBlock_addBlock hlabel
      let s₁ : Resolution :=
        { s with program := (Program.addBlock f (some d.label) s.program).2 }
      refine Meets.after (Q := fun b s' => b = ⟨s.program.blocks.size⟩ ∧ s' = s₁)
        (meets_build ⟨hid, rfl⟩) ?_
      rintro b s' ⟨rfl, rfl⟩
      have hb₁ : s.program.blocks.size < s₁.program.blocks.size := by
        rw [hblock.size_blocks]
        exact Nat.lt_succ_self _
      have hnone : (s₁.program.block ⟨s.program.blocks.size⟩).params.length = 0 := by
        rw [hblock.block, if_pos rfl]
        rfl
      refine (meets_params ⟨s.program.blocks.size⟩ hb₁ hnone).after ?_
      rintro - s₂ ⟨hnames, hmissing, hadded⟩
      have hvalues : s₁.program.values.size = s.program.values.size := by rw [hblock.values]
      rw [hvalues] at hnames hadded
      rw [if_neg (mt isSome_lookup_iff.1 hfresh)]
      have hsize : s₂.program.blocks.size = s.program.blocks.size + 1 := by
        rw [hadded.size, hblock.size_blocks]
      let labels₂ : List (String × BlockId) := labels ++ [(d.label, ⟨s.program.blocks.size⟩)]
      -- the next blocks find one label more
      have hlabels₂ : labels₂.map Prod.fst = s₂.program.labels f := by
        rw [List.map_append, hlabels, hblock.labels_added hadded hf hblocks]
        rfl
      have hblocks₂ : ∀ c ∈ (s₂.program.function f).blocks, c.index < s₂.program.blocks.size := by
        intro c hc
        rw [hblock.blocks_added hadded hf, List.mem_append, List.mem_singleton] at hc
        rcases hc with hc | rfl
        · have hlt := hblocks c hc
          omega
        · exact hsize ▸ Nat.lt_succ_self _
      have hnodup₂ : (labels₂.map Prod.fst).Nodup := by
        rw [List.map_append, List.map_singleton, List.nodup_append]
        refine ⟨hnodup, List.nodup_singleton _, fun x hx y hy => ?_⟩
        rw [List.mem_singleton.1 hy]
        rintro rfl
        exact hfresh hx
      have hf₂ : f.index < s₂.program.functions.size := by
        rw [hadded.functions, hblock.size]
        exact hf
      refine (ih hf₂ hlabels₂ hblocks₂ hnodup₂).mono ?_ ?_
      · rw [List.map_append, List.append_assoc]
        rfl
      · rintro - labels' s₃ ⟨rfl, hread⟩
        refine ⟨?_, HeadsRead.cons hf hblock hnames hmissing hadded hread⟩
        rw [List.append_assoc, hsize]
        rfl

/-! ### Functions -/

/-- The blocks that the function `d` has: the arguments are the parameters of the entry, and a
declaration has an entry too. -/
def FunctionDecl.layout (d : FunctionDecl) : List BlockDecl :=
  match d.blocks with
  | some (entry :: others) => { entry with params := d.args } :: others
  | _ => [{ label := "entry", params := d.args, body := [] }]

/-- The number of parameters of blocks. -/
def paramCount : List BlockDecl → Nat
  | [] => 0
  | d :: ds => d.params.length + paramCount ds

theorem length_headsValues {ds : List BlockDecl} : ∀ {k : Nat},
    (headsValues k ds).length = paramCount ds := by
  induction ds with
  | nil => intro k; rfl
  | cons d ds ih => intro k; simp [headsValues, paramCount, ih]

/-- What the instructions of `d` may refer to, if it is the next function of `p`. -/
def FunctionDecl.site (d : FunctionDecl) (functions : List FunctionDecl) (p : Program) : Site where
  functions := functions
  labels := labelled p.blocks.size d.layout
  caller := ⟨p.functions.size⟩

/-- The names after the parameters of `d`, if it is the next function of `p`. -/
def FunctionDecl.scope (d : FunctionDecl) (p : Program) : Scope :=
  headsScope [] p.values.size d.layout

/-- The values that the lines of `d` create, if it is the next function of `p`. -/
def FunctionDecl.lineValues (d : FunctionDecl) (functions : List FunctionDecl) (p : Program) :
    List Value :=
  bodiesValues (d.site functions p) (d.scope p) (p.values.size + paramCount d.layout)
    p.blocks.size d.layout

/-- The function `d` can be the next one of `p`. -/
structure FunctionResolves (functions : List FunctionDecl) (m : ModuleId) (p : Program)
    (d : FunctionDecl) : Prop where
  /-- There is none with its signature. -/
  fresh : (p.lookup? m d.path d.arity).isSome = false
  /-- A body has an entry, without parameters of its own. -/
  entry : ∀ bs ∈ d.blocks, ∃ entry others, bs = entry :: others ∧ entry.params = []
  /-- The labels are different. -/
  labels : (d.layout.map BlockDecl.label).Nodup
  /-- The lines can be resolved. -/
  lines : BodiesResolve (d.site functions p) (d.scope p) (p.values.size + paramCount d.layout)
    d.layout

/-- The function `d` was read, so that `p` became `q`. -/
structure FunctionRead (functions : List FunctionDecl) (m : ModuleId) (d : FunctionDecl)
    (p q : Program) : Prop where
  /-- It is the last one of its module. -/
  modules : q.modules = p.modules.modify m.index (· ++ [⟨p.functions.size⟩])
  /-- It comes behind the functions that exist. -/
  size : q.functions.size = p.functions.size + 1
  /-- What it is. -/
  function : q.function ⟨p.functions.size⟩ =
    { path := d.path
      args := numbered p.values.size d.args
      returnType := d.returnType
      entry := ⟨p.blocks.size⟩
      others := (labelled p.blocks.size d.layout).tail.map Prod.snd
      isDeclaration := d.blocks.isNone }
  /-- Other functions stay. -/
  other : ∀ g, g.index < p.functions.size → q.function g = p.function g
  /-- Its blocks come behind those that exist. -/
  blocks : q.blocks.size = p.blocks.size + d.layout.length
  /-- What they are. -/
  block : ∀ k x, (heads ⟨p.functions.size⟩ p.values.size d.layout)[k]? = some x →
    (q.block ⟨p.blocks.size + k⟩).parts =
      { x with instructions := bodiesIds (p.values.size + paramCount d.layout) p.blocks.size
                d.layout ⟨p.blocks.size + k⟩ }
  /-- Other blocks stay. -/
  old : ∀ c, c.index < p.blocks.size → (q.block c).parts = (p.block c).parts
  /-- New predecessors are new branches. -/
  preds : ∀ c, ∀ b ∈ (q.block c).preds, c.index < p.blocks.size ∧ b ∈ (p.block c).preds ∨
    ∃ op, .instruction b op ∈ d.lineValues functions p ∧ ∃ target ∈ op.targets, target.block = c
  /-- Its parameters and lines come behind the values that exist. -/
  values : q.values.toList =
    p.values.toList ++ headsValues p.blocks.size d.layout ++ d.lineValues functions p

theorem instructions_of_heads {ds : List BlockDecl} {x : Block} : ∀ {n : Nat},
    x ∈ heads f n ds → x.instructions = [] := by
  induction ds with
  | nil =>
    intro n hx
    cases hx
  | cons d ds ih =>
    intro n hx
    rcases List.mem_cons.1 hx with rfl | hx
    · rfl
    · exact ih hx

@[simp] theorem length_heads {ds : List BlockDecl} : ∀ {n : Nat},
    (heads f n ds).length = ds.length := by
  induction ds with
  | nil => intro n; rfl
  | cons d ds ih => intro n; simp [heads, ih]

/-- The lines of blocks belong to no block `c` before them. -/
theorem bodiesIds_of_lt {ds : List BlockDecl} {c : BlockId} : ∀ {n k : Nat}, c.index < k →
    bodiesIds n k ds c = [] := by
  induction ds with
  | nil =>
    intro n k _
    rfl
  | cons d ds ih =>
    intro n k hc
    have hne : c ≠ ⟨k⟩ := by
      rintro rfl
      exact Nat.lt_irrefl _ hc
    rw [bodiesIds, if_neg hne, List.nil_append, ih (Nat.lt_succ_of_lt hc)]

section

variable {functions : List FunctionDecl} {m : ModuleId} {d : FunctionDecl} {entry : BlockDecl}
  {others : List BlockDecl} {p : Program} {s₁ s₂ s₃ : Resolution} {isDeclaration : Bool}

/-- The state after the heads of the function `d`: names and number of values. -/
theorem HeadsRead.scope_eq (hlayout : d.layout = entry :: others) (hargs : entry.params = d.args)
    (hnew : NewFunction p s₁.program m d.path d.args d.returnType isDeclaration entry.label)
    (hnames : s₁.names = (numbered p.values.size d.args).reverse)
    (hheads : HeadsRead ⟨p.functions.size⟩ others s₁ s₂) :
    s₂.names = d.scope p ∧ s₂.program.values.size = p.values.size + paramCount d.layout := by
  have hvalues : s₁.program.values.size = p.values.size + d.args.length := by
    rw [← Array.length_toList, hnew.values, List.length_append, length_paramValues,
      Array.length_toList]
  constructor
  · rw [hheads.names, hnames, hvalues, FunctionDecl.scope, hlayout, headsScope, hargs,
      List.append_nil]
  · rw [← Array.length_toList, hheads.values, List.length_append, length_headsValues,
      Array.length_toList, hvalues, hlayout, paramCount,
      hargs]
    omega

/-- The function `d` from its parts: its entry, its other blocks, its lines. -/
theorem functionRead_of_parts (hlayout : d.layout = entry :: others)
    (hargs : entry.params = d.args)
    (hnew : NewFunction p s₁.program m d.path d.args d.returnType d.blocks.isNone entry.label)
    (hheads : HeadsRead ⟨p.functions.size⟩ others s₁ s₂) {scope : Scope}
    (hlines : LinesRead (d.site functions p) (d.layout.flatMap BlockDecl.body)
      (d.lineValues functions p)
      (bodiesIds (p.values.size + paramCount d.layout) p.blocks.size d.layout) scope s₂ s₃) :
    FunctionRead functions m d p s₃.program := by
  have hsize : s₂.program.blocks.size = p.blocks.size + d.layout.length := by
    rw [hheads.blocks, hnew.blocks, hlayout, List.length_cons]
    omega
  have hfunction : ∀ g, s₃.program.function g = s₂.program.function g := fun g => by
    rw [Program.function, hlines.added.functions]
    rfl
  have hvalues : s₁.program.values.size = p.values.size + d.args.length := by
    rw [← Array.length_toList, hnew.values, List.length_append, length_paramValues,
      Array.length_toList]
  -- the blocks after their heads
  have hblock : ∀ k x, (heads ⟨p.functions.size⟩ p.values.size d.layout)[k]? = some x →
      (s₂.program.block ⟨p.blocks.size + k⟩).parts = x := by
    intro k x hx
    rw [hlayout, heads] at hx
    cases k with
    | zero =>
      obtain rfl : _ = x := by simpa using hx
      rw [Nat.add_zero, hheads.old _ (by rw [hnew.blocks]; exact Nat.lt_succ_self _), hnew.entry,
        hargs]
    | succ k =>
      rw [List.getElem?_cons_succ, hargs, ← hvalues] at hx
      have hrest := hheads.block k x hx
      rw [hnew.blocks] at hrest
      rw [show p.blocks.size + (k + 1) = p.blocks.size + 1 + k by omega]
      exact hrest
  refine ⟨?_, ?_, ?_, fun g hg => ?_, ?_, fun k x hx => ?_, fun c hc => ?_, fun c b hb => ?_, ?_⟩
  · rw [hlines.added.modules, hheads.modules, hnew.modules]
  · rw [hlines.added.functions, hheads.size, hnew.size]
  · rw [hfunction, hheads.function, hnew.function, hnew.blocks, hlayout, labelled]
    rfl
  · have hne : g ≠ ⟨p.functions.size⟩ := by
      rintro rfl
      exact Nat.lt_irrefl _ hg
    rw [hfunction, hheads.other g hne, hnew.other g hg]
  · rw [hlines.added.size, hsize]
  · obtain rfl := hblock k x hx
    have hnone := instructions_of_heads (List.mem_of_getElem? hx)
    have hlt : (⟨p.blocks.size + k⟩ : BlockId).index < s₂.program.blocks.size := by
      obtain ⟨hk, -⟩ := List.getElem?_eq_some_iff.1 hx
      rw [length_heads] at hk
      rw [hsize]
      exact Nat.add_lt_add_left hk _
    have hparams := hlines.added.params _ hlt
    have hinstructions := hlines.added.instructions _ hlt
    rw [List.append_nil] at hparams
    rw [show (s₂.program.block ⟨p.blocks.size + k⟩).instructions = [] from hnone,
      List.nil_append] at hinstructions
    rw [Block.parts, hparams, hinstructions, hlines.added.label, hlines.added.function]
    rfl
  · rw [hlines.added.parts_eq (by omega) rfl (bodiesIds_of_lt hc),
      hheads.old c (by rw [hnew.blocks]; omega), hnew.block c hc]
  · rcases hlines.added.preds c b hb with hb | hb
    · exact Or.inl (hnew.preds c b (hheads.preds c b hb).2)
    · exact Or.inr hb
  · rw [hlines.added.values, hheads.values, hnew.values, hnew.blocks, hlayout, headsValues, hargs]
    simp only [List.append_assoc]

theorem meets_resolveEntry (f : FunctionId) (decl : BlockDecl) :
    Meets (resolveEntry f decl) s (decl.params = []) fun x s' =>
      x = (decl.label, (s.program.function f).entry) ∧
        s' = { s with program := (modifyBlock (s.program.function f).entry
          (fun block => { block with label := decl.label }) s.program).2 } := by
  unfold resolveEntry
  dsimp only
  cases hparams : decl.params with
  | nil =>
    refine (meets_get_bind ?_).congr (iff_of_true trivial rfl)
    refine Meets.after (Q := fun _ s' => s' = { s with program :=
      (modifyBlock (s.program.function f).entry
        (fun block => { block with label := decl.label }) s.program).2 }) (meets_build rfl) ?_
    rintro - s' rfl
    exact meets_pure ⟨rfl, rfl⟩
  | cons x xs => exact (meets_throw _).congr (iff_of_false id (List.cons_ne_nil x xs))

/-- The body of `d`, after the function was made. -/
theorem meets_resolveBody (hblocks : d.blocks = some (entry :: others))
    (hnew : NewFunction p s.program m d.path d.args d.returnType d.blocks.isNone "entry") :
    Meets (resolveBody functions ⟨p.functions.size⟩ (entry :: others)) s
      (entry.params = [] ∧ (d.layout.map BlockDecl.label).Nodup ∧
        BodiesResolve (d.site functions p) (d.scope p) (p.values.size + paramCount d.layout)
          d.layout) fun _ s' =>
      FunctionRead functions m d p s'.program ∧
        (s'.missing = none ↔ s.missing = none ∧
          ∀ x ∈ d.layout.flatMap BlockDecl.body, x.operation.Called (d.site functions p)) := by
  have hlayout : d.layout = { entry with params := d.args } :: others := by
    rw [FunctionDecl.layout, hblocks]
  rw [resolveBody]
  refine meets_get_bind ?_
  rw [hnew.function]
  let s₁ : Resolution := { s with names := (numbered p.values.size d.args).reverse }
  refine Meets.after (Q := fun _ s' => s' = s₁) (meets_modify rfl) ?_
  rintro - s' rfl
  -- the entry exists already, and gets its label
  refine (meets_resolveEntry ⟨p.functions.size⟩ entry).bind ?_
  have hentry : (s₁.program.function ⟨p.functions.size⟩).entry = ⟨p.blocks.size⟩ := by
    rw [show s₁.program = s.program from rfl, hnew.function]
  rw [hentry]
  rintro first s₂ - ⟨rfl, rfl⟩
  let s₂ : Resolution := { s₁ with program := (modifyBlock ⟨p.blocks.size⟩
    (fun block => { block with label := entry.label }) s.program).2 }
  have hnew₂ : NewFunction p s₂.program m d.path d.args d.returnType d.blocks.isNone entry.label :=
    hnew.relabel entry.label
  have hlist : (s₂.program.function ⟨p.functions.size⟩).blocks = [⟨p.blocks.size⟩] := by
    rw [hnew₂.function]
    rfl
  have hlabels : [(entry.label, (⟨p.blocks.size⟩ : BlockId))].map Prod.fst =
      s₂.program.labels ⟨p.functions.size⟩ := by
    have hlabel := congrArg Block.label hnew₂.entry
    rw [Program.labels, hlist]
    exact congrArg (fun x => [x]) hlabel.symm
  -- then come the other blocks
  have hheads := meets_resolveBlocks ⟨p.functions.size⟩ others (s := s₂)
    (by rw [hnew₂.size]; exact Nat.lt_succ_self _) hlabels
    (by rw [hlist, hnew₂.blocks]; simp) (by simp)
  have hnodup : ([(entry.label, (⟨p.blocks.size⟩ : BlockId))].map Prod.fst ++
      others.map BlockDecl.label).Nodup ↔ (d.layout.map BlockDecl.label).Nodup := by
    rw [hlayout]
    rfl
  refine (hheads.congr hnodup).bind ?_
  rintro labels s₃ - ⟨hlabels₃, hread⟩
  obtain rfl : labels = labelled p.blocks.size (entry :: others) := by
    rw [hlabels₃, hnew₂.blocks]
    rfl
  have hsite : d.site functions p =
      ⟨functions, labelled p.blocks.size (entry :: others), ⟨p.functions.size⟩⟩ := by
    rw [FunctionDecl.site, hlayout]
    rfl
  -- the lines are read with the names of all parameters
  obtain ⟨hscope, hsize⟩ := HeadsRead.scope_eq hlayout rfl hnew₂ rfl hread
  have hbodies := @meets_bodies
    ⟨functions, labelled p.blocks.size (entry :: others), ⟨p.functions.size⟩⟩
    (entry :: others) s₃ p.blocks.size
  rw [hscope, hsize] at hbodies
  refine (hbodies.congr ?_).andThen fun _ s₄ _ h => meets_pure ?_
  · rw [hsite, hlayout]
    rfl
  · have hlines : LinesRead (d.site functions p) (d.layout.flatMap BlockDecl.body)
        (d.lineValues functions p)
        (bodiesIds (p.values.size + paramCount d.layout) p.blocks.size d.layout)
        (bodiesScope (d.scope p) (p.values.size + paramCount d.layout) d.layout) s₃ s₄ := by
      rw [FunctionDecl.lineValues, hsite]
      rw [hlayout] at h ⊢
      exact h
    refine ⟨functionRead_of_parts hlayout rfl hnew₂ hread hlines, ?_⟩
    rw [hlines.missing, hread.missing]

/-- When the function `d` can be resolved, and what it adds then. -/
theorem meets_resolveFunction (functions : List FunctionDecl) (m : ModuleId) (d : FunctionDecl)
    (s : Resolution) :
    Meets (resolveFunction functions m d) s (FunctionResolves functions m s.program d)
      fun _ s' => FunctionRead functions m d s.program s'.program ∧
        (s'.missing = none ↔ s.missing = none ∧ ∀ x ∈ d.layout.flatMap BlockDecl.body,
          x.operation.Called (d.site functions s.program)) := by
  unfold resolveFunction
  refine meets_get_bind ?_
  cases hfresh : (s.program.lookup? m d.path d.arity).isSome with
  | true =>
    exact (meets_throw _).congr (iff_of_false id fun h => by rw [h.fresh] at hfresh; cases hfresh)
  | false =>
    obtain ⟨hid, hnew⟩ := newFunction_addFunction s.program m d.path d.args d.returnType
      d.blocks.isNone
    let s₁ : Resolution := { s with program :=
      (Program.addFunction m d.path d.args d.returnType d.blocks.isNone s.program).2 }
    refine Meets.after (Q := fun f s' => f = ⟨s.program.functions.size⟩ ∧ s' = s₁)
      (meets_build ⟨hid, rfl⟩) ?_
    rintro f s' ⟨rfl, rfl⟩
    cases hblocks : d.blocks with
    | none =>
      have hlayout : d.layout = [{ label := "entry", params := d.args, body := [] }] := by
        rw [FunctionDecl.layout, hblocks]
      have hlines : LinesRead (d.site functions s.program) (d.layout.flatMap BlockDecl.body)
          (d.lineValues functions s.program)
          (bodiesIds (s.program.values.size + paramCount d.layout) s.program.blocks.size d.layout)
          s₁.names s₁ s₁ := by
        rw [FunctionDecl.lineValues, hlayout]
        refine ⟨rfl, (Added.refl _).congr (fun _ => rfl) fun c => ?_, by simp⟩
        simp [bodiesIds, bodyIds]
      refine (meets_pure ⟨functionRead_of_parts hlayout rfl hnew (headsRead_nil _ s₁) hlines,
        hlines.missing⟩).congr (iff_of_true trivial ⟨hfresh, by simp [hblocks], ?_, ?_⟩)
      · simp [hlayout]
      · rw [hlayout]
        exact ⟨trivial, trivial⟩
    | some bs =>
      cases bs with
      | nil =>
        refine (meets_get_bind (meets_throw _)).congr (iff_of_false id fun h => ?_)
        obtain ⟨entry, others, hnil, -⟩ := h.entry [] (by rw [hblocks]; rfl)
        cases hnil
      | cons entry others =>
        refine (meets_resolveBody hblocks hnew).congr ⟨fun h => ?_, fun h => ?_⟩
        · refine ⟨hfresh, fun bs hbs => ?_, h.2.1, h.2.2⟩
          obtain rfl : entry :: others = bs := by
            rw [hblocks] at hbs
            exact Option.some.inj hbs
          exact ⟨entry, others, rfl, h.1⟩
        · obtain ⟨entry', others', heq, hparams⟩ := h.entry _ (by rw [hblocks]; rfl)
          cases heq
          exact ⟨hparams, h.labels, h.lines⟩

end

/-! ### Programs -/

/-- The program of the first ones of the `functions` of a text. -/
inductive Resolved (functions : List FunctionDecl) : List FunctionDecl → Program → Prop
  /-- There is one module, which is empty. -/
  | nil : Resolved functions [] { modules := #[[]] }
  /-- A function comes behind the others. -/
  | snoc {ds : List FunctionDecl} {d : FunctionDecl} {p q : Program} : Resolved functions ds p →
      FunctionResolves functions ⟨0⟩ p d → FunctionRead functions ⟨0⟩ d p q →
        Resolved functions (ds ++ [d]) q

section

variable {functions : List FunctionDecl}

/-- One round of reading functions, which reads `d`. -/
theorem meets_round (d : FunctionDecl) (s : Resolution) :
    Meets (do
        resolveFunction functions ⟨0⟩ d
        pure (ForInStep.yield PUnit.unit)) s (FunctionResolves functions ⟨0⟩ s.program d)
      fun r s' => r = .yield ⟨⟩ ∧ FunctionRead functions ⟨0⟩ d s.program s'.program ∧
        (s'.missing = none ↔ s.missing = none ∧ ∀ x ∈ d.layout.flatMap BlockDecl.body,
          x.operation.Called (d.site functions s.program)) :=
  (meets_resolveFunction functions ⟨0⟩ d s).andThen fun _ _ _ hread => meets_pure ⟨rfl, hread⟩

theorem resolved_of_forIn {ds : List FunctionDecl} : ∀ {before : List FunctionDecl}
    {s s' : Resolution} {r : PUnit}, Resolved functions before s.program →
      (forIn ds PUnit.unit fun d _ => do
        resolveFunction functions ⟨0⟩ d
        pure (ForInStep.yield PUnit.unit) : ResolveM PUnit) s = .ok (r, s') →
      Resolved functions (before ++ ds) s'.program ∧ (s'.missing = none → s.missing = none ∧
        ∀ d ∈ ds, ∀ x ∈ d.layout.flatMap BlockDecl.body, x.operation.CalledIn functions) := by
  induction ds with
  | nil =>
    intro before s s' r h hrun
    cases hrun
    rw [List.append_nil]
    exact ⟨h, fun hmissing => ⟨hmissing, by simp⟩⟩
  | cons d ds ih =>
    intro before s s' r h hrun
    rw [List.forIn_cons] at hrun
    obtain ⟨x, s₁, hround, hrest⟩ := exists_of_bind_eq_ok hrun
    obtain ⟨hresolves, rfl, hread, hnoted⟩ := (meets_round d s).2 x s₁ hround
    obtain ⟨hall, hcalled⟩ := ih (h.snoc hresolves hread) hrest
    rw [List.append_assoc] at hall
    refine ⟨hall, fun hmissing => ?_⟩
    obtain ⟨hnone, hothers⟩ := hcalled hmissing
    obtain ⟨hstart, hfirst⟩ := hnoted.1 hnone
    exact ⟨hstart, List.forall_mem_cons.2 ⟨fun x hx => hfirst x hx, hothers⟩⟩

/-- If each function of `ds` can be resolved after those before it, and all callees exist, then
all of them are read. -/
theorem exists_forIn (ds : List FunctionDecl) : ∀ {before : List FunctionDecl} {s : Resolution},
    Resolved functions before s.program → s.missing = none →
      (∀ front d back p, ds = front ++ d :: back → Resolved functions (before ++ front) p →
        FunctionResolves functions ⟨0⟩ p d ∧
          ∀ x ∈ d.layout.flatMap BlockDecl.body, x.operation.Called (d.site functions p)) →
      ∃ s', (forIn ds PUnit.unit fun d _ => do
        resolveFunction functions ⟨0⟩ d
        pure (ForInStep.yield PUnit.unit) : ResolveM PUnit) s = .ok (⟨⟩, s') ∧
        s'.missing = none := by
  induction ds with
  | nil =>
    intro before s h hmissing _
    exact ⟨s, rfl, hmissing⟩
  | cons d ds ih =>
    intro before s h hmissing hall
    obtain ⟨hresolves, hcalled⟩ := hall [] d ds s.program rfl (by rwa [List.append_nil])
    obtain ⟨x, s₁, hround⟩ := (meets_round d s).1 hresolves
    obtain ⟨-, rfl, hread, hkept⟩ := (meets_round d s).2 x s₁ hround
    obtain ⟨s', hrun, hs'⟩ := ih (h.snoc hresolves hread) (hkept.2 ⟨hmissing, hcalled⟩)
      fun front d' back p hds hp =>
        hall (d :: front) d' back p (by rw [hds]; rfl) (by rwa [List.append_assoc] at hp)
    refine ⟨s', ?_, hs'⟩
    rw [List.forIn_cons, show ∀ {α β : Type} (x : ResolveM α) (k : α → ResolveM β),
      (x >>= k) s = (x s >>= fun r => k r.1 r.2) from fun _ _ => rfl, hround]
    exact hrun

theorem resolve_eq_ok_iff {p : Program} : resolve functions = .ok p ↔
    ∃ s, resolveAll functions {} = .ok ((), s) ∧ s.program = p := by
  unfold resolve StateT.run
  cases resolveAll functions {} with
  | error fault =>
    constructor
    · intro h
      cases h
    · rintro ⟨s, hs, -⟩
      cases hs
  | ok r =>
    constructor
    · intro h
      cases h
      exact ⟨r.2, rfl, rfl⟩
    · rintro ⟨s, hs, rfl⟩
      cases hs
      rfl

/-- The program `p` of a text that can be resolved; all callees exist. -/
theorem resolved_and_called_of_resolve {p : Program} (h : resolve functions = .ok p) :
    Resolved functions functions p ∧ ∀ d ∈ functions, ∀ x ∈ d.layout.flatMap BlockDecl.body,
      x.operation.CalledIn functions := by
  obtain ⟨s, hrun, rfl⟩ := resolve_eq_ok_iff.1 h
  unfold resolveAll at hrun
  obtain ⟨m, s₁, hmodule, hrun⟩ := exists_of_bind_eq_ok hrun
  cases hmodule
  obtain ⟨r, s₂, hloop, hrun⟩ := exists_of_bind_eq_ok hrun
  obtain ⟨hall, hcalled⟩ := @resolved_of_forIn functions functions [] _ _ _ .nil hloop
  obtain ⟨s₃, s₃', hget, hrun⟩ := exists_of_bind_eq_ok hrun
  cases hget
  cases hmissing : s₂.missing with
  | some fault =>
    rw [hmissing] at hrun
    cases hrun
  | none =>
    rw [hmissing] at hrun
    cases hrun
    exact ⟨hall, (hcalled hmissing).2⟩

theorem resolved_of_resolve {p : Program} (h : resolve functions = .ok p) :
    Resolved functions functions p :=
  (resolved_and_called_of_resolve h).1

/-- Resolving reads all `functions`, and then looks for a call that was noted. -/
theorem resolveAll_eq (functions : List FunctionDecl) : resolveAll functions {} = (do
    forIn functions PUnit.unit fun d _ => do
      resolveFunction functions ⟨0⟩ d
      pure (ForInStep.yield PUnit.unit)
    match (← get).missing with
    | some fault => throw fault
    | none => return () : ResolveM Unit) { program := { modules := #[[]] } } := rfl

theorem finish_eq_ok (h : s.missing = none) :
    (do match (← get).missing with
        | some fault => throw fault
        | none => return () : ResolveM Unit) s = .ok ((), s) := by
  obtain ⟨program, names, missing⟩ := s
  obtain rfl : missing = none := h
  rfl

/-- A text can be resolved if each of its `functions` can be after those before it, and all
callees exist. -/
theorem exists_resolve (hall : ∀ front d back p, functions = front ++ d :: back →
      Resolved functions front p → FunctionResolves functions ⟨0⟩ p d ∧
        ∀ x ∈ d.layout.flatMap BlockDecl.body, x.operation.Called (d.site functions p)) :
    ∃ p, resolve functions = .ok p := by
  let s₁ : Resolution := { program := { modules := #[[]] } }
  obtain ⟨s, hloop, hmissing⟩ := exists_forIn functions (s := s₁) .nil rfl hall
  refine ⟨s.program, resolve_eq_ok_iff.2 ⟨s, ?_, rfl⟩⟩
  rw [resolveAll_eq, show ∀ {α β : Type} (x : ResolveM α) (k : α → ResolveM β),
    (x >>= k) s₁ = (x s₁ >>= fun r => k r.1 r.2) from fun _ _ => rfl, hloop]
  exact finish_eq_ok hmissing

end

end FlowFacts.Source
