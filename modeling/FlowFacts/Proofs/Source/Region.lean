import FlowFacts.Proofs.Program.Validate
import FlowFacts.Proofs.Source.Meaning
import FlowFacts.Proofs.Source.Named
import FlowFacts.Proofs.Source.Resolve

/-!
# The parts of a program that functions are

A function of a text adds its blocks and values behind those of the functions before it, so its
blocks and values are intervals of the tables, and its instructions refer to values of its own
interval only (`Region`).  All the functions together make up the tables (`Regions`).

## Main definitions

* `Program.Region` — the intervals of blocks and values that a function is.
* `Program.Regions` — all functions of a program, one behind the other.

## Main results

* `region_of_functionRead` — what a function of a text adds is a region.
* `regions_of_load` — a program that was loaded consists of regions.
-/

namespace FlowFacts

/-- An operation `op` that refers to values in `G` and to the first `n` functions only, and that
names a point by a name. -/
structure Operation.Proper (G : ValueId → Prop) (n : Nat) (op : Operation) : Prop where
  /-- The operands. -/
  operand : ∀ u ∈ op.operands, G u
  /-- The callee. -/
  callee : ∀ callee args, op = .call callee args → callee.index < n
  /-- The point. -/
  point : ∀ x, op = .annotate x → Source.Grammar.IsName x

namespace Program

/-- A value `u` that the instructions of `f` may use: it was created with the function, and an
argument is the last one with its name. -/
def Usable (p : Program) (f : FunctionId) (first : Nat) (u : ValueId) : Prop :=
  first ≤ u.index ∧ ∀ name, (name, u) ∈ (p.function f).args →
    (p.function f).args.reverse.lookup name = some u

/-- A value `v` of `f`: a parameter or an instruction is in the list of its block, and an
instruction refers to values of the function and to the first `n` functions. -/
def Held (p : Program) (n : Nat) (f : FunctionId) (first : Nat) (v : ValueId) : Prop :=
  match p.value v with
  | .parameter b _ _ => b ∈ (p.function f).blocks ∧ v ∈ (p.block b).params
  | .constant _ => True
  | .instruction b op => b ∈ (p.function f).blocks ∧ v ∈ (p.block b).instructions ∧
      op.Proper (p.Usable f first) n

/-- The words of the function `f` are names. -/
structure Named (p : Program) (f : FunctionId) : Prop where
  /-- There is a path. -/
  path_ne : (p.function f).path ≠ []
  /-- Its segments are names. -/
  path : ∀ x ∈ (p.function f).path, Source.Grammar.IsName x
  /-- The arguments are named by names. -/
  args : ∀ x ∈ (p.function f).args, Source.Grammar.IsName x.1
  /-- So are the blocks. -/
  label : ∀ b ∈ (p.function f).blocks, Source.Grammar.IsName (p.block b).label
  /-- Only the entry may be labelled `nop`. -/
  others : ∀ b ∈ (p.function f).others, (p.block b).label ≠ "nop"

/-- The part of `p` that the function `f` is: the values from `first` to `last` and the blocks
from `start` to `stop`, without the ends.  Its calls go to the first `n` functions. -/
structure Region (p : Program) (n : Nat) (f : FunctionId) (first last start stop : Nat) : Prop where
  /-- The values are an interval. -/
  le : first ≤ last
  /-- They are values of the program. -/
  last_le : last ≤ p.values.size
  /-- The blocks are blocks of the program. -/
  stop_le : stop ≤ p.blocks.size
  /-- The blocks of the function are those of the interval. -/
  blocks : (p.function f).blocks = (List.range' start (stop - start)).map BlockId.mk
  /-- They know their function. -/
  owner : ∀ b ∈ (p.function f).blocks, (p.block b).function = f
  /-- The parameters of the entry are the arguments. -/
  entry : (p.block (p.function f).entry).params = (p.function f).args.map Prod.snd
  /-- The labels are different. -/
  labels : (p.labels f).Nodup
  /-- No label was generated. -/
  nextLabel : (p.function f).nextLabel = 0
  /-- A declaration has an entry only, with its own label and without instructions. -/
  declaration : (p.function f).isDeclaration = true → (p.function f).others = [] ∧
    (p.block (p.function f).entry).label = "entry" ∧
      (p.block (p.function f).entry).instructions = []
  /-- The values of the interval are held by the function. -/
  held : ∀ v : ValueId, first ≤ v.index → v.index < last → p.Held n f first v
  /-- Its parameters are values of the interval. -/
  param : ∀ b ∈ (p.function f).blocks, ∀ v ∈ (p.block b).params,
    first ≤ v.index ∧ v.index < last
  /-- So are its instructions. -/
  instruction : ∀ b ∈ (p.function f).blocks, ∀ v ∈ (p.block b).instructions,
    first ≤ v.index ∧ v.index < last
  /-- They were created in the order in which they stand. -/
  ascending : (p.instructionsOf (p.function f).blocks).Pairwise fun v w => v.index < w.index
  /-- The words are names. -/
  named : p.Named f

section

variable {p : Program} {n first last start stop : Nat} {f : FunctionId} {b : BlockId}
  {v : ValueId} {op : Operation}

/-- An instruction `v` of the interval refers to values of the function. -/
theorem Region.proper (h : p.Region n f first last start stop) (hfirst : first ≤ v.index)
    (hlast : v.index < last) (hv : p.value v = .instruction b op) :
    op.Proper (p.Usable f first) n := by
  have hheld := h.held v hfirst hlast
  rw [Held, hv] at hheld
  exact hheld.2.2

/-- A declaration has no instructions, so a function with an instruction `v` is none. -/
theorem Region.isDeclaration_eq_false (h : p.Region n f first last start stop)
    (hb : b ∈ (p.function f).blocks) (hv : v ∈ (p.block b).instructions) :
    (p.function f).isDeclaration = false := by
  by_contra hdecl
  obtain ⟨hothers, -, hnone⟩ := h.declaration (by simpa using hdecl)
  rw [Function.blocks, hothers, List.mem_singleton] at hb
  rw [hb, hnone] at hv
  cases hv

end

/-- All functions of `p`, one behind the other: the tables of blocks and values are cut into the
regions of the functions. -/
def Regions (p : Program) (n : Nat) : Prop :=
  ∃ vs bs : Nat → Nat, vs 0 = 0 ∧ bs 0 = 0 ∧ vs p.functions.size = p.values.size ∧
    bs p.functions.size = p.blocks.size ∧ ∀ f : FunctionId, f.index < p.functions.size →
      p.Region n f (vs f.index) (vs (f.index + 1)) (bs f.index) (bs (f.index + 1))

/-- Blocks `x` and `y` with the same parts differ in their predecessors at most. -/
theorem eq_of_parts {x y : Block} (h : x.parts = y.parts) : x.label = y.label ∧
    x.function = y.function ∧ x.params = y.params ∧ x.instructions = y.instructions := by
  simp only [Block.parts, Block.mk.injEq] at h
  exact ⟨h.1, h.2.1, h.2.2.1, h.2.2.2.1⟩

/-- The program `q` has what `p` has, and maybe more behind it. -/
structure Grows (p q : Program) : Prop where
  /-- No function is lost. -/
  functions : p.functions.size ≤ q.functions.size
  /-- No block is lost. -/
  blocks : p.blocks.size ≤ q.blocks.size
  /-- No value is lost. -/
  values : p.values.size ≤ q.values.size
  /-- The functions are the same. -/
  function : ∀ g, g.index < p.functions.size → q.function g = p.function g
  /-- The blocks are the same, but there may be more branches to them. -/
  block : ∀ c, c.index < p.blocks.size → (q.block c).parts = (p.block c).parts
  /-- The values are the same. -/
  value : ∀ v, v.index < p.values.size → q.value v = p.value v

theorem Grows.refl (p : Program) : p.Grows p :=
  ⟨Nat.le_refl _, Nat.le_refl _, Nat.le_refl _, fun _ _ => rfl, fun _ _ => rfl, fun _ _ => rfl⟩

theorem Grows.trans {p q r : Program} (h : p.Grows q) (h' : q.Grows r) : p.Grows r where
  functions := Nat.le_trans h.functions h'.functions
  blocks := Nat.le_trans h.blocks h'.blocks
  values := Nat.le_trans h.values h'.values
  function g hg := (h'.function g (Nat.lt_of_lt_of_le hg h.functions)).trans (h.function g hg)
  block c hc := (h'.block c (Nat.lt_of_lt_of_le hc h.blocks)).trans (h.block c hc)
  value v hv := (h'.value v (Nat.lt_of_lt_of_le hv h.values)).trans (h.value v hv)

theorem Held.congr {p q : Program} {n first : Nat} {f : FunctionId} {v : ValueId}
    (hfunction : q.function f = p.function f)
    (hblocks : ∀ b ∈ (p.function f).blocks, (q.block b).parts = (p.block b).parts)
    (hvalue : q.value v = p.value v) (h : p.Held n f first v) : q.Held n f first v := by
  unfold Held at h ⊢
  rw [hvalue, hfunction]
  cases hv : p.value v with
  | parameter b i ty =>
    rw [hv] at h
    have hparams := (eq_of_parts (hblocks b h.1)).2.2.1
    exact ⟨h.1, hparams.symm ▸ h.2⟩
  | constant c => trivial
  | instruction b op =>
    rw [hv] at h
    have hinstructions := (eq_of_parts (hblocks b h.1)).2.2.2
    refine ⟨h.1, hinstructions.symm ▸ h.2.1, fun u hu => ?_, h.2.2.callee, h.2.2.point⟩
    have husable := h.2.2.operand u hu
    rwa [Usable, ← hfunction] at husable

/-- The words of `f` stay if its blocks keep their labels. -/
theorem Named.congr {p q : Program} {f : FunctionId} (h : p.Named f)
    (hfunction : q.function f = p.function f)
    (hlabel : ∀ b ∈ (p.function f).blocks, (q.block b).label = (p.block b).label) :
    q.Named f where
  path_ne := hfunction ▸ h.path_ne
  path := hfunction ▸ h.path
  args := hfunction ▸ h.args
  label b hb := by
    rw [hfunction] at hb
    exact hlabel b hb ▸ h.label b hb
  others b hb := by
    rw [hfunction] at hb
    exact hlabel b (List.mem_cons_of_mem _ hb) ▸ h.others b hb

end Program

namespace Source

open Program

variable {f : FunctionId} {site : Site} {xs : List (String × Ty)} {x : Value}

/-- What `p` had stays if another function comes behind it. -/
theorem FunctionRead.grows {functions : List FunctionDecl} {m : ModuleId} {d : FunctionDecl}
    {p q : Program} (h : FunctionRead functions m d p q) : p.Grows q where
  functions := h.size ▸ Nat.le_succ _
  blocks := h.blocks ▸ Nat.le_add_right _ _
  values := by
    rw [← Array.length_toList, ← Array.length_toList, h.values, List.append_assoc,
      List.length_append]
    exact Nat.le_add_right _ _
  function := h.other
  block := h.old
  value v hv := by
    rw [value_eq_getElem?, value_eq_getElem?, h.values, List.append_assoc,
      List.getElem?_append_left (by simpa using hv)]

/-- The region of `f` stays if the program grows. -/
theorem frame_region {p q : Program} {n first last start stop : Nat}
    (h : p.Region n f first last start stop) (hgrows : p.Grows q)
    (hf : f.index < p.functions.size) : q.Region n f first last start stop := by
  have hfunction := hgrows.function f hf
  have hlt : ∀ b ∈ (p.function f).blocks, b.index < p.blocks.size := by
    intro b hb
    rw [h.blocks] at hb
    obtain ⟨j, hj, rfl⟩ := List.mem_map.1 hb
    have hj' := List.mem_range'_1.1 hj
    have hstop := h.stop_le
    simp only
    omega
  have hparts : ∀ b ∈ (p.function f).blocks, (q.block b).parts = (p.block b).parts :=
    fun b hb => hgrows.block b (hlt b hb)
  have hlabel : ∀ b ∈ (p.function f).blocks, (q.block b).label = (p.block b).label :=
    fun b hb => (eq_of_parts (hparts b hb)).1
  have hparams : ∀ b ∈ (p.function f).blocks, (q.block b).params = (p.block b).params :=
    fun b hb => (eq_of_parts (hparts b hb)).2.2.1
  have hinstructions : ∀ b ∈ (p.function f).blocks,
      (q.block b).instructions = (p.block b).instructions :=
    fun b hb => (eq_of_parts (hparts b hb)).2.2.2
  have hentry : (p.function f).entry ∈ (p.function f).blocks := List.mem_cons_self
  have hvalue : ∀ v : ValueId, v.index < last → q.value v = p.value v :=
    fun v hv => hgrows.value v (Nat.lt_of_lt_of_le hv h.last_le)
  refine
    { le := h.le
      last_le := Nat.le_trans h.last_le hgrows.values
      stop_le := Nat.le_trans h.stop_le hgrows.blocks
      blocks := hfunction ▸ h.blocks
      owner := fun b hb => ?_
      entry := ?_
      labels := ?_
      nextLabel := hfunction ▸ h.nextLabel
      declaration := fun hdecl => ?_
      held := fun v hfirst hlast => (h.held v hfirst hlast).congr hfunction hparts (hvalue v hlast)
      param := fun b hb v hv => ?_
      instruction := fun b hb v hv => ?_
      ascending := ?_
      named := h.named.congr hfunction hlabel }
  · rw [hfunction] at hb
    exact (eq_of_parts (hparts b hb)).2.1.trans (h.owner b hb)
  · rw [hfunction, hparams _ hentry]
    exact h.entry
  · rw [Program.labels, hfunction, List.map_congr_left hlabel]
    exact h.labels
  · rw [hfunction] at hdecl ⊢
    rw [hlabel _ hentry, hinstructions _ hentry]
    exact h.declaration hdecl
  · rw [hfunction] at hb
    exact h.param b hb v (hparams b hb ▸ hv)
  · rw [hfunction] at hb
    exact h.instruction b hb v (hinstructions b hb ▸ hv)
  · rw [instructionsOf, hfunction, List.flatMap_congr hinstructions]
    exact h.ascending

/-! ### Numbers of blocks and values -/

theorem map_snd_labelled {ds : List BlockDecl} : ∀ {k : Nat},
    (labelled k ds).map Prod.snd = (List.range' k ds.length).map BlockId.mk := by
  induction ds with
  | nil => intro k; rfl
  | cons d ds ih =>
    intro k
    rw [labelled, List.map_cons, ih, List.length_cons, List.range'_succ]
    rfl

theorem numbered_bounds {v : ValueId} : ∀ {n : Nat},
    v ∈ (numbered n xs).map Prod.snd → n ≤ v.index ∧ v.index < n + xs.length := by
  induction xs with
  | nil =>
    intro n hv
    cases hv
  | cons x xs ih =>
    intro n hv
    rw [numbered, List.map_cons, List.mem_cons] at hv
    rw [List.length_cons]
    rcases hv with rfl | hv
    · exact ⟨Nat.le_refl n, Nat.lt_add_of_pos_right (Nat.succ_pos _)⟩
    · have hbounds := ih hv
      omega

/-- The value `x` of a parameter and its number. -/
theorem getElem?_paramValues {b : BlockId} :
    ∀ {i j n : Nat}, (paramValues b j xs)[i]? = some x →
      (∃ ty, x = .parameter b (j + i) ty) ∧ ⟨n + i⟩ ∈ (numbered n xs).map Prod.snd := by
  induction xs with
  | nil =>
    intro i j n hx
    cases hx
  | cons y xs ih =>
    intro i j n hx
    rw [numbered, List.map_cons, List.mem_cons]
    cases i with
    | zero =>
      obtain rfl : _ = x := by simpa [paramValues] using hx
      exact ⟨⟨y.2, rfl⟩, Or.inl rfl⟩
    | succ i =>
      obtain ⟨hty, hmem⟩ := ih (i := i) (j := j + 1) (n := n + 1) (by simpa [paramValues] using hx)
      rw [show n + (i + 1) = n + 1 + i by omega, show j + (i + 1) = j + 1 + i by omega]
      exact ⟨hty, Or.inr hmem⟩

/-- The value `x` of a parameter of the blocks `ds` and its place. -/
theorem getElem?_headsValues {ds : List BlockDecl} : ∀ {i k n : Nat},
    (headsValues k ds)[i]? = some x →
      ∃ j y ty m, (heads f n ds)[j]? = some y ∧ x = .parameter ⟨k + j⟩ m ty ∧
        ⟨n + i⟩ ∈ y.params := by
  induction ds with
  | nil =>
    intro i k n hx
    cases hx
  | cons d ds ih =>
    intro i k n hx
    rw [headsValues] at hx
    by_cases hi : i < d.params.length
    · rw [List.getElem?_append_left (by simpa using hi)] at hx
      obtain ⟨⟨ty, rfl⟩, hmem⟩ := getElem?_paramValues (n := n) hx
      exact ⟨0, _, ty, _, rfl, rfl, hmem⟩
    · rw [List.getElem?_append_right (by simpa using hi), length_paramValues] at hx
      obtain ⟨j, y, ty, m, hy, rfl, hmem⟩ := ih (n := n + d.params.length) hx
      refine ⟨j + 1, y, ty, m, by simpa [heads] using hy, ?_, ?_⟩
      · rw [show k + (j + 1) = k + 1 + j by omega]
      · rwa [show n + d.params.length + (i - d.params.length) = n + i by omega] at hmem

/-! ### Lines -/

variable {n : Nat} {G : ValueId → Prop} {b : BlockId}

/-- What names in the `scope` stand for is in `G`. -/
def Good (G : ValueId → Prop) (scope : Scope) : Prop :=
  ∀ name, Known scope name → G (find scope name)

theorem Good.cons {scope : Scope} {name : String} {v : ValueId} (h : Good G scope) (hv : G v) :
    Good G ((name, v) :: scope) := by
  intro x hx
  unfold Known find at *
  rw [List.lookup_cons] at hx ⊢
  cases hxn : x == name with
  | true => exact hv
  | false =>
    rw [hxn] at hx
    exact h x hx

theorem Good.scope {scope : Scope} {v : ValueId} (h : Good G scope) (hv : G v)
    (d : InstructionDecl) : Good G (d.scope scope v) := by
  unfold InstructionDecl.scope
  cases d.name with
  | none => exact h
  | some name => exact h.cons hv

theorem Good.bodyScope {ds : List InstructionDecl} : ∀ {scope : Scope} {m : Nat}, Good G scope →
    (∀ j, m ≤ j → G ⟨j⟩) → Good G (bodyScope scope m ds) := by
  induction ds with
  | nil =>
    intro scope m h _
    exact h
  | cons d ds ih =>
    intro scope m h hG
    exact ih (h.scope (hG m (Nat.le_refl m)) d) fun j hj => hG j (by omega)

theorem Site.callee_lt (hfunctions : site.functions.length ≤ n) (hcaller : site.caller.index < n)
    (path : List String) (arity : Nat) : (site.callee path arity).index < n := by
  unfold Site.callee Site.callee?
  cases hindex : site.functions.findIdx? fun f => f.path == path && f.arity == arity with
  | none => exact hcaller
  | some i =>
    obtain ⟨hi, -⟩ := List.findIdx?_eq_some_iff_getElem.1 hindex
    exact Nat.lt_of_lt_of_le hi hfunctions

/-- The value of an operation `d` that can be resolved. -/
theorem proper_value (hfunctions : site.functions.length ≤ n) (hcaller : site.caller.index < n)
    {scope : Scope} (hscope : Good G scope) {d : OperationDecl} (hd : d.Resolves site scope)
    (hpoint : d.PointNamed) :
    (d.isConst = true ∧ ∃ c, d.value site scope b = .constant c) ∨
      d.isConst = false ∧ ∃ op, d.value site scope b = .instruction b op ∧ op.Proper G n := by
  have hcall := Site.callee_lt hfunctions hcaller
  cases d with
  | const ty value => exact Or.inl ⟨rfl, value, rfl⟩
  | annotate x =>
    refine Or.inr ⟨rfl, _, rfl, by simp [Operation.operands], by simp, ?_⟩
    intro y hy
    cases hy
    exact hpoint x rfl
  | nop => exact Or.inr ⟨rfl, _, rfl, by simp [Operation.operands], by simp, by simp⟩
  | not arg =>
    exact Or.inr ⟨rfl, _, rfl, by simpa [Operation.operands] using hscope arg hd, by simp, by simp⟩
  | binary op lhs rhs | compare predicate lhs rhs =>
    exact Or.inr ⟨rfl, _, rfl, by
      simpa [Operation.operands] using And.intro (hscope lhs hd.1) (hscope rhs hd.2), by simp,
      by simp⟩
  | ret ty value =>
    exact Or.inr ⟨rfl, _, rfl, by simpa [Operation.operands] using hscope value hd, by simp,
      by simp⟩
  | branch label args =>
    refine Or.inr ⟨rfl, _, rfl, ?_, by simp, by simp⟩
    intro u hu
    obtain ⟨x, hx, rfl⟩ := List.mem_map.1 hu
    exact hscope x (hd.2 x hx)
  | call path args =>
    refine Or.inr ⟨rfl, _, rfl, ?_, ?_, by simp⟩
    · intro u hu
      obtain ⟨x, hx, rfl⟩ := List.mem_map.1 hu
      exact hscope x (hd x hx)
    · intro callee vs hvs
      cases hvs
      exact hcall path args.length
  | condBranch cond trueLabel trueArgs falseLabel falseArgs =>
    refine Or.inr ⟨rfl, _, rfl, ?_, by simp, by simp⟩
    obtain ⟨hcond, -, -, htrue, hfalse⟩ := hd
    intro u hu
    rw [Operation.operands, List.mem_cons, List.mem_append, List.mem_map, List.mem_map] at hu
    rcases hu with rfl | ⟨x, hx, rfl⟩ | ⟨x, hx, rfl⟩
    · exact hscope cond hcond
    · exact hscope x (htrue x hx)
    · exact hscope x (hfalse x hx)

/-- The value `x` that a line of the block `b` creates. -/
def LineHeld (G : ValueId → Prop) (n : Nat) (b : BlockId) (listed : Prop) (x : Value) : Prop :=
  (∃ c, x = .constant c) ∨ ∃ op, x = .instruction b op ∧ listed ∧ op.Proper G n

theorem lineHeld_body (hfunctions : site.functions.length ≤ n) (hcaller : site.caller.index < n)
    {ds : List InstructionDecl} (hpoints : ∀ d ∈ ds, d.operation.PointNamed) :
    ∀ {scope : Scope} {m i : Nat}, Good G scope → (∀ j, m ≤ j → G ⟨j⟩) →
      BodyResolves site scope m ds → (bodyValues site b scope m ds)[i]? = some x →
        LineHeld G n b (⟨m + i⟩ ∈ bodyIds m ds) x := by
  induction ds with
  | nil =>
    intro scope m i _ _ _ hx
    cases hx
  | cons d ds ih =>
    intro scope m i hscope hG hd hx
    rw [List.forall_mem_cons] at hpoints
    cases i with
    | zero =>
      obtain rfl : _ = x := Option.some.inj hx
      rcases proper_value (b := b) hfunctions hcaller hscope hd.1 hpoints.1 with
        ⟨-, hconst⟩ | ⟨hconst, op, hop, hproper⟩
      · exact Or.inl hconst
      · exact Or.inr ⟨op, hop, by simp [bodyIds, hconst], hproper⟩
    | succ i =>
      have hnext : ∀ j, m + 1 ≤ j → G ⟨j⟩ := fun j hj => hG j (by omega)
      have hrest := ih hpoints.2 (i := i) (hscope.scope (hG m (Nat.le_refl m)) d) hnext hd.2 hx
      rw [show m + 1 + i = m + (i + 1) by omega] at hrest
      rcases hrest with hconst | ⟨op, hop, hmem, hproper⟩
      · exact Or.inl hconst
      · exact Or.inr ⟨op, hop, List.mem_append_right _ hmem, hproper⟩

/-- The lines of the blocks `ds` are listed by their blocks. -/
theorem lineHeld_bodies (hfunctions : site.functions.length ≤ n) (hcaller : site.caller.index < n)
    {ds : List BlockDecl} (hpoints : ∀ d ∈ ds, ∀ x ∈ d.body, x.operation.PointNamed) :
    ∀ {scope : Scope} {m k i : Nat}, Good G scope → (∀ j, m ≤ j → G ⟨j⟩) →
      BodiesResolve site scope m ds → (bodiesValues site scope m k ds)[i]? = some x →
        ∃ j, j < ds.length ∧ LineHeld G n ⟨k + j⟩ (⟨m + i⟩ ∈ bodiesIds m k ds ⟨k + j⟩) x := by
  induction ds with
  | nil =>
    intro scope m k i _ _ _ hx
    cases hx
  | cons d ds ih =>
    intro scope m k i hscope hG hd hx
    rw [List.forall_mem_cons] at hpoints
    rw [bodiesValues] at hx
    -- the line is one of the first block, or of those behind it
    by_cases hi : i < d.body.length
    · rw [List.getElem?_append_left (by simpa using hi)] at hx
      have hline := lineHeld_body hfunctions hcaller hpoints.1 hscope hG hd.1 hx
      refine ⟨0, Nat.succ_pos _, ?_⟩
      rcases hline with hconst | ⟨op, hop, hmem, hproper⟩
      · exact Or.inl hconst
      · exact Or.inr ⟨op, hop, by simp [bodiesIds, hmem], hproper⟩
    · rw [List.getElem?_append_right (by simpa using hi), length_bodyValues] at hx
      have hnext : ∀ j, m + d.body.length ≤ j → G ⟨j⟩ := fun j hj => hG j (by omega)
      obtain ⟨j, hj, hline⟩ := ih hpoints.2 (hscope.bodyScope hG) hnext hd.2 hx
      rw [show m + d.body.length + (i - d.body.length) = m + i by omega,
        show k + 1 + j = k + (j + 1) by omega] at hline
      refine ⟨j + 1, Nat.succ_lt_succ hj, ?_⟩
      rcases hline with hconst | ⟨op, hop, hmem, hproper⟩
      · exact Or.inl hconst
      · exact Or.inr ⟨op, hop, List.mem_append_right _ hmem, hproper⟩

/-- The instructions of blocks, from some number of values on. -/
def allIds : Nat → List BlockDecl → List ValueId
  | _, [] => []
  | n, d :: ds => bodyIds n d.body ++ allIds (n + d.body.length) ds

theorem bodyIds_bounds {ds : List InstructionDecl} : ∀ {m : Nat},
    (∀ v ∈ bodyIds m ds, m ≤ v.index ∧ v.index < m + ds.length) ∧
      (bodyIds m ds).Pairwise fun v w => v.index < w.index := by
  induction ds with
  | nil =>
    intro m
    exact ⟨by simp [bodyIds], List.Pairwise.nil⟩
  | cons d ds ih =>
    intro m
    obtain ⟨hbounds, hascending⟩ := ih (m := m + 1)
    have hrest : ∀ v ∈ bodyIds (m + 1) ds, m < v.index ∧ v.index < m + (d :: ds).length := by
      intro v hv
      have hv' := hbounds v hv
      rw [List.length_cons]
      omega
    rw [bodyIds]
    by_cases hconst : d.operation.isConst = false
    · rw [if_pos hconst, List.singleton_append]
      constructor
      · rw [List.forall_mem_cons]
        exact ⟨⟨Nat.le_refl m, Nat.lt_add_of_pos_right (Nat.succ_pos _)⟩,
          fun v hv => ⟨Nat.le_of_lt (hrest v hv).1, (hrest v hv).2⟩⟩
      · exact List.Pairwise.cons (fun v hv => (hrest v hv).1) hascending
    · rw [if_neg hconst, List.nil_append]
      exact ⟨fun v hv => ⟨Nat.le_of_lt (hrest v hv).1, (hrest v hv).2⟩, hascending⟩

/-- The number of lines of blocks. -/
def lineCount : List BlockDecl → Nat
  | [] => 0
  | d :: ds => d.body.length + lineCount ds

theorem length_bodiesValues {ds : List BlockDecl} : ∀ {scope : Scope} {m k : Nat},
    (bodiesValues site scope m k ds).length = lineCount ds := by
  induction ds with
  | nil => intro scope m k; rfl
  | cons d ds ih => intro scope m k; simp [bodiesValues, lineCount, ih]

theorem allIds_bounds {ds : List BlockDecl} : ∀ {m : Nat},
    (∀ v ∈ allIds m ds, m ≤ v.index ∧ v.index < m + lineCount ds) ∧
      (allIds m ds).Pairwise fun v w => v.index < w.index := by
  induction ds with
  | nil =>
    intro m
    exact ⟨by simp [allIds], List.Pairwise.nil⟩
  | cons d ds ih =>
    intro m
    obtain ⟨hbody, hbodyAsc⟩ := @bodyIds_bounds d.body m
    obtain ⟨hrest, hrestAsc⟩ := ih (m := m + d.body.length)
    have hcount : lineCount (d :: ds) = d.body.length + lineCount ds := rfl
    rw [allIds, hcount]
    constructor
    · intro v hv
      rcases List.mem_append.1 hv with hv | hv
      · have hv' := hbody v hv
        omega
      · have hv' := hrest v hv
        omega
    · refine List.pairwise_append.2 ⟨hbodyAsc, hrestAsc, fun v hv w hw => ?_⟩
      have hv' := hbody v hv
      have hw' := hrest w hw
      omega

/-- Each block of `ds` lists its own lines. -/
theorem flatMap_bodiesIds {ds : List BlockDecl} : ∀ {m k : Nat},
    ((List.range' k ds.length).map BlockId.mk).flatMap (bodiesIds m k ds) = allIds m ds := by
  induction ds with
  | nil => intro m k; rfl
  | cons d ds ih =>
    intro m k
    have hfirst : bodiesIds m k (d :: ds) ⟨k⟩ = bodyIds m d.body := by
      rw [bodiesIds, if_pos rfl, bodiesIds_of_lt (Nat.lt_succ_self k), List.append_nil]
    have hothers : ∀ c ∈ (List.range' (k + 1) ds.length).map BlockId.mk,
        bodiesIds m k (d :: ds) c = bodiesIds (m + d.body.length) (k + 1) ds c := by
      intro c hc
      obtain ⟨j, hj, rfl⟩ := List.mem_map.1 hc
      have hne : (⟨j⟩ : BlockId) ≠ ⟨k⟩ := by
        intro heq
        have hle := (List.mem_range'_1.1 hj).1
        have hjk : j = k := congrArg BlockId.index heq
        omega
      rw [bodiesIds, if_neg hne, List.nil_append]
    rw [List.length_cons, List.range'_succ, List.map_cons, List.flatMap_cons, hfirst,
      List.flatMap_congr hothers, ih, allIds]

/-! ### Blocks and scopes -/

/-- What the head `x` of a block is. -/
theorem of_mem_heads {ds : List BlockDecl} {x : Block} : ∀ {n : Nat}, x ∈ heads f n ds →
    x.function = f ∧ ∀ v ∈ x.params, n ≤ v.index ∧ v.index < n + paramCount ds := by
  induction ds with
  | nil =>
    intro n hx
    cases hx
  | cons d ds ih =>
    intro n hx
    have hcount : paramCount (d :: ds) = d.params.length + paramCount ds := rfl
    rw [hcount]
    rcases List.mem_cons.1 hx with rfl | hx
    · refine ⟨rfl, fun v hv => ?_⟩
      have hbounds := numbered_bounds hv
      omega
    · obtain ⟨hfunction, hbounds⟩ := ih hx
      refine ⟨hfunction, fun v hv => ?_⟩
      have hv' := hbounds v hv
      omega

theorem map_label_heads {ds : List BlockDecl} : ∀ {n : Nat},
    (heads f n ds).map Block.label = ds.map BlockDecl.label := by
  induction ds with
  | nil => intro n; rfl
  | cons d ds ih =>
    intro n
    rw [heads, List.map_cons, List.map_cons, ih]

/-- Numbers are given to `xs` once. -/
theorem nodup_numbered : ∀ {n : Nat},
    ((numbered n xs).map Prod.snd).Nodup := by
  induction xs with
  | nil => intro n; exact List.nodup_nil
  | cons x xs ih =>
    intro n
    rw [numbered, List.map_cons, List.nodup_cons]
    refine ⟨fun hmem => ?_, ih⟩
    exact absurd (numbered_bounds hmem).1 (Nat.not_succ_le_self n)

theorem name_numbered {P : String → Prop} (h : ∀ x ∈ xs, P x.1) :
    ∀ {n : Nat} {y : String × ValueId}, y ∈ numbered n xs → P y.1 := by
  induction xs with
  | nil =>
    intro n y hy
    cases hy
  | cons x xs ih =>
    intro n y hy
    rw [List.forall_mem_cons] at h
    rcases List.mem_cons.1 hy with rfl | hy
    · exact h.1
    · exact ih h.2 hy

/-- Names for parameters of the blocks `ds` come before the names there were. -/
theorem headsScope_eq {ds : List BlockDecl} : ∀ {scope : Scope} {n : Nat},
    ∃ new, headsScope scope n ds = new ++ scope ∧
      ∀ x ∈ new, n ≤ x.2.index ∧ x.2.index < n + paramCount ds := by
  induction ds with
  | nil =>
    intro scope n
    exact ⟨[], rfl, by simp⟩
  | cons d ds ih =>
    intro scope n
    obtain ⟨new, hnew, hbounds⟩ :=
      @ih ((numbered n d.params).reverse ++ scope) (n + d.params.length)
    have hcount : paramCount (d :: ds) = d.params.length + paramCount ds := rfl
    refine ⟨new ++ (numbered n d.params).reverse, ?_, fun x hx => ?_⟩
    · rw [headsScope, hnew, List.append_assoc]
    · rw [hcount]
      rcases List.mem_append.1 hx with hx | hx
      · have hx' := hbounds x hx
        omega
      · have hx' := numbered_bounds (List.mem_map_of_mem (List.mem_reverse.1 hx))
        omega

/-- An argument `u` is found by the last name that it has, and everything else comes later. -/
theorem lookup_arguments {args : List (String × Ty)} {new : Scope} {k : Nat}
    (hnew : ∀ x ∈ new, k + args.length ≤ x.2.index) {name : String} {u : ValueId}
    (hu : (new ++ (numbered k args).reverse).lookup name = some u) :
    k ≤ u.index ∧ ∀ other, (other, u) ∈ numbered k args →
      (numbered k args).reverse.lookup other = some u := by
  -- the name is that of a later value, or of an argument
  have hsplit : new.lookup name = some u ∨
      new.lookup name = none ∧ (numbered k args).reverse.lookup name = some u := by
    rw [List.lookup_append] at hu
    cases hn : new.lookup name with
    | none =>
      rw [hn, Option.none_or] at hu
      exact Or.inr ⟨rfl, hu⟩
    | some u' =>
      rw [hn, Option.some_or] at hu
      exact Or.inl hu
  rcases hsplit with hu | ⟨-, hu⟩
  · -- a later value is no argument
    have hle : k + args.length ≤ u.index := hnew (name, u) (mem_of_lookup hu)
    refine ⟨by omega, fun other hother => ?_⟩
    have hlt := (numbered_bounds (List.mem_map_of_mem (f := Prod.snd) hother)).2
    exact absurd hlt (Nat.not_lt.2 hle)
  · have harg : (name, u) ∈ numbered k args := List.mem_reverse.1 (mem_of_lookup hu)
    refine ⟨(numbered_bounds (List.mem_map_of_mem (f := Prod.snd) harg)).1, fun other hother => ?_⟩
    obtain rfl : other = name :=
      congrArg Prod.fst (List.inj_on_of_nodup_map nodup_numbered hother harg rfl)
    exact hu

/-! ### Functions -/

section

variable {functions : List FunctionDecl} {m : ModuleId} {d : FunctionDecl} {p q : Program}

/-- The layout of `d` has an entry, whose parameters are the arguments. -/
theorem FunctionDecl.exists_layout (d : FunctionDecl) :
    ∃ entry others, d.layout = entry :: others ∧ entry.params = d.args := by
  unfold FunctionDecl.layout
  split
  · exact ⟨_, _, rfl, rfl⟩
  · exact ⟨_, _, rfl, rfl⟩

theorem FunctionDecl.args_le (d : FunctionDecl) : d.args.length ≤ paramCount d.layout := by
  obtain ⟨entry, others, hlayout, hargs⟩ := d.exists_layout
  rw [hlayout, paramCount, hargs]
  exact Nat.le_add_right _ _

/-- The words of the blocks of `d`, also of those that a declaration has. -/
theorem FunctionDecl.Worded.layout (h : d.Worded) : (∀ b ∈ d.layout, b.Worded) ∧
    ∀ b ∈ d.layout.tail, b.label ≠ "nop" := by
  have hentry : Grammar.IsName "entry" := by decide
  unfold FunctionDecl.layout
  split
  · next entry others hblocks =>
    have hworded := h.blocks _ hblocks
    rw [List.forall_mem_cons] at hworded
    refine ⟨List.forall_mem_cons.2 ⟨⟨hworded.1.label, hworded.1.points⟩, hworded.2⟩, ?_⟩
    exact h.labels (entry :: others) hblocks
  · exact ⟨by simpa using ⟨hentry, by simp⟩, by simp⟩

section

variable (h : FunctionRead functions m d p q)

include h

theorem FunctionRead.blocks_eq :
    (q.function ⟨p.functions.size⟩).blocks =
      (List.range' p.blocks.size d.layout.length).map BlockId.mk := by
  obtain ⟨entry, others, hlayout, -⟩ := d.exists_layout
  rw [← map_snd_labelled, h.function, hlayout, labelled]
  rfl

/-- A block `b` of the function, by its place. -/
theorem FunctionRead.exists_head (hb : b ∈ (q.function ⟨p.functions.size⟩).blocks) :
    ∃ k x, b = ⟨p.blocks.size + k⟩ ∧
      (heads ⟨p.functions.size⟩ p.values.size d.layout)[k]? = some x ∧
      (q.block b).parts =
        { x with instructions := bodiesIds (p.values.size + paramCount d.layout) p.blocks.size
                  d.layout b } := by
  rw [h.blocks_eq] at hb
  obtain ⟨j, hj, rfl⟩ := List.mem_map.1 hb
  obtain ⟨hle, hlt⟩ := List.mem_range'_1.1 hj
  obtain ⟨k, rfl⟩ := Nat.exists_eq_add_of_le hle
  have hk : k < (heads ⟨p.functions.size⟩ p.values.size d.layout).length := by
    rw [length_heads]
    omega
  exact ⟨k, _, rfl, List.getElem?_eq_getElem hk, h.block k _ (List.getElem?_eq_getElem hk)⟩

/-- The block at place `k` is one of the function. -/
theorem FunctionRead.mem_blocks {k : Nat}
    (hk : k < d.layout.length) :
    ⟨p.blocks.size + k⟩ ∈ (q.function ⟨p.functions.size⟩).blocks := by
  rw [h.blocks_eq]
  refine List.mem_map_of_mem (List.mem_range'_1.2 ?_)
  omega

theorem FunctionRead.instructions_eq
    (hb : b ∈ (q.function ⟨p.functions.size⟩).blocks) : (q.block b).instructions =
      bodiesIds (p.values.size + paramCount d.layout) p.blocks.size d.layout b := by
  obtain ⟨k, x, -, -, hparts⟩ := h.exists_head hb
  exact congrArg Block.instructions hparts

theorem FunctionRead.instructionsOf_eq :
    q.instructionsOf (q.function ⟨p.functions.size⟩).blocks =
      allIds (p.values.size + paramCount d.layout) d.layout := by
  rw [← flatMap_bodiesIds (k := p.blocks.size), instructionsOf]
  rw [List.flatMap_congr fun b hb => h.instructions_eq hb, h.blocks_eq]

theorem FunctionRead.size_values :
    q.values.size = p.values.size + paramCount d.layout + lineCount d.layout := by
  rw [← Array.length_toList, h.values, List.length_append, List.length_append, length_headsValues,
    FunctionDecl.lineValues, length_bodiesValues, Array.length_toList]

/-- What the parameters of `d` stand for may be used. -/
theorem FunctionRead.good_scope :
    Good (q.Usable ⟨p.functions.size⟩ p.values.size) (d.scope p) := by
  obtain ⟨entry, others, hlayout, hargs⟩ := d.exists_layout
  obtain ⟨new, hnew, hbounds⟩ := @headsScope_eq others (numbered p.values.size d.args).reverse
    (p.values.size + d.args.length)
  have hscope : d.scope p = new ++ (numbered p.values.size d.args).reverse := by
    rw [FunctionDecl.scope, hlayout, headsScope, hargs, List.append_nil, hnew]
  intro name hname
  obtain ⟨u, hu⟩ := Option.isSome_iff_exists.1 hname
  rw [find, hu, Option.getD_some]
  rw [hscope] at hu
  have hfunction := congrArg Function.args h.function
  rw [Usable, hfunction]
  exact lookup_arguments (fun x hx => (hbounds x hx).1) hu

/-- What lines of `d` create may be used. -/
theorem FunctionRead.usable_line {j : Nat}
    (hj : p.values.size + paramCount d.layout ≤ j) :
    q.Usable ⟨p.functions.size⟩ p.values.size ⟨j⟩ := by
  have hargs := d.args_le
  refine ⟨by simp only; omega, fun name hname => ?_⟩
  have hfunction := congrArg Function.args h.function
  rw [hfunction] at hname
  have hlt := (numbered_bounds (List.mem_map_of_mem (f := Prod.snd) hname)).2
  simp only at hlt
  omega

/-- The values `v` that the function `d` has added are held by it. -/
theorem FunctionRead.held
    (hresolves : FunctionResolves functions m p d) (hfunctions : functions.length ≤ n)
    (hcaller : p.functions.size < n)
    (hpoints : ∀ b ∈ d.layout, ∀ x ∈ b.body, x.operation.PointNamed) {v : ValueId}
    (hfirst : p.values.size ≤ v.index) (hlast : v.index < q.values.size) :
    q.Held n ⟨p.functions.size⟩ p.values.size v := by
  obtain ⟨j⟩ := v
  simp only at hfirst hlast
  obtain ⟨i, rfl⟩ := Nat.exists_eq_add_of_le hfirst
  have hvalue : ∀ x, (headsValues p.blocks.size d.layout ++ d.lineValues functions p)[i]? =
      some x → q.value ⟨p.values.size + i⟩ = x := by
    intro x hx
    rw [value_eq_getElem?, h.values, List.append_assoc, List.getElem?_append_right (by simp)]
    rw [Array.length_toList, Nat.add_sub_cancel_left, hx]
    rfl
  unfold Held
  by_cases hi : i < paramCount d.layout
  · -- it is a parameter
    have hlt : i < (headsValues p.blocks.size d.layout).length := by rwa [length_headsValues]
    obtain ⟨k, y, ty, place, hy, hx, hmem⟩ := getElem?_headsValues (f := ⟨p.functions.size⟩)
      (n := p.values.size) (List.getElem?_eq_getElem hlt)
    rw [hvalue _ ((List.getElem?_append_left hlt).trans (List.getElem?_eq_getElem hlt)), hx]
    have hk := (List.getElem?_eq_some_iff.1 hy).1
    rw [length_heads] at hk
    refine ⟨h.mem_blocks hk, ?_⟩
    have hparams := congrArg Block.params (h.block k y hy)
    exact hparams ▸ hmem
  · -- it is the value of a line
    have hlines : i - paramCount d.layout < (d.lineValues functions p).length := by
      rw [h.size_values] at hlast
      rw [FunctionDecl.lineValues, length_bodiesValues]
      omega
    have hindex : p.values.size + paramCount d.layout + (i - paramCount d.layout) =
        p.values.size + i := by omega
    obtain ⟨x, hx⟩ : ∃ x, (d.lineValues functions p)[i - paramCount d.layout]? = some x :=
      ⟨_, List.getElem?_eq_getElem hlines⟩
    obtain ⟨k, hk, hline⟩ := lineHeld_bodies (n := n)
      (G := q.Usable ⟨p.functions.size⟩ p.values.size) hfunctions hcaller hpoints h.good_scope
      (fun j hj => h.usable_line hj) hresolves.lines hx
    rw [hindex] at hline
    rw [hvalue x (by rw [List.getElem?_append_right (by rw [length_headsValues]; omega),
      length_headsValues, hx])]
    rcases hline with ⟨c, rfl⟩ | ⟨op, rfl, hmem, hproper⟩
    · trivial
    · exact ⟨h.mem_blocks hk, h.instructions_eq (h.mem_blocks hk) ▸ hmem, hproper⟩

theorem FunctionRead.label_mem (hb : b ∈ (q.function ⟨p.functions.size⟩).blocks) :
    ∃ x ∈ d.layout, (q.block b).label = x.label := by
  obtain ⟨k, x, -, hx, hparts⟩ := h.exists_head hb
  have hmem : x.label ∈ d.layout.map BlockDecl.label := by
    rw [← map_label_heads (f := ⟨p.functions.size⟩) (n := p.values.size)]
    exact List.mem_map_of_mem (List.mem_of_getElem? hx)
  obtain ⟨y, hy, hlabel⟩ := List.mem_map.1 hmem
  exact ⟨y, hy, (congrArg Block.label hparts).trans hlabel.symm⟩

/-- The labels of the blocks of `d` are those of the text. -/
theorem FunctionRead.labels_eq :
    q.labels ⟨p.functions.size⟩ = d.layout.map BlockDecl.label := by
  rw [Program.labels, h.blocks_eq, ← map_label_heads (f := ⟨p.functions.size⟩) (n := p.values.size)]
  refine List.ext_getElem (by simp) fun k hk hk' => ?_
  simp only [List.getElem_map, List.getElem_range', Nat.one_mul]
  rw [List.length_map] at hk'
  have hparts := congrArg Block.label (h.block k _ (List.getElem?_eq_getElem hk'))
  exact hparts

/-- The parameters of the `entry` are the arguments. -/
theorem FunctionRead.entry_eq {entry : BlockDecl}
    {others : List BlockDecl} (hlayout : d.layout = entry :: others)
    (hargs : entry.params = d.args) : (q.block ⟨p.blocks.size⟩).parts =
      { label := entry.label
        function := ⟨p.functions.size⟩
        params := (numbered p.values.size d.args).map Prod.snd
        instructions := bodiesIds (p.values.size + paramCount d.layout) p.blocks.size d.layout
          ⟨p.blocks.size⟩ } := by
  have hhead : (heads ⟨p.functions.size⟩ p.values.size d.layout)[0]? = some
      { label := entry.label, function := ⟨p.functions.size⟩,
        params := (numbered p.values.size d.args).map Prod.snd } := by
    rw [hlayout, heads, hargs]
    rfl
  exact h.block 0 _ hhead

/-- A declaration `d` has an entry without instructions. -/
theorem FunctionRead.declaration (hdecl : (q.function ⟨p.functions.size⟩).isDeclaration = true) :
    (q.function ⟨p.functions.size⟩).others = [] ∧
      (q.block (q.function ⟨p.functions.size⟩).entry).label = "entry" ∧
      (q.block (q.function ⟨p.functions.size⟩).entry).instructions = [] := by
  have hfunction := h.function
  have hnone : d.blocks = none := by
    rw [hfunction] at hdecl
    simpa using hdecl
  have hlayout : d.layout = [{ label := "entry", params := d.args, body := [] }] := by
    rw [FunctionDecl.layout, hnone]
  have hentry := h.entry_eq hlayout rfl
  rw [hfunction]
  refine ⟨by rw [hlayout]; rfl, congrArg Block.label hentry, ?_⟩
  have hinstructions := congrArg Block.instructions hentry
  refine hinstructions.trans ?_
  rw [hlayout]
  simp [bodiesIds, bodyIds]

/-- The names of the function `d` are those of the text. -/
theorem FunctionRead.named (hworded : d.Worded) :
    q.Named ⟨p.functions.size⟩ := by
  obtain ⟨hwords, hnop⟩ := hworded.layout
  have hfunction := h.function
  refine
    { path_ne := by rw [hfunction]; exact hworded.path_ne
      path := by rw [hfunction]; exact hworded.path
      args := fun x hx => ?_
      label := fun b hb => ?_
      others := fun b hb => ?_ }
  · rw [hfunction] at hx
    exact name_numbered hworded.args hx
  · obtain ⟨y, hy, hlabel⟩ := h.label_mem hb
    exact hlabel ▸ (hwords y hy).label
  · have hmap := congrArg List.tail h.labels_eq
    rw [Program.labels, Function.blocks, List.map_cons, List.tail_cons, ← List.map_tail] at hmap
    have hmem := List.mem_map_of_mem (f := fun b => (q.block b).label) hb
    rw [hmap] at hmem
    obtain ⟨y, hy, hlabel⟩ := List.mem_map.1 hmem
    exact hlabel ▸ hnop y hy

/-- What the function `d` of a text adds is a region. -/
theorem region_of_functionRead (hresolves : FunctionResolves functions m p d) (hworded : d.Worded)
    (hfunctions : functions.length ≤ n) (hcaller : p.functions.size < n) :
    q.Region n ⟨p.functions.size⟩ p.values.size q.values.size p.blocks.size q.blocks.size := by
  obtain ⟨entry, others, hlayout, hargs⟩ := d.exists_layout
  obtain ⟨hwords, -⟩ := hworded.layout
  have hfunction := h.function
  obtain ⟨hids, hascending⟩ := @allIds_bounds d.layout (p.values.size + paramCount d.layout)
  have hcount : q.blocks.size - p.blocks.size = d.layout.length := by
    rw [h.blocks, Nat.add_sub_cancel_left]
  refine
    { le := by
        rw [h.size_values]
        omega
      last_le := Nat.le_refl _
      stop_le := Nat.le_refl _
      blocks := by rw [hcount, h.blocks_eq]
      owner := fun b hb => ?_
      entry := ?_
      labels := h.labels_eq ▸ hresolves.labels
      nextLabel := by rw [hfunction]
      declaration := h.declaration
      held := fun v hfirst hlast => h.held hresolves hfunctions hcaller
        (fun b hb => (hwords b hb).points) hfirst hlast
      param := fun b hb v hv => ?_
      instruction := fun b hb v hv => ?_
      ascending := h.instructionsOf_eq ▸ hascending
      named := h.named hworded }
  · obtain ⟨k, x, -, hx, hparts⟩ := h.exists_head hb
    have howner := congrArg Block.function hparts
    exact howner.trans (of_mem_heads (List.mem_of_getElem? hx)).1
  · rw [hfunction]
    exact congrArg Block.params (h.entry_eq hlayout hargs)
  · obtain ⟨k, x, -, hx, hparts⟩ := h.exists_head hb
    have hparams : v ∈ x.params := congrArg Block.params hparts ▸ hv
    have hbounds := (of_mem_heads (List.mem_of_getElem? hx)).2 v hparams
    rw [h.size_values]
    omega
  · have hmem : v ∈ q.instructionsOf (q.function ⟨p.functions.size⟩).blocks :=
      List.mem_flatMap.2 ⟨b, hb, hv⟩
    have hbounds := hids v (h.instructionsOf_eq ▸ hmem)
    rw [h.size_values]
    omega

end

end

/-! ### Programs -/

section

variable {functions ds : List FunctionDecl} {p : Program}

/-- The functions `ds` of a text are regions, one behind the other. -/
theorem regions_of_resolved (h : Resolved functions ds p) (hworded : ∀ d ∈ ds, d.Worded)
    (hfunctions : functions.length ≤ n) (hlength : ds.length ≤ n) :
    p.Regions n ∧ p.functions.size = ds.length := by
  induction h with
  | nil => exact ⟨⟨fun _ => 0, fun _ => 0, rfl, rfl, rfl, rfl, by simp⟩, rfl⟩
  | @snoc ds d p q _ hresolves hread ih =>
    rw [List.length_append, List.length_singleton] at hlength
    rw [List.forall_mem_append, List.forall_mem_singleton] at hworded
    obtain ⟨⟨vs, bs, hvs₀, hbs₀, hvs, hbs, hregion⟩, hsize⟩ := ih hworded.1 (by omega)
    have hnew := region_of_functionRead hread hresolves hworded.2 hfunctions (n := n) (by omega)
    -- the new region begins where the others end, and these stay as the program grows
    refine ⟨⟨fun i => if i ≤ p.functions.size then vs i else q.values.size,
      fun i => if i ≤ p.functions.size then bs i else q.blocks.size, by simpa using hvs₀,
      by simpa using hbs₀, ?_, ?_, fun f hf => ?_⟩, ?_⟩
    · exact hread.size ▸ if_neg (Nat.not_succ_le_self _)
    · exact hread.size ▸ if_neg (Nat.not_succ_le_self _)
    · rw [hread.size] at hf
      by_cases hlast : f.index = p.functions.size
      · obtain rfl : f = ⟨p.functions.size⟩ := by cases f; exact congrArg _ hlast
        simp only [Nat.le_refl, if_true, hvs, hbs, if_neg (Nat.not_succ_le_self _)]
        exact hnew
      · have hlt : f.index < p.functions.size := by omega
        simp only [if_pos (Nat.le_of_lt hlt), if_pos (Nat.succ_le_of_lt hlt)]
        exact frame_region (hregion f hlt) hread.grows hlt
    · rw [hread.size, hsize, List.length_append, List.length_singleton]

/-- A program `p` that was loaded consists of regions. -/
theorem regions_of_load {text : String} (h : load text = .ok p) : p.Regions p.functions.size := by
  obtain ⟨functions, hread, hresolve, -⟩ := steps_of_load h
  obtain ⟨hregions, hsize⟩ := regions_of_resolved (resolved_of_resolve hresolve)
    (worded_of_read hread) (Nat.le_refl _) (Nat.le_refl _)
  rwa [hsize]

end

end Source

end FlowFacts
