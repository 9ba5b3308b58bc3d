import FlowFacts.Program.Builder
import Mathlib.Data.List.Pairwise
import Mathlib.Tactic.Common

/-!
# Programs that were built

A program grows by the operations of its builder only, each of which appends to its tables.
So the parts of a program fit together: an instruction uses values that were created before
it, a block lists its own instructions in the order of their creation, a parameter knows its
place, and a block that is branched to knows where from.

## Main definitions

* `Program.Built` — the parts of a program fit together.

## Main results

* `Built.addConstant`, `Built.addParameter`, `Built.append`, `Built.addBlock`,
  `Built.addFunction` — the operations of the builder preserve this.
-/

namespace FlowFacts.Program

variable {p : Program} {b c : BlockId} {f g : FunctionId} {v w : ValueId} {op : Operation}
  {m : ModuleId}

/-- The parts of `p` fit together. -/
structure Built (p : Program) : Prop where
  /-- Operands are created before the instructions that use them. -/
  operand_lt : ∀ {v b op w}, p.value v = .instruction b op → w ∈ op.operands → w.index < v.index
  /-- A block lists instructions of its own. -/
  instruction : ∀ {b v}, v ∈ (p.block b).instructions →
    v.index < p.values.size ∧ ∃ op, p.value v = .instruction b op
  /-- It lists them in the order of their creation. -/
  ascending : ∀ b, (p.block b).instructions.Pairwise fun v w => v.index < w.index
  /-- A parameter knows its block and its place there. -/
  parameter : ∀ {b i v}, (p.block b).params[i]? = some v →
    v.index < p.values.size ∧ ∃ ty, p.value v = .parameter b i ty
  /-- Branches go to blocks of the program. -/
  target_lt : ∀ {v b op target}, p.value v = .instruction b op → target ∈ op.targets →
    target.block.index < p.blocks.size
  /-- A block knows where it is branched to from. -/
  pred : ∀ {v b op target}, p.value v = .instruction b op → target ∈ op.targets →
    b ∈ (p.block target.block).preds
  /-- Functions have blocks of the program. -/
  block_lt : ∀ {f b}, f.index < p.functions.size → b ∈ (p.function f).blocks →
    b.index < p.blocks.size
  /-- Arguments are parameters of the entry. -/
  arg : ∀ {f x}, f.index < p.functions.size → x ∈ (p.function f).args →
    x.2 ∈ (p.block (p.function f).entry).params
  /-- Modules have functions of the program. -/
  member_lt : ∀ {m f}, f ∈ p.functionsOf m → f.index < p.functions.size
  /-- Every function is in a module. -/
  listed : ∀ {f}, f.index < p.functions.size → ∃ m : ModuleId, f ∈ p.functionsOf m

/-- The empty program is built. -/
theorem built_empty : Built {} where
  operand_lt h := by simp [value, default, instInhabitedValue.default] at h
  instruction h := by simp [block, default, instInhabitedBlock.default] at h
  ascending b := by simp [block, default, instInhabitedBlock.default]
  parameter h := by simp [block, default, instInhabitedBlock.default] at h
  target_lt h := by simp [value, default, instInhabitedValue.default] at h
  pred h := by simp [value, default, instInhabitedValue.default] at h
  block_lt h := by simp at h
  arg h := by simp at h
  member_lt h := by simp [functionsOf] at h
  listed h := by simp at h

/-! ### Reading after writing -/

theorem value_push {values : Array Value} {x : Value} (w : ValueId) :
    ({ p with values := values.push x } : Program).value w =
      if w.index = values.size then x else ({ p with values } : Program).value w := by
  simp only [value, Array.getElem?_push]
  split <;> simp_all

theorem block_push {blocks : Array Block} {x : Block} (c : BlockId) :
    ({ p with blocks := blocks.push x } : Program).block c =
      if c.index = blocks.size then x else ({ p with blocks } : Program).block c := by
  simp only [block, Array.getElem?_push]
  split <;> simp_all

theorem function_push {functions : Array Function} {x : Function} (g : FunctionId) :
    ({ p with functions := functions.push x } : Program).function g =
      if g.index = functions.size then x else ({ p with functions } : Program).function g := by
  simp only [function, Array.getElem?_push]
  split <;> simp_all

/-- Listing the function `f` in the module `m`. -/
theorem functionsOf_modify (hm : m.index < p.modules.size) (f : FunctionId) (m' : ModuleId) :
    ({ p with modules := p.modules.modify m.index (· ++ [f]) } : Program).functionsOf m' =
      if m' = m then p.functionsOf m ++ [f] else p.functionsOf m' := by
  have hindex : m.index = m'.index ↔ m' = m := by
    cases m
    cases m'
    simp [eq_comm]
  simp only [functionsOf, Array.getElem?_modify, hindex]
  split
  · next heq => simp [heq, hm]
  · rfl

theorem block_modify (change : Block → Block) (b c : BlockId) :
    (modifyBlock b change p).2.block c =
      if c = b ∧ b.index < p.blocks.size then change (p.block b) else p.block c := by
  have hindex : c.index = b.index ↔ c = b := by cases b; cases c; simp
  simp only [modifyBlock, block, Array.getElem?_modify]
  by_cases hcb : c = b
  · subst hcb
    by_cases hlt : c.index < p.blocks.size
    · simp [hlt]
    · simp [hlt]
  · have hne : b.index ≠ c.index := fun h => hcb (hindex.1 h.symm)
    simp [hcb, hne]

/-! ### Values and blocks -/

/-- A value `x` may be added if, in case it is an instruction, its operands and targets exist and
the targets know of it. -/
theorem Built.addValue (h : p.Built) {x : Value}
    (hoperands : ∀ b op, x = .instruction b op → ∀ w ∈ op.operands, w.index < p.values.size)
    (htargets : ∀ b op, x = .instruction b op → ∀ target ∈ op.targets,
      target.block.index < p.blocks.size ∧ b ∈ (p.block target.block).preds) :
    (Program.addValue x p).2.Built := by
  -- a value that existed is as it was
  have hold : ∀ {w : ValueId}, w.index < p.values.size →
      (Program.addValue x p).2.value w = p.value w := fun hw =>
    (value_push _).trans (if_neg (Nat.ne_of_lt hw))
  -- a value is the new one or one that existed
  have hcases : ∀ {w : ValueId} {y : Value}, (Program.addValue x p).2.value w = y →
      (w.index = p.values.size ∧ x = y) ∨ p.value w = y := by
    intro w y hw
    have hpush := (value_push (p := p) w).symm.trans hw
    split at hpush
    · exact Or.inl ⟨‹_›, hpush⟩
    · exact Or.inr hpush
  have hsize : ∀ {w : ValueId}, w.index < p.values.size →
      w.index < (Program.addValue x p).2.values.size := fun hw => by
    simp only [Program.addValue, Array.size_push]
    omega
  refine ⟨fun hv hw => ?_, fun hv => ?_, h.ascending, fun hv => ?_, fun hv ht => ?_,
    fun hv ht => ?_, h.block_lt, h.arg, h.member_lt, h.listed⟩
  · rcases hcases hv with ⟨hindex, hx⟩ | hv
    · rw [hindex]
      exact hoperands _ _ hx _ hw
    · exact h.operand_lt hv hw
  · obtain ⟨hlt, hop⟩ := h.instruction hv
    exact ⟨hsize hlt, by rwa [hold hlt]⟩
  · obtain ⟨hlt, hty⟩ := h.parameter hv
    exact ⟨hsize hlt, by rwa [hold hlt]⟩
  · rcases hcases hv with ⟨-, hx⟩ | hv
    · exact (htargets _ _ hx _ ht).1
    · exact h.target_lt hv ht
  · rcases hcases hv with ⟨-, hx⟩ | hv
    · exact (htargets _ _ hx _ ht).2
    · exact h.pred hv ht

theorem Built.addConstant (h : p.Built) (x : Constant) : (Program.addConstant x p).2.Built :=
  h.addValue (by simp) (by simp)

/-- The block `b` may be changed if its lists stay in order and nothing gets lost. -/
theorem Built.modifyBlock (h : p.Built) {change : Block → Block}
    (hinstruction : ∀ v ∈ (change (p.block b)).instructions,
      v.index < p.values.size ∧ ∃ op, p.value v = .instruction b op)
    (hascending : (change (p.block b)).instructions.Pairwise fun v w => v.index < w.index)
    (hparameter : ∀ i v, (change (p.block b)).params[i]? = some v →
      v.index < p.values.size ∧ ∃ ty, p.value v = .parameter b i ty)
    (hparams : (p.block b).params ⊆ (change (p.block b)).params)
    (hpreds : (p.block b).preds ⊆ (change (p.block b)).preds) :
    (Program.modifyBlock b change p).2.Built := by
  have hsize : (Program.modifyBlock b change p).2.blocks.size = p.blocks.size :=
    Array.size_modify
  refine ⟨h.operand_lt, fun {c v} hv => ?_, fun c => ?_, fun {c i v} hv => ?_,
    fun hv ht => hsize ▸ h.target_lt hv ht, fun hv ht => ?_,
    fun hf hb => hsize ▸ h.block_lt hf hb, fun hf hx => ?_, h.member_lt, h.listed⟩
  · rw [block_modify] at hv
    split at hv
    · next hc => exact hc.1 ▸ hinstruction v hv
    · exact h.instruction hv
  · rw [block_modify]
    split
    · exact hascending
    · exact h.ascending c
  · rw [block_modify] at hv
    split at hv
    · next hc => exact hc.1 ▸ hparameter i v hv
    · exact h.parameter hv
  · rw [block_modify]
    split
    · next hc => exact hpreds (hc.1 ▸ h.pred hv ht)
    · exact h.pred hv ht
  · rw [block_modify]
    split
    · next hc =>
      have hold := h.arg hf hx
      rw [show (p.function _).entry = b from hc.1] at hold
      exact hparams hold
    · exact h.arg hf hx

/-! ### Sizes -/

/-- The tables of `p` have not become smaller in `p'`. -/
structure Grown (p p' : Program) : Prop where
  /-- The values. -/
  values : p.values.size ≤ p'.values.size
  /-- The blocks. -/
  blocks : p.blocks.size ≤ p'.blocks.size
  /-- The functions. -/
  functions : p.functions.size ≤ p'.functions.size
  /-- The modules. -/
  modules : p.modules.size ≤ p'.modules.size

protected theorem Grown.refl (p : Program) : Grown p p :=
  ⟨Nat.le_refl _, Nat.le_refl _, Nat.le_refl _, Nat.le_refl _⟩

theorem Grown.trans {p₁ p₂ p₃ : Program} (h : Grown p₁ p₂) (h' : Grown p₂ p₃) : Grown p₁ p₃ :=
  ⟨Nat.le_trans h.values h'.values, Nat.le_trans h.blocks h'.blocks,
    Nat.le_trans h.functions h'.functions, Nat.le_trans h.modules h'.modules⟩

theorem grown_addValue (p : Program) (x : Value) : Grown p (addValue x p).2 :=
  ⟨by simp [addValue], Nat.le_refl _, Nat.le_refl _, Nat.le_refl _⟩

theorem grown_modifyBlock (p : Program) (b : BlockId) (change : Block → Block) :
    Grown p (modifyBlock b change p).2 :=
  ⟨Nat.le_refl _, by simp [modifyBlock], Nat.le_refl _, Nat.le_refl _⟩

theorem grown_modifyFunction (p : Program) (f : FunctionId) (change : Function → Function) :
    Grown p (modifyFunction f change p).2 :=
  ⟨Nat.le_refl _, Nat.le_refl _, by simp [modifyFunction], Nat.le_refl _⟩

/-! ### Parameters and instructions -/

/-- A parameter of type `ty` is placed behind those that `b` has. -/
theorem Built.addParameter (h : p.Built) (b : BlockId) (ty : Ty) :
    (Program.addParameter b ty p).2.Built ∧ Grown p (Program.addParameter b ty p).2 ∧
      (Program.addParameter b ty p).1.index < (Program.addParameter b ty p).2.values.size := by
  let x : Value := .parameter b (p.block b).params.length ty
  let q := (Program.addValue x p).2
  let change : Block → Block := fun block =>
    { block with params := block.params ++ [⟨p.values.size⟩] }
  have hq : q.Built := h.addValue (by simp [x]) (by simp [x])
  have hresult : (Program.addParameter b ty p).2 = (Program.modifyBlock b change q).2 := rfl
  have hblock : q.block b = p.block b := rfl
  have hnew : q.value ⟨p.values.size⟩ = x := (value_push _).trans (if_pos rfl)
  have hlt : p.values.size < q.values.size := by simp [q, Program.addValue]
  have hbuilt : (Program.modifyBlock b change q).2.Built := by
    refine hq.modifyBlock (fun v hv => hq.instruction hv) (hq.ascending b) (fun i v hv => ?_)
      (List.subset_append_left _ _) (List.Subset.refl _)
    -- the last place holds the new parameter
    rcases Nat.lt_trichotomy i (q.block b).params.length with hi | hi | hi
    · exact hq.parameter (by rwa [List.getElem?_append_left hi] at hv)
    · have hv' : v = ⟨p.values.size⟩ := by simpa [change, hi] using hv.symm
      subst hv'
      exact ⟨hlt, ty, by rw [hnew, hi, hblock]⟩
    · have hnone : (change (q.block b)).params[i]? = none := by
        rw [List.getElem?_eq_none_iff]
        simp only [change, List.length_append, List.length_singleton]
        omega
      rw [hnone] at hv
      cases hv
  exact ⟨hresult ▸ hbuilt, (grown_addValue p x).trans (grown_modifyBlock q b change), hlt⟩

/-- The block `c` remembers that it is branched to from `b`. -/
theorem Built.addPred (h : p.Built) (c b : BlockId) :
    (Program.addPred c b p).2.Built ∧ Grown p (Program.addPred c b p).2 ∧
      (∀ d, (p.block d).preds ⊆ ((Program.addPred c b p).2.block d).preds) ∧
      (c.index < p.blocks.size → b ∈ ((Program.addPred c b p).2.block c).preds) := by
  let change : Block → Block := fun block =>
    if b ∈ block.preds then block else { block with preds := block.preds ++ [b] }
  have hchange : ∀ x : Block, (change x).instructions = x.instructions ∧
      (change x).params = x.params ∧ x.preds ⊆ (change x).preds ∧ b ∈ (change x).preds := by
    intro x
    simp only [change]
    split
    · next hmem => exact ⟨rfl, rfl, List.Subset.refl _, hmem⟩
    · exact ⟨rfl, rfl, List.subset_append_left _ _, by simp⟩
  obtain ⟨hinstructions, hparams, hpreds, -⟩ := hchange (p.block c)
  refine ⟨h.modifyBlock ?_ ?_ ?_ ?_ hpreds, grown_modifyBlock p c change, fun d => ?_,
    fun hlt => ?_⟩
  · rw [hinstructions]
    exact fun v hv => h.instruction hv
  · rw [hinstructions]
    exact h.ascending c
  · rw [hparams]
    exact fun i v hv => h.parameter hv
  · rw [hparams]
    exact List.Subset.refl _
  · rw [show Program.addPred c b = Program.modifyBlock c change from rfl, block_modify]
    split
    · next hd => rw [hd.1]; exact hpreds
    · exact List.Subset.refl _
  · rw [show Program.addPred c b = Program.modifyBlock c change from rfl, block_modify,
      if_pos ⟨rfl, hlt⟩]
    exact (hchange (p.block c)).2.2.2

/-- All `targets` of a branch remember that it is in `b`. -/
theorem Built.forIn_addPred (b : BlockId) {targets : List Target} : ∀ {p q : Program}, p.Built →
    (do for target in targets do Program.addPred target.block b : StateM Program Unit) p = ((), q) →
    q.Built ∧ Grown p q ∧ (∀ d, (p.block d).preds ⊆ (q.block d).preds) ∧
      ∀ target ∈ targets, target.block.index < p.blocks.size →
        b ∈ (q.block target.block).preds := by
  induction targets with
  | nil =>
    intro p q h hq
    cases hq
    exact ⟨h, .refl p, fun d => List.Subset.refl _, by simp⟩
  | cons target targets ih =>
    intro p q h hq
    rw [List.forIn_cons] at hq
    obtain ⟨hbuilt, hgrown, hkept, hnew⟩ := h.addPred target.block b
    obtain ⟨hbuilt', hgrown', hkept', hnew'⟩ := ih hbuilt hq
    refine ⟨hbuilt', hgrown.trans hgrown', fun d => List.Subset.trans (hkept d) (hkept' d), ?_⟩
    rw [List.forall_mem_cons]
    refine ⟨fun hlt => hkept' _ (hnew hlt), fun x hx hlt => hnew' x hx ?_⟩
    exact Nat.lt_of_lt_of_le hlt hgrown.blocks

/-- An instruction `op` is placed behind those that `b` has. -/
theorem Built.append (h : p.Built) (b : BlockId)
    (hoperands : ∀ w ∈ op.operands, w.index < p.values.size)
    (htargets : ∀ target ∈ op.targets, target.block.index < p.blocks.size) :
    (Program.append b op p).2.Built ∧ Grown p (Program.append b op p).2 ∧
      (Program.append b op p).1.index < (Program.append b op p).2.values.size := by
  let p₁ := ((do for target in op.targets do Program.addPred target.block b :
    StateM Program Unit) p).2
  obtain ⟨h₁, hgrown, -, hpreds⟩ := Built.forIn_addPred b h (q := p₁) rfl
  let q := (Program.addValue (.instruction b op) p₁).2
  let v : ValueId := ⟨p₁.values.size⟩
  let change : Block → Block := fun block =>
    { block with instructions := block.instructions ++ [v] }
  have hresult : Program.append b op p = (v, (Program.modifyBlock b change q).2) := rfl
  -- the targets know of the instruction before it is created
  have hq : q.Built := by
    refine h₁.addValue ?_ ?_
    · rintro _ _ ⟨⟩ w hw
      exact Nat.lt_of_lt_of_le (hoperands w hw) hgrown.values
    · rintro _ _ ⟨⟩ target ht
      exact ⟨Nat.lt_of_lt_of_le (htargets target ht) hgrown.blocks,
        hpreds target ht (htargets target ht)⟩
  have hnew : q.value v = .instruction b op := (value_push _).trans (if_pos rfl)
  have hlt : p₁.values.size < q.values.size := by simp [q, Program.addValue]
  have hbuilt : (Program.modifyBlock b change q).2.Built := by
    refine hq.modifyBlock (fun w hw => ?_) ?_ (fun i w hw => hq.parameter hw)
      (List.Subset.refl _) (List.Subset.refl _)
    · rcases List.mem_append.1 hw with hw | hw
      · exact hq.instruction hw
      · rw [List.mem_singleton.1 hw]
        exact ⟨hlt, op, hnew⟩
    · -- what the block lists was there before the new instruction
      refine List.pairwise_append.2 ⟨hq.ascending b, List.pairwise_singleton _ _, ?_⟩
      intro w hw x hx
      rw [List.mem_singleton.1 hx]
      exact (h₁.instruction hw).1
  rw [hresult]
  exact ⟨hbuilt, hgrown.trans ((grown_addValue p₁ _).trans (grown_modifyBlock q b change)), hlt⟩

/-! ### Functions -/

theorem function_modify (change : Function → Function) (f g : FunctionId) :
    (modifyFunction f change p).2.function g =
      if g = f ∧ f.index < p.functions.size then change (p.function f) else p.function g := by
  have hindex : g.index = f.index ↔ g = f := by cases f; cases g; simp
  simp only [modifyFunction, function, Array.getElem?_modify]
  by_cases hgf : g = f
  · subst hgf
    by_cases hlt : g.index < p.functions.size
    · simp [hlt]
    · simp [hlt]
  · have hne : f.index ≠ g.index := fun h => hgf (hindex.1 h.symm)
    simp [hgf, hne]

/-- The function `f` may be changed if its entry stays and it gets only blocks and arguments that
exist. -/
theorem Built.modifyFunction (h : p.Built) {change : Function → Function}
    (hentry : (change (p.function f)).entry = (p.function f).entry)
    (hothers : f.index < p.functions.size →
      ∀ b ∈ (change (p.function f)).others, b.index < p.blocks.size)
    (hargs : f.index < p.functions.size → ∀ x ∈ (change (p.function f)).args,
      x.2 ∈ (p.block (p.function f).entry).params) :
    (Program.modifyFunction f change p).2.Built := by
  have hsize : (Program.modifyFunction f change p).2.functions.size = p.functions.size :=
    Array.size_modify
  refine ⟨h.operand_lt, h.instruction, h.ascending, h.parameter, h.target_lt, h.pred,
    fun {g b} hg hb => ?_, fun {g x} hg hx => ?_, fun hg => hsize ▸ h.member_lt hg,
    fun hg => h.listed (hsize ▸ hg)⟩
  · rw [hsize] at hg
    rw [function_modify] at hb
    split at hb
    · next hgf =>
      rcases List.mem_cons.1 hb with rfl | hb
      · rw [hentry]
        exact h.block_lt hgf.2 List.mem_cons_self
      · exact hothers hgf.2 b hb
    · exact h.block_lt hg hb
  · rw [hsize] at hg
    rw [function_modify] at hx ⊢
    by_cases hgf : g = f ∧ f.index < p.functions.size
    · rw [if_pos hgf] at hx ⊢
      rw [hentry]
      exact hargs hgf.2 x hx
    · rw [if_neg hgf] at hx ⊢
      exact h.arg hg hx

theorem Built.addModule (h : p.Built) : (Program.addModule p).2.Built where
  operand_lt := h.operand_lt
  instruction := h.instruction
  ascending := h.ascending
  parameter := h.parameter
  target_lt := h.target_lt
  pred := h.pred
  block_lt := h.block_lt
  arg := h.arg
  member_lt {m f} hf := by
    rw [functionsOf, Program.addModule, Array.getElem?_push] at hf
    split at hf
    · simp at hf
    · exact h.member_lt hf
  listed hf := by
    obtain ⟨m, hm⟩ := h.listed hf
    have hlt : m.index < p.modules.size := by
      by_contra hge
      simp [functionsOf, Array.getElem?_eq_none (Nat.not_lt.1 hge)] at hm
    refine ⟨m, ?_⟩
    rwa [functionsOf, Program.addModule, Array.getElem?_push, if_neg (Nat.ne_of_lt hlt)]

/-- An empty block of `f` may be added. -/
theorem Built.pushBlock (h : p.Built) (label : String) (f : FunctionId) :
    ({ p with blocks := p.blocks.push { label, function := f } } : Program).Built := by
  have hsize : ∀ {n}, n < p.blocks.size → n < (p.blocks.push { label, function := f }).size :=
    fun hn => by simp only [Array.size_push]; omega
  have hold : ∀ {c : BlockId}, c.index < p.blocks.size →
      ({ p with blocks := p.blocks.push { label, function := f } } : Program).block c = p.block c :=
    fun hc => (block_push _).trans (if_neg (Nat.ne_of_lt hc))
  refine ⟨h.operand_lt, fun {c v} hv => ?_, fun c => ?_, fun {c i v} hv => ?_,
    fun hv ht => hsize (h.target_lt hv ht), fun hv ht => ?_, fun hf hb => hsize (h.block_lt hf hb),
    fun {g x} hf hx => ?_, h.member_lt, h.listed⟩
  · rw [block_push] at hv
    split at hv
    · simp at hv
    · exact h.instruction hv
  · rw [block_push]
    split
    · exact List.Pairwise.nil
    · exact h.ascending c
  · rw [block_push] at hv
    split at hv
    · simp at hv
    · exact h.parameter hv
  · rw [hold (h.target_lt hv ht)]
    exact h.pred hv ht
  · have hentry : (p.function g).entry.index < p.blocks.size := h.block_lt hf List.mem_cons_self
    have harg : x.2 ∈ (p.block (p.function g).entry).params := h.arg hf hx
    rwa [← hold hentry] at harg

/-- A new block of `f` has no parameters and no instructions. -/
theorem Built.addBlock (h : p.Built) (f : FunctionId) (hint : Option String) :
    (Program.addBlock f hint p).2.Built ∧ Grown p (Program.addBlock f hint p).2 ∧
      (Program.addBlock f hint p).1.index < (Program.addBlock f hint p).2.blocks.size := by
  obtain ⟨label, next, hlabel⟩ : ∃ label next, uniqueLabel f hint p =
      (label, (Program.modifyFunction f (fun fn => { fn with nextLabel := next }) p).2) :=
    ⟨_, _, rfl⟩
  -- first the label, then the block, then its place in the function
  let p₁ := (Program.modifyFunction f (fun fn => { fn with nextLabel := next }) p).2
  let p₂ : Program := { p₁ with blocks := p₁.blocks.push { label, function := f } }
  let b : BlockId := ⟨p₁.blocks.size⟩
  let change : Function → Function := fun fn => { fn with others := fn.others ++ [b] }
  have hresult : Program.addBlock f hint p = (b, (Program.modifyFunction f change p₂).2) := by
    simp only [Program.addBlock, bind, StateT.bind, hlabel]
    rfl
  have h₁ : p₁.Built := h.modifyFunction rfl
    (fun hf c hc => h.block_lt hf (List.mem_cons_of_mem _ hc)) (fun hf x hx => h.arg hf hx)
  have h₂ : p₂.Built := h₁.pushBlock label f
  have hlt : b.index < p₂.blocks.size := by simp [p₂, b]
  have h₃ : (Program.modifyFunction f change p₂).2.Built := by
    refine h₂.modifyFunction rfl (fun hf c hc => ?_) fun hf x hx => h₂.arg hf hx
    rcases List.mem_append.1 hc with hc | hc
    · exact h₂.block_lt hf (List.mem_cons_of_mem _ hc)
    · rwa [List.mem_singleton.1 hc]
  have hgrown : Grown p₁ p₂ := ⟨Nat.le_refl _, by simp [p₂], Nat.le_refl _, Nat.le_refl _⟩
  rw [hresult]
  exact ⟨h₃, (grown_modifyFunction p f _).trans (hgrown.trans (grown_modifyFunction p₂ f change)),
    hlt⟩

/-- Where a new parameter of `b` is found. -/
theorem params_addParameter (b c : BlockId) (ty : Ty) :
    ((addParameter b ty p).2.block c).params =
      if c = b ∧ b.index < p.blocks.size then (p.block b).params ++ [(addParameter b ty p).1]
      else (p.block c).params := by
  rw [show (addParameter b ty p).2 = (modifyBlock b (fun block =>
      { block with params := block.params ++ [(addParameter b ty p).1] })
        (addValue (.parameter b (p.block b).params.length ty) p).2).2 from rfl, block_modify]
  by_cases hc : c = b ∧ b.index < p.blocks.size
  · rw [if_pos hc]
    exact congrArg Block.params (if_pos hc)
  · rw [if_neg hc]
    exact congrArg Block.params (if_neg hc)

/-- The arguments `args` of a function become parameters of its entry `b`. -/
theorem Built.mapM_addParameter (b : BlockId) (args : List (String × Ty)) :
    ∀ {p : Program}, p.Built → b.index < p.blocks.size →
      let r := (args.mapM fun (x : String × Ty) => do
        return (x.1, ← Program.addParameter b x.2) : StateM Program (List (String × ValueId))) p
      r.2.Built ∧ Grown p r.2 ∧ (p.block b).params ⊆ (r.2.block b).params ∧
        (∀ x ∈ r.1, x.2 ∈ (r.2.block b).params) ∧ r.2.functions = p.functions := by
  induction args with
  | nil =>
    intro p h _
    exact ⟨h, .refl p, List.Subset.refl _, fun x hx => absurd hx List.not_mem_nil, rfl⟩
  | cons x args ih =>
    intro p h hb
    obtain ⟨h₁, hgrown, -⟩ := h.addParameter b x.2
    have hb₁ := Nat.lt_of_lt_of_le hb hgrown.blocks
    have hparams := params_addParameter (p := p) b b x.2
    rw [if_pos ⟨rfl, hb⟩] at hparams
    obtain ⟨h₂, hgrown₂, hkept, hmem, hfunctions⟩ := ih h₁ hb₁
    rw [List.mapM_cons]
    refine ⟨h₂, hgrown.trans hgrown₂, fun v hv => hkept ?_, ?_, hfunctions⟩
    · rw [hparams]
      exact List.mem_append_left _ hv
    · intro y hy
      rcases List.mem_cons.1 hy with rfl | hy
      · refine hkept ?_
        rw [hparams]
        exact List.mem_append_right _ (List.mem_singleton_self _)
      · exact hmem y hy

/-- A function `new` may be added and listed, if it has no arguments and its only block is there. -/
theorem Built.pushFunction (h : p.Built) (hm : m.index < p.modules.size) {new : Function}
    (hentry : new.entry.index < p.blocks.size) (hothers : new.others = []) (hargs : new.args = []) :
    ({ p with
      modules := p.modules.modify m.index (· ++ [⟨p.functions.size⟩])
      functions := p.functions.push new } : Program).Built := by
  let f : FunctionId := ⟨p.functions.size⟩
  let q : Program := { p with
    modules := p.modules.modify m.index (· ++ [f])
    functions := p.functions.push new }
  have hsize : q.functions.size = p.functions.size + 1 := Array.size_push _
  have hfunction : ∀ g, q.function g =
      if g.index = p.functions.size then new else p.function g := fun g => function_push (p := q) g
  have hmodule : ∀ m', q.functionsOf m' =
      if m' = m then p.functionsOf m ++ [f] else p.functionsOf m' := functionsOf_modify hm f
  have hold : ∀ {g : FunctionId}, g.index < q.functions.size → g.index ≠ p.functions.size →
      g.index < p.functions.size := by
    intro g hg hne
    omega
  refine ⟨h.operand_lt, h.instruction, h.ascending, h.parameter, h.target_lt, h.pred,
    fun {g b} hg hb => ?_, fun {g x} hg hx => ?_, fun {m' g} hg => ?_, fun {g} hg => ?_⟩
  · rw [hfunction] at hb
    split at hb
    · rw [Function.blocks, hothers, List.mem_singleton] at hb
      exact hb ▸ hentry
    · exact h.block_lt (hold hg ‹_›) hb
  · rw [hfunction] at hx ⊢
    by_cases hnew : g.index = p.functions.size
    · rw [if_pos hnew, hargs] at hx
      cases hx
    · rw [if_neg hnew] at hx ⊢
      exact h.arg (hold hg hnew) hx
  · -- the members of a module are functions
    rw [hmodule] at hg
    rw [hsize]
    split at hg
    · rcases List.mem_append.1 hg with hg | hg
      · exact Nat.lt_succ_of_lt (h.member_lt hg)
      · rw [List.mem_singleton.1 hg]
        exact Nat.lt_succ_self _
    · exact Nat.lt_succ_of_lt (h.member_lt hg)
  · -- every function is listed, the new one in `m`
    by_cases hnew : g.index = p.functions.size
    · refine ⟨m, ?_⟩
      rw [hmodule, if_pos rfl, show g = f by cases g; exact congrArg _ hnew]
      exact List.mem_append_right _ (List.mem_singleton_self _)
    · obtain ⟨m', hm'⟩ := h.listed (hold hg hnew)
      refine ⟨m', ?_⟩
      rw [hmodule]
      split
      · next heq => exact List.mem_append_left _ (heq ▸ hm')
      · exact hm'

/-- A function comes with its entry, whose parameters are its arguments `args`. -/
theorem Built.addFunction (h : p.Built) (hm : m.index < p.modules.size) (path : List String)
    (args : List (String × Ty)) (returnType : Ty) (isDeclaration : Bool) :
    (Program.addFunction m path args returnType isDeclaration p).2.Built ∧
      Grown p (Program.addFunction m path args returnType isDeclaration p).2 ∧
      (Program.addFunction m path args returnType isDeclaration p).1.index <
        (Program.addFunction m path args returnType isDeclaration p).2.functions.size := by
  let f : FunctionId := ⟨p.functions.size⟩
  let entry : BlockId := ⟨p.blocks.size⟩
  let new : Function := { path, returnType, entry, isDeclaration }
  let p₁ : Program := { p with blocks := p.blocks.push { label := "entry", function := f } }
  let p₂ : Program := { p₁ with
    modules := p.modules.modify m.index (· ++ [f])
    functions := p.functions.push new }
  have hlt : entry.index < p₂.blocks.size := by simp [p₂, p₁, entry]
  have h₂ : p₂.Built := (h.pushBlock "entry" f).pushFunction hm hlt rfl rfl
  obtain ⟨h₃, hgrown, -, hmem, hfunctions⟩ := Built.mapM_addParameter entry args h₂ hlt
  have hf₃ : ∀ {q : Program}, q.functions = p₂.functions → q.function f = new := by
    intro q hq
    rw [function, hq]
    exact (function_push (p := p₂) f).trans (if_pos rfl)
  have hgrown₂ : Grown p p₂ := ⟨Nat.le_refl _, by simp [p₂, p₁], by simp [p₂], by simp [p₂]⟩
  refine ⟨h₃.modifyFunction rfl (fun _ b hb => ?_) fun _ x hx => ?_,
    (hgrown₂.trans hgrown).trans (grown_modifyFunction _ f _), ?_⟩
  · rw [hf₃ hfunctions] at hb
    simp [new] at hb
  · rw [hf₃ hfunctions]
    exact hmem x hx
  · have hnew : f.index < p₂.functions.size := by simp [p₂, f]
    exact Nat.lt_of_lt_of_le (Nat.lt_of_lt_of_le hnew hgrown.functions)
      (grown_modifyFunction _ f _).functions

end FlowFacts.Program
