import FlowFacts.Proofs.Program.Built
import FlowFacts.Proofs.Program.Order
import FlowFacts.Proofs.Program.Validate

/-!
# Bodies of functions

What is known of a function of a program that was built and has passed the check.  An
instruction stands in one place only.  A branch leads to another block of the function, never
to the entry, and is known to the block it leads to.  So the blocks that can be reached from
the entry are blocks of the function, and the types of values follow from those of the
operands.

## Main definitions

* `Program.Ordered` — operands are created before the instructions that use them.
* `Program.HasBody` — the function of a checked program with a body.

## Main results

* `HasBody.closed`, `HasBody.mem_blocks_of_reaches` — reachable blocks.
* `Ordered.typeOf_not`, `Ordered.typeOf_binary` — types of results.
* `Built.exists_typeOf_of_fits` — operands have types, except what is returned.
* `HasBody.eq_of_point` — a point is found by its name.
-/

namespace FlowFacts

/-- The operations that have a result. -/
def Operation.hasResult : Operation → Bool
  | .not _ | .binary .. | .call .. | .compare .. => true
  | _ => false

namespace Program

variable {p : Program} {f : FunctionId} {b c : BlockId} {v w : ValueId} {op : Operation}
  {lhs rhs : ValueId}

/-! ### Places of instructions -/

theorem operation?_eq_some_iff : p.operation? v = some op ↔ ∃ b, p.value v = .instruction b op := by
  unfold operation?
  cases p.value v with
  | parameter block i ty => simp
  | constant c => simp
  | instruction block op' => simp

theorem Built.instruction_of_mem (h : p.Built) (hv : v ∈ (p.block b).instructions)
    (hop : p.operation? v = some op) : p.value v = .instruction b op := by
  obtain ⟨-, op', hop'⟩ := h.instruction hv
  obtain ⟨b', hb'⟩ := operation?_eq_some_iff.1 hop
  rw [hop'] at hb'
  cases hb'
  exact hop'

/-- Every instruction `v` of a block has an operation. -/
theorem Built.exists_operation (h : p.Built) (hv : v ∈ (p.block b).instructions) :
    ∃ op, p.operation? v = some op := by
  obtain ⟨-, op, hop⟩ := h.instruction hv
  exact ⟨op, operation?_eq_some_iff.2 ⟨b, hop⟩⟩

/-- An instruction `v` stands in one block. -/
theorem Built.block_unique (h : p.Built) (hb : v ∈ (p.block b).instructions)
    (hc : v ∈ (p.block c).instructions) : b = c := by
  obtain ⟨-, op, hop⟩ := h.instruction hb
  obtain ⟨-, op', hop'⟩ := h.instruction hc
  rw [hop] at hop'
  cases hop'
  rfl

theorem Built.nodup_instructions (h : p.Built) (b : BlockId) :
    (p.block b).instructions.Nodup := by
  refine List.Pairwise.imp ?_ (h.ascending b)
  rintro v w hlt rfl
  exact Nat.lt_irrefl _ hlt

/-- What stands before `v` in a list is found by looking for its first occurrence. -/
theorem takeWhile_ne_of_notMem {l l' : List ValueId} (h : v ∉ l) :
    (l ++ v :: l').takeWhile (· ≠ v) = l := by
  have hall : ∀ w ∈ l, decide (w ≠ v) = true := by
    intro w hw
    refine decide_eq_true ?_
    rintro rfl
    exact h hw
  rw [List.takeWhile_append_of_pos hall, List.takeWhile_cons_of_neg (by simp), List.append_nil]

/-- An instruction `v` stands in one place of its block. -/
theorem Built.before_unique (h : p.Built) {before before' after after' : List ValueId}
    (hb : (p.block b).instructions = before ++ v :: after)
    (hb' : (p.block b).instructions = before' ++ v :: after') : before = before' := by
  have hnodup := h.nodup_instructions b
  have hnot : v ∉ before := by
    rw [hb] at hnodup
    exact fun hv => (List.nodup_append.1 hnodup).2.2 v hv v List.mem_cons_self rfl
  have hnot' : v ∉ before' := by
    rw [hb'] at hnodup
    exact fun hv => (List.nodup_append.1 hnodup).2.2 v hv v List.mem_cons_self rfl
  rw [← takeWhile_ne_of_notMem hnot, ← hb, hb', takeWhile_ne_of_notMem hnot']

/-- The parameters of `b` are different. -/
theorem Built.nodup_params (h : p.Built) (b : BlockId) : (p.block b).params.Nodup := by
  rw [List.nodup_iff_getElem?_ne_getElem?]
  intro i j hij hj heq
  have hi : i < (p.block b).params.length := Nat.lt_trans hij hj
  obtain ⟨-, ty, hty⟩ := h.parameter (List.getElem?_eq_getElem hi)
  obtain ⟨-, ty', hty'⟩ := h.parameter (List.getElem?_eq_getElem hj)
  rw [List.getElem?_eq_getElem hi, List.getElem?_eq_getElem hj, Option.some.injEq] at heq
  rw [heq, hty'] at hty
  cases hty
  exact Nat.lt_irrefl _ hij

theorem Built.parameter_of_mem (h : p.Built) (hv : v ∈ (p.block b).params) :
    ∃ i ty, p.value v = .parameter b i ty := by
  obtain ⟨i, hi⟩ := List.getElem?_of_mem hv
  exact ⟨i, (h.parameter hi).2⟩

theorem constant?_of_operation? (h : p.operation? v = some op) : p.constant? v = none := by
  obtain ⟨b, hb⟩ := operation?_eq_some_iff.1 h
  rw [constant?, hb]

theorem Built.constant?_of_param (h : p.Built) (hv : v ∈ (p.block b).params) :
    p.constant? v = none := by
  obtain ⟨i, ty, hty⟩ := h.parameter_of_mem hv
  rw [constant?, hty]

/-- A parameter `v` is one of one block. -/
theorem Built.param_unique (h : p.Built) (hb : v ∈ (p.block b).params)
    (hc : v ∈ (p.block c).params) : b = c := by
  obtain ⟨i, ty, hparam⟩ := h.parameter_of_mem hb
  obtain ⟨j, ty', hparam'⟩ := h.parameter_of_mem hc
  cases hparam.symm.trans hparam'
  rfl

/-- An instruction `v` is no parameter. -/
theorem Built.not_mem_params (h : p.Built) (hv : v ∈ (p.block b).instructions) :
    v ∉ (p.block c).params := by
  intro hparam
  obtain ⟨i, ty, hparam⟩ := h.parameter_of_mem hparam
  obtain ⟨-, op, hop⟩ := h.instruction hv
  cases hparam.symm.trans hop

/-! ### Types -/

/-- Operands of `p` are created before the instructions that use them. -/
structure Ordered (p : Program) : Prop where
  /-- An operand has a smaller number. -/
  operand_lt : ∀ {v b op w}, p.value v = .instruction b op → w ∈ op.operands → w.index < v.index

theorem Built.ordered (h : p.Built) : p.Ordered := ⟨h.operand_lt⟩

/-- The type of a value, if its operands have the types `types`. -/
def typeBy (p : Program) (types : ValueId → Option Ty) : Value → Option Ty
  | .parameter _ _ ty => some ty
  | .constant c => some c.ty
  | .instruction _ (.not arg) => types arg
  | .instruction _ (.binary _ lhs _) => types lhs
  | .instruction _ (.call callee _) => some (p.function callee).returnType
  | .instruction _ (.compare ..) => some .bool
  | .instruction .. => none

theorem typeWithin_succ (n : Nat) (v : ValueId) :
    p.typeWithin (n + 1) v = p.typeBy (p.typeWithin n) (p.value v) := by
  rw [typeWithin]
  cases p.value v with
  | parameter | constant => rfl
  | instruction b op => cases op <;> rfl

theorem typeOf_of_value {x : Value} (h : p.value v = x) :
    p.typeOf v = p.typeBy (p.typeWithin v.index) x := by
  rw [typeOf, typeWithin_succ, h]

/-- As operands are created before, following them once more than `v` needs changes nothing. -/
theorem Ordered.typeWithin_eq (h : p.Ordered) : ∀ {n : Nat} {v : ValueId}, v.index < n →
    p.typeWithin n v = p.typeOf v := by
  have hstep : ∀ (k n : Nat) (v : ValueId), v.index = k → v.index < n →
      p.typeWithin n v = p.typeOf v := by
    intro k
    induction k using Nat.strongRecOn with
    | _ k ih =>
      intro n v hk hn
      obtain ⟨n, rfl⟩ := Nat.exists_eq_succ_of_ne_zero (Nat.ne_of_gt (Nat.zero_lt_of_lt hn))
      rw [typeOf, typeWithin_succ, typeWithin_succ]
      cases hv : p.value v with
      | parameter | constant => rfl
      | instruction block op =>
        -- both sides ask for the type of an operand, which is smaller
        have hoperand : ∀ w ∈ op.operands, p.typeWithin n w = p.typeWithin v.index w := by
          intro w hw
          have hlt := h.operand_lt hv hw
          rw [ih w.index (hk ▸ hlt) n w rfl (Nat.lt_of_lt_of_le hlt (Nat.le_of_lt_succ hn)),
            ih w.index (hk ▸ hlt) v.index w rfl hlt]
        cases op with
        | not arg => exact hoperand arg (by simp [Operation.operands])
        | binary op lhs rhs => exact hoperand lhs (by simp [Operation.operands])
        | annotate | branch | call | compare | condBranch | nop | ret => rfl
  intro n v hn
  exact hstep v.index n v rfl hn

theorem typeOf_of_parameter {b : BlockId} {i : Nat} {ty : Ty} (h : p.value v = .parameter b i ty) :
    p.typeOf v = some ty := typeOf_of_value h

theorem typeOf_of_constant {x : Constant} (h : p.value v = .constant x) : p.typeOf v = some x.ty :=
  typeOf_of_value h

theorem value_of_constant? {c : Constant} (h : p.constant? v = some c) :
    p.value v = .constant c := by
  unfold constant? at h
  split at h
  · next c' hc =>
    rw [hc]
    exact congrArg Value.constant (Option.some.inj h)
  · cases h

theorem typeOf_of_constant? {c : Constant} (h : p.constant? v = some c) :
    p.typeOf v = some c.ty :=
  typeOf_of_constant (value_of_constant? h)

theorem Ordered.typeOf_not (h : p.Ordered) {arg : ValueId}
    (hop : p.operation? v = some (.not arg)) : p.typeOf v = p.typeOf arg := by
  obtain ⟨b, hb⟩ := operation?_eq_some_iff.1 hop
  exact (typeOf_of_value hb).trans (h.typeWithin_eq (h.operand_lt hb List.mem_cons_self))

theorem Built.typeOf_not (h : p.Built) {arg : ValueId} (hop : p.operation? v = some (.not arg)) :
    p.typeOf v = p.typeOf arg := h.ordered.typeOf_not hop

theorem Ordered.typeOf_binary (h : p.Ordered) {op : BinaryOp}
    (hop : p.operation? v = some (.binary op lhs rhs)) : p.typeOf v = p.typeOf lhs := by
  obtain ⟨b, hb⟩ := operation?_eq_some_iff.1 hop
  exact (typeOf_of_value hb).trans (h.typeWithin_eq (h.operand_lt hb List.mem_cons_self))

theorem Built.typeOf_binary (h : p.Built) {op : BinaryOp}
    (hop : p.operation? v = some (.binary op lhs rhs)) : p.typeOf v = p.typeOf lhs :=
  h.ordered.typeOf_binary hop

theorem typeOf_compare {predicate : Comparison}
    (hop : p.operation? v = some (.compare predicate lhs rhs)) : p.typeOf v = some .bool := by
  obtain ⟨b, hb⟩ := operation?_eq_some_iff.1 hop
  exact typeOf_of_value hb

/-- An instruction `v` without a result has no type. -/
theorem typeOf_eq_none (hop : p.operation? v = some op) (hresult : op.hasResult = false) :
    p.typeOf v = none := by
  obtain ⟨b, hb⟩ := operation?_eq_some_iff.1 hop
  rw [typeOf_of_value hb]
  cases op with
  | annotate | branch | condBranch | nop | ret => rfl
  | not | binary | call | compare => cases hresult

theorem typeOf_call {callee : FunctionId} {args : List ValueId}
    (hop : p.operation? v = some (.call callee args)) :
    p.typeOf v = some (p.function callee).returnType := by
  obtain ⟨b, hb⟩ := operation?_eq_some_iff.1 hop
  exact typeOf_of_value hb

/-! ### Types of operands -/

theorem Built.exists_typeOf_param (h : p.Built) (hv : v ∈ (p.block b).params) :
    ∃ ty, p.typeOf v = some ty := by
  obtain ⟨i, ty, hparam⟩ := h.parameter_of_mem hv
  exact ⟨ty, typeOf_of_parameter hparam⟩

/-- If `vs` are passed for `ws`, with the same types, and each of `ws` has a type, then each of
`vs` has one. -/
theorem exists_typeOf_of_map_eq {vs ws : List ValueId} (h : vs.map p.typeOf = ws.map p.typeOf)
    (hws : ∀ w ∈ ws, ∃ ty, p.typeOf w = some ty) : ∀ v ∈ vs, ∃ ty, p.typeOf v = some ty := by
  intro v hv
  have hmem : p.typeOf v ∈ ws.map p.typeOf := h ▸ List.mem_map_of_mem hv
  obtain ⟨w, hw, hwv⟩ := List.mem_map.1 hmem
  exact hwv ▸ hws w hw

/-- The arguments of the function `g` are parameters of its entry, so they have types. -/
theorem Built.exists_typeOf_arg (h : p.Built) (g : FunctionId) :
    ∀ w ∈ (p.function g).args.map Prod.snd, ∃ ty, p.typeOf w = some ty := by
  intro w hw
  by_cases hg : g.index < p.functions.size
  · obtain ⟨x, hx, rfl⟩ := List.mem_map.1 hw
    exact h.exists_typeOf_param (h.arg hg hx)
  · rw [function, Array.getElem?_eq_none (Nat.not_lt.1 hg)] at hw
    cases hw

/-- The operands of an instruction `op` that follows its rule have types, unless `op` is a
return. -/
theorem Built.exists_typeOf_of_fits (h : p.Built) {fn : Function} (hfits : p.Fits fn op)
    (hret : ∀ value ty, op ≠ .ret value ty) : ∀ w ∈ op.operands, ∃ ty, p.typeOf w = some ty := by
  have htarget : ∀ target, p.FitsTarget fn target → ∀ w ∈ target.args, ∃ ty, p.typeOf w = some ty :=
    fun target ht => exists_typeOf_of_map_eq ht.2 fun w hw => h.exists_typeOf_param hw
  cases op with
  | annotate | nop => exact fun w hw => absurd hw List.not_mem_nil
  | not arg =>
    intro w hw
    cases List.mem_singleton.1 hw
    exact ⟨_, hfits⟩
  | binary op lhs rhs => exact fun w hw => ⟨_, hfits w hw⟩
  | branch target => exact htarget target hfits
  | call callee args =>
    refine exists_typeOf_of_map_eq ?_ (h.exists_typeOf_arg callee)
    rw [List.map_map]
    exact hfits
  | compare predicate lhs rhs =>
    obtain ⟨ty, hl, hr, -⟩ := hfits
    simp only [Operation.operands, List.forall_mem_cons]
    exact ⟨⟨ty, hl⟩, ⟨ty, hr⟩, fun w hw => absurd hw List.not_mem_nil⟩
  | condBranch cond whenTrue whenFalse =>
    obtain ⟨hcond, htrue, hfalse⟩ := hfits
    simp only [Operation.operands, List.forall_mem_cons, List.forall_mem_append]
    exact ⟨⟨.bool, beq_iff_eq.1 hcond⟩, htarget _ htrue, htarget _ hfalse⟩
  | ret value ty => exact absurd rfl (hret value ty)

/-! ### Checked functions -/

/-- The function `f` of a program `p` that was built and has passed the check, with its body. -/
structure HasBody (p : Program) (f : FunctionId) : Prop where
  /-- The program was built. -/
  built : p.Built
  /-- The function is one of the program. -/
  index_lt : f.index < p.functions.size
  /-- Its body has passed the check. -/
  valid : p.ValidBody (p.function f)

/-- The terminator of `b` is one of its instructions. -/
theorem terminator?_eq_some (h : p.terminator? b = some op) :
    ∃ v ∈ (p.block b).instructions, p.operation? v = some op ∧ op.isTerminator = true := by
  unfold terminator? at h
  split at h
  · cases h
  · next v hv =>
    obtain ⟨hop, hterm⟩ := Option.filter_eq_some_iff.1 h
    exact ⟨v, List.mem_of_getLast? hv, hop, hterm⟩

theorem mem_successors_iff {target : Target} : target ∈ p.successors b ↔
    ∃ op, p.terminator? b = some op ∧ target ∈ op.targets := by
  unfold successors
  cases p.terminator? b <;> simp

/-- An edge from `b` to `c` comes from a terminator of `b`. -/
theorem Built.instruction_of_edge (h : p.Built) (hedge : p.Edge b c) :
    ∃ v op target, v ∈ (p.block b).instructions ∧ p.value v = .instruction b op ∧
      target ∈ op.targets ∧ target.block = c := by
  obtain ⟨target, htarget, hc⟩ := hedge
  obtain ⟨op, hterm, hmem⟩ := mem_successors_iff.1 htarget
  obtain ⟨v, hv, hop, -⟩ := terminator?_eq_some hterm
  exact ⟨v, op, target, hv, h.instruction_of_mem hv hop, hmem, hc⟩

theorem Built.mem_preds_of_edge (h : p.Built) (hedge : p.Edge b c) : b ∈ (p.block c).preds := by
  obtain ⟨v, op, target, -, hv, htarget, rfl⟩ := h.instruction_of_edge hedge
  exact h.pred hv htarget

/-- If no result of `g` stands twice, members with the same result are equal. -/
theorem eq_of_filterMap_nodup {α β : Type} {g : α → Option β} {l : List α}
    (h : (l.filterMap g).Nodup) {x x' : α} {y : β} (hx : x ∈ l) (hx' : x' ∈ l)
    (hy : g x = some y) (hy' : g x' = some y) : x = x' := by
  induction l with
  | nil => cases hx
  | cons a l ih =>
    have hsub : (l.filterMap g).Nodup :=
      ((List.sublist_cons_self a l).filterMap g).nodup h
    -- the head's result does not stand in the rest
    have hhead : ∀ {z}, z ∈ l → g z = some y → g a ≠ some y := by
      intro z hz hgz hga
      rw [List.filterMap_cons_some hga, List.nodup_cons] at h
      exact h.1 (List.mem_filterMap.2 ⟨z, hz, hgz⟩)
    rcases List.mem_cons.1 hx with rfl | hxl
    · rcases List.mem_cons.1 hx' with rfl | hxl'
      · rfl
      · exact absurd hy (hhead hxl' hy')
    · rcases List.mem_cons.1 hx' with rfl | hxl'
      · exact absurd hy' (hhead hxl hy)
      · exact ih hsub hxl hxl'

namespace HasBody

variable (h : p.HasBody f)

include h

theorem closed : p.Closed f where
  entry := h.built.block_lt h.index_lt List.mem_cons_self
  edges hedge := by
    obtain ⟨v, op, target, -, hv, htarget, rfl⟩ := h.built.instruction_of_edge hedge
    exact h.built.target_lt hv htarget

/-- No edge leads to the entry of `f`. -/
theorem not_edge_entry : ¬ p.Edge b (p.function f).entry := by
  intro hedge
  have hpred := h.built.mem_preds_of_edge hedge
  rw [h.valid.entry] at hpred
  cases hpred

/-- The instructions of the blocks of `f` follow their rules. -/
theorem fits (hb : b ∈ (p.function f).blocks) (hv : v ∈ (p.block b).instructions)
    (hop : p.operation? v = some op) : p.Fits (p.function f) op :=
  (h.valid.blocks b hb).fits v hv op hop

theorem fitsTarget (hb : b ∈ (p.function f).blocks) {target : Target}
    (htarget : target ∈ p.successors b) : p.FitsTarget (p.function f) target := by
  obtain ⟨op, hterm, hmem⟩ := mem_successors_iff.1 htarget
  obtain ⟨v, hv, hop, -⟩ := terminator?_eq_some hterm
  have hfits := h.fits hb hv hop
  cases op with
  | branch target' =>
    rw [Operation.targets, List.mem_singleton] at hmem
    exact hmem ▸ hfits
  | condBranch cond whenTrue whenFalse =>
    simp only [Operation.targets, List.mem_cons, List.not_mem_nil, or_false] at hmem
    rcases hmem with rfl | rfl
    · exact hfits.2.1
    · exact hfits.2.2
  | annotate | not | binary | call | compare | nop | ret => simp [Operation.targets] at hmem

/-- The condition `cond` of a branch is a truth value. -/
theorem isBool_of_condBranch (hb : b ∈ (p.function f).blocks) {cond : ValueId}
    {whenTrue whenFalse : Target}
    (hterm : p.terminator? b = some (.condBranch cond whenTrue whenFalse)) :
    p.isBool cond = true := by
  obtain ⟨v, hv, hop, -⟩ := terminator?_eq_some hterm
  exact (h.fits hb hv hop).1

theorem mem_blocks_of_edge (hb : b ∈ (p.function f).blocks) (hedge : p.Edge b c) :
    c ∈ (p.function f).blocks := by
  obtain ⟨target, htarget, rfl⟩ := hedge
  exact (h.fitsTarget hb htarget).1

/-- The blocks `b` that can be reached are blocks of the function. -/
theorem mem_blocks_of_reaches (hb : p.Reaches (p.function f).entry b) :
    b ∈ (p.function f).blocks := by
  induction hb with
  | refl => exact List.mem_cons_self
  | tail _ hedge ih => exact h.mem_blocks_of_edge ih hedge

/-- The last instruction of `b` is its terminator. -/
theorem exists_last (hb : b ∈ (p.function f).blocks) :
    ∃ before last op, (p.block b).instructions = before ++ [last] ∧
      p.operation? last = some op ∧ op.isTerminator = true ∧ p.terminator? b = some op ∧
      ∀ w ∈ before, p.isTerminator w = false := by
  obtain ⟨before, last, hlist, hlast, hbefore⟩ := (h.valid.blocks b hb).ends
  obtain ⟨op, hop⟩ : ∃ op, p.operation? last = some op :=
    h.built.exists_operation (b := b) (by simp [hlist])
  have hterm : op.isTerminator = true := by simpa [isTerminator, hop] using hlast
  refine ⟨before, last, op, hlist, hop, hterm, ?_, hbefore⟩
  simp [terminator?, hlist, hop, hterm]

/-- A point is found by its `name`. -/
theorem eq_of_point {name : String} (hb : b ∈ (p.function f).blocks)
    (hc : c ∈ (p.function f).blocks) (hv : v ∈ (p.block b).instructions)
    (hw : w ∈ (p.block c).instructions) (hopv : p.operation? v = some (.annotate name))
    (hopw : p.operation? w = some (.annotate name)) : v = w := by
  have hmem : ∀ {b v}, b ∈ (p.function f).blocks → v ∈ (p.block b).instructions →
      v ∈ p.instructionsOf (p.function f).blocks := fun hb hv =>
    List.mem_flatMap.2 ⟨_, hb, hv⟩
  refine eq_of_filterMap_nodup h.valid.points (hmem hb hv) (hmem hc hw) (y := name) ?_ ?_
  · simp [hopv, Operation.point?]
  · simp [hopw, Operation.point?]

end HasBody

end Program

end FlowFacts
