import FlowFacts.Proofs.Program.Typing

/-!
# A function at two places

The same function may stand in two programs.  What stands before it decides which numbers its
values, blocks and callees have, so these differ by a relocation: values are moved by some
amount, and blocks and callees have other names.  Everything else is the same, and so are the
types of the values and the order in which the blocks are visited.

A walk takes at most as many steps on a path as its program has blocks.  The two programs may
have different numbers of blocks, but both are enough for the blocks of the function, and more
steps than that change nothing.

## Main definitions

* `Relocation` — other numbers for values, other names for blocks and callees.
* `Program.Relocates` — a function at two places.

## Main results

* `Relocates.typeOf_eq` — values have the types they had.
* `walk_eq_of_enough` — more steps than enough change nothing.
* `Relocates.reversePostOrder_eq` — the blocks stand in the same order.
-/

namespace FlowFacts

variable {k : Nat}

/-! ### Other numbers and names -/

/-- The value with a number that is larger by `k` than that of `v`. -/
def ValueId.shift (k : Nat) (v : ValueId) : ValueId := ⟨v.index + k⟩

@[simp] theorem ValueId.index_shift (v : ValueId) : (v.shift k).index = v.index + k := rfl

theorem ValueId.shift_injective : Function.Injective (ValueId.shift k) := by
  rintro ⟨v⟩ ⟨w⟩ h
  simpa [ValueId.shift] using h

@[simp] theorem ValueId.shift_inj {v w : ValueId} : v.shift k = w.shift k ↔ v = w :=
  ValueId.shift_injective.eq_iff

@[simp] theorem ValueId.shift_zero : ValueId.shift 0 = id := rfl

/-- Other numbers for values, other names for blocks and callees. -/
structure Relocation where
  /-- By how much the numbers of values grow. -/
  values : Nat
  /-- The blocks. -/
  block : BlockId → BlockId
  /-- Different blocks stay different. -/
  injective : Function.Injective block
  /-- The callees. -/
  callee : FunctionId → FunctionId

variable {r : Relocation}

/-- The `target` at another place. -/
def Target.relocate (r : Relocation) (target : Target) : Target :=
  { block := r.block target.block, args := target.args.map (ValueId.shift r.values) }

/-- An operation at the place that `r` gives it. -/
def Operation.relocate (r : Relocation) : Operation → Operation
  | .annotate name => .annotate name
  | .not arg => .not (arg.shift r.values)
  | .binary op lhs rhs => .binary op (lhs.shift r.values) (rhs.shift r.values)
  | .branch target => .branch (target.relocate r)
  | .call callee args => .call (r.callee callee) (args.map (ValueId.shift r.values))
  | .compare predicate lhs rhs =>
      .compare predicate (lhs.shift r.values) (rhs.shift r.values)
  | .condBranch cond whenTrue whenFalse =>
      .condBranch (cond.shift r.values) (whenTrue.relocate r) (whenFalse.relocate r)
  | .nop => .nop
  | .ret value ty => .ret (value.shift r.values) ty

/-- A value at the place that `r` gives it. -/
def Value.relocate (r : Relocation) : Value → Value
  | .parameter b i ty => .parameter (r.block b) i ty
  | .constant c => .constant c
  | .instruction b op => .instruction (r.block b) (op.relocate r)

@[simp] theorem Operation.isTerminator_relocate (op : Operation) :
    (op.relocate r).isTerminator = op.isTerminator := by
  cases op <;> rfl

@[simp] theorem Operation.hasResult_relocate (op : Operation) :
    (op.relocate r).hasResult = op.hasResult := by
  cases op <;> rfl

@[simp] theorem Operation.targets_relocate (op : Operation) :
    (op.relocate r).targets = op.targets.map (Target.relocate r) := by
  cases op <;> rfl

namespace Program

variable {p q : Program} {f g : FunctionId} {S : ValueId → Prop} {b c : BlockId}
  {v w : ValueId} {op : Operation} {bs : List BlockId}

/-- A function at two places, `f` of `p` and `g` of `q`.  Its values, including the constants
that it uses, are those in `S`. -/
structure Relocates (p q : Program) (r : Relocation) (f g : FunctionId) (S : ValueId → Prop) :
    Prop where
  /-- It has passed the check at the first place. -/
  body : p.HasBody f
  /-- So it has at the second. -/
  body' : q.HasBody g
  /-- The names are the same. -/
  path : (q.function g).path = (p.function f).path
  /-- The arguments are the same. -/
  args : (q.function g).args = (p.function f).args.map fun x => (x.1, x.2.shift r.values)
  /-- Both are declarations, or none is. -/
  declaration : (q.function g).isDeclaration = (p.function f).isDeclaration
  /-- The blocks are the same. -/
  blocks : (q.function g).blocks = (p.function f).blocks.map r.block
  /-- They are different. -/
  nodup : (p.function f).blocks.Nodup
  /-- They have the same labels. -/
  label : ∀ b ∈ (p.function f).blocks, (q.block (r.block b)).label = (p.block b).label
  /-- They have the same parameters. -/
  params : ∀ b ∈ (p.function f).blocks,
    (q.block (r.block b)).params = (p.block b).params.map (ValueId.shift r.values)
  /-- They have the same instructions. -/
  instructions : ∀ b ∈ (p.function f).blocks,
    (q.block (r.block b)).instructions = (p.block b).instructions.map (ValueId.shift r.values)
  /-- They are branched to from the same blocks. -/
  preds : ∀ b ∈ (p.function f).blocks, ∀ c ∈ (p.function f).blocks,
    r.block c ∈ (q.block (r.block b)).preds ↔ c ∈ (p.block b).preds
  /-- The values are the same. -/
  value : ∀ v, S v → q.value (v.shift r.values) = (p.value v).relocate r
  /-- Callees have the same names, numbers of arguments and types of results. -/
  callee : ∀ v, S v → ∀ callee args, p.operation? v = some (.call callee args) →
    (q.function (r.callee callee)).path = (p.function callee).path ∧
    (q.function (r.callee callee)).arity = (p.function callee).arity ∧
    (q.function (r.callee callee)).returnType = (p.function callee).returnType
  /-- Parameters are values of the function. -/
  param_mem : ∀ b ∈ (p.function f).blocks, ∀ v ∈ (p.block b).params, S v
  /-- So are instructions. -/
  instruction_mem : ∀ b ∈ (p.function f).blocks, ∀ v ∈ (p.block b).instructions, S v
  /-- So are the operands of instructions. -/
  operand_mem : ∀ v, S v → ∀ op, p.operation? v = some op → ∀ w ∈ op.operands, S w

namespace Relocates

variable (h : p.Relocates q r f g S)

include h

theorem operation?_eq (hv : S v) :
    q.operation? (v.shift r.values) = (p.operation? v).map (Operation.relocate r) := by
  rw [operation?, operation?, h.value v hv]
  cases p.value v <;> rfl

theorem constant?_eq (hv : S v) : q.constant? (v.shift r.values) = p.constant? v := by
  rw [constant?, constant?, h.value v hv]
  cases p.value v <;> rfl

/-- A value `v` has the type it had. -/
theorem typeOf_eq (hv : S v) : q.typeOf (v.shift r.values) = p.typeOf v := by
  have hop' : ∀ {v op}, S v → p.operation? v = some op →
      q.operation? (v.shift r.values) = some (op.relocate r) := fun hv hop => by
    rw [h.operation?_eq hv, hop, Option.map_some]
  -- the search for the type goes through the same operands
  have hfinds := h.body.built.ordered.findsType_typeOf v
  generalize p.typeOf v = ty at hfinds ⊢
  induction hfinds with
  | parameter hvalue => exact typeOf_of_parameter ((h.value _ hv).trans (congrArg _ hvalue))
  | constant hvalue => exact typeOf_of_constant ((h.value _ hv).trans (congrArg _ hvalue))
  | not hop _ ih =>
    rw [h.body'.built.typeOf_not (hop' hv hop)]
    exact ih (h.operand_mem _ hv _ hop _ List.mem_cons_self)
  | binary hop _ ih =>
    rw [h.body'.built.typeOf_binary (hop' hv hop)]
    exact ih (h.operand_mem _ hv _ hop _ List.mem_cons_self)
  | call hop => rw [typeOf_call (hop' hv hop), (h.callee _ hv _ _ hop).2.2]
  | compare hop => exact typeOf_compare (hop' hv hop)
  | other hop hresult => exact typeOf_eq_none (hop' hv hop) (by rwa [Operation.hasResult_relocate])

theorem isBool_eq (hv : S v) : q.isBool (v.shift r.values) = p.isBool v := by
  rw [isBool, isBool, h.typeOf_eq hv]

/-! ### The order of the blocks -/

theorem terminator?_eq (hb : b ∈ (p.function f).blocks) :
    q.terminator? (r.block b) = (p.terminator? b).map (Operation.relocate r) := by
  rw [terminator?, terminator?, h.instructions b hb, List.getLast?_map]
  cases hlast : (p.block b).instructions.getLast? with
  | none => rfl
  | some v =>
    have hv := h.instruction_mem b hb v (List.mem_of_getLast? hlast)
    dsimp only [Option.map_some]
    rw [h.operation?_eq hv, Option.filter_map]
    simp only [Function.comp_def, Operation.isTerminator_relocate]

theorem successors_eq (hb : b ∈ (p.function f).blocks) :
    q.successors (r.block b) = (p.successors b).map (Target.relocate r) := by
  rw [successors, successors, h.terminator?_eq hb]
  cases p.terminator? b with
  | none => rfl
  | some op => exact op.targets_relocate

end Relocates

/-- The walk `w` at another place. -/
def Walk.relocate (r : Relocation) (w : Walk) : Walk where
  seen := w.seen.map r.block
  finished := w.finished.map r.block
  numbers := w.numbers.map fun x => (r.block x.1, x.2)
  next := w.next

/-- A walk through the blocks of a function goes the same way at both places. -/
theorem Relocates.walk_eq (h : p.Relocates q r f g S) : ∀ {n : Nat} {b : BlockId} {w : Walk},
    b ∈ (p.function f).blocks →
      q.walk n (r.block b) (w.relocate r) = (p.walk n b w).relocate r := by
  intro n
  induction n with
  | zero => exact fun _ => rfl
  | succ n ih =>
    intro b w hb
    -- different blocks stay different, so a block has been met at both places or at none
    have hseen : r.block b ∈ (w.relocate r).seen ↔ b ∈ w.seen :=
      List.mem_map_of_injective r.injective
    rw [walk, walk, h.successors_eq hb]
    by_cases hmem : b ∈ w.seen
    · rw [if_pos hmem, if_pos (hseen.2 hmem)]
    · rw [if_neg hmem, if_neg (mt hseen.1 hmem)]
      -- all targets, one after another
      have hall : ∀ (targets : List Target) (w : Walk),
          (∀ target ∈ targets, target.block ∈ (p.function f).blocks) →
          (targets.map (Target.relocate r)).foldl (fun w target => q.walk n target.block w)
              (w.relocate r) =
            (targets.foldl (fun w target => p.walk n target.block w) w).relocate r := by
        intro targets
        induction targets with
        | nil => exact fun _ _ => rfl
        | cons target targets ihtargets =>
          intro w htargets
          rw [List.forall_mem_cons] at htargets
          rw [List.map_cons, List.foldl_cons, List.foldl_cons]
          have hfirst : q.walk n (target.relocate r).block (w.relocate r) =
              (p.walk n target.block w).relocate r := ih htargets.1
          rw [hfirst]
          exact ihtargets _ htargets.2
      have hfold := hall (p.successors b) { w with seen := b :: w.seen } fun target htarget =>
        h.body.mem_blocks_of_edge hb ⟨target, htarget, rfl⟩
      exact congrArg (Walk.leave · (r.block b)) hfold

/-! ### More steps than enough -/

/-- How many blocks of `bs` the walk `w` has not met. -/
def Walk.left (bs : List BlockId) (w : Walk) : Nat := (bs.filter (· ∉ w.seen)).length

theorem Walk.left_le_of_subset {w w' : Walk} (h : w.seen ⊆ w'.seen) : w'.left bs ≤ w.left bs := by
  refine List.Sublist.length_le (List.monotone_filter_right bs fun c hc => ?_)
  simp only [decide_eq_true_eq] at hc ⊢
  exact fun hmem => hc (h hmem)

/-- There is one block fewer left when `b` is met. -/
theorem Walk.left_visit {w : Walk} (hb : b ∈ bs) (hnew : b ∉ w.seen) :
    Walk.left bs { w with seen := b :: w.seen } < w.left bs := by
  have hsub : (bs.filter (· ∉ b :: w.seen)).Sublist (bs.filter (· ∉ w.seen)) := by
    refine List.monotone_filter_right bs fun c hc => ?_
    simp only [decide_eq_true_eq] at hc ⊢
    exact fun hmem => hc (List.mem_cons_of_mem b hmem)
  refine Nat.lt_of_le_of_ne hsub.length_le fun heq => ?_
  have hmem : b ∈ bs.filter (· ∉ w.seen) := List.mem_filter.2 ⟨hb, by simpa using hnew⟩
  rw [← hsub.eq_of_length heq] at hmem
  simpa using (List.mem_filter.1 hmem).2

theorem subset_seen_walk : ∀ {n : Nat} {b : BlockId} {w : Walk}, w.seen ⊆ (p.walk n b w).seen := by
  intro n
  induction n with
  | zero => exact fun {b w} => List.Subset.refl _
  | succ n ih =>
    intro b w
    rw [walk]
    split
    · exact List.Subset.refl _
    · -- the block is met, and what was met before the targets stays met
      have hall : ∀ (targets : List Target) (w : Walk),
          w.seen ⊆ (targets.foldl (fun w target => p.walk n target.block w) w).seen := by
        intro targets
        induction targets with
        | nil => exact fun w => List.Subset.refl _
        | cons target targets ihtargets =>
          exact fun w => List.Subset.trans ih (ihtargets _)
      exact List.Subset.trans (List.subset_cons_self b w.seen)
        (hall (p.successors b) { w with seen := b :: w.seen })

/-- In blocks `bs` that no edge leads out of, more steps than there are blocks left change
nothing. -/
theorem walk_eq_of_enough (hclosed : ∀ b ∈ bs, ∀ c, p.Edge b c → c ∈ bs) :
    ∀ {n m : Nat} {b : BlockId} {w : Walk}, b ∈ bs → w.left bs ≤ n → w.left bs ≤ m →
      p.walk n b w = p.walk m b w := by
  have hmet : ∀ {b : BlockId} {w : Walk}, b ∈ bs → w.left bs = 0 → b ∈ w.seen := by
    intro b w hb hleft
    by_contra hnew
    have := w.left_visit hb hnew
    omega
  have hstop : ∀ {m : Nat} {b : BlockId} {w : Walk}, b ∈ w.seen → p.walk m b w = w := by
    intro m b w hseen
    cases m with
    | zero => rfl
    | succ m => rw [walk, if_pos hseen]
  intro n
  induction n with
  | zero =>
    intro m b w hb hn _
    have hseen := hmet hb (Nat.le_zero.1 hn)
    rw [hstop hseen, hstop hseen]
  | succ n ih =>
    intro m b w hb hn hm
    by_cases hseen : b ∈ w.seen
    · rw [hstop hseen, hstop hseen]
    · have hvisit := w.left_visit hb hseen
      obtain ⟨m, rfl⟩ := Nat.exists_eq_succ_of_ne_zero (Nat.ne_of_gt (Nat.zero_lt_of_lt
        (Nat.lt_of_lt_of_le hvisit hm)))
      -- there are fewer blocks left for the targets
      have hall : ∀ (targets : List Target) (w : Walk), (∀ target ∈ targets, target.block ∈ bs) →
          w.left bs ≤ n → w.left bs ≤ m →
          targets.foldl (fun w target => p.walk n target.block w) w =
            targets.foldl (fun w target => p.walk m target.block w) w := by
        intro targets
        induction targets with
        | nil => exact fun _ _ _ _ => rfl
        | cons target targets ihtargets =>
          intro w htargets hn hm
          rw [List.forall_mem_cons] at htargets
          rw [List.foldl_cons, List.foldl_cons, ih htargets.1 hn hm]
          have hless : (p.walk m target.block w).left bs ≤ w.left bs :=
            Walk.left_le_of_subset subset_seen_walk
          exact ihtargets _ htargets.2 (Nat.le_trans hless hn) (Nat.le_trans hless hm)
      rw [walk, walk, if_neg hseen, if_neg hseen,
        hall (p.successors b) { w with seen := b :: w.seen }
          (fun target htarget => hclosed b hb _ ⟨target, htarget, rfl⟩) (by omega) (by omega)]

/-- There are no more different blocks of `f` than blocks of the program. -/
theorem HasBody.length_blocks_le (h : p.HasBody f) (hnodup : (p.function f).blocks.Nodup) :
    (p.function f).blocks.length ≤ p.blocks.size := by
  have hsub : (p.function f).blocks.Subperm ((List.range p.blocks.size).map BlockId.mk) := by
    refine hnodup.subperm fun c hc => List.mem_map.2 ⟨c.index, ?_, rfl⟩
    exact List.mem_range.2 (h.built.block_lt h.index_lt hc)
  simpa using hsub.length_le

/-- The blocks of `g` stand in the order in which those of `f` do. -/
theorem Relocates.reversePostOrder_eq (h : p.Relocates q r f g S) :
    q.reversePostOrder g = (p.reversePostOrder f).map r.block := by
  have hentry : (q.function g).entry = r.block (p.function f).entry :=
    Option.some.inj (congrArg List.head? h.blocks)
  have hleft : Walk.left (p.function f).blocks {} = (p.function f).blocks.length := by
    simp [Walk.left]
  -- both programs have enough blocks for those of the function
  have hle := h.body.length_blocks_le h.nodup
  have hle' : (p.function f).blocks.length ≤ q.blocks.size := by
    have hnodup' : (q.function g).blocks.Nodup := h.blocks ▸ h.nodup.map r.injective
    have hlength := h.body'.length_blocks_le hnodup'
    rwa [h.blocks, List.length_map] at hlength
  have hwalk : p.walk q.blocks.size (p.function f).entry {} =
      p.walk p.blocks.size (p.function f).entry {} :=
    walk_eq_of_enough (fun b hb c hedge => h.body.mem_blocks_of_edge hb hedge)
      List.mem_cons_self (hleft ▸ hle') (hleft ▸ hle)
  -- so one number of steps will do for both walks
  rw [reversePostOrder_eq_finished, reversePostOrder_eq_finished, hentry, ← hwalk]
  have hsame := h.walk_eq (n := q.blocks.size) (w := {}) (List.mem_cons_self (a :=
    (p.function f).entry) (l := (p.function f).others))
  exact congrArg Walk.finished hsame

end Program

end FlowFacts
